import Xv6pp.Proc.ArgumentBlock

/-!
# The image that `exec` installs

What a program finds in its memory when `exec` has succeeded.  An `Image` is what the user is meant
to see: a size, a byte for each address and the permissions of each page.  `imageOf ip` is the image
that the program headers of a file describe: each loadable segment extends the image up to its end
with zeros, under the segment's own permissions, and the bytes of the file (`segmentBytes_ofBytes`)
are placed over it at the segment's address (`Image.add`).  A segment may overlap what is there
already: its bytes win, but the pages keep the permissions that they were mapped with.

`Shown s r im` says that the user sees the image through the page table `r`.  `alloc` extends an
image, the loop of `loadseg` places bytes in it, and building the stack changes nothing of it, so the
fold over the program headers is what the user finds in the end; `exec_all_or_nothing` says so for
every file, every state of the kernel and every supply of pages.
-/

set_option autoImplicit false

namespace Xv6pp

open Prog VirtualMemory Radix Process

/-! ## Images -/

/-- What the user is meant to see of a program's memory. -/
structure Image where
  size : Nat
  byte : Nat → UInt8
  /-- The permissions of a page besides being readable. -/
  perm : Nat → Nat

namespace Image

/-- No memory at all. -/
def empty : Image where
  size := 0
  byte := fun _ => 0
  perm := fun _ => 0

/-- The image reaches up to `newsz` at least; its new pages are filled with zeros. -/
def grow (im : Image) (newsz perm : Nat) : Image where
  size := max im.size newsz
  byte a := if a < pages im.size * PGSIZE then im.byte a else 0
  perm v := if v < pages im.size then im.perm v else perm

/-- The bytes `l` are placed at the address `va`. -/
def write (im : Image) (va : Nat) (l : List UInt8) : Image :=
  { im with byte := fun a => if va ≤ a ∧ a < va + l.length then l.getD (a - va) 0 else im.byte a }

end Image

/-- The bytes of a segment, page by page, as `readi` delivers them. -/
def segmentFrom (ip : Process.Inode) (offset sz : Nat) : Nat → Nat → List UInt8
  | 0, _ => []
  | n + 1, i =>
    ip.readi ((offset + i) % 2 ^ 32) (min PGSIZE (sz - i)) ++ segmentFrom ip offset sz n (i + PGSIZE)

/-- The `sz` bytes of the file at `offset`; both are 32-bit numbers. -/
def segmentBytes (ip : Process.Inode) (offset sz : Nat) : List UInt8 :=
  segmentFrom ip (offset % 2 ^ 32) (sz % 2 ^ 32) (pages (sz % 2 ^ 32)) 0

theorem segmentFrom_ofBytes {l : List UInt8} {offset sz n i : Nat} (hin : offset + sz ≤ l.length)
    (hlt : l.length < 2 ^ 32) : segmentFrom (.ofBytes l) offset sz n i =
      (l.drop (offset + i)).take (min (n * PGSIZE) (sz - i)) := by
  induction n generalizing i with
  | zero =>
    rw [Nat.zero_mul, Nat.zero_min]
    rfl
  | succ n ih =>
    rw [segmentFrom, ih]
    rcases Nat.lt_or_ge i sz with hi | hi
    · have hmod : (offset + i) % 2 ^ 32 = offset + i := Nat.mod_eq_of_lt (by omega)
      have hsplit : min ((n + 1) * PGSIZE) (sz - i) =
          min PGSIZE (sz - i) + min (n * PGSIZE) (sz - (i + PGSIZE)) := by
        rw [Nat.succ_mul]
        omega
      rw [hmod, hsplit, List.take_add, List.drop_drop, Process.Inode.ofBytes]
      dsimp only
      rcases Nat.lt_or_ge (sz - i) PGSIZE with hlast | hfull
      · rw [show sz - (i + PGSIZE) = 0 by omega, Nat.min_zero, List.take_zero, List.take_zero]
      · rw [min_eq_left hfull, Nat.add_assoc]
    · rw [show sz - i = 0 by omega, show sz - (i + PGSIZE) = 0 by omega]
      simp only [Nat.min_zero, List.take_zero, List.append_nil, Process.Inode.ofBytes]

/-- **The bytes of a segment** are those of the file, if it lies in a file of 32-bit size. -/
theorem segmentBytes_ofBytes {l : List UInt8} {offset sz : Nat} (hin : offset + sz ≤ l.length)
    (hlt : l.length < 2 ^ 32) : segmentBytes (.ofBytes l) offset sz = (l.drop offset).take sz := by
  have hle : sz ≤ pages sz * PGSIZE := by
    simp only [pages, PGSIZE]
    omega
  rw [segmentBytes, Nat.mod_eq_of_lt (show offset < 2 ^ 32 by omega),
    Nat.mod_eq_of_lt (show sz < 2 ^ 32 by omega), segmentFrom_ofBytes hin hlt, Nat.sub_zero,
    Nat.add_zero, min_eq_right hle]

/-- The image with the segment that the program header at `off` describes, if it is to be loaded. -/
def Image.add (im : Image) (ip : Process.Inode) (off : Nat) : Image :=
  let ph := ip.readi off sizeofProghdr
  if leField ph 0 4 ≠ ELF_PROG_LOAD then im
  else
    (im.grow (leField ph 16 8 + leField ph 40 8) (flags2perm (leField ph 4 4))).write
      (leField ph 16 8) (segmentBytes ip (leField ph 8 8) (leField ph 32 8))

/-- The image with the segments of `n` program headers from `off` on. -/
def Image.addAll (ip : Process.Inode) : Nat → Nat → Image → Image
  | 0, _, im => im
  | n + 1, off, im => addAll ip n ((off + sizeofProghdr) % 2 ^ 32) (im.add ip off)

/-- The image that the program headers of a file describe. -/
def imageOf (ip : Process.Inode) : Image := Image.empty.addAll ip (elfPhnum ip) (elfPhoff ip)

/-- The user sees the image: each page is mapped with its permissions, and each byte is there. -/
structure Shown (s : Memory) (r : Nat) (im : Image) : Prop where
  page : ∀ a < pages im.size * PGSIZE, ∃ pa,
    userPage s r a = some (pa, PTE_R ||| PTE_U ||| im.perm (a / PGSIZE) ||| PTE_V)
  byte : ∀ a < pages im.size * PGSIZE, userByte s r a = some (im.byte a)

section
variable {s s' : Memory} {r : Nat} {im : Image}

/-- What the user sees depends on the mapping and the bytes only. -/
theorem Shown.congr (h : Shown s r im)
    (hsame : ∀ a < pages im.size * PGSIZE,
      userPage s' r a = userPage s r a ∧ userByte s' r a = userByte s r a) : Shown s' r im where
  page a ha := by
    rw [(hsame a ha).1]
    exact h.page a ha
  byte a ha := by
    rw [(hsame a ha).2]
    exact h.byte a ha

theorem shown_empty (s : Memory) (r : Nat) : Shown s r .empty where
  page a ha := absurd ha (by simp only [Image.empty, pages, PGSIZE]; omega)
  byte a ha := absurd ha (by simp only [Image.empty, pages, PGSIZE]; omega)

/-- Bytes that are stored are placed in the image. -/
theorem Shown.write {va : Nat} {l : List UInt8} (h : Shown s r im) (hs : Stored s r va l s') :
    Shown s' r (im.write va l) where
  page a ha := by
    rw [hs.userPage_eq]
    exact h.page a ha
  byte a ha := by
    rw [hs.bytes, Image.write]
    dsimp only
    split
    · next hin =>
      have hlt : a - va < l.length := by omega
      rw [List.getElem?_eq_getElem hlt, List.getD_eq_getElem _ _ hlt]
    · exact h.byte a ha

/-- An image does not grow when it reaches far enough. -/
theorem Shown.grow_le {newsz perm : Nat} (h : Shown s r im) (hle : newsz ≤ im.size) :
    Shown s r (im.grow newsz perm) := by
  have hsize : (im.grow newsz perm).size = im.size := max_eq_left hle
  refine ⟨fun a ha => ?_, fun a ha => ?_⟩
  · rw [hsize] at ha
    have hv : a / PGSIZE < pages im.size := Nat.div_lt_of_lt_mul (by rwa [Nat.mul_comm])
    dsimp only [Image.grow]
    rw [if_pos hv]
    exact h.page a ha
  · rw [hsize] at ha
    dsimp only [Image.grow]
    rw [if_pos ha]
    exact h.byte a ha

end

/-! ## Loading segments -/

/-- The pages that `alloc` maps are the user's. -/
theorem has_U_perm (perm : Nat) : has (PTE_R ||| PTE_U ||| perm ||| PTE_V) PTE_U := by
  have hU : PTE_U.testBit 4 = true := rfl
  have hmask : has (PTE_R ||| PTE_U ||| perm ||| PTE_V) PTE_U =
      has (PTE_R ||| PTE_U ||| perm ||| PTE_V) (2 ^ 4) := rfl
  rw [hmask, has_eq_testBit, Nat.testBit_or, Nat.testBit_or, Nat.testBit_or, hU, Bool.or_true,
    Bool.true_or, Bool.true_or]

section
variable [KernelImage] {E : Panic → Prop} {s : Memory} {r tf : Nat} {O T : Multiset Nat}
  {im : Image} {ip : Process.Inode}

/-- The user finds zeros in a page that `alloc` has mapped. -/
theorem fresh_userPage {s' : Memory} {k perm a : Nat} {f : Nat → Nat} (hmaps : Maps s' r k T f)
    (hperm : perm < 1024) (hfree : ∀ q ∈ s.freeList, PageOk q) (ha : a < k * PGSIZE)
    (hfresh : VirtualMemory.Fresh s s' (PTE_R ||| PTE_U ||| perm) (f (a / PGSIZE))) : ∃ pa,
      userPage s' r a = some (pa, PTE_R ||| PTE_U ||| perm ||| PTE_V) ∧
        s'.mem pa = Bytes.zero PGSIZE := by
  have hv : a / PGSIZE < k := Nat.div_lt_of_lt_mul (by rwa [Nat.mul_comm])
  obtain ⟨q, hq, hword, hzero⟩ := hfresh
  have hpage := hfree q hq
  obtain ⟨-, -, hva, -⟩ := page_mul (lt_of_lt_of_le hv hmaps.le)
  refine ⟨q, userPage_eq_some.2 ⟨?_, has_U_perm perm⟩, hzero⟩
  rw [hmaps.table.translation_eq (pgRoundDown_aligned a) hva, pgRoundDown_div, hword,
    entry_mkPte hpage.aligned (hpage.lt.trans (by decide)) (alloc_perm hperm).1]

/-- **`alloc` extends the image.** -/
theorem wp_alloc_shown {newsz perm : Nat} (h : UserSpace s r true (pages im.size) tf O)
    (ho : Owned s O) (hshown : Shown s r im) (hperm : perm < 1024) :
    wp (VirtualMemory.alloc r im.size newsz perm) E (fun res s' => res ≠ 0 →
      res = max im.size newsz ∧ Shown s' r (im.grow newsz perm)) s := by
  obtain ⟨P, f, rfl, hmaps, hhidden⟩ := UserSpace.maps h ho
  have hsz : im.size ≤ MAXVA := (le_of_pages_le h.1).trans (by decide)
  rcases Nat.lt_or_ge newsz im.size with hlt | hge
  · rw [VirtualMemory.alloc, if_pos hlt]
    exact fun _ => ⟨(max_eq_left hlt.le).symm, hshown.grow_le hlt.le⟩
  have hmax : max im.size newsz = newsz := max_eq_right hge
  have halloc : wp (VirtualMemory.alloc r im.size newsz perm) E _ s := wp_vmAlloc h ho hperm
  refine wp_imp (wp_and (hmaps.wp_alloc (pgRoundUp_eq hsz).symm hge hperm) halloc) ?_
  rintro res s' ⟨⟨T', f', ⟨k, hk, htop, rfl, hmaps', hkept, hfresh⟩ | ⟨rfl, -, -⟩⟩, O', hm, hspace⟩ hne
  swap
  · exact absurd rfl hne
  have hpages : pages (max im.size res) ≤ trapPage := by
    rcases hspace with ⟨-, hspace⟩ | ⟨h0, -⟩
    · exact hspace.1
    · exact absurd h0 hne
  rw [hmax] at hpages
  rw [pgRoundUp_eq ((le_of_pages_le hpages).trans (by decide))] at htop
  obtain rfl : k = pages res := Nat.eq_of_mul_eq_mul_right (by decide) htop
  refine ⟨hmax.symm, ?_⟩
  have hsize : (im.grow res perm).size = res := hmax
  -- a page that was there before, and a fresh one
  have hold : ∀ a < pages im.size * PGSIZE,
      userPage s' r a = userPage s r a ∧ userByte s' r a = userByte s r a := fun a ha =>
    ⟨hkept.userPage_eq hmaps hmaps' ha, hkept.userByte_eq hmaps hmaps' le_rfl ha⟩
  have hnew : ∀ a, pages im.size * PGSIZE ≤ a → a < pages res * PGSIZE → ∃ pa,
      userPage s' r a = some (pa, PTE_R ||| PTE_U ||| perm ||| PTE_V) ∧
        s'.mem pa = Bytes.zero PGSIZE := fun a hge' hlt =>
    fresh_userPage hmaps' hperm (fun q hq => ho.ok q (by simp [hq])) hlt
      (hfresh (a / PGSIZE) ((Nat.le_div_iff_mul_le (by decide)).2 hge')
        (Nat.div_lt_of_lt_mul (by rwa [Nat.mul_comm])))
  refine ⟨fun a ha => ?_, fun a ha => ?_⟩
  · rw [hsize] at ha
    rw [Image.grow]
    dsimp only
    split
    · next hv =>
      have hlt : a < pages im.size * PGSIZE := (Nat.div_lt_iff_lt_mul (by decide)).1 hv
      rw [(hold a hlt).1]
      exact hshown.page a hlt
    · next hv =>
      have hge' : pages im.size * PGSIZE ≤ a := (Nat.le_div_iff_mul_le (by decide)).1 (Nat.not_lt.1 hv)
      obtain ⟨pa, hpage, -⟩ := hnew a hge' ha
      exact ⟨pa, hpage⟩
  · rw [hsize] at ha
    rw [Image.grow]
    dsimp only
    split
    · next hlt =>
      rw [(hold a hlt).2]
      exact hshown.byte a hlt
    · next hge' =>
      obtain ⟨pa, hpage, hzero⟩ := hnew a (Nat.not_lt.1 hge') ha
      rw [userByte, hpage, Option.map_some, hzero, Bytes.get_zero]

omit [KernelImage] in
/-- Behind the end of a segment there is nothing to read. -/
theorem segmentFrom_end {offset sz n i : Nat} (hi : sz ≤ i) : segmentFrom ip offset sz n i = [] := by
  induction n generalizing i with
  | zero => rfl
  | succ n ih =>
    have hlen := ip.length_le ((offset + i) % 2 ^ 32) (min PGSIZE (sz - i))
    rw [Nat.sub_eq_zero_of_le hi, Nat.min_zero] at hlen
    rw [segmentFrom, ih (hi.trans (Nat.le_add_right _ _)), List.append_nil,
      Nat.sub_eq_zero_of_le hi, Nat.min_zero, List.length_eq_zero_iff.1 (Nat.le_zero.1 hlen)]

/-- **The loop of `loadseg`** stores the bytes of the segment, page by page. -/
theorem wp_loadsegFrom_stored {va offset sz n i : Nat} (h : UserTable s r T)
    (haligned : (va + i) % PGSIZE = 0) (hlt : ∀ j < n, va + i + j * PGSIZE < 2 ^ 64) :
    wp (loadsegFrom r va ip offset sz n i) (fun _ => True) (fun res s' => ¬ res < 0 →
      Stored s r (va + i) (segmentFrom ip offset sz n i) s') s := by
  induction n generalizing s i with
  | zero => exact fun _ => Stored.nil s r (va + i)
  | succ n ih =>
    have hmod : (va + i) % 2 ^ 64 = pgRoundDown (va + i) := by
      have hva := hlt 0 (Nat.succ_pos n)
      rw [Nat.zero_mul, Nat.add_zero] at hva
      rw [Nat.mod_eq_of_lt hva, pgRoundDown, Nat.div_mul_cancel (Nat.dvd_of_mod_eq_zero haligned)]
    rw [loadsegFrom, segmentFrom, hmod]
    refine wp_seq h.wp_walkaddr ?_
    rintro res s' ⟨rfl, rfl⟩
    cases hpage : userPage s' r (va + i) with
    | none => trivial
    | some e =>
      obtain ⟨pa, flags⟩ := e
      simp only [Option.map_some, wp_bind, wp_modify, wp_ite, wp_pure]
      have hle := ip.length_le ((offset + i) % 2 ^ 32) (min PGSIZE (sz - i))
      generalize hbytes : ip.readi ((offset + i) % 2 ^ 32) (min PGSIZE (sz - i)) = bytes at hle ⊢
      have hin : (va + i) % PGSIZE + bytes.length ≤ PGSIZE := by omega
      have hstored := h.store_write hpage hin
      have htable := (h.store hpage ((s'.mem pa).write ((va + i) % PGSIZE) bytes)).1
      rw [haligned] at hstored htable
      refine ⟨fun _ hneg => absurd (by decide) hneg, fun hfull => ?_⟩
      have hnext : va + (i + PGSIZE) = va + i + PGSIZE := (Nat.add_assoc _ _ _).symm
      have hih := ih (i := i + PGSIZE) htable ?_ fun j hj => ?_
      rotate_left
      · rw [hnext, Nat.add_mod_right]
        exact haligned
      · have hva := hlt (j + 1) (Nat.succ_lt_succ hj)
        rwa [hnext, Nat.add_assoc _ PGSIZE, Nat.add_comm PGSIZE, ← Nat.succ_mul]
      refine wp_imp hih ?_
      intro res s'' hrest hres
      refine hstored.append ?_
      -- the page is full, or this was the last one
      rcases Nat.lt_or_ge (sz - i) PGSIZE with hlast | hpagefull
      · have hend := hrest hres
        rw [segmentFrom_end (by omega)] at hend ⊢
        exact hend.nil_congr
      · have hlen : bytes.length = PGSIZE := by
          rw [not_not.1 hfull, min_eq_left hpagefull]
        rw [hlen, ← hnext]
        exact hrest hres

/-- **Loading one segment** adds it to the image. -/
theorem wp_loadSegment_shown {off : Nat} (h : UserSpace s r true (pages im.size) tf O)
    (ho : Owned s O) (hshown : Shown s r im) :
    wp (loadSegment r ip off im.size) (fun _ => True) (fun res s' => res.1 = true →
      res.2 = (im.add ip off).size ∧ Shown s' r (im.add ip off)) s := by
  rw [loadSegment, Image.add]
  generalize ip.readi off sizeofProghdr = ph
  have hv : leField ph 16 8 < 2 ^ 64 := leField_lt ph 16 8
  have hm : leField ph 40 8 < 2 ^ 64 := leField_lt ph 40 8
  generalize leField ph 16 8 = vaddr at *
  generalize leField ph 40 8 = memsz at *
  generalize leField ph 32 8 = filesz at *
  simp only [wp_ite, wp_pure]
  refine ⟨fun _ hf => absurd hf Bool.false_ne_true, fun _ => ⟨fun htype _ => ?_, fun htype =>
    ⟨fun _ hf => absurd hf Bool.false_ne_true, fun hle => ⟨fun _ hf => absurd hf Bool.false_ne_true,
      fun hno => ⟨fun _ hf => absurd hf Bool.false_ne_true, fun haligned => ?_⟩⟩⟩⟩⟩
  · rw [if_pos htype]
    exact ⟨rfl, hshown⟩
  rw [if_neg htype]
  have hnowrap : vaddr + memsz < 2 ^ 64 := by omega
  rw [Nat.mod_eq_of_lt hnowrap]
  refine wp_seq (wp_and (wp_vmAlloc h ho (flags2perm_lt _))
    (wp_alloc_shown (E := fun _ => True) h ho hshown (flags2perm_lt _))) ?_
  rintro sz1 s₁ ⟨⟨O₁, hm₁, hspace₁⟩, hgrown⟩
  split
  · exact fun hf => absurd hf Bool.false_ne_true
  next hne =>
  obtain ⟨hsz1, hshown₁⟩ := hgrown hne
  obtain ⟨-, hspace₁⟩ := hspace₁.resolve_right fun hf => hne hf.1
  obtain ⟨P₁, f₁, rfl, hmaps₁, hhidden₁⟩ := UserSpace.maps hspace₁ (ho.moves hm₁)
  rw [loadseg]
  refine wp_seq (wp_loadsegFrom_stored (hmaps₁.userTable hhidden₁) (not_not.1 haligned)
    fun j hj => ?_) ?_
  · have hmod : filesz % 2 ^ 32 ≤ filesz := Nat.mod_le _ _
    simp only [PGSIZE] at *
    omega
  · intro res s₂ hstored
    simp only [wp_ite, wp_pure]
    refine ⟨fun _ hf => absurd hf Bool.false_ne_true, fun hres _ => ⟨hsz1, ?_⟩⟩
    exact hshown₁.write (hstored hres)

/-- **Loading the segments** adds all of them, one after the other. -/
theorem wp_loadSegments_shown {n off : Nat} (h : UserSpace s r true (pages im.size) tf O)
    (ho : Owned s O) (hshown : Shown s r im) :
    wp (loadSegments r ip n off im.size) (fun _ => True) (fun res s' => res.1 = true →
      res.2 = (im.addAll ip n off).size ∧ Shown s' r (im.addAll ip n off)) s := by
  induction n generalizing off im s O with
  | zero => exact fun _ => ⟨rfl, hshown⟩
  | succ n ih =>
    rw [loadSegments, Image.addAll]
    refine wp_seq (wp_and (wp_loadSegment h ho) (wp_loadSegment_shown h ho hshown)) ?_
    rintro ⟨ok, newsz₁⟩ s₁ ⟨⟨O₁, hsp₁, hm₁⟩, hadded⟩
    cases ok with
    | false => exact fun hf => absurd hf Bool.false_ne_true
    | true =>
      obtain ⟨rfl, hshown₁⟩ := hadded rfl
      exact ih hsp₁ (ho.moves hm₁) hshown₁

/-- What the user sees of an address space depends on its pages only. -/
theorem userPage_congr_space {s' : Memory} {n : Nat} {u : Bool} (h : UserSpace s r u n tf O)
    (hmem : ∀ x ∈ O, s'.mem x = s.mem x) : userPage s' r = userPage s r := by
  obtain ⟨hn, P, f, htab, rfl, -, -⟩ := h
  exact userPage_congr (htab.translation_congr
    (htab.frame fun x hx => hmem x (Multiset.mem_add.2 (.inl hx))))

end

/-! ## All or nothing -/

/-- The new image of a successful `exec`: the segments of the file, and the arguments above them. -/
structure Installed (s : Memory) (ip : Process.Inode) (argv : List (List UInt8)) (new newsz sp : Nat) :
    Prop where
  size : newsz = pgRoundUp (imageOf ip).size + (USERSTACK + 1) * PGSIZE
  image : Shown s new (imageOf ip)
  args : (∀ arg ∈ argv, arg.length < PGSIZE) → ArgBlock (userByte s new) newsz argv sp

section
variable [KernelImage] {memory : Memory} {as : List ProcAct} {k : Kernel}

/-- **`exec` is all or nothing.**  In every reachable state, with the pages `X` of the arguments taken
from the free list, `exec` on any file and any arguments that fit `ustack` returns: it fails with
`-1` and everything is as it was, or it returns `argc`, the process starts at the entry point of the
file, its memory is what the program headers of the file describe with the arguments above, and the
pages of the old image are free. -/
theorem exec_all_or_nothing (hpages : MachinePages (memory.freeList : Multiset Nat))
    (hrun : Machine.Run Kernel.step (Kernel.initial memory) as k) {p : Pid}
    (hp : (k.procs p).state = .running) {s : Memory} {X : Multiset Nat}
    (hargs : Moves k.memory 0 s X) (path : List UInt8) (file : Option Process.Inode)
    {argv : List (List UInt8)} (hargc : argv.length < MAXARG) :
    ∃ r k', (Process.exec p path file argv).run { k with memory := s } = .ok (r, k') ∧
      (r = -1 ∧ ExecFailed { k with memory := s } k' ∨
        r = argv.length ∧ ∃ ip new newsz sp, file = some ip ∧ IsElf ip ∧
          ExecDone { k with memory := s } k' p path new newsz sp (elfEntry ip) ∧
          Installed k'.memory ip argv new newsz sp) := by
  have h := (ledger_of_run hpages hrun).held hpages hargs
  have hlive : (k.procs p).state ≠ .unused := by
    rw [hp]
    decide
  obtain ⟨tf, r, O, htf, -, -, -, -⟩ := h.space hpages hlive
  have hexec : wp (Process.exec p path file argv) (fun _ => False) _ { k with memory := s } :=
    wp_exec_stack
      (A := fun ip r res m => res.1 = true → res.2 = (imageOf ip).size ∧ Shown m r (imageOf ip))
      (B := fun ip r res m => ∀ sp, res.1 = some sp → Installed m ip argv r res.2 sp)
      hpages h hlive htf hargc
      (fun ip r m O hspace ho => wp_loadSegments_shown hspace ho (shown_empty m r)) ?_
  · obtain ⟨res, k', hres, -, hout⟩ := wp_total hexec
    refine ⟨res, k', hres, ?_⟩
    rcases hout with hfail | ⟨rfl, ip, new, newsz, sp, hfile, helf, hdone, m, O', hB, hspace, ho, hdata⟩
    · exact .inl hfail
    -- the last part of `exec` does not touch the new image
    obtain ⟨hsize, hshown, hblock⟩ := hB sp rfl
    have hbytes := userByte_congr hspace ho hdata
    have hpage := userPage_congr_space hspace hdata
    refine .inr ⟨rfl, ip, new, newsz, sp, hfile, helf, hdone, hsize, hshown.congr fun a _ => ?_, ?_⟩
    · rw [hpage, hbytes]
      exact ⟨rfl, rfl⟩
    · rwa [hbytes]
  · intro ip r newsz m O hspace ho hloaded
    obtain ⟨rfl, hshown⟩ := hloaded rfl
    have hsz : (imageOf ip).size ≤ MAXVA := (le_of_pages_le hspace.1).trans (by decide)
    have hkept := wp_buildStack_kept (E := fun _ => True) hspace ho hargc
    have hinstalled : ∀ {res : Option Nat × Nat} {m' : Memory} {sp : Nat}, res.1 = some sp →
        (res.1 ≠ none → res.2 = pgRoundUp (imageOf ip).size + (USERSTACK + 1) * PGSIZE ∧
          ∀ a < pgRoundUp (imageOf ip).size,
            userPage m' r a = userPage m r a ∧ userByte m' r a = userByte m r a) →
        ((∀ arg ∈ argv, arg.length < PGSIZE) → ArgBlock (userByte m' r) res.2 argv sp) →
        Installed m' ip argv r res.2 sp := by
      intro res m' sp hsp hres hblock
      obtain ⟨hsize, hsame⟩ := hres (by rw [hsp]; exact Option.some_ne_none sp)
      rw [pgRoundUp_eq hsz] at hsame
      exact ⟨hsize, hshown.congr hsame, hblock⟩
    by_cases hshort : ∀ arg ∈ argv, arg.length < PGSIZE
    · refine wp_imp (wp_and hkept (wp_buildStack_block (E := fun _ => True) hspace ho hargc hshort)) ?_
      rintro res m' ⟨hres, hblock, -⟩ sp hsp
      exact hinstalled hsp hres fun _ => (hblock sp hsp).2.1
    · refine wp_imp hkept fun res m' hres sp hsp => ?_
      exact hinstalled hsp hres fun hc => absurd hc hshort

omit [KernelImage] in
/-- The first process runs a file with one segment: it starts at the second instruction, and both are in
its memory. -/
theorem exec_all_or_nothing_small : ∃ k, @Machine.Run Kernel ProcAct Panic (@Kernel.step smallImage)
    (Kernel.initial lowMemory) [.boot, .run initPid] k ∧ ∃ k' new newsz sp,
      (@Process.exec smallImage initPid [47, 97] (some exitElf) [[97], [98, 99]]).run k =
        .ok (2, k') ∧
      @ExecDone smallImage k k' initPid [47, 97] new newsz sp 4 ∧
      Installed k'.memory exitElf [[97], [98, 99]] new newsz sp ∧
      userByte k'.memory new 4 = some 115 := by
  obtain ⟨k, hrun, hstate, k', hexec⟩ := lowMemory_execs
  have h := @exec_all_or_nothing smallImage lowMemory _ k lowMemory_pages hrun _ hstate k.memory 0
    (Moves.refl _ _) [47, 97] (some exitElf) [[97], [98, 99]] (by decide)
  obtain ⟨res, k'', hres, hout⟩ := h
  obtain ⟨rfl, rfl⟩ := Prod.mk.inj (Except.ok.inj (hres.symm.trans hexec))
  rcases hout with ⟨hfail, -⟩ | ⟨-, ip, new, newsz, sp, hip, -, hdone, hinstalled⟩
  · exact absurd hfail (by decide)
  cases hip
  have hentry : elfEntry exitElf = 4 := by decide
  have hsize : pages (imageOf exitElf).size = 1 := by decide +kernel
  have hbyte : (imageOf exitElf).byte 4 = 115 := by decide +kernel
  rw [hentry] at hdone
  refine ⟨k, hrun, k'', new, newsz, sp, hexec, hdone, hinstalled, ?_⟩
  rw [hinstalled.image.byte 4 (by rw [hsize]; decide), hbyte]

end

end Xv6pp
