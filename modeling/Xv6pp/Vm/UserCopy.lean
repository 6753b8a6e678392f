import Mathlib.Data.List.TakeWhile
import Xv6pp.Vm.PageMap

/-!
# Copies between kernel and user memory

What a process sees of a page table is a partial map from addresses to bytes: `userByte s r va` is
the byte at `va` when the page of `va` is mapped for the user.  On a tree whose user pages are apart
from each other and from the pages of the tree (`UserTable`), `copyout` stores a prefix of its bytes
into that map and touches no other page, and `copyin` and `copyinstr` are functions of the map alone:
both deliver `fetch`, the bytes up to the first that is missing, or a part of it.

`user_copies` reads off what the three functions return, for every address and every length; an
address range that runs past `MAXVA` is found to be unmapped before any arithmetic can wrap.
-/

set_option autoImplicit false

namespace Xv6pp
namespace VirtualMemory

open Prog Radix

/-! ## What the user sees -/

/-- The page that is mapped for the user at an address, and its flags. -/
def userPage (s : Memory) (r : Nat) : PageMap := fun va =>
  (translation s r (pgRoundDown va)).filter fun e => has e.2 PTE_U

/-- The byte that the user sees at an address. -/
def userByte (s : Memory) (r va : Nat) : Option UInt8 :=
  (userPage s r va).map fun e => (s.mem e.1).get (va % PGSIZE)

/-- The user may read the address. -/
def Accessible (s : Memory) (r va : Nat) : Prop := ∃ pa flags, userPage s r va = some (pa, flags)

/-- The user may write the address. -/
def Writable (s : Memory) (r va : Nat) : Prop :=
  ∃ pa flags, userPage s r va = some (pa, flags) ∧ has flags PTE_W

/-- A physical page that some address is mapped to for the user. -/
def UserOwned (s : Memory) (r q : Nat) : Prop := ∃ va flags, userPage s r va = some (q, flags)

/-- A page table whose user pages are pairwise distinct, none of them a page of the table.  There is
no memory at the physical address `0`, which `walkaddr` returns for a page that is not mapped. -/
structure UserTable [KernelImage] (s : Memory) (r : Nat) (T : Multiset Nat) : Prop
    extends PageTree s r T where
  apart : ∀ va pa flags, userPage s r va = some (pa, flags) → pa ∉ T
  inj : ∀ va va' pa flags flags', userPage s r va = some (pa, flags) →
    userPage s r va' = some (pa, flags') → pgRoundDown va = pgRoundDown va'
  ram : ∀ va flags, userPage s r va ≠ some (0, flags)

section
variable {s s' : Memory} {r va pa flags : Nat}

theorem userPage_eq_some : userPage s r va = some (pa, flags) ↔
    translation s r (pgRoundDown va) = some (pa, flags) ∧ has flags PTE_U := by
  rw [userPage, Option.filter_eq_some_iff]

theorem isSome_userByte : (userByte s r va).isSome ↔ Accessible s r va := by
  rw [userByte, Option.isSome_map, Option.isSome_iff_exists, Accessible, Prod.exists]

theorem userPage_congr (h : translation s' r = translation s r) : userPage s' r = userPage s r := by
  funext va
  rw [userPage, userPage, h]

theorem pgRoundDown_le (a : Nat) : pgRoundDown a ≤ a := Nat.div_mul_le_self _ _

/-- The offset of an address in its page. -/
theorem sub_pgRoundDown (a : Nat) : a - pgRoundDown a = a % PGSIZE := by
  have h := Nat.div_add_mod a PGSIZE
  rw [pgRoundDown, Nat.mul_comm]
  omega

theorem pgRoundDown_aligned (a : Nat) : pgRoundDown a % PGSIZE = 0 := Nat.mul_mod_left _ _

/-- Addresses that lie in the page of another one. -/
theorem same_page {i : Nat} (hi : va % PGSIZE + i < PGSIZE) :
    pgRoundDown (va + i) = pgRoundDown va ∧ (va + i) % PGSIZE = va % PGSIZE + i := by
  simp only [pgRoundDown, PGSIZE] at *
  omega

end

/-! ## Reading up to the first gap -/

/-- The `n` bytes from `va` on, or as many of them as there are before the first gap. -/
def fetch (m : Nat → Option UInt8) : Nat → Nat → List UInt8
  | _, 0 => []
  | va, n + 1 =>
    match m va with
    | some b => b :: fetch m (va + 1) n
    | none => []

section
variable {m : Nat → Option UInt8} {va n : Nat}

theorem fetch_some {b : UInt8} (h : m va = some b) :
    fetch m va (n + 1) = b :: fetch m (va + 1) n := by
  rw [fetch, h]

theorem fetch_none (h : m va = none) : fetch m va n = [] := by
  cases n with
  | zero => rfl
  | succ n => rw [fetch, h]

theorem length_fetch_le (m : Nat → Option UInt8) (va n : Nat) : (fetch m va n).length ≤ n := by
  induction n generalizing va with
  | zero => exact Nat.le_refl 0
  | succ n ih =>
    cases h : m va with
    | none => simp [fetch_none h]
    | some b =>
      rw [fetch_some h, List.length_cons]
      exact Nat.succ_le_succ (ih (va + 1))

/-- The bytes that are fetched. -/
theorem getElem?_fetch {i : Nat} (hi : i < (fetch m va n).length) :
    (fetch m va n)[i]? = m (va + i) := by
  induction n generalizing va i with
  | zero => exact absurd hi (Nat.not_lt_zero i)
  | succ n ih =>
    cases h : m va with
    | none =>
      rw [fetch_none h] at hi
      exact absurd hi (Nat.not_lt_zero i)
    | some b =>
      rw [fetch_some h] at hi ⊢
      cases i with
      | zero => rw [List.getElem?_cons_zero, Nat.add_zero, h]
      | succ i =>
        rw [List.getElem?_cons_succ, ih (Nat.lt_of_succ_lt_succ hi), Nat.add_right_comm,
          Nat.add_assoc]

/-- The gap that stops a fetch. -/
theorem fetch_gap (h : (fetch m va n).length < n) : m (va + (fetch m va n).length) = none := by
  induction n generalizing va with
  | zero => exact absurd h (Nat.not_lt_zero _)
  | succ n ih =>
    cases hb : m va with
    | none => rw [fetch_none hb, List.length_nil, Nat.add_zero, hb]
    | some b =>
      rw [fetch_some hb, List.length_cons] at h ⊢
      rw [← Nat.add_assoc, Nat.add_right_comm]
      exact ih (Nat.lt_of_succ_lt_succ h)

/-- A fetch is complete when there is no gap. -/
theorem length_fetch_eq : (fetch m va n).length = n ↔ ∀ i < n, (m (va + i)).isSome := by
  constructor
  · intro h i hi
    rw [← getElem?_fetch (by rwa [h] : i < (fetch m va n).length), List.getElem?_eq_getElem (by omega)]
    rfl
  · intro h
    by_contra hne
    have hlt := lt_of_le_of_ne (length_fetch_le m va n) hne
    have hsome := h _ hlt
    rw [fetch_gap hlt] at hsome
    exact absurd hsome (by decide)

/-- A fetch in two parts. -/
theorem fetch_add {k : Nat} (h : ∀ i < n, (m (va + i)).isSome) :
    fetch m va (n + k) = fetch m va n ++ fetch m (va + n) k := by
  induction n generalizing va with
  | zero => rw [Nat.zero_add]; rfl
  | succ n ih =>
    obtain ⟨b, hb⟩ := Option.isSome_iff_exists.1 (h 0 (Nat.succ_pos n))
    rw [Nat.add_zero] at hb
    rw [Nat.succ_add, fetch_some hb, fetch_some hb, ih fun i hi => ?_, List.cons_append,
      Nat.add_right_comm va 1 n, Nat.add_assoc va n 1]
    rw [Nat.add_right_comm, Nat.add_assoc]
    exact h (i + 1) (Nat.succ_lt_succ hi)

/-- A fetch of bytes that are known. -/
theorem fetch_eq {l : List UInt8} (h : ∀ i < l.length, m (va + i) = l[i]?) :
    fetch m va l.length = l := by
  have hlen : (fetch m va l.length).length = l.length := length_fetch_eq.2 fun i hi => by
    rw [h i hi, List.getElem?_eq_getElem hi]
    rfl
  refine List.ext_getElem? fun i => ?_
  by_cases hi : i < l.length
  · rw [getElem?_fetch (by rwa [hlen]), h i hi]
  · rw [List.getElem?_eq_none (by omega), List.getElem?_eq_none (by omega)]

/-- A zero is fetched when there is one before the first gap. -/
theorem zero_mem_fetch : 0 ∈ fetch m va n ↔
    ∃ i < n, m (va + i) = some 0 ∧ ∀ j ≤ i, (m (va + j)).isSome := by
  rw [List.mem_iff_getElem?]
  constructor
  · rintro ⟨i, hi⟩
    have hlt : i < (fetch m va n).length := (List.getElem?_eq_some_iff.1 hi).1
    refine ⟨i, lt_of_lt_of_le hlt (length_fetch_le m va n), (getElem?_fetch hlt).symm.trans hi, ?_⟩
    intro j hj
    have hltj := lt_of_le_of_lt hj hlt
    rw [← getElem?_fetch hltj, List.getElem?_eq_getElem hltj]
    rfl
  · rintro ⟨i, hi, hzero, hall⟩
    have hlt : i < (fetch m va n).length := by
      by_contra hge
      have hgap := fetch_gap (lt_of_le_of_lt (Nat.not_lt.1 hge) hi)
      have hsome := hall _ (Nat.not_lt.1 hge)
      rw [hgap] at hsome
      exact absurd hsome (by decide)
    exact ⟨i, (getElem?_fetch hlt).trans hzero⟩

/-- The bytes before the first zero of two parts. -/
theorem takeWhile_round {l l' : List UInt8} :
    (l ++ l').takeWhile (· != 0) =
      if 0 ∈ l then l.takeWhile (· != 0) else l ++ l'.takeWhile (· != 0) := by
  induction l with
  | nil => rfl
  | cons b l ih =>
    rw [List.cons_append, List.takeWhile_cons, List.takeWhile_cons, ih]
    by_cases hb : b = 0
    · simp [hb]
    · simp only [bne_iff_ne, ne_eq, hb, not_false_eq_true, if_true, List.mem_cons, Ne.symm hb,
        false_or]
      split <;> rfl

/-- A string ends inside a list of bytes when one of them is zero. -/
theorem length_takeWhile_lt {l : List UInt8} : (l.takeWhile (· != 0)).length < l.length ↔ 0 ∈ l := by
  induction l with
  | nil => simp
  | cons b l ih =>
    rw [List.takeWhile_cons]
    by_cases hb : b = 0
    · simp [hb]
    · simp only [bne_iff_ne, ne_eq, hb, not_false_eq_true, if_true, List.length_cons, List.mem_cons,
        Ne.symm hb, false_or, ← ih]
      omega

/-- The byte after a string is zero. -/
theorem getElem?_length_takeWhile {l : List UInt8} (h : 0 ∈ l) :
    l[(l.takeWhile (· != 0)).length]? = some 0 := by
  induction l with
  | nil => exact absurd h List.not_mem_nil
  | cons b l ih =>
    rw [List.takeWhile_cons]
    by_cases hb : b = 0
    · simp [hb]
    · have hmem : 0 ∈ l := (List.mem_cons.1 h).resolve_left (Ne.symm hb)
      simpa [hb] using ih hmem

/-- The bytes of a string. -/
theorem getElem?_takeWhile {l : List UInt8} {i : Nat} (hi : i < (l.takeWhile (· != 0)).length) :
    (l.takeWhile (· != 0))[i]? = l[i]? ∧ (l.takeWhile (· != 0))[i]? ≠ some 0 := by
  obtain ⟨t, ht⟩ := List.takeWhile_prefix (l := l) (· != 0)
  constructor
  · conv_rhs => rw [← ht]
    rw [List.getElem?_append_left hi]
  · intro hzero
    have hmem := List.mem_takeWhile_imp (List.mem_iff_getElem?.2 ⟨i, hzero⟩)
    exact absurd hmem (by decide)

end

/-! ## Stores to user memory -/

/-- Between the two states `l` has been stored at the user address `va`; the map is the same, and so
is every page that the user does not see. -/
structure Stored (s : Memory) (r va : Nat) (l : List UInt8) (s' : Memory) : Prop where
  pages : translation s' r = translation s r
  bytes : ∀ a, userByte s' r a =
    if va ≤ a ∧ a < va + l.length then l[a - va]? else userByte s r a
  rest : ∀ q, ¬ UserOwned s r q → s'.mem q = s.mem q
  freeList : s'.freeList = s.freeList
  denied : s'.denied = s.denied

section
variable {s s' s'' : Memory} {r va pa flags : Nat} {l l' : List UInt8} {T : Multiset Nat}

theorem Stored.nil (s : Memory) (r va : Nat) : Stored s r va [] s where
  pages := rfl
  bytes a := by rw [if_neg (by rw [List.length_nil]; omega)]
  rest _ _ := rfl
  freeList := rfl
  denied := rfl

/-- The same pages are mapped for the user after a store. -/
theorem Stored.userPage_eq (h : Stored s r va l s') : userPage s' r = userPage s r :=
  userPage_congr h.pages

theorem Stored.writable {a : Nat} (h : Stored s r va l s') :
    Writable s' r a ↔ Writable s r a := by
  rw [Writable, Writable, h.userPage_eq]

/-- Two stores one after the other. -/
theorem Stored.append (h : Stored s r va l s') (h' : Stored s' r (va + l.length) l' s'') :
    Stored s r va (l ++ l') s'' where
  pages := h'.pages.trans h.pages
  bytes a := by
    rw [h'.bytes, h.bytes, List.length_append]
    by_cases hlow : a < va + l.length
    · rw [if_neg (by omega)]
      by_cases hva : va ≤ a
      · rw [if_pos ⟨hva, hlow⟩, if_pos (by omega), List.getElem?_append_left (by omega)]
      · rw [if_neg (by omega), if_neg (by omega)]
    · by_cases hhigh : a < va + (l.length + l'.length)
      · rw [if_pos (by omega), if_pos (by omega), List.getElem?_append_right (by omega),
          Nat.sub_add_eq]
      · rw [if_neg (by omega), if_neg (by omega), if_neg (by omega)]
  rest q hq := by
    have hq' : ¬ UserOwned s' r q := by rwa [UserOwned, h.userPage_eq]
    rw [h'.rest q hq', h.rest q hq]
  freeList := h'.freeList.trans h.freeList
  denied := h'.denied.trans h.denied

variable [KernelImage]

/-- A store to a user page leaves the table alone. -/
theorem UserTable.store (h : UserTable s r T) (hpage : userPage s r va = some (pa, flags))
    (b : Bytes PGSIZE) :
    UserTable (s.store pa b) r T ∧ translation (s.store pa b) r = translation s r := by
  obtain ⟨f, htab⟩ := h.shape
  have htab' : Table (s.store pa b) 2 r T f := htab.frame fun p hp =>
    Memory.store_mem_of_ne s b fun e => h.apart va pa flags hpage (e ▸ hp)
  have htr : translation (s.store pa b) r = translation s r := htab.translation_congr htab'
  have hsame : userPage (s.store pa b) r = userPage s r := userPage_congr htr
  refine ⟨⟨⟨⟨f, htab'⟩, h.owned.nodup, h.owned.ok⟩, ?_, ?_, ?_⟩, htr⟩
  · rw [hsame]; exact h.apart
  · rw [hsame]; exact h.inj
  · rw [hsame]; exact h.ram

/-- Storing bytes in the page of an address. -/
theorem UserTable.store_write (h : UserTable s r T) (hpage : userPage s r va = some (pa, flags))
    (hl : va % PGSIZE + l.length ≤ PGSIZE) :
    Stored s r va l (s.store pa ((s.mem pa).write (va % PGSIZE) l)) := by
  have htr := (h.store hpage ((s.mem pa).write (va % PGSIZE) l)).2
  refine ⟨htr, fun a => ?_, fun q hq => ?_, rfl, rfl⟩
  · have hlt : a % PGSIZE < PGSIZE := Nat.mod_lt _ (by decide)
    rw [userByte, userPage_congr htr]
    by_cases hround : pgRoundDown a = pgRoundDown va
    · have hpa : userPage s r a = some (pa, flags) := by
        rw [userPage, hround]
        exact hpage
      have hoff : ∀ n, (va ≤ a ∧ a < va + n) ↔ (va % PGSIZE ≤ a % PGSIZE ∧
          a % PGSIZE < va % PGSIZE + n) := by
        intro n
        rw [← sub_pgRoundDown, ← sub_pgRoundDown, hround]
        have := pgRoundDown_le va
        have := hround ▸ pgRoundDown_le a
        omega
      have hsub : a % PGSIZE - va % PGSIZE = a - va := by
        rw [← sub_pgRoundDown, ← sub_pgRoundDown, hround]
        have := pgRoundDown_le va
        omega
      rw [hpa, Option.map_some, Memory.store_mem_self, Bytes.get_write hlt, userByte, hpa,
        Option.map_some]
      by_cases hin : va ≤ a ∧ a < va + l.length
      · rw [if_pos hin, if_pos ((hoff _).1 hin), hsub, List.getD_eq_getElem _ _ (by omega),
          List.getElem?_eq_getElem (by omega)]
      · rw [if_neg hin, if_neg fun hc => hin ((hoff _).2 hc)]
    · have hout : ¬ (va ≤ a ∧ a < va + l.length) := by
        rintro ⟨hle, hlt'⟩
        refine hround ?_
        obtain ⟨i, rfl⟩ := Nat.exists_eq_add_of_le hle
        exact (same_page (by omega)).1
      rw [if_neg hout, userByte]
      cases hother : userPage s r a with
      | none => rfl
      | some e =>
        rw [Option.map_some, Option.map_some, Memory.store_mem_of_ne]
        intro he
        exact hround (h.inj a va pa e.2 flags (by rw [hother, ← he]) hpage)
  · refine Memory.store_mem_of_ne s _ fun e => hq ⟨va, flags, ?_⟩
    rw [e, hpage]

omit [KernelImage] in
/-- An empty store may be placed anywhere. -/
theorem Stored.nil_congr {va' : Nat} (h : Stored s r va [] s') : Stored s r va' [] s' where
  pages := h.pages
  bytes a := by
    rw [h.bytes a, if_neg (by rw [List.length_nil]; omega), if_neg (by rw [List.length_nil]; omega)]
  rest := h.rest
  freeList := h.freeList
  denied := h.denied

end

/-! ## The loops -/

section
variable [KernelImage] {E : Panic → Prop} {s : Memory} {r va : Nat} {T : Multiset Nat}

/-- `walk` finds the word that translates an address. -/
theorem PageTree.wp_walk_entry (h : PageTree s r T) (haligned : va % PGSIZE = 0)
    (hva : va < MAXVA) :
    wp (walk r va false) E (fun res s' => s' = s ∧ (res = none → translation s r va = none) ∧
      ∀ q k, res = some (q, k) → entry (s.word q k) = translation s r va) s := by
  obtain ⟨⟨f, htab⟩, ho⟩ := h
  refine wp_imp (wp_walk_find htab (fun p hp => ho.pageOk hp) hva) ?_
  rintro res s' ⟨rfl, hslot, hnone⟩
  refine ⟨rfl, fun hres => ?_, fun q k hres => ?_⟩
  · rw [htab.translation_eq haligned hva, hnone hres]
    rfl
  · rw [htab.translation_eq haligned hva, Tab.slot_read htab (page_lt hva) (hslot q k hres)]

/-- **`walkaddr`** finds the user's page. -/
theorem UserTable.wp_walkaddr (h : UserTable s r T) :
    wp (walkaddr r (pgRoundDown va)) E
      (fun res s' => s' = s ∧ res = (userPage s r va).map Prod.fst) s := by
  have haligned := pgRoundDown_aligned va
  rw [walkaddr]
  split
  · next hge =>
    refine ⟨rfl, ?_⟩
    rw [userPage, translation_none fun hc => absurd hc.2 (Nat.not_lt.2 hge)]
    rfl
  · next hlt =>
    refine wp_seq (h.toPageTree.wp_walk_entry haligned (Nat.not_le.1 hlt)) ?_
    rintro (_ | ⟨q, k⟩) s' ⟨rfl, hnone, hentry⟩
    · refine ⟨rfl, ?_⟩
      rw [userPage, hnone rfl]
      rfl
    · have htr := hentry q k rfl
      simp only [wp_bind, wp_loadWord, wp_ite, wp_pure, true_and]
      refine ⟨fun hV => ?_, fun hV => ⟨fun hU => ?_, fun hU => ⟨fun h0 => ?_, fun _ => ?_⟩⟩⟩
      · rw [entry_eq_none.2 (by simpa using hV)] at htr
        rw [userPage, ← htr]
        rfl
      all_goals
        have hsome : translation s' r (pgRoundDown va) =
            some (pte2pa (s'.word q k), pteFlags (s'.word q k)) := by
          rw [← htr, entry, if_pos (by simpa using hV)]
      · rw [userPage, hsome, Option.filter_some, has_pteFlags _ (by decide), if_neg (by simpa using hU)]
        rfl
      · refine absurd (userPage_eq_some.2 ⟨?_, ?_⟩) (h.ram va (pteFlags (s'.word q k)))
        · rw [hsome, h0]
        · rw [has_pteFlags _ (by decide)]
          simpa using hU
      · rw [userPage, hsome, Option.filter_some, has_pteFlags _ (by decide), if_pos (by simpa using hU)]
        rfl

omit [KernelImage] in
/-- A round of a copy ends at the next page, or is the last one. -/
theorem next_page {n len : Nat} (hn : n = min (PGSIZE - (va - pgRoundDown va)) len) :
    va % PGSIZE + n ≤ PGSIZE ∧ n ≤ len ∧ (0 < len → 0 < n) ∧
      (n = len ∨ pgRoundDown va + PGSIZE = va + n) := by
  have hmod : va % PGSIZE < PGSIZE := Nat.mod_lt _ (by decide)
  have hle := pgRoundDown_le va
  rw [sub_pgRoundDown] at hn
  have hsub := sub_pgRoundDown va
  omega

omit [KernelImage] in
/-- A round of a fetch takes the bytes from one page. -/
theorem fetch_round {pa flags n len : Nat} (hpage : userPage s r va = some (pa, flags))
    (hn : n = min (PGSIZE - (va - pgRoundDown va)) len) :
    fetch (userByte s r) va len = (s.mem pa).read (va - pgRoundDown va) n ++
      fetch (userByte s r) (pgRoundDown va + PGSIZE) (len - n) := by
  obtain ⟨hin, hle, -, hnext⟩ := next_page hn
  have hbyte : ∀ i < n, userByte s r (va + i) = some ((s.mem pa).get (va % PGSIZE + i)) := by
    intro i hi
    obtain ⟨hround, hmod⟩ := @same_page va i (by omega)
    have hpage' : userPage s r (va + i) = some (pa, flags) := by
      rw [userPage, hround]
      exact hpage
    rw [userByte, hpage', Option.map_some, hmod]
  have hhere : fetch (userByte s r) va n = (s.mem pa).read (va % PGSIZE) n := by
    have hfetch := @fetch_eq (userByte s r) va ((s.mem pa).read (va % PGSIZE) n)
    rw [Bytes.length_read] at hfetch
    refine hfetch fun i hi => ?_
    rw [hbyte i hi, List.getElem?_eq_getElem (by rwa [Bytes.length_read])]
    simp [Bytes.read]
  have hrest : fetch (userByte s r) (pgRoundDown va + PGSIZE) (len - n) =
      fetch (userByte s r) (va + n) (len - n) := by
    rcases hnext with rfl | hnext
    · rw [Nat.sub_self]; rfl
    · rw [hnext]
  have hsome : ∀ i < n, (userByte s r (va + i)).isSome := fun i hi => by rw [hbyte i hi]; rfl
  have hsplit := fetch_add (k := len - n) hsome
  rw [Nat.add_sub_cancel' hle] at hsplit
  rw [hsplit, hhere, hrest, sub_pgRoundDown]

/-- What `copyout` leaves behind: the bytes before the first address that is not writable are stored,
and the result says whether these are all of them. -/
structure CopiedOut (s : Memory) (r va : Nat) (src : List UInt8) (T : Multiset Nat) (res : Int)
    (s' : Memory) : Prop where
  table : UserTable s' r T
  stored : ∃ k ≤ src.length, Stored s r va (src.take k) s' ∧ (∀ i < k, Writable s r (va + i)) ∧
    (res = 0 ∧ k = src.length ∨ res = -1 ∧ k < src.length ∧ ¬ Writable s r (va + k))

/-- There is nothing to store. -/
theorem UserTable.copiedOut_nil (h : UserTable s r T) : CopiedOut s r va [] T 0 s :=
  ⟨h, 0, Nat.le_refl 0, Stored.nil s r va, fun i hi => absurd hi (Nat.not_lt_zero i), .inl ⟨rfl, rfl⟩⟩

/-- Nothing can be stored. -/
theorem UserTable.copiedOut_fail {src : List UInt8} (h : UserTable s r T) (hne : src ≠ [])
    (hw : ¬ Writable s r va) : CopiedOut s r va src T (-1) s :=
  ⟨h, 0, Nat.zero_le _, Stored.nil s r va, fun i hi => absurd hi (Nat.not_lt_zero i),
    .inr ⟨rfl, List.length_pos_iff.2 hne, hw⟩⟩

/-- A round of `copyout` and what follows it. -/
theorem CopiedOut.append {s' s'' : Memory} {src : List UInt8} {n va' : Nat} {res : Int}
    (hstored : Stored s r va (src.take n) s') (hle : n ≤ src.length)
    (hw : ∀ i < n, Writable s r (va + i)) (hnext : n = src.length ∨ va' = va + n)
    (h : CopiedOut s' r va' (src.drop n) T res s'') : CopiedOut s r va src T res s'' := by
  obtain ⟨htable, k, hk, hstored', hw', hres⟩ := h
  rw [List.length_drop] at hk hres
  have hgo : k = 0 ∨ va' = va + n := by omega
  refine ⟨htable, n + k, by omega, ?_, fun i hi => ?_, ?_⟩
  · rw [List.take_add]
    refine hstored.append ?_
    rw [List.length_take_of_le hle]
    rcases hgo with rfl | rfl
    · exact hstored'.nil_congr
    · exact hstored'
  · by_cases hi' : i < n
    · exact hw i hi'
    · have hwi := hstored.writable.1 (hw' (i - n) (by omega))
      rwa [show va' + (i - n) = va + i by omega] at hwi
  · rcases hres with ⟨rfl, rfl⟩ | ⟨rfl, hlt, hnw⟩
    · exact .inl ⟨rfl, by omega⟩
    · refine .inr ⟨rfl, by omega, fun hc => hnw (hstored.writable.2 ?_)⟩
      rwa [show va' + k = va + (n + k) by omega]

/-- **The loop of `copyout`.** -/
theorem UserTable.wp_copyoutFrom {fuel : Nat} {src : List UInt8} (h : UserTable s r T)
    (hfuel : src.length ≤ fuel) :
    wp (copyoutFrom r fuel va src) E (CopiedOut s r va src T) s := by
  induction fuel generalizing va src s with
  | zero =>
    obtain rfl := List.length_eq_zero_iff.1 (Nat.le_zero.1 hfuel)
    exact h.copiedOut_nil
  | succ fuel ih =>
    rw [copyoutFrom]
    split
    · next hnil =>
      subst hnil
      exact h.copiedOut_nil
    next hne =>
    split
    · next hge =>
      refine h.copiedOut_fail hne ?_
      rintro ⟨pa, flags, hpage, -⟩
      rw [userPage_eq_some, translation_none fun hc => absurd hc.2 (Nat.not_lt.2 hge)] at hpage
      exact absurd hpage.1 (by rintro ⟨⟩)
    next hlt =>
    refine wp_seq (h.toPageTree.wp_walk_entry (pgRoundDown_aligned va) (Nat.not_le.1 hlt)) ?_
    rintro (_ | ⟨q, k⟩) s' ⟨rfl, hnone, hentry⟩
    · refine h.copiedOut_fail hne ?_
      rintro ⟨pa, flags, hpage, -⟩
      rw [userPage_eq_some, hnone rfl] at hpage
      exact absurd hpage.1 (by rintro ⟨⟩)
    have htr := hentry q k rfl
    simp only [wp_bind, wp_loadWord, wp_ite, wp_modify, Bool.or_eq_true, Bool.not_eq_true']
    refine ⟨fun hflags => h.copiedOut_fail hne ?_, fun hflags => ?_⟩
    · rintro ⟨pa, flags, hpage, hW⟩
      obtain ⟨htr', hU⟩ := userPage_eq_some.1 hpage
      obtain ⟨hV, -, rfl⟩ := entry_eq_some.1 (htr.trans htr')
      rw [has_pteFlags _ (by decide)] at hU hW
      simp [hV, hU, hW] at hflags
    simp only [not_or, Bool.not_eq_false] at hflags
    obtain ⟨⟨hV, hU⟩, hW⟩ := hflags
    have hpage : userPage s' r va = some (pte2pa (s'.word q k), pteFlags (s'.word q k)) := by
      rw [userPage_eq_some, ← htr, entry, if_pos hV, has_pteFlags _ (by decide)]
      exact ⟨rfl, hU⟩
    generalize hn : min (PGSIZE - (va - pgRoundDown va)) src.length = n
    obtain ⟨hin, hle, hn0, hnext⟩ := next_page hn.symm
    have hwritable : ∀ i < n, Writable s' r (va + i) := by
      intro i hi
      refine ⟨pte2pa (s'.word q k), pteFlags (s'.word q k), ?_, (has_pteFlags _ (by decide)).trans hW⟩
      rw [userPage, (same_page (by omega)).1]
      exact hpage
    have hstored := h.store_write hpage (l := src.take n) (by rwa [List.length_take_of_le hle])
    rw [← sub_pgRoundDown] at hstored
    have hpos := hn0 (List.length_pos_iff.2 hne)
    refine wp_imp (ih (h.store hpage _).1 (by rw [List.length_drop]; omega)) fun res s'' hrest => ?_
    exact CopiedOut.append hstored hle hwritable hnext hrest

/-- **The loop of `copyin`** fetches the bytes. -/
theorem UserTable.wp_copyinFrom {fuel len : Nat} (h : UserTable s r T) (hfuel : len ≤ fuel) :
    wp (copyinFrom r fuel va len) E (fun res s' => s' = s ∧
      res = (fetch (userByte s r) va len,
        if (fetch (userByte s r) va len).length = len then 0 else -1)) s := by
  induction fuel generalizing va len with
  | zero =>
    obtain rfl := Nat.le_zero.1 hfuel
    exact ⟨rfl, rfl⟩
  | succ fuel ih =>
    rw [copyinFrom]
    split
    · next h0 =>
      subst h0
      exact ⟨rfl, rfl⟩
    next hpos =>
    refine wp_seq h.wp_walkaddr ?_
    rintro res s' ⟨rfl, rfl⟩
    cases hpage : userPage s' r va with
    | none =>
      refine ⟨rfl, ?_⟩
      rw [fetch_none (by rw [userByte, hpage]; rfl), List.length_nil, if_neg (Ne.symm hpos)]
    | some e =>
      generalize hn : min (PGSIZE - (va - pgRoundDown va)) len = n
      obtain ⟨-, hle, hn0, -⟩ := next_page hn.symm
      have hround := fetch_round hpage hn.symm
      have hfuel' : len - n ≤ fuel := by
        have := hn0 (by omega)
        omega
      simp only [Option.map_some, wp_bind, wp_get]
      refine wp_imp (ih hfuel') ?_
      rintro ⟨rest, ret⟩ s'' ⟨rfl, hres⟩
      obtain ⟨rfl, rfl⟩ := Prod.mk.inj hres
      refine ⟨rfl, ?_⟩
      rw [hround, List.length_append, Bytes.length_read]
      congr 1
      exact if_congr (by omega) rfl rfl

/-- **The loop of `copyinstr`** fetches the bytes and keeps those before the first zero. -/
theorem UserTable.wp_copyinstrFrom {fuel max : Nat} (h : UserTable s r T) (hfuel : max ≤ fuel) :
    wp (copyinstrFrom r fuel va max) E (fun res s' => s' = s ∧
      res = ((fetch (userByte s r) va max).takeWhile (· != 0),
        if 0 ∈ fetch (userByte s r) va max then 0 else -1)) s := by
  induction fuel generalizing va max with
  | zero =>
    obtain rfl := Nat.le_zero.1 hfuel
    exact ⟨rfl, rfl⟩
  | succ fuel ih =>
    rw [copyinstrFrom]
    split
    · next h0 =>
      subst h0
      exact ⟨rfl, rfl⟩
    next hpos =>
    refine wp_seq h.wp_walkaddr ?_
    rintro res s' ⟨rfl, rfl⟩
    cases hpage : userPage s' r va with
    | none =>
      refine ⟨rfl, ?_⟩
      rw [fetch_none (by rw [userByte, hpage]; rfl)]
      rfl
    | some e =>
      generalize hn : min (PGSIZE - (va - pgRoundDown va)) max = n
      obtain ⟨-, hle, hn0, -⟩ := next_page hn.symm
      have hround := fetch_round hpage hn.symm
      have hfuel' : max - n ≤ fuel := by
        have := hn0 (by omega)
        omega
      generalize hbytes : (s'.mem e.1).read (va - pgRoundDown va) n = bytes at hround
      have hlen : bytes.length = n := by rw [← hbytes, Bytes.length_read]
      have hend : (bytes.takeWhile (· != 0)).length < n ↔ 0 ∈ bytes := by
        rw [← hlen]
        exact length_takeWhile_lt
      simp only [Option.map_some, wp_bind, wp_get, wp_ite, wp_pure, hbytes, hend]
      rw [hround, takeWhile_round]
      refine ⟨fun h0 => ⟨trivial, ?_⟩, fun h0 => ?_⟩
      · rw [if_pos h0, if_pos (List.mem_append_left _ h0)]
      · have hall : bytes.takeWhile (· != 0) = bytes :=
          List.takeWhile_eq_self_iff.2 fun b hb => by
            rw [bne_iff_ne]
            rintro rfl
            exact h0 hb
        refine wp_imp (ih hfuel') ?_
        rintro ⟨rest, ret⟩ s'' ⟨rfl, hres⟩
        obtain ⟨rfl, rfl⟩ := Prod.mk.inj hres
        refine ⟨rfl, ?_⟩
        rw [hall, if_neg h0]
        congr 1
        exact if_congr (by simp [h0]) rfl rfl

end

/-! ## The functions -/

/-- **Copies to and from user memory are exact and confined.**  `copyout` returns `0` exactly when
the user may write every address of the range, and then has stored its bytes there and nowhere else;
`copyin` returns `0` exactly when the user may access every address of the range, and then delivers
the bytes there; `copyinstr` returns `0` exactly when there is a zero among the first `max` bytes and
the user may access every address up to it, and then delivers the string up to that zero, which fits
into `max` bytes with it.  Whatever they return, no page is written that is not the user's, no byte
is delivered that the user does not see, and reading changes nothing.  What `copyout` has stored
`copyin` reads back. -/
theorem user_copies [KernelImage] (s : Memory) (r : Nat) (T : Multiset Nat) (h : UserTable s r T) :
    (∀ dstva src, wp (copyout r dstva src) (fun _ => False) (fun res s' =>
      (res = 0 ∨ res = -1) ∧
      (res = 0 ↔ ∀ a, dstva ≤ a → a < dstva + src.length → Writable s r a) ∧
      (res = 0 → ∀ a, userByte s' r a =
        if dstva ≤ a ∧ a < dstva + src.length then src[a - dstva]? else userByte s r a) ∧
      (∀ q, ¬ UserOwned s r q → s'.mem q = s.mem q) ∧
      translation s' r = translation s r ∧ s'.freeList = s.freeList) s) ∧
    (∀ srcva len, wp (copyin r srcva len) (fun _ => False) (fun res s' => s' = s ∧
      (res.2 = 0 ∨ res.2 = -1) ∧
      (res.2 = 0 ↔ ∀ a, srcva ≤ a → a < srcva + len → Accessible s r a) ∧
      (res.2 = 0 → res.1.length = len) ∧
      res.1.length ≤ len ∧ ∀ i < res.1.length, userByte s r (srcva + i) = res.1[i]?) s) ∧
    (∀ srcva max, wp (copyinstr r srcva max) (fun _ => False) (fun res s' => s' = s ∧
      (res.2 = 0 ∨ res.2 = -1) ∧
      (res.2 = 0 ↔ ∃ n < max, userByte s r (srcva + n) = some 0 ∧
        ∀ i ≤ n, Accessible s r (srcva + i)) ∧
      (res.2 = 0 → res.1.length < max ∧ userByte s r (srcva + res.1.length) = some 0) ∧
      res.1.length ≤ max ∧
      ∀ i < res.1.length, userByte s r (srcva + i) = res.1[i]? ∧ res.1[i]? ≠ some 0) s) ∧
    (∀ va src, wp (do return (← copyout r va src, ← copyin r va src.length)) (fun _ => False)
      (fun res _ => res.1 = 0 → res.2 = (src, 0)) s) := by
  refine ⟨fun dstva src => ?_, fun srcva len => ?_, fun srcva max => ?_, fun va src => ?_⟩
  · refine wp_imp (h.wp_copyoutFrom (Nat.le_refl _)) ?_
    rintro res s' ⟨-, k, hk, hstored, hw, hres⟩
    refine ⟨?_, ?_, fun h0 => ?_, hstored.rest, hstored.pages, hstored.freeList⟩
    · exact hres.imp And.left And.left
    · rcases hres with ⟨rfl, rfl⟩ | ⟨rfl, hlt, hnw⟩
      · refine ⟨fun _ a hle ha => ?_, fun _ => rfl⟩
        obtain ⟨i, rfl⟩ := Nat.exists_eq_add_of_le hle
        exact hw i (by omega)
      · exact ⟨fun hc => absurd hc (by decide), fun hall => absurd (hall _ (by omega) (by omega)) hnw⟩
    · obtain rfl : k = src.length := by
        rcases hres with ⟨-, hk⟩ | ⟨hneg, -⟩
        · exact hk
        · exact absurd (h0.symm.trans hneg) (by decide)
      have hbytes := hstored.bytes
      rwa [List.take_length] at hbytes
  · refine wp_imp (h.wp_copyinFrom (Nat.le_refl _)) ?_
    rintro _ s' ⟨rfl, rfl⟩
    have hiff : (fetch (userByte s' r) srcva len).length = len ↔
        ∀ a, srcva ≤ a → a < srcva + len → Accessible s' r a := by
      rw [length_fetch_eq]
      constructor
      · intro hall a hle ha
        obtain ⟨i, rfl⟩ := Nat.exists_eq_add_of_le hle
        exact isSome_userByte.1 (hall i (by omega))
      · exact fun hall i hi => isSome_userByte.2 (hall _ (by omega) (by omega))
    refine ⟨rfl, ite_eq_or_eq _ _ _, ?_, fun h0 => ?_, length_fetch_le _ _ _,
      fun i hi => (getElem?_fetch hi).symm⟩
    · rw [← hiff]
      split <;> simp_all
    · by_contra hne
      exact absurd ((if_neg hne).symm.trans h0) (by decide)
  · refine wp_imp (h.wp_copyinstrFrom (Nat.le_refl _)) ?_
    rintro _ s' ⟨rfl, rfl⟩
    generalize hl : fetch (userByte s' r) srcva max = l
    have hget : ∀ i < l.length, l[i]? = userByte s' r (srcva + i) := by
      rw [← hl]
      exact fun i hi => getElem?_fetch hi
    have hmax : l.length ≤ max := hl ▸ length_fetch_le _ _ _
    have hle : (l.takeWhile (· != 0)).length ≤ l.length := (List.takeWhile_sublist _).length_le
    have hiff : 0 ∈ l ↔ ∃ n < max, userByte s' r (srcva + n) = some 0 ∧
        ∀ i ≤ n, Accessible s' r (srcva + i) := by
      simp only [← isSome_userByte, ← hl]
      exact zero_mem_fetch
    refine ⟨rfl, ite_eq_or_eq _ _ _, ?_, fun h0 => ?_, hle.trans hmax, fun i hi => ?_⟩
    · rw [← hiff]
      split <;> simp_all
    · have hmem : 0 ∈ l := by
        by_contra hne
        exact absurd ((if_neg hne).symm.trans h0) (by decide)
      have hlt := length_takeWhile_lt.2 hmem
      exact ⟨lt_of_lt_of_le hlt hmax, (hget _ hlt).symm.trans (getElem?_length_takeWhile hmem)⟩
    · obtain ⟨hsame, hne⟩ := getElem?_takeWhile hi
      exact ⟨(hget i (lt_of_lt_of_le hi hle)).symm.trans hsame.symm, hne⟩
  · refine wp_seq (h.wp_copyoutFrom (Nat.le_refl _)) ?_
    rintro res s' ⟨h', k, hk, hstored, hw, hres⟩
    refine wp_seq (h'.wp_copyinFrom (Nat.le_refl _)) ?_
    rintro _ s'' ⟨rfl, rfl⟩ h0
    obtain rfl : k = src.length := by
      rcases hres with ⟨-, hk⟩ | ⟨hneg, -⟩
      · exact hk
      · exact absurd (h0.symm.trans hneg) (by decide)
    have hbytes := hstored.bytes
    rw [List.take_length] at hbytes
    have hfetch : fetch (userByte s'' r) va src.length = src := fetch_eq fun i hi => by
      rw [hbytes, if_pos (by omega), Nat.add_sub_cancel_left]
    rw [hfetch, if_pos rfl]

/-- Two pages next to each other, mapped readable and writable for the user. -/
theorem emptyTable_mapTwo : ∃ s T, @PageTree smallImage s emptyRoot T ∧ translation s emptyRoot =
    PageMap.add (fun _ => none) 0 KERNBASE (PTE_R ||| PTE_W ||| PTE_U) 2 := by
  have hcheck : returns (mappages emptyRoot 0 (2 * PGSIZE) KERNBASE (PTE_R ||| PTE_W ||| PTE_U))
      emptyTable 0 (fun _ => true) = true := by decide +kernel
  obtain ⟨s, hrun, -⟩ := of_returns hcheck
  let _ := smallImage
  have hmap := emptyTable_tree.wp_mappages (E := fun _ => False) (show 0 % PGSIZE = 0 from rfl)
    (show 2 * PGSIZE % PGSIZE = 0 from rfl) (by decide) (show KERNBASE % PGSIZE = 0 from rfl)
    (by decide) (by decide) (show PTE_R ||| PTE_W ||| PTE_U < 1024 by decide)
    fun i _ => emptyTable_translation _
  obtain ⟨T, n, htree, htr, ⟨-, hn⟩ | ⟨hneg, -⟩⟩ := wp_ok hmap hrun
  · refine ⟨s, T, htree, ?_⟩
    rw [htr, funext emptyTable_translation, hn, Nat.mul_div_cancel _ (by decide)]
  · exact absurd hneg (by decide)

/-- Four bytes are stored across the end of the first page: the user sees them in both pages, and what
follows is as it was. -/
theorem user_copies_across : ∃ s T, @UserTable smallImage s emptyRoot T ∧
    ∃ s', (copyout emptyRoot (PGSIZE - 2) [1, 2, 3, 4]).run s = .ok (0, s') ∧
      userByte s' emptyRoot (PGSIZE - 1) = some 2 ∧ userByte s' emptyRoot PGSIZE = some 3 ∧
      userByte s' emptyRoot (PGSIZE + 2) = userByte s emptyRoot (PGSIZE + 2) := by
  obtain ⟨s, T, htree, hmap⟩ := emptyTable_mapTwo
  have hpage : ∀ va pa flags, userPage s emptyRoot va = some (pa, flags) →
      pa = KERNBASE + pgRoundDown va ∧ pgRoundDown va < 2 * PGSIZE := by
    intro va pa flags hp
    have htr := (userPage_eq_some.1 hp).1
    rw [hmap, PageMap.add] at htr
    split at htr
    · next hin =>
      have hpa := (Prod.mk.inj (Option.some.inj htr)).1
      simp only [PGSIZE] at *
      omega
    · exact absurd htr (by rintro ⟨⟩)
  have htable : @UserTable smallImage s emptyRoot T := by
    let _ := smallImage
    refine ⟨htree, ?_, ?_, ?_⟩
    · intro va pa flags hp hmem
      obtain ⟨rfl, hlt⟩ := hpage va pa flags hp
      have hge := (htree.owned.pageOk hmem).ge
      have hend : smallImage.kernelEnd = KERNBASE + 2 * PGSIZE := rfl
      omega
    · intro va va' pa flags flags' hp hp'
      have := (hpage va pa flags hp).1
      have := (hpage va' pa flags' hp').1
      omega
    · intro va flags hp
      have hpos : 0 < KERNBASE := by decide
      have := (hpage va 0 flags hp).1
      omega
  refine ⟨s, T, htable, ?_⟩
  obtain ⟨res, s', hrun, -, hiff, hbytes, -⟩ :=
    wp_total ((@user_copies smallImage s emptyRoot T htable).1 (PGSIZE - 2) [1, 2, 3, 4])
  have h0 : res = 0 := hiff.2 fun a hle hlt => by
    refine ⟨KERNBASE + (pgRoundDown a - 0), PTE_R ||| PTE_W ||| PTE_U ||| PTE_V,
      userPage_eq_some.2 ⟨?_, by decide⟩, by decide⟩
    have hlt : a < PGSIZE - 2 + 4 := hlt
    have hround : pgRoundDown a < 0 + 2 * PGSIZE := by
      simp only [pgRoundDown, PGSIZE] at *
      omega
    rw [hmap, PageMap.add, if_pos ⟨pgRoundDown_aligned a, Nat.zero_le _, hround⟩]
  refine ⟨s', h0 ▸ hrun, ?_, ?_, ?_⟩
  · rw [hbytes h0, if_pos (by decide)]
    rfl
  · rw [hbytes h0, if_pos (by decide)]
    rfl
  · rw [hbytes h0, if_neg (by decide)]

end VirtualMemory
end Xv6pp
