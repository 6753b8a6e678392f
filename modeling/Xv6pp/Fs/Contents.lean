import Xv6pp.Fs.Inodes

/-!
# The contents of files

What a file is for those who read and write it: a sequence of bytes.  `fileByte` is the byte at an
offset of a file, and `readi` and `writei` are described by the bytes they return and change.
A file without holes has a block for each of its bytes, so that reading it allocates nothing.
-/

set_option autoImplicit false

namespace Xv6pp

open Prog FileSystem Allocation

/-! ## The bytes of a file -/

/-- The block with number `bn` of the file `i`, `0` if there is none. -/
def Fs.fileBlock (s : Fs) (D : Nat → Dinode) (i bn : Nat) : Nat :=
  if bn < MAXFILE then s.slots D (i, fileSlot bn) else 0

/-- The byte at offset `o` of the file `i`.  A hole reads as zero. -/
def Fs.fileByte (s : Fs) (D : Nat → Dinode) (i o : Nat) : UInt8 :=
  if s.fileBlock D i (o / BSIZE) = 0 then 0
  else Bytes.get (s.data (s.fileBlock D i (o / BSIZE))) (o % BSIZE)

/-- The `n` bytes from offset `o` of the file `i` on. -/
def Fs.fileBytes (s : Fs) (D : Nat → Dinode) (i o n : Nat) : List UInt8 :=
  (List.range n).map fun k => s.fileByte D i (o + k)

/-- Every byte of an allocated inode has a block. -/
def NoHoles (s : Fs) (D : Nat → Dinode) : Prop :=
  ∀ i, s.sb.IsInum i → (D i).type ≠ 0 → ∀ bn, bn * BSIZE < (D i).size → s.fileBlock D i bn ≠ 0

section
variable {s s' : Fs} {D D' : Nat → Dinode} {i j bn o n : Nat}

theorem Fs.fileBlock_eq (h : bn < MAXFILE) : s.fileBlock D i bn = s.slots D (i, fileSlot bn) :=
  if_pos h

theorem Fs.lt_of_fileBlock (h : s.fileBlock D i bn ≠ 0) : bn < MAXFILE := by
  by_contra hno
  exact h (if_neg hno)

theorem Fs.slots_of_fileBlock (h : s.fileBlock D i bn ≠ 0) : s.slots D (i, fileSlot bn) ≠ 0 := by
  rwa [Fs.fileBlock_eq (Fs.lt_of_fileBlock h)] at h

@[simp] theorem Fs.length_fileBytes : (s.fileBytes D i o n).length = n := by simp [Fs.fileBytes]

/-- The bytes of a piece within one block. -/
theorem Fs.read_fileBlock (hb : s.fileBlock D i (o / BSIZE) ≠ 0) (hn : o % BSIZE + n ≤ BSIZE) :
    Bytes.read (s.data (s.fileBlock D i (o / BSIZE))) (o % BSIZE) n = s.fileBytes D i o n := by
  have hpos : 0 < BSIZE := by decide
  refine List.map_congr_left fun k hk => ?_
  have hk : k < n := List.mem_range.1 hk
  have hdiv : (o + k) / BSIZE = o / BSIZE := by
    have h1 := Nat.div_add_mod o BSIZE
    refine Nat.div_eq_of_lt_le ?_ ?_
    · rw [Nat.mul_comm]
      omega
    · rw [Nat.add_mul, Nat.mul_comm]
      omega
  have hmod : (o + k) % BSIZE = o % BSIZE + k := by
    rw [Nat.add_mod, Nat.mod_eq_of_lt (a := k) (by omega), Nat.mod_eq_of_lt (by omega)]
  rw [Fs.fileByte, hdiv, if_neg hb, hmod]

theorem Fs.fileBytes_append (o m n : Nat) :
    s.fileBytes D i o (m + n) = s.fileBytes D i o m ++ s.fileBytes D i (o + m) n := by
  rw [Fs.fileBytes, List.range_add, List.map_append, List.map_map]
  congr 1
  refine List.map_congr_left fun k _ => ?_
  rw [Function.comp_apply, Nat.add_assoc]

theorem Fs.fileBytes_congr (h : ∀ k < n, s'.fileByte D' j (o + k) = s.fileByte D i (o + k)) :
    s'.fileBytes D' j o n = s.fileBytes D i o n :=
  List.map_congr_left fun k hk => h k (List.mem_range.1 hk)

/-- The bytes of the files depend on the slots and on the data in them. -/
theorem Fs.fileByte_congr (hslot : s'.slots D' (j, fileSlot (o / BSIZE)) = s.slots D (j, fileSlot (o / BSIZE)))
    (hdata : s.slots D (j, fileSlot (o / BSIZE)) ≠ 0 →
      s'.data (s.slots D (j, fileSlot (o / BSIZE))) = s.data (s.slots D (j, fileSlot (o / BSIZE)))) :
    s'.fileByte D' j o = s.fileByte D j o := by
  rw [Fs.fileByte, Fs.fileByte]
  by_cases hlt : o / BSIZE < MAXFILE
  · rw [Fs.fileBlock_eq hlt, Fs.fileBlock_eq hlt, hslot]
    split
    · rfl
    · next hne => rw [hdata hne]
  · rw [Fs.fileBlock, Fs.fileBlock, if_neg hlt, if_neg hlt, if_pos rfl, if_pos rfl]

theorem Fs.fileBlock_congr (hslot : s'.slots D' = s.slots D) :
    s'.fileBlock D' = s.fileBlock D := by
  funext j bn
  rw [Fs.fileBlock, Fs.fileBlock, hslot]

end

/-! ## Reading -/

section
variable {E : Panic → Prop} {s : Fs} {D : Nat → Dinode} {i : Nat} {ip : InodeId}

theorem wp_readFrom {dst : Nat → List UInt8 → Bool} {n : Nat} (h : Consistent s D (some i) none)
    (hip : Core s ip i) :
    ∀ {fuel tot off : Nat} {bytes : List UInt8}, tot ≤ n → n ≤ tot + fuel →
      (∀ bn, bn * BSIZE < off + (n - tot) → s.fileBlock D i bn ≠ 0) →
      wp (ideal (readFrom ip dst n fuel tot off bytes)) E (fun r s' => s' = s ∧
        (r = ((n : Int), bytes ++ s.fileBytes D i off (n - tot)) ∨
          r.1 = -1 ∧ ∃ t piece, dst t piece = false)) s := by
  have hpos : 0 < BSIZE := by decide
  intro fuel
  induction fuel with
  | zero =>
    intro tot off bytes htot hfuel _
    obtain rfl : tot = n := by omega
    rw [readFrom, Nat.sub_self]
    exact ⟨rfl, .inl (by rw [Fs.fileBytes, List.range_zero, List.map_nil, List.append_nil])⟩
  | succ fuel ih =>
    intro tot off bytes htot hfuel hmap
    rw [readFrom]
    split
    · next hlt =>
      have hblock : s.fileBlock D i (off / BSIZE) ≠ 0 := by
        refine hmap _ ?_
        have := Nat.div_mul_le_self off BSIZE
        omega
      have hbn := Fs.lt_of_fileBlock hblock
      have heq := Fs.fileBlock_eq (s := s) (D := D) (i := i) hbn
      refine wp_ideal_seq (wp_bmap_mapped h hip hbn (Fs.slots_of_fileBlock hblock)) ?_
      rintro addr s' ⟨rfl, rfl⟩
      rw [← heq, if_neg hblock]
      simp only [wp_ideal_bind, wp_bread, wp_brelse]
      have hmod : off % BSIZE < BSIZE := Nat.mod_lt _ hpos
      -- the piece that is copied in this round
      have hm : ∃ m, min (n - tot) (BSIZE - off % BSIZE) = m ∧ 0 < m ∧ m ≤ n - tot ∧
          off % BSIZE + m ≤ BSIZE := ⟨_, rfl, by omega, by omega, by omega⟩
      obtain ⟨m, hmeq, hm0, hmn, hmb⟩ := hm
      rw [hmeq, Fs.read_fileBlock hblock hmb]
      split
      · refine wp_imp (@ih (tot + m) (off + m) _ (by omega) (by omega) fun bn hbn' => ?_) ?_
        · exact hmap bn (by omega)
        · rintro r s'' ⟨rfl, hr | hr⟩
          · refine ⟨rfl, .inl ?_⟩
            have hsplit : n - tot = m + (n - (tot + m)) := by omega
            rw [hr, List.append_assoc, hsplit, Fs.fileBytes_append]
          · exact ⟨rfl, .inr hr⟩
      · next hdst =>
        exact ⟨rfl, .inr ⟨rfl, tot, _, Bool.eq_false_iff.2 hdst⟩⟩
    · next hge =>
      obtain rfl : tot = n := by omega
      rw [Nat.sub_self]
      exact ⟨rfl, .inl (by rw [Fs.fileBytes, List.range_zero, List.map_nil, List.append_nil])⟩

/-- **Reading from a file without holes**: nothing if the range is not in the file, otherwise the
bytes that are there unless they cannot be delivered; and nothing changes. -/
theorem wp_readi {dst : Nat → List UInt8 → Bool} {off n : Nat} (h : Consistent s D (some i) none)
    (hh : NoHoles s D) (hip : Core s ip i) (ht : (D i).type ≠ 0) :
    wp (ideal (readi ip dst off n)) E (fun r s' => s' = s ∧
      (((D i).size < off ∨ (off + n) % 2 ^ 32 < off) ∧ r = (0, []) ∨
        off ≤ (D i).size ∧ (r = (((min n ((D i).size - off) : Nat) : Int),
          s.fileBytes D i off (min n ((D i).size - off))) ∨
          r.1 = -1 ∧ ∃ t piece, dst t piece = false))) s := by
  have hcopy := hip.copy h
  have hmap := hh i (hip.isInum h) ht
  rw [readi, wp_ideal_bind, wp_inode, hcopy]
  dsimp only
  split
  · next hcond => exact ⟨rfl, .inl ⟨hcond, rfl⟩⟩
  · next hcond =>
    have hlen : (if (D i).size < off + n then (D i).size - off else n) = min n ((D i).size - off) := by
      split <;> omega
    rw [hlen]
    refine wp_imp (wp_readFrom h hip (Nat.zero_le _) (by omega) fun bn hbn => hmap bn (by omega)) ?_
    rintro r s' ⟨rfl, hr⟩
    refine ⟨rfl, .inr ⟨by omega, hr.imp_left fun hr => ?_⟩⟩
    rw [hr, Nat.sub_zero, List.nil_append]

/-- Reading by the kernel. -/
theorem wp_readKernel {off n : Nat} (h : Consistent s D (some i) none) (hh : NoHoles s D)
    (hip : Core s ip i) (ht : (D i).type ≠ 0) (hoff : off ≤ (D i).size) (hn : off + n < 2 ^ 32) :
    wp (ideal (readKernel ip off n)) E (fun r s' => s' = s ∧
      r = (((min n ((D i).size - off) : Nat) : Int),
        s.fileBytes D i off (min n ((D i).size - off)))) s := by
  refine wp_imp (wp_readi h hh hip ht) ?_
  rintro r s' ⟨rfl, ⟨hout, -⟩ | ⟨-, hr | ⟨-, t, piece, hno⟩⟩⟩
  · rw [Nat.mod_eq_of_lt hn] at hout
    omega
  · exact ⟨rfl, hr⟩
  · cases hno

end

/-! ## Writing -/

/-- The source of a write: a run of bytes of which some may turn out not to be there.  Copying `m`
bytes moves `moves tot m` of them, and succeeds if these are all. -/
structure Source where
  /-- The bytes. -/
  bytes : Nat → UInt8
  /-- How many bytes are moved of the `m` from offset `tot` on. -/
  moves : Nat → Nat → Nat
  moves_le : ∀ tot m, moves tot m ≤ m

/-- What copying in from the source does. -/
def Source.copy (src : Source) (tot m : Nat) : List UInt8 × Bool :=
  ((List.range (src.moves tot m)).map fun k => src.bytes (tot + k), decide (src.moves tot m = m))

/-- Bytes of the kernel. -/
def Source.kernel (bytes : List UInt8) : Source where
  bytes k := bytes.getD k 0
  moves tot m := min m (bytes.length - tot)
  moves_le _ _ := Nat.min_le_left ..

/-- The inode `i` was written to: `len` bytes from offset `off` on are now those of `f`, the rest of
the files is as it was, and the size of the file is `size`. -/
structure Wrote (s : Fs) (D : Nat → Dinode) (ip : InodeId) (i : Nat) (dirty : Option Nat)
    (size off len : Nat) (f : Nat → UInt8) (s' : Fs) (D' : Nat → Dinode) : Prop where
  consistent : Consistent s' D' dirty none
  sb : s'.sb = s.sb
  self : s'.inode ip = { s.inode ip with copy := D' i }
  other : ∀ {k}, k ≠ ip → s'.inode k = s.inode k
  inodes : ∀ {j}, j ≠ i → D' j = D j
  fields : ∃ a, D' i = { D i with addrs := a, size := size }
  blocks : ∀ {j bn}, s.fileBlock D j bn ≠ 0 → s'.fileBlock D' j bn ≠ 0
  bytes : ∀ j o, s'.fileByte D' j o =
    if j = i ∧ off ≤ o ∧ o < off + len then f o else s.fileByte D j o

section
variable {E : Panic → Prop} {s s' s'' : Fs} {D D' D'' : Nat → Dinode} {i : Nat} {ip : InodeId}
  {dirty dirty' : Option Nat} {size size' off len len' : Nat} {f : Nat → UInt8}

theorem Grows.fileByte (h : Grows s D ip i s' D') (j o : Nat) :
    s'.fileByte D' j o = s.fileByte D j o := by
  have hne := fileSlot_ne_indirect (o / BSIZE)
  by_cases hold : s.slots D (j, fileSlot (o / BSIZE)) ≠ 0 ∨ j ≠ i
  · refine Fs.fileByte_congr (h.slots hold) fun hne0 => h.kept hne hne0
  · rw [not_or, not_ne_iff, not_ne_iff] at hold
    obtain ⟨h0, rfl⟩ := hold
    have hbefore : s.fileByte D j o = 0 := by
      rw [Fs.fileByte, Fs.fileBlock, h0, ite_self, if_pos rfl]
    rw [hbefore, Fs.fileByte]
    split
    · rfl
    · next hnew =>
      have hslot := Fs.slots_of_fileBlock hnew
      rw [Fs.fileBlock_eq (Fs.lt_of_fileBlock hnew), h.zeroed hne h0 hslot]
      rw [Bytes.get]
      split <;> rfl

theorem Grows.wrote (h : Grows s D ip i s' D') (off : Nat) (f : Nat → UInt8) :
    Wrote s D ip i (some i) (D i).size off 0 f s' D' where
  consistent := h.consistent
  sb := h.sb
  self := h.self
  other := h.other
  inodes := h.inodes
  fields := h.fields
  blocks {j bn} hne := by
    have hlt := Fs.lt_of_fileBlock hne
    have hslot := Fs.slots_of_fileBlock hne
    rw [Fs.fileBlock_eq hlt, h.slots (.inl hslot)]
    exact hslot
  bytes j o := by
    rw [if_neg (by omega)]
    exact h.fileByte j o

namespace Wrote

theorem core (h : Wrote s D ip i dirty size off len f s' D') (hip : Core s ip i) :
    Core s' ip i := by
  obtain ⟨h1, h2, h3⟩ := hip
  refine ⟨?_, ?_, ?_⟩
  · rw [h.self]
    exact h1
  · rw [h.self]
    exact h2
  · rw [h.self]
    exact h3

theorem type_eq (h : Wrote s D ip i dirty size off len f s' D') (j : Nat) :
    (D' j).type = (D j).type := by
  by_cases hj : j = i
  · subst hj
    obtain ⟨a, ha⟩ := h.fields
    rw [ha]
  · rw [h.inodes hj]

/-- Writing on where the first write ended. -/
theorem trans (h : Wrote s D ip i dirty size off len f s' D')
    (h' : Wrote s' D' ip i dirty' size' (off + len) len' f s'' D'') :
    Wrote s D ip i dirty' size' off (len + len') f s'' D'' where
  consistent := h'.consistent
  sb := h'.sb.trans h.sb
  self := by rw [h'.self, h.self]
  other hk := (h'.other hk).trans (h.other hk)
  inodes hj := (h'.inodes hj).trans (h.inodes hj)
  fields := by
    obtain ⟨a, ha⟩ := h.fields
    obtain ⟨a', ha'⟩ := h'.fields
    exact ⟨a', by rw [ha', ha]⟩
  blocks hne := h'.blocks (h.blocks hne)
  bytes j o := by
    rw [h'.bytes, h.bytes]
    split
    · next h1 => rw [if_pos ⟨h1.1, by omega, by omega⟩]
    · next h1 =>
      split
      · next h2 => rw [if_pos ⟨h2.1, h2.2.1, by omega⟩]
      · next h2 =>
        rw [if_neg]
        intro h3
        by_cases hlt : o < off + len
        · exact h2 ⟨h3.1, h3.2.1, hlt⟩
        · exact h1 ⟨h3.1, by omega, by omega⟩

end Wrote

variable (off) in
/-- Storing a part of one block of the file. -/
theorem Consistent.wroteBlock {l : List UInt8} (h : Consistent s D (some i) none) (hip : Core s ip i)
    (hb : s.fileBlock D i (off / BSIZE) ≠ 0) (hlen : off % BSIZE + l.length ≤ BSIZE)
    (hf : ∀ k, k < l.length → l.getD k 0 = f (off + k)) :
    let b := s.fileBlock D i (off / BSIZE)
    Wrote s D ip i (some i) (D i).size off l.length f
      (s.store b (Bytes.write (s.data b) (off % BSIZE) l)) D := by
  intro b
  have hlt := Fs.lt_of_fileBlock hb
  have hslot := Fs.slots_of_fileBlock hb
  have hbslot : b = s.slots D (i, fileSlot (off / BSIZE)) := Fs.fileBlock_eq hlt
  have hpos : 0 < BSIZE := by decide
  -- the block is in no other slot
  have hother : ∀ p, s.slots D p = b → p = (i, fileSlot (off / BSIZE)) := fun p hp =>
    (h.blocks.inj (i := (i, fileSlot (off / BSIZE))) hslot (hbslot.symm.trans hp.symm)).symm
  obtain ⟨hc, hslots⟩ := h.store (b := b) (d := Bytes.write (s.data b) (off % BSIZE) l)
    (hbslot ▸ (h.blocks.range hslot).1) fun j hj =>
      fileSlot_ne_indirect _ (Prod.ext_iff.1 (hother _ hj)).2.symm
  have hblocks := Fs.fileBlock_congr hslots
  refine ⟨hc, rfl, (Grows.refl h hip).self, fun _ => rfl, fun _ => rfl, ⟨(D i).addrs, rfl⟩, ?_, ?_⟩
  · intro j bn hne
    rwa [hblocks]
  · intro j o
    by_cases hsame : j = i ∧ o / BSIZE = off / BSIZE
    · obtain ⟨rfl, hdiv⟩ := hsame
      have hoff := Nat.div_add_mod off BSIZE
      have ho := Nat.div_add_mod o BSIZE
      have hol := Nat.mod_lt o hpos
      rw [hdiv] at ho
      rw [Fs.fileByte, Fs.fileByte, hblocks, hdiv, if_neg hb, if_neg hb, Fs.store_data_self,
        Bytes.get_write hol]
      by_cases hin : off ≤ o ∧ o < off + l.length
      · rw [if_pos (by omega), if_pos ⟨rfl, hin⟩]
        have hk := hf (o - off) (by omega)
        have h1 : o % BSIZE - off % BSIZE = o - off := by omega
        have h2 : off + (o - off) = o := by omega
        rw [h1, hk, h2]
      · rw [if_neg (by omega), if_neg fun hc => hin hc.2]
    · have hout : ¬ (j = i ∧ off ≤ o ∧ o < off + l.length) := fun hc => by
        refine hsame ⟨hc.1, ?_⟩
        have hoff := Nat.div_add_mod off BSIZE
        refine Nat.div_eq_of_lt_le ?_ ?_
        · rw [Nat.mul_comm]
          omega
        · rw [Nat.add_mul, Nat.mul_comm]
          omega
      rw [if_neg hout]
      by_cases holt : o / BSIZE < MAXFILE
      · refine Fs.fileByte_congr (congrFun hslots _) fun _ => Fs.store_data_of_ne _ _ _ fun e => ?_
        have hp := Prod.ext_iff.1 (hother _ e)
        exact hsame ⟨hp.1, fileSlot_inj holt hlt hp.2⟩
      · rw [Fs.fileByte, Fs.fileByte, Fs.fileBlock, Fs.fileBlock, if_neg holt, if_neg holt]
        rfl

/-- Logging changes nothing that is in a file. -/
theorem Wrote.setLog {l : Log} (h : Wrote s D ip i dirty size off len f s' D')
    (hl : LogOk s'.sb l) : Wrote s D ip i dirty size off len f (s'.setLog l) D' :=
  { h with consistent := h.consistent.setLog hl }

/-- What `writeFrom` does from offset `off` on, with `tot` bytes already done: it writes all bytes up
to the ones it reports, and `x` more if the last copy failed after that many. -/
structure WroteFrom (s : Fs) (D : Nat → Dinode) (ip : InodeId) (i : Nat) (src : Source)
    (n tot off : Nat) (r : Nat × Nat) (s' : Fs) (D' : Nat → Dinode) (x : Nat) : Prop where
  wrote : Wrote s D ip i (some i) (D i).size off (r.1 - tot + x) (fun o => src.bytes (o - off + tot))
    s' D'
  stop : r.2 = off + (r.1 - tot)
  ge : tot ≤ r.1
  le : r.1 ≤ n
  mapped : ∀ o, off ≤ o → o < r.2 → s'.fileBlock D' i (o / BSIZE) ≠ 0
  /-- A short write is due to a full disk, where a block was missing, or to the source. -/
  short : r.1 < n → ((∀ c, c < s'.sb.size → s'.bit c = true) ∧ s.fileBlock D i (r.2 / BSIZE) = 0) ∨
    ∃ m, r.1 + m ≤ n ∧ src.moves r.1 m < m
  /-- A short write ends where a block does. -/
  edge : r.1 < n → r.1 = tot ∨ r.2 % BSIZE = 0
  /-- What was moved by a copy that failed. -/
  failed : x = 0 ∨ ∃ m, r.1 + m ≤ n ∧ src.moves r.1 m = x ∧ x < m

/-- `bmap` finds no block only where there was none. -/
theorem wp_bmap_unmapped {bn : Nat} (h : Consistent s D (some i) none) (hip : Core s ip i)
    (hbn : bn < MAXFILE) :
    wp (ideal (bmap ip bn)) (fun _ => True)
      (fun res _ => res = 0 → s.slots D (i, fileSlot bn) = 0) s := by
  by_cases hne : s.slots D (i, fileSlot bn) = 0
  · exact wp_imp (wp_const hne) fun _ _ hpost _ => hpost
  · refine wp_imp (wp_bmap_mapped h hip hbn hne) ?_
    rintro res s' ⟨rfl, -⟩ h0
    exact h0

theorem wp_writeFrom (hE : LogStops E) {src : Source} {n : Nat} :
    ∀ {fuel tot off : Nat} {s : Fs} {D : Nat → Dinode}, Consistent s D (some i) none → Core s ip i →
      (D i).type ≠ 0 → tot ≤ n → n ≤ tot + fuel → off + (n - tot) ≤ MAXFILE * BSIZE →
      wp (ideal (writeFrom ip src.copy n fuel tot off)) E (fun r s' =>
        ∃ D' x, WroteFrom s D ip i src n tot off r s' D' x) s := by
  have hpos : 0 < BSIZE := by decide
  intro fuel
  induction fuel with
  | zero =>
    intro tot off s D h hip ht htot hfuel hmax
    obtain rfl : tot = n := by omega
    refine ⟨D, 0, ?_, ?_, le_rfl, le_rfl, fun o h1 h2 => ?_, fun hlt => ?_, fun _ => .inl rfl, .inl rfl⟩
    · rw [Nat.sub_self]
      exact (Grows.refl h hip).wrote off _
    · rw [Nat.sub_self]
      rfl
    · exact absurd h2 (Nat.not_lt.2 h1)
    · exact absurd hlt (lt_irrefl _)
  | succ fuel ih =>
    intro tot off s D h hip ht htot hfuel hmax
    rw [writeFrom]
    split
    · next hlt =>
      have hbn : off / BSIZE < MAXFILE := by
        rw [Nat.div_lt_iff_lt_mul hpos]
        omega
      refine wp_ideal_seq (wp_and (wp_bmap hE h hip ht hbn) (wp_bmap_unmapped h hip hbn)) ?_
      rintro addr s₁ ⟨⟨D₁, hg, hfull, hres⟩, hunmapped⟩
      have hg' := hg.wrote off fun o => src.bytes (o - off + tot)
      split
      · next h0 =>
        -- the disk is full
        refine ⟨D₁, 0, ?_, ?_, le_rfl, htot, fun o h1 h2 => ?_, fun _ => .inl ⟨hfull h0, ?_⟩,
          fun _ => .inl rfl, .inl rfl⟩
        · rw [Nat.sub_self]
          exact hg'
        · rw [Nat.sub_self]
          rfl
        · exact absurd h2 (Nat.not_lt.2 h1)
        · rw [Fs.fileBlock_eq hbn]
          exact hunmapped h0
      · next hne =>
        have hblock : s₁.fileBlock D₁ i (off / BSIZE) = addr := by
          rw [Fs.fileBlock_eq hbn, hres hne]
        have hmod : off % BSIZE < BSIZE := Nat.mod_lt _ hpos
        have hm : ∃ m, min (n - tot) (BSIZE - off % BSIZE) = m ∧ 0 < m ∧ m ≤ n - tot ∧
            off % BSIZE + m ≤ BSIZE := ⟨_, rfl, by omega, by omega, by omega⟩
        obtain ⟨m, hmeq, hm0, hmn, hmb⟩ := hm
        have hlen : (src.copy tot m).1.length = src.moves tot m := by
          rw [Source.copy, List.length_map, List.length_range]
        have hle := src.moves_le tot m
        have hstore := hg.consistent.wroteBlock off (hg.core hip) (l := (src.copy tot m).1)
          (f := fun o => src.bytes (o - off + tot)) (by rwa [hblock]) (by rw [hlen]; omega)
          fun k hk => by
            rw [hlen] at hk
            have hidx : off + k - off + tot = tot + k := by omega
            rw [hidx, Source.copy]
            simp [hk]
        rw [hblock, hlen] at hstore
        have hw := hg'.trans hstore
        rw [Nat.zero_add, hg.size_eq] at hw
        simp only [wp_ideal_bind, wp_bread, wp_bstore]
        rw [hmeq]
        have hcopy2 : (src.copy tot m).2 = true ↔ src.moves tot m = m := by
          rw [Source.copy, decide_eq_true_eq]
        split
        · next hok =>
          rw [hcopy2] at hok
          rw [hok] at hw
          simp only [wp_ideal_bind, wp_brelse]
          have hhome : s₁.sb.Home addr := by
            rw [← hblock, Fs.fileBlock_eq hbn]
            exact hg.consistent.home (by rwa [hres hne])
          refine wp_logWrite (s := s₁.store _ _) hE hg.consistent.layout hg.consistent.log hhome
            fun l hl => ?_
          have hw' := hw.setLog hl
          refine wp_imp (@ih (tot + m) (off + m) _ _ hw'.consistent (hw'.core hip)
            (by rwa [hw'.type_eq]) (by omega) (by omega) (by omega)) ?_
          rintro r s₂ ⟨D₂, x, hr⟩
          have hge := hr.ge
          have hoff := hr.stop
          have hsize : (D₁ i).size = (D i).size := hg.size_eq i
          have hw₂ := hr.wrote
          rw [hsize] at hw₂
          refine ⟨D₂, x, ?_, by omega, by omega, hr.le, fun o h1 h2 => ?_, fun hlt' => ?_,
            fun hlt' => ?_, hr.failed⟩
          · have hsum : r.1 - tot + x = m + (r.1 - (tot + m) + x) := by omega
            rw [hsum]
            refine hw'.trans ⟨hw₂.consistent, hw₂.sb, hw₂.self, hw₂.other, hw₂.inodes, hw₂.fields,
              hw₂.blocks, fun j o => ?_⟩
            rw [hw₂.bytes]
            split
            · next hin =>
              congr 1
              omega
            · rfl
          · by_cases hin : off + m ≤ o
            · exact hr.mapped o hin h2
            · refine hw₂.blocks ?_
              have hdiv : o / BSIZE = off / BSIZE := by
                have h3 := Nat.div_add_mod off BSIZE
                refine Nat.div_eq_of_lt_le ?_ ?_
                · rw [Nat.mul_comm]
                  omega
                · rw [Nat.add_mul, Nat.mul_comm]
                  omega
              refine hstore.blocks ?_
              rw [hdiv, hblock]
              exact hne
          · refine (hr.short hlt').imp_left fun hfull' => ⟨hfull'.1, ?_⟩
            by_contra hold
            exact hw'.blocks hold hfull'.2
          · rcases hr.edge hlt' with h1 | h1
            · -- this piece was not the last one, so it went up to the end of its block
              have hend : off + m = (off / BSIZE + 1) * BSIZE := by
                have h3 := Nat.div_add_mod off BSIZE
                rw [Nat.add_mul, Nat.mul_comm]
                omega
              have hstop : r.2 = off + m := by omega
              exact .inr (by rw [hstop, hend, Nat.mul_mod_left])
            · exact .inr h1
        · next hfail =>
          rw [hcopy2] at hfail
          have hlt' : src.moves tot m < m := by omega
          refine ⟨D₁, src.moves tot m, ?_, ?_, le_rfl, htot, fun o h1 h2 => ?_, fun _ => ?_,
            fun _ => .inl rfl, .inr ⟨m, by show tot + m ≤ n; omega, rfl, hlt'⟩⟩
          · rw [Nat.sub_self, Nat.zero_add]
            exact hw
          · rw [Nat.sub_self]
            rfl
          · exact absurd h2 (Nat.not_lt.2 h1)
          · exact .inr ⟨m, by show tot + m ≤ n; omega, hlt'⟩
    · next hge =>
      obtain rfl : tot = n := by omega
      refine ⟨D, 0, ?_, ?_, le_rfl, le_rfl, fun o h1 h2 => ?_, fun hlt => ?_, fun _ => .inl rfl,
        .inl rfl⟩
      · rw [Nat.sub_self]
        exact (Grows.refl h hip).wrote off _
      · rw [Nat.sub_self]
        rfl
      · exact absurd h2 (Nat.not_lt.2 h1)
      · exact absurd hlt (lt_irrefl _)

/-! ## Writing back inodes -/

/-- The inodes after one of them was stored. -/
theorem Fs.dinode_store_iblock {d : Dinode} (hd : d.Fits) (j : Nat) :
    (s.store (s.sb.iblock i) ((s.data (s.sb.iblock i)).setDinode (i % IPB) d)).dinode j =
      if j = i then d else s.dinode j := by
  have hpos : 0 < IPB := by decide
  rw [Fs.dinode, Fs.store_sb]
  by_cases hblock : s.sb.iblock j = s.sb.iblock i
  · rw [hblock, Fs.store_data_self]
    by_cases hmod : j % IPB = i % IPB
    · have hdiv : j / IPB = i / IPB := Nat.add_right_cancel hblock
      have hji : j = i := by
        have h1 := Nat.div_add_mod j IPB
        have h2 := Nat.div_add_mod i IPB
        rw [hdiv, hmod] at h1
        exact h1.symm.trans h2
      rw [if_pos hji, hmod, Block.dinode_setDinode (Nat.mod_lt _ hpos) hd]
    · have hji : j ≠ i := fun e => hmod (by rw [e])
      rw [if_neg hji, Block.dinode_setDinode_of_ne hmod, Fs.dinode, hblock]
  · have hji : j ≠ i := fun e => hblock (by rw [e])
    rw [if_neg hji, Fs.store_data_of_ne _ _ _ hblock, Fs.dinode]

/-- The data blocks and the in-core inodes are as they were: what changes is in the inode blocks. -/
structure InodesOnly (s : Fs) (s' : Fs) : Prop where
  sb : s'.sb = s.sb
  inode : s'.inode = s.inode
  data : ∀ {b}, s.sb.bmapstart ≤ b → s'.data b = s.data b

namespace InodesOnly

theorem bit (h : InodesOnly s s') (c : Nat) : s'.bit c = s.bit c := by
  rw [Fs.bit, Fs.bit, h.sb, h.data (s.sb.bmapstart_le_bblock c)]

/-- The slots of the inodes stay the same. -/
theorem slots (h : InodesOnly s s') (hc : Consistent s D dirty none) : s'.slots D = s.slots D := by
  rw [Fs.slots, h.sb]
  refine slots_congr fun j hj => h.data ?_
  have hj' : s.slots D (j, .indirect) ≠ 0 := hj
  exact hc.layout.bmapstart_lt.le.trans (hc.blocks.range hj').1

theorem fileByte (h : InodesOnly s s') (hc : Consistent s D dirty none) (j o : Nat) :
    s'.fileByte D j o = s.fileByte D j o :=
  Fs.fileByte_congr (congrFun (h.slots hc) _) fun hne =>
    h.data (hc.layout.bmapstart_lt.le.trans (hc.blocks.range hne).1)

end InodesOnly

/-- **`iupdate`** makes the disk agree with the inode in core. -/
theorem wp_iupdate (hE : LogStops E) (h : Consistent s D (some i) none) (hip : Core s ip i) :
    wp (ideal (iupdate ip)) E (fun _ s' => Consistent s' D none none ∧ InodesOnly s s') s := by
  have hcopy := hip.copy h
  have hi := hip.isInum h
  have hinum : (s.inode ip).inum = i := hip.inum
  rw [iupdate]
  simp only [wp_ideal_bind, wp_inode, wp_superblock, wp_bread, wp_bstore, wp_brelse]
  rw [hinum, hcopy]
  refine wp_logWrite (s := s.store _ _) hE h.layout h.log (h.layout.home_iblock hi) fun l hl => ?_
  have honly : InodesOnly s ((s.store (s.sb.iblock i)
      ((s.data (s.sb.iblock i)).setDinode (i % IPB) (D i))).setLog l) := by
    refine ⟨rfl, rfl, fun {b} hb => ?_⟩
    rw [Fs.setLog_data, Fs.store_data_of_ne]
    exact (lt_of_lt_of_le (h.layout.inodes hi) hb).ne'
  refine ⟨⟨h.toIncore, h.layout, hl, ?_, fun {j} hj _ => ?_, h.fits⟩, honly⟩
  · rw [honly.slots h]
    exact h.blocks.congr_bit fun c _ => honly.bit c
  · rw [Fs.dinode_setLog, Fs.dinode_store_iblock (h.fits i)]
    split
    · next hji => rw [hji]
    · next hji => exact h.disk hj fun e => hji (Option.some.inj e).symm

/-- Writing back the inode that was written to. -/
theorem Wrote.updated (h : Wrote s D ip i (some i) size off len f s' D')
    (hc : Consistent s'' D' none none) (ho : InodesOnly s' s'') :
    Wrote s D ip i none size off len f s'' D' where
  consistent := hc
  sb := ho.sb.trans h.sb
  self := by rw [ho.inode]; exact h.self
  other hk := by rw [ho.inode]; exact h.other hk
  inodes := h.inodes
  fields := h.fields
  blocks hne := by
    rw [Fs.fileBlock_congr (ho.slots h.consistent)]
    exact h.blocks hne
  bytes j o := by
    rw [ho.fileByte h.consistent]
    exact h.bytes j o

/-- Changing the size of the file. -/
theorem Wrote.setSize (h : Wrote s D ip i (some i) size off len f s' D') (hip : Core s ip i)
    (hsize : size' < 2 ^ 32) :
    let d := { D' i with size := size' }
    Wrote s D ip i (some i) size' off len f (s'.setInode ip { s'.inode ip with copy := d })
      (Function.update D' i d) := by
  intro d
  have hslots : s'.slots (Function.update D' i d) = s'.slots D' :=
    slots_update_fields Iff.rfl rfl
  have hf := h.consistent.fits i
  refine ⟨h.consistent.setCopy (h.core hip) ⟨hf.type, hf.major, hf.minor, hf.nlink, hsize, hf.addrs⟩ ?_,
    h.sb, ?_, fun hk => ?_, fun hj => ?_, ?_, fun hne => ?_, fun j o => ?_⟩
  · rw [hslots]
    exact h.consistent.blocks
  · rw [Fs.setInode_inode_self, Function.update_self, h.self]
  · rw [Fs.setInode_inode_of_ne _ _ _ hk, h.other hk]
  · rw [Function.update_of_ne hj, h.inodes hj]
  · obtain ⟨a, ha⟩ := h.fields
    exact ⟨a, by rw [Function.update_self]; show { D' i with size := size' } = _; rw [ha]⟩
  · have := h.blocks hne
    rwa [← Fs.fileBlock_congr hslots] at this
  · rw [← h.bytes]
    exact Fs.fileByte_congr (congrFun hslots _) fun _ => rfl

/-- A write leaves no holes if it begins within the file. -/
theorem Wrote.noHoles (h : Wrote s D ip i dirty size off len f s' D') (hh : NoHoles s D)
    (hoff : off ≤ (D i).size)
    (hnew : ∀ o, off ≤ o → o < size → (D i).size ≤ o → s'.fileBlock D' i (o / BSIZE) ≠ 0) :
    NoHoles s' D' := by
  have hpos : 0 < BSIZE := by decide
  intro j hj ht bn hbn
  rw [h.sb] at hj
  rw [h.type_eq] at ht
  by_cases hji : j = i
  · subst hji
    obtain ⟨a, ha⟩ := h.fields
    rw [ha] at hbn
    by_cases hold : bn * BSIZE < (D j).size
    · exact h.blocks (hh j hj ht bn hold)
    · have := hnew (bn * BSIZE) (by omega) hbn (by omega)
      rwa [Nat.mul_div_cancel _ hpos] at this
  · rw [h.inodes hji] at hbn
    exact h.blocks (hh j hj ht bn hbn)

/-- What `writei` has done when it returns `tot`: the bytes up to the ones it reports are written, and
`x` more if the copy of the block after them failed half-way. -/
structure Written (s : Fs) (D : Nat → Dinode) (ip : InodeId) (i : Nat) (src : Source) (off n : Nat)
    (s' : Fs) (D' : Nat → Dinode) (tot x : Nat) : Prop where
  le : tot ≤ n
  off_le : off ≤ (D i).size
  fits : off + n ≤ MAXFILE * BSIZE
  wrote : Wrote s D ip i none (max (D i).size (off + tot)) off (tot + x) (fun o => src.bytes (o - off))
    s' D'
  noHoles : NoHoles s' D'
  /-- A short write is due to a full disk, where a block was missing, or to the source. -/
  short : tot < n → ((∀ c, c < s'.sb.size → s'.bit c = true) ∧
      s.fileBlock D i ((off + tot) / BSIZE) = 0) ∨ ∃ m, tot + m ≤ n ∧ src.moves tot m < m
  /-- A short write ends where a block does. -/
  edge : tot < n → tot = 0 ∨ (off + tot) % BSIZE = 0
  /-- What was moved by a copy that failed. -/
  failed : x = 0 ∨ ∃ m, tot + m ≤ n ∧ src.moves tot m = x ∧ x < m

/-- **`writei`** refuses a write that does not fit, and otherwise writes a part of the bytes. -/
theorem wp_writei (hE : LogStops E) {src : Source} {n : Nat} (h : Consistent s D none none)
    (hh : NoHoles s D) (hip : Core s ip i) (ht : (D i).type ≠ 0) :
    wp (ideal (writei ip src.copy off n)) E (fun r s' =>
      (r = -1 ∧ s' = s ∧
        ((D i).size < off ∨ (off + n) % 2 ^ 32 < off ∨ MAXFILE * BSIZE < off + n)) ∨
      ∃ (tot x : Nat) (D' : Nat → Dinode), r = tot ∧ Written s D ip i src off n s' D' tot x) s := by
  have hcopy := hip.copy (h.weaken (some i))
  rw [writei, wp_ideal_bind, wp_inode, hcopy]
  dsimp only
  split
  · next hsize => exact .inl ⟨rfl, rfl, hsize.imp_right .inl⟩
  next hsize =>
  split
  · next hmax => exact .inl ⟨rfl, rfl, .inr (.inr hmax)⟩
  next hmax =>
  have hoff : off ≤ (D i).size := by omega
  refine wp_ideal_seq (wp_writeFrom hE (h.weaken _) hip ht (Nat.zero_le n) (by omega) (by omega)) ?_
  rintro ⟨tot, off'⟩ s₁ ⟨D₁, x, hw⟩
  have hstop : off' = off + tot := hw.stop
  subst hstop
  have hw₁ := hw.wrote
  obtain ⟨a, ha⟩ := hw₁.fields
  have hcopy₁ := (hw₁.core hip).copy hw₁.consistent
  have hle : tot ≤ n := hw.le
  simp only [wp_ideal_bind, wp_updateCopy]
  rw [hcopy₁]
  have hnewsize : (if (D₁ i).size < off + tot then off + tot else (D₁ i).size)
      = max (D i).size (off + tot) := by
    rw [ha]
    show (if (D i).size < off + tot then off + tot else (D i).size) = _
    split <;> omega
  rw [hnewsize]
  have hbig : max (D i).size (off + tot) < 2 ^ 32 := by
    have h1 := (h.fits i).size
    have h2 : MAXFILE * BSIZE < 2 ^ 32 := by decide
    omega
  have hw₂ := hw₁.setSize hip hbig
  refine wp_imp (wp_iupdate hE hw₂.consistent (hw₂.core hip)) ?_
  rintro _ s₂ ⟨hc, ho⟩
  have hw₃ := hw₂.updated hc ho
  have hshort : tot < n → ((∀ c, c < s₂.sb.size → s₂.bit c = true) ∧
      s.fileBlock D i ((off + tot) / BSIZE) = 0) ∨ ∃ m, tot + m ≤ n ∧ src.moves tot m < m := by
    intro hlt
    refine (hw.short hlt).imp_left fun hfull => ⟨fun c hc => ?_, hfull.2⟩
    rw [ho.sb] at hc
    rw [ho.bit]
    exact hfull.1 c hc
  refine .inr ⟨tot, x, _, rfl, hle, hoff, by omega, hw₃, ?_, hshort, hw.edge, hw.failed⟩
  refine hw₃.noHoles hh hoff fun o h1 h2 h3 => ?_
  have hmap := hw.mapped o h1 (by show o < off + tot; omega)
  have hslots : s₁.slots (Function.update D₁ i { D₁ i with size := max (D i).size (off + tot) })
      = s₁.slots D₁ := slots_update_fields Iff.rfl rfl
  rw [Fs.fileBlock_congr (ho.slots hw₂.consistent)]
  have : (s₁.setInode ip { s₁.inode ip with
      copy := { D₁ i with size := max (D i).size (off + tot) } }).fileBlock
        (Function.update D₁ i { D₁ i with size := max (D i).size (off + tot) }) = s₁.fileBlock D₁ :=
    Fs.fileBlock_congr hslots
  rwa [this]

end

end Xv6pp
