import Xv6pp.Fs.Ideal
import Xv6pp.Lib.Allocation

/-!
# Block allocation

What `balloc` and `bfree` do to the free map, and which blocks the inodes refer to.  The blocks of an
inode are in its *slots*: the addresses in the inode itself, the last of which is that of the
indirect block, and the addresses in the indirect block.  `slots` is the assignment of blocks to the
slots of all allocated inodes.
-/

set_option autoImplicit false

namespace Xv6pp

open Prog FileSystem

/-! ## `balloc` and `bfree` -/

section
variable {E : Panic → Prop} {s : Fs} {b : Nat}

theorem Superblock.bblock_add (sb : Superblock) {b i : Nat} (hb : b % BPB = 0) (hi : i < BPB) :
    sb.bblock (b + i) = sb.bblock b ∧ (b + i) % BPB = i := by
  have hpos : 0 < BPB := by decide
  obtain ⟨q, rfl⟩ := Nat.dvd_of_mod_eq_zero hb
  rw [Superblock.bblock, Superblock.bblock, Nat.mul_add_div hpos, Nat.div_eq_of_lt hi,
    Nat.mul_div_cancel_left q hpos, Nat.mul_add_mod, Nat.mod_eq_of_lt hi, Nat.add_zero]
  exact ⟨rfl, rfl⟩

/-- The state after block `b` has been allocated and zeroed. -/
def Fs.alloced (s : Fs) (b : Nat) (l : Log) : Fs :=
  ((s.store (s.sb.bblock b) ((s.data (s.sb.bblock b)).setBit (b % BPB))).store b
    (Bytes.zero BSIZE)).setLog l

/-- The state after block `b` has been freed. -/
def Fs.freed (s : Fs) (b : Nat) (l : Log) : Fs :=
  (s.store (s.sb.bblock b) ((s.data (s.sb.bblock b)).clearBit (b % BPB))).setLog l

theorem wp_ballocFrom (hE : LogStops E) (hsb : s.sb.Layout) (hl : LogOk s.sb s.log)
    (hmeta : ∀ c, c < s.sb.datastart → s.bit c = true) {n : Nat} (hb : b % BPB = 0)
    (hfull : ∀ c, c < b → c < s.sb.size → s.bit c = true) (hn : s.sb.size ≤ b + n * BPB) :
    wp (ideal (ballocFrom s.sb n b)) E (fun res s' =>
      (res = 0 ∧ s' = s ∧ ∀ c, c < s.sb.size → s.bit c = true) ∨
      (res < s.sb.size ∧ s.bit res = false ∧ ∃ l, LogOk s.sb l ∧ s' = s.alloced res l)) s := by
  induction n generalizing b with
  | zero =>
    refine .inl ⟨rfl, rfl, fun c hc => hfull c ?_ hc⟩
    omega
  | succ n ih =>
    have hbit : ∀ {i}, i < BPB → s.bit (b + i) = (s.data (s.sb.bblock b)).bit i := fun hi => by
      obtain ⟨h1, h2⟩ := s.sb.bblock_add hb hi
      rw [Fs.bit, h1, h2]
    rw [ballocFrom, wp_ideal_bind, wp_bread]
    cases hfree : (s.data (s.sb.bblock b)).freeBit (min BPB (s.sb.size - b)) with
    | some bi =>
      obtain ⟨hbi, hclear⟩ := Block.freeBit_some hfree
      have hbi' : bi < BPB := by omega
      have hlt : b + bi < s.sb.size := by omega
      obtain ⟨hblock, hmod⟩ := s.sb.bblock_add hb hbi'
      have hclear' : s.bit (b + bi) = false := (hbit hbi').trans hclear
      have hdata : s.sb.datastart ≤ b + bi := Nat.le_of_not_lt fun h => by
        rw [hmeta _ h] at hclear'
        exact absurd hclear' (by decide)
      refine wp_logged hE hsb hl (hblock ▸ hsb.home_bblock hlt) fun l hl' => ?_
      simp only [wp_ideal_bind]
      refine wp_imp (wp_bzero (s := (s.store _ _).setLog l) hE hsb hl' (hsb.home_data hdata hlt)) ?_
      rintro _ s' ⟨l', hl'', rfl⟩
      refine .inr ⟨hlt, hclear', l', hl'', ?_⟩
      rw [Fs.alloced, hblock, hmod]
      rfl
    | none =>
      simp only [wp_ideal_bind, wp_brelse]
      refine ih (by rw [Nat.add_mod_right]; exact hb) (fun c hc hsize => ?_) ?_
      · rcases Nat.lt_or_ge c b with hcb | hcb
        · exact hfull c hcb hsize
        · obtain ⟨i, rfl⟩ := Nat.exists_eq_add_of_le hcb
          rw [hbit (by omega)]
          exact Block.freeBit_none hfree (by omega)
      · rw [Nat.add_assoc, Nat.add_comm BPB, ← Nat.succ_mul]
        exact hn

/-- **`balloc`** finds a free block, marks and zeroes it, or finds that there is none. -/
theorem wp_balloc (hE : LogStops E) (hsb : s.sb.Layout) (hl : LogOk s.sb s.log)
    (hmeta : ∀ c, c < s.sb.datastart → s.bit c = true) :
    wp (ideal balloc) E (fun res s' =>
      (res = 0 ∧ s' = s ∧ ∀ c, c < s.sb.size → s.bit c = true) ∨
      (res < s.sb.size ∧ s.bit res = false ∧ ∃ l, LogOk s.sb l ∧ s' = s.alloced res l)) s := by
  rw [balloc, wp_ideal_bind, wp_superblock]
  refine wp_ballocFrom hE hsb hl hmeta (Nat.zero_mod _) (fun c hc => absurd hc (Nat.not_lt_zero c)) ?_
  have := Nat.div_add_mod (s.sb.size + BPB - 1) BPB
  have hmod := Nat.mod_lt (s.sb.size + BPB - 1) (show 0 < BPB by decide)
  rw [Nat.mul_comm] at this
  show s.sb.size ≤ 0 + (s.sb.size + BPB - 1) / BPB * BPB
  omega

/-- **`bfree`** of a block that is marked unmarks it. -/
theorem wp_bfree (hE : LogStops E) (hsb : s.sb.Layout) (hl : LogOk s.sb s.log)
    (hb : b < s.sb.size) (hbit : s.bit b = true) :
    wp (ideal (bfree b)) E (fun _ s' => ∃ l, LogOk s.sb l ∧ s' = s.freed b l) s := by
  have hbit' : ¬ (s.data (s.sb.bblock b)).bit (b % BPB) = false := by
    rw [Bool.not_eq_false]
    exact hbit
  rw [bfree, wp_ideal_bind, wp_superblock, wp_ideal_bind, wp_bread, if_neg hbit']
  exact wp_logged hE hsb hl (hsb.home_bblock hb) fun l hl' => ⟨l, hl', rfl⟩

end

/-! ## The free map after a change -/

section
variable {s : Fs} {b c : Nat} {d : Block} {l : Log}

theorem Superblock.bblock_eq_of_mod {sb : Superblock} {b c : Nat} (h : sb.bblock c = sb.bblock b)
    (hmod : c % BPB = b % BPB) : c = b := by
  have hdiv : c / BPB = b / BPB := Nat.add_right_cancel h
  have h1 := Nat.div_add_mod c BPB
  have h2 := Nat.div_add_mod b BPB
  rw [hdiv, hmod] at h1
  exact h1.symm.trans h2

/-- Storing a block that is not part of the free map does not change it. -/
theorem Fs.bit_store (hne : s.sb.bblock c ≠ b) : (s.store b d).bit c = s.bit c := by
  rw [Fs.bit, Fs.bit, Fs.store_sb, Fs.store_data_of_ne _ _ _ hne]

@[simp] theorem Fs.bit_setLog : (s.setLog l).bit c = s.bit c := rfl

@[simp] theorem Fs.dinode_setLog (i : Nat) : (s.setLog l).dinode i = s.dinode i := rfl

/-- Storing a block of the free map with one bit changed. -/
theorem Fs.bit_store_bblock {bits : Block} {v : Bool → Bool}
    (hbits : ∀ j < BPB, bits.bit j =
      if j = b % BPB then v ((s.data (s.sb.bblock b)).bit j) else (s.data (s.sb.bblock b)).bit j) :
    (s.store (s.sb.bblock b) bits).bit c = if c = b then v (s.bit c) else s.bit c := by
  have hpos : 0 < BPB := by decide
  by_cases hblock : s.sb.bblock c = s.sb.bblock b
  · have hbit : (s.store (s.sb.bblock b) bits).bit c = bits.bit (c % BPB) := by
      rw [Fs.bit, Fs.store_sb, hblock, Fs.store_data_self]
    have hold : s.bit c = (s.data (s.sb.bblock b)).bit (c % BPB) := by rw [Fs.bit, hblock]
    rw [hbit, hbits _ (Nat.mod_lt _ hpos), hold]
    by_cases hcb : c = b
    · rw [if_pos hcb, if_pos (by rw [hcb])]
    · rw [if_neg hcb, if_neg fun hmod => hcb (Superblock.bblock_eq_of_mod hblock hmod)]
  · have hcb : c ≠ b := fun e => hblock (by rw [e])
    rw [if_neg hcb, Fs.bit_store hblock]

theorem Fs.bit_alloced (hsb : s.sb.Layout) (hb : s.sb.datastart ≤ b) (hc : c < s.sb.size) :
    (s.alloced b l).bit c = (decide (c = b) || s.bit c) := by
  have hne : s.sb.bblock c ≠ b := (lt_of_lt_of_le (hsb.bitmap hc) hb).ne
  rw [Fs.alloced, Fs.bit_setLog, Fs.bit_store (by exact hne),
    Fs.bit_store_bblock (v := fun _ => true) fun j hj => by
      rw [Block.bit_setBit hj]
      split <;> simp [*]]
  split <;> simp [*]

theorem Fs.bit_freed : (s.freed b l).bit c = (decide (c ≠ b) && s.bit c) := by
  rw [Fs.freed, Fs.bit_setLog, Fs.bit_store_bblock (v := fun _ => false) fun j hj => by
      rw [Block.bit_clearBit hj]
      split <;> simp [*]]
  split <;> simp [*]

/-- The inodes are not in the blocks that `balloc` changes. -/
theorem Fs.dinode_alloced (hsb : s.sb.Layout) (hb : s.sb.datastart ≤ b) {i : Nat}
    (hi : s.sb.IsInum i) : (s.alloced b l).dinode i = s.dinode i := by
  have h1 : s.sb.iblock i ≠ b := (lt_of_lt_of_le (hsb.iblock_lt hi) hb).ne
  have h2 : s.sb.iblock i ≠ s.sb.bblock b := hsb.iblock_ne_bblock hi b
  rw [Fs.alloced, Fs.dinode_setLog, Fs.dinode, Fs.dinode]
  simp only [Fs.store_sb]
  rw [Fs.store_data_of_ne _ _ _ h1, Fs.store_data_of_ne _ _ _ h2]

theorem Fs.dinode_freed (hsb : s.sb.Layout) {i : Nat} (hi : s.sb.IsInum i) :
    (s.freed b l).dinode i = s.dinode i := by
  have h2 : s.sb.iblock i ≠ s.sb.bblock b := hsb.iblock_ne_bblock hi b
  rw [Fs.freed, Fs.dinode_setLog, Fs.dinode, Fs.dinode]
  simp only [Fs.store_sb]
  rw [Fs.store_data_of_ne _ _ _ h2]

/-- The data blocks after an allocation. -/
theorem Fs.data_alloced (hsb : s.sb.Layout) (hb : b < s.sb.size) (hc : s.sb.datastart ≤ c) :
    (s.alloced b l).data c = if c = b then Bytes.zero BSIZE else s.data c := by
  have h2 : c ≠ s.sb.bblock b := (lt_of_lt_of_le (hsb.bitmap hb) hc).ne'
  rw [Fs.alloced, Fs.setLog_data]
  split
  · next h =>
    rw [h, Fs.store_data_self]
  · next h => rw [Fs.store_data_of_ne _ _ _ h, Fs.store_data_of_ne _ _ _ h2]

theorem Fs.data_freed (hsb : s.sb.Layout) (hb : b < s.sb.size) (hc : s.sb.datastart ≤ c) :
    (s.freed b l).data c = s.data c := by
  have h2 : c ≠ s.sb.bblock b := (lt_of_lt_of_le (hsb.bitmap hb) hc).ne'
  rw [Fs.freed, Fs.setLog_data, Fs.store_data_of_ne _ _ _ h2]

end

/-! ## The blocks of an inode -/

/-- A place for a block address. -/
inductive Slot
  /-- An address in the inode. -/
  | addr (i : Fin (NDIRECT + 1))
  /-- An address in the indirect block. -/
  | entry (j : Fin NINDIRECT)
  deriving DecidableEq

/-- The slot of the indirect block. -/
def Slot.indirect : Slot := .addr (Fin.last NDIRECT)

/-- The block in a slot of an inode, `0` for none. -/
def Dinode.slot (d : Dinode) (data : Nat → Block) : Slot → Nat
  | .addr i => d.addrs i
  | .entry j => if d.indirect = 0 then 0 else (data d.indirect).entry j

/-- The blocks in the slots of all allocated inodes. -/
def slots (sb : Superblock) (data : Nat → Block) (D : Nat → Dinode) (p : Nat × Slot) : Nat :=
  if sb.IsInum p.1 ∧ (D p.1).type ≠ 0 then (D p.1).slot data p.2 else 0

section
variable {sb : Superblock} {data data' : Nat → Block} {D : Nat → Dinode} {i : Nat} {d : Dinode}
  {sl : Slot} {v : Nat}

theorem slots_eq (hi : sb.IsInum i) (ht : (D i).type ≠ 0) (sl : Slot) :
    slots sb data D (i, sl) = (D i).slot data sl := if_pos ⟨hi, ht⟩

theorem slots_ne_zero {p : Nat × Slot} (h : slots sb data D p ≠ 0) :
    sb.IsInum p.1 ∧ (D p.1).type ≠ 0 := by
  by_contra hno
  exact h (if_neg hno)

theorem slots_eq_zero_of_free (ht : (D i).type = 0) (sl : Slot) :
    slots sb data D (i, sl) = 0 := if_neg fun h => h.2 ht

theorem Dinode.slot_congr (h : d.indirect ≠ 0 → data' d.indirect = data d.indirect) (sl : Slot) :
    d.slot data' sl = d.slot data sl := by
  cases sl with
  | addr i => rfl
  | entry j =>
    rw [Dinode.slot, Dinode.slot]
    split
    · rfl
    · next hne => rw [h hne]

/-- The slots of an inode depend on the content of its indirect block only. -/
theorem slots_congr_at {j : Nat} (h : slots sb data D (j, .indirect) ≠ 0 →
    data' (slots sb data D (j, .indirect)) = data (slots sb data D (j, .indirect))) (sl : Slot) :
    slots sb data' D (j, sl) = slots sb data D (j, sl) := by
  by_cases hp : sb.IsInum j ∧ (D j).type ≠ 0
  · have hs : slots sb data D (j, .indirect) = (D j).indirect := slots_eq hp.1 hp.2 _
    rw [slots_eq hp.1 hp.2, slots_eq hp.1 hp.2]
    refine Dinode.slot_congr (fun hne => ?_) sl
    rw [hs] at h
    exact h hne
  · rw [slots, slots, if_neg hp, if_neg hp]

theorem slots_congr (h : ∀ j, slots sb data D (j, .indirect) ≠ 0 →
    data' (slots sb data D (j, .indirect)) = data (slots sb data D (j, .indirect))) :
    slots sb data' D = slots sb data D :=
  funext fun p => slots_congr_at (h p.1) p.2

/-- **A change of one inode.**  The slots of the others stay the same. -/
theorem slots_update_apply (p : Nat × Slot) (h : p.1 ≠ i) :
    slots sb data (Function.update D i d) p = slots sb data D p := by
  rw [slots, slots, Function.update_of_ne h]

/-- A change of one inode that changes none of its slots. -/
theorem slots_update_same (h : ∀ sl, slots sb data (Function.update D i d) (i, sl)
    = slots sb data D (i, sl)) : slots sb data (Function.update D i d) = slots sb data D := by
  funext p
  by_cases hp : p.1 = i
  · obtain ⟨j, sl⟩ := p
    obtain rfl : j = i := hp
    exact h sl
  · exact slots_update_apply p hp

/-- A change of one inode that changes one of its slots. -/
theorem slots_update_one (h : ∀ sl', slots sb data (Function.update D i d) (i, sl')
    = if sl' = sl then v else slots sb data D (i, sl')) :
    slots sb data (Function.update D i d) = Function.update (slots sb data D) (i, sl) v := by
  funext p
  by_cases hp : p.1 = i
  · obtain ⟨j, sl'⟩ := p
    obtain rfl : j = i := hp
    rw [h sl', Function.update_apply]
    by_cases hsl : sl' = sl
    · rw [if_pos hsl, if_pos (by rw [hsl])]
    · rw [if_neg hsl, if_neg fun e => hsl (Prod.ext_iff.1 e).2]
  · rw [slots_update_apply p hp, Function.update_of_ne fun e => hp (by rw [e])]

/-- Changing fields of an inode other than the addresses changes no slot. -/
theorem slots_update_fields (ht : (D i).type ≠ 0 ↔ d.type ≠ 0) (ha : d.addrs = (D i).addrs) :
    slots sb data (Function.update D i d) = slots sb data D := by
  have hslot : ∀ sl, d.slot data sl = (D i).slot data sl := fun sl => by
    cases sl with
    | addr i => exact congrFun ha i
    | entry j =>
      have hind : d.indirect = (D i).indirect := congrFun ha _
      rw [Dinode.slot, Dinode.slot, hind]
  refine slots_update_same fun sl => ?_
  rw [slots, slots]
  simp only [Function.update_self, hslot, ht]

/-- Freeing or allocating an inode that has no blocks changes no slot. -/
theorem slots_update_empty (h : ∀ sl, slots sb data D (i, sl) = 0) (hd : d.type = 0 ∨ d.addrs = fun _ => 0) :
    slots sb data (Function.update D i d) = slots sb data D := by
  refine slots_update_same fun sl => ?_
  rw [h sl, slots]
  split
  · next hc =>
    rw [Function.update_self] at hc ⊢
    rcases hd with hd | hd
    · exact absurd hd hc.2
    · cases sl with
      | addr k => exact congrFun hd k
      | entry j =>
        rw [Dinode.slot, Dinode.indirect, hd, if_pos rfl]
  · rfl

end

end Xv6pp
