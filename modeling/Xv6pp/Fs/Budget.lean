import Mathlib.Data.Finset.Card
import Xv6pp.Fs.Truncate

/-!
# How many blocks a function logs

`log_write` panics when the running transaction is full, so whoever calls a function of the file
system has to know how many blocks the function may log.  `Log.Room l S k` says that the transaction
has room for all of the blocks `S` and for `k` more, whichever these are: `S` is for the blocks that
are known in advance and logged again and again — those of the free map and of the inodes involved —
and `k` for the blocks that depend on where data lies.  Logging a block of `S` costs nothing;
announcing a block (`Log.Room.insert`) costs one of the `k`.

The lemmas here say what each function costs, whatever else it does; `wp_budget` puts them together
with the lemmas that say what it does.
-/

set_option autoImplicit false

namespace Xv6pp

open Prog FileSystem

/-! ## Room in a transaction -/

/-- The transaction has room for the blocks `S` and `k` more. -/
structure Log.Room (l : Log) (S : Finset Nat) (k : Nat) : Prop where
  outstanding : 1 ≤ l.outstanding
  nodup : l.header.blocks.Nodup
  header : (l.header.blocks.toFinset ∪ S).card + k < LOGSIZE
  area : (l.header.blocks.toFinset ∪ S).card + k < l.size - 1

section
variable {l l' : Log} {S S' : Finset Nat} {k k' b : Nat}

namespace Log.Room

theorem mono (h : l.Room S k) (hS : S' ⊆ S) (hk : k' ≤ k) : l.Room S' k' := by
  have hle : (l.header.blocks.toFinset ∪ S').card ≤ (l.header.blocks.toFinset ∪ S).card :=
    Finset.card_le_card (Finset.union_subset_union_right hS)
  have h1 := h.header
  have h2 := h.area
  exact ⟨h.outstanding, h.nodup, by omega, by omega⟩

/-- A block is announced. -/
theorem insert (h : l.Room S (k + 1)) (b : Nat) : l.Room (insert b S) k := by
  have hle : (l.header.blocks.toFinset ∪ Insert.insert b S).card ≤
      (l.header.blocks.toFinset ∪ S).card + 1 := by
    rw [Finset.union_insert]
    exact Finset.card_insert_le _ _
  have h1 := h.header
  have h2 := h.area
  exact ⟨h.outstanding, h.nodup, by omega, by omega⟩

theorem of_insert (h : l.Room (Insert.insert b S) k) : l.Room S k :=
  h.mono (Finset.subset_insert b S) le_rfl

/-- The transaction has fewer blocks than there is room for. -/
theorem n_le (h : l.Room S k) : l.header.n ≤ (l.header.blocks.toFinset ∪ S).card := by
  rw [← Log.length_blocks, ← List.toFinset_card_of_nodup h.nodup]
  exact Finset.card_le_card Finset.subset_union_left

/-- **`log_write`** of a block that there is room for. -/
theorem logWrite (h : l.Room S k) (hb : b ∈ S) :
    ∃ l' pinned, l.logWrite b = .ok (l', pinned) ∧ l'.Room S k := by
  have hn := h.n_le
  have h1 := h.header
  have h2 := h.area
  have h3 := h.outstanding
  rw [Log.logWrite_eq, if_neg (by omega), if_neg (by omega)]
  by_cases hmem : b ∈ l.header.blocks
  · exact ⟨l, false, if_pos hmem, h⟩
  · refine ⟨_, true, if_neg hmem, h3, ?_, ?_, ?_⟩
    · rw [Log.blocks_push]
      exact List.nodup_append.2 ⟨h.nodup, List.nodup_singleton b, fun c hc d hd => by
        rw [List.mem_singleton.1 hd]
        rintro rfl
        exact hmem hc⟩
    all_goals
      have hsame : (l.header.push b).blocks.toFinset ∪ S = l.header.blocks.toFinset ∪ S := by
        rw [Log.blocks_push, List.toFinset_append, Finset.union_assoc]
        congr 1
        exact Finset.union_eq_right.2 fun c hc => by
          rw [List.mem_toFinset, List.mem_singleton] at hc
          rwa [hc]
      rw [hsame]
      assumption

end Log.Room

end

/-! ## Budgets -/

/-- The panics of `log_write` are allowed, or the transaction has room. -/
def Budget (E : Panic → Prop) (S : Finset Nat) (k : Nat) (s : Fs) : Prop :=
  LogStops E ∨ s.log.Room S k

/-- All panics but those of `log_write`. -/
def OtherStops (E : Panic → Prop) : Prop :=
  ∀ e, e ≠ .tooBigTransaction → e ≠ .logWriteOutsideOfTrans → E e

/-- The panics of `log_write` alone. -/
def logPanic (e : Panic) : Prop := e = .tooBigTransaction ∨ e = .logWriteOutsideOfTrans

theorem otherStops_not_logPanic : OtherStops fun e => ¬ logPanic e :=
  fun _ h1 h2 h => h.elim h1 h2

section
variable {E : Panic → Prop} {S S' : Finset Nat} {k k' j b : Nat} {s s' : Fs} {α : Type}

theorem Budget.mono (h : Budget E S k s) (hS : S' ⊆ S) (hk : k' ≤ k) : Budget E S' k' s :=
  h.imp_right fun hr => hr.mono hS hk

theorem Budget.of_insert (h : Budget E (insert b S) k s) : Budget E S k s :=
  h.imp_right fun hr => hr.of_insert

/-- **What a function does and what it costs.**  A lemma that allows the panics of `log_write` and
one that excludes them for a price give one that follows the budget. -/
theorem wp_budget_of {m : FsM α} {Q : α → Fs → Prop} {F : α → Fs → Finset Nat}
    (hB : Budget E S (k + j) s)
    (hdoes : ∀ E', LogStops E' → (∀ e, E e → E' e) → wp (ideal m) E' Q s)
    (hcosts : ∀ E', OtherStops E' → s.log.Room S (k + j) →
      wp (ideal m) E' (fun a s' => s'.log.Room (F a s') j) s) :
    wp (ideal m) E (fun a s' => Q a s' ∧ Budget E (F a s') j s') s := by
  rcases hB with hE | hroom
  · exact wp_imp (hdoes E hE fun _ => id) fun a s' hQ => ⟨hQ, .inl hE⟩
  · have h1 := hdoes (fun e => logPanic e ∨ E e) ⟨.inl (.inl rfl), .inl (.inr rfl)⟩ fun _ => .inr
    have h2 := hcosts (fun e => ¬ logPanic e) otherStops_not_logPanic hroom
    refine wp_mono (wp_both h1 h2) (fun a s' hpost => ⟨hpost.1, .inr hpost.2⟩) ?_
    exact fun e he => he.1.resolve_left he.2

/-- The same for a function that has no other panics. -/
theorem wp_budget {m : FsM α} {Q : α → Fs → Prop} {F : α → Fs → Finset Nat}
    (hB : Budget E S (k + j) s) (hdoes : ∀ E, LogStops E → wp (ideal m) E Q s)
    (hcosts : ∀ E, OtherStops E → s.log.Room S (k + j) →
      wp (ideal m) E (fun a s' => s'.log.Room (F a s') j) s) :
    wp (ideal m) E (fun a s' => Q a s' ∧ Budget E (F a s') j s') s :=
  wp_budget_of hB (fun E' hE' _ => hdoes E' hE') hcosts

end

/-! ## What the functions cost -/

/-- `S` has the blocks of the free map. -/
def Superblock.BitmapIn (sb : Superblock) (S : Finset Nat) : Prop := ∀ b < sb.size, sb.bblock b ∈ S

/-- The function has spent what it may, and moved neither the regions of the disk nor the in-core
inodes. -/
structure Spent (s s' : Fs) (S : Finset Nat) (k : Nat) : Prop where
  room : s'.log.Room S k
  sb : s'.sb = s.sb
  inum : ∀ ip, (s'.inode ip).inum = (s.inode ip).inum

section
variable {E : Panic → Prop} {S : Finset Nat} {k b : Nat} {s s' s'' : Fs} {ip : InodeId}

theorem Spent.refl (h : s.log.Room S k) : Spent s s S k := ⟨h, rfl, fun _ => rfl⟩

theorem Spent.of_insert (h : Spent s s' (insert b S) k) : Spent s s' S k :=
  ⟨h.room.of_insert, h.sb, h.inum⟩

theorem Spent.trans {S' : Finset Nat} {k' : Nat} (h : Spent s s' S k) (h' : Spent s' s'' S' k') :
    Spent s s'' S' k' :=
  ⟨h'.room, h'.sb.trans h.sb, fun ip => (h'.inum ip).trans (h.inum ip)⟩

theorem Superblock.BitmapIn.insert {sb : Superblock} (h : sb.BitmapIn S) (b : Nat) :
    sb.BitmapIn (insert b S) := fun c hc => Finset.mem_insert_of_mem (h c hc)

theorem room_logWrite (hb : b ∈ S) (h : s.log.Room S k) {Q : Unit → Fs → Prop}
    (hQ : ∀ l : Log, l.Room S k → Q () (s.setLog l)) : wp (ideal (logWrite b)) E Q s := by
  obtain ⟨l, pinned, hw, hl⟩ := h.logWrite hb
  have hmem : s.mem.log.logWrite b = .ok (l, pinned) := hw
  rw [FileSystem.logWrite]
  simp only [wp_ideal_bind, wp_ideal_get, hmem]
  cases pinned with
  | true => exact hQ l hl
  | false => exact hQ l hl

theorem room_ballocFrom {sb : Superblock} (hS : sb.BitmapIn S) :
    ∀ {n b : Nat} {s : Fs}, s.log.Room S (k + 1) →
      wp (ideal (ballocFrom sb n b)) E (fun res s' => Spent s s' (insert res S) k) s := by
  intro n
  induction n with
  | zero => exact fun {b s} h => ⟨h.insert 0, rfl, fun _ => rfl⟩
  | succ n ih =>
    intro b s h
    rw [ballocFrom, wp_ideal_bind, wp_bread]
    cases hfree : (s.data (sb.bblock b)).freeBit (min BPB (sb.size - b)) with
    | none =>
      simp only [wp_ideal_bind, wp_brelse]
      exact ih h
    | some bi =>
      have hbi := (Block.freeBit_some hfree).1
      have hbit : sb.bblock b ∈ S := hS b (by omega)
      simp only [wp_ideal_bind, wp_bstore]
      refine room_logWrite (s := s.store _ _) (Finset.mem_insert_of_mem hbit) (h.insert (b + bi))
        fun l hl => ?_
      simp only [bzero, wp_ideal_bind, wp_bread, wp_bstore, wp_brelse]
      refine room_logWrite (s := ((s.store _ _).setLog l).store _ _) (Finset.mem_insert_self _ _) hl
        fun l' hl' => ?_
      exact ⟨hl', rfl, fun _ => rfl⟩

/-- `balloc` costs the block that it returns. -/
theorem room_balloc (hS : s.sb.BitmapIn S) (h : s.log.Room S (k + 1)) :
    wp (ideal balloc) E (fun res s' => Spent s s' (insert res S) k) s := by
  rw [balloc, wp_ideal_bind, wp_superblock]
  exact room_ballocFrom hS h

/-- A block address in the inode costs the block. -/
theorem room_bmapAddr {i : Fin (NDIRECT + 1)} (hS : s.sb.BitmapIn S) (h : s.log.Room S (k + 1)) :
    wp (ideal (bmapAddr ip i)) E (fun res s' => Spent s s' (insert res S) k) s := by
  rw [bmapAddr, wp_ideal_bind, wp_inode]
  dsimp only
  split
  · refine wp_ideal_seq (room_balloc hS h) ?_
    intro a s' hs
    split
    · next h0 => exact h0 ▸ hs
    · simp only [setAddr, wp_ideal_bind, wp_updateCopy]
      refine ⟨hs.room, hs.sb, fun k => ?_⟩
      rw [Fs.setInode_inode, Function.update_apply]
      split
      · next hk => rw [hk]; exact hs.inum ip
      · exact hs.inum k
  · exact ⟨h.insert _, rfl, fun _ => rfl⟩

/-- A block address in the indirect block costs the block. -/
theorem room_bmapEntry {addr bn : Nat} (hS : s.sb.BitmapIn S) (haddr : addr ∈ S)
    (h : s.log.Room S (k + 1)) :
    wp (ideal (bmapEntry addr bn)) E (fun res s' => Spent s s' (insert res S) k) s := by
  rw [bmapEntry, wp_ideal_bind, wp_bread]
  split
  · refine wp_ideal_seq (room_balloc hS h) ?_
    intro a s' hs
    simp only [wp_ideal_bind, wp_ideal_ite, wp_bstore, wp_ideal_pure, wp_brelse]
    refine ⟨fun _ => ?_, fun _ => hs⟩
    refine room_logWrite (s := s'.store _ _) (Finset.mem_insert_of_mem haddr) hs.room fun l hl => ?_
    exact ⟨hl, hs.sb, hs.inum⟩
  · exact ⟨h.insert _, rfl, fun _ => rfl⟩

/-- **`bmap`** costs the indirect block and the block that it returns. -/
theorem room_bmap {bn : Nat} (hE : OtherStops E) (hS : s.sb.BitmapIn S) (h : s.log.Room S (k + 2)) :
    wp (ideal (bmap ip bn)) E (fun res s' => Spent s s' (insert res S) k) s := by
  rw [bmap]
  split
  · exact room_bmapAddr hS (h.mono le_rfl (by omega))
  split
  · refine wp_ideal_seq (room_bmapAddr (k := k + 1) hS h) ?_
    intro addr s' hs
    split
    · exact ⟨(hs.of_insert.room.insert 0), hs.sb, hs.inum⟩
    · refine wp_imp (room_bmapEntry (S := insert addr S) (hs.sb ▸ hS.insert addr)
        (Finset.mem_insert_self _ _) hs.room) ?_
      intro res s'' hs'
      exact hs.trans ⟨hs'.room.mono (Finset.insert_subset_insert _ (Finset.subset_insert _ _)) le_rfl,
        hs'.sb, hs'.inum⟩
  · exact hE _ (by rintro ⟨⟩) (by rintro ⟨⟩)

/-- The number of blocks that `n` bytes from `off` on lie in. -/
def spanned (off n : Nat) : Nat := if n = 0 then 0 else (off + n - 1) / BSIZE - off / BSIZE + 1

/-- The first piece of a copy leaves one block fewer. -/
theorem spanned_rest {off n : Nat} (hn : 0 < n) :
    spanned (off + min n (BSIZE - off % BSIZE)) (n - min n (BSIZE - off % BSIZE)) + 1 ≤
      spanned off n := by
  have hB : BSIZE = 1024 := rfl
  simp only [spanned, hB]
  rcases Nat.le_total n (1024 - off % 1024) with hle | hge
  · rw [Nat.min_eq_left hle, Nat.sub_self, if_pos rfl, if_neg hn.ne']
    omega
  · rw [Nat.min_eq_right hge, if_neg hn.ne']
    split <;> omega

theorem room_writeFrom {src : Nat → Nat → List UInt8 × Bool} {n : Nat} (hE : OtherStops E) :
    ∀ {fuel tot off : Nat} {s : Fs}, s.sb.BitmapIn S →
      s.log.Room S (2 * spanned off (n - tot) + k) →
      wp (ideal (writeFrom ip src n fuel tot off)) E (fun _ s' => Spent s s' S k) s := by
  intro fuel
  induction fuel with
  | zero => exact fun hS h => .refl (h.mono le_rfl (by omega))
  | succ fuel ih =>
    intro tot off s hS h
    rw [writeFrom]
    split
    · next hlt =>
      have hrest : spanned (off + min (n - tot) (BSIZE - off % BSIZE)) _ + 1 ≤ spanned off (n - tot) :=
        spanned_rest (by omega)
      refine wp_ideal_seq (room_bmap (k := 2 * spanned off (n - tot) + k - 2) hE hS
        (h.mono le_rfl (by omega))) ?_
      intro addr s₁ hs
      split
      · exact hs.of_insert.trans (.refl (hs.of_insert.room.mono le_rfl (by omega)))
      · simp only [wp_ideal_bind, wp_bread, wp_bstore]
        split
        · simp only [wp_ideal_bind, wp_brelse]
          refine room_logWrite (s := s₁.store _ _) (Finset.mem_insert_self _ _) hs.room fun l hl => ?_
          refine wp_imp (ih (s := (s₁.store _ _).setLog l) (by exact hs.sb ▸ hS) ?_) ?_
          · refine hl.of_insert.mono le_rfl ?_
            rw [Nat.sub_add_eq]
            omega
          · intro r s₂ hs₂
            exact ⟨hs₂.room, hs₂.sb.trans hs.sb, fun ip => (hs₂.inum ip).trans (hs.inum ip)⟩
        · simp only [wp_ideal_bind, wp_brelse]
          exact ⟨hs.of_insert.room.mono le_rfl (by omega), hs.sb, hs.inum⟩
    · exact .refl (h.mono le_rfl (by omega))

/-- **`iupdate`** costs the block of the inode. -/
theorem room_iupdate (hi : s.sb.iblock (s.inode ip).inum ∈ S) (h : s.log.Room S k) :
    wp (ideal (iupdate ip)) E (fun _ s' => Spent s s' S k) s := by
  rw [iupdate]
  simp only [wp_ideal_bind, wp_inode, wp_superblock, wp_bread, wp_bstore, wp_brelse]
  exact room_logWrite (s := s.store _ _) hi h fun l hl => ⟨hl, rfl, fun _ => rfl⟩

variable (ip) in
theorem Spent.updateCopy {d : Dinode} (h : Spent s s' S k) :
    Spent s (s'.setInode ip { s'.inode ip with copy := d }) S k := by
  refine ⟨h.room, h.sb, fun k => ?_⟩
  rw [Fs.setInode_inode, Function.update_apply]
  split
  · next hk => rw [hk]; exact h.inum ip
  · exact h.inum k

/-- **`writei`** costs two blocks for each block that it writes to. -/
theorem room_writei {src : Nat → Nat → List UInt8 × Bool} {off n : Nat} (hE : OtherStops E)
    (hS : s.sb.BitmapIn S) (hi : s.sb.iblock (s.inode ip).inum ∈ S)
    (h : s.log.Room S (2 * spanned off n + k)) :
    wp (ideal (writei ip src off n)) E (fun _ s' => Spent s s' S k) s := by
  rw [writei, wp_ideal_bind, wp_inode]
  dsimp only
  split
  · exact .refl (h.mono le_rfl (by omega))
  split
  · exact .refl (h.mono le_rfl (by omega))
  refine wp_ideal_seq (room_writeFrom hE hS (by rwa [Nat.sub_zero])) ?_
  rintro ⟨tot, off'⟩ s₁ hs
  simp only [wp_ideal_bind, wp_updateCopy]
  have hs' := Spent.updateCopy ip
    (d := { (s₁.inode ip).copy with
      size := if (s₁.inode ip).copy.size < off' then off' else (s₁.inode ip).copy.size }) hs
  refine wp_imp (room_iupdate ?_ hs'.room) fun _ s₂ hs₂ => hs'.trans hs₂
  rw [hs'.sb, hs'.inum]
  exact hi

/-- Only blocks of the free map have changed. -/
structure Unmarks (s s' : Fs) (S : Finset Nat) (k : Nat) : Prop extends Spent s s' S k where
  data : ∀ c, (∀ b < s.sb.size, s.sb.bblock b ≠ c) → s'.data c = s.data c

theorem Unmarks.trans (h : Unmarks s s' S k) (h' : Unmarks s' s'' S k) : Unmarks s s'' S k where
  toSpent := h.toSpent.trans h'.toSpent
  data c hc := (h'.data c (h.sb.symm ▸ hc)).trans (h.data c hc)

/-- `bfree` costs the block of the free map. -/
theorem room_bfree (hE : OtherStops E) (hS : s.sb.BitmapIn S) (hb : b < s.sb.size)
    (h : s.log.Room S k) :
    wp (ideal (bfree b)) E (fun _ s' => Unmarks s s' S k ∧ s'.inode = s.inode) s := by
  rw [bfree]
  simp only [wp_ideal_bind, wp_superblock, wp_bread]
  split
  · exact hE _ (by rintro ⟨⟩) (by rintro ⟨⟩)
  · simp only [wp_ideal_bind, wp_bstore, wp_brelse]
    refine room_logWrite (s := s.store _ _) (hS b hb) h fun l hl => ?_
    refine ⟨⟨⟨hl, rfl, fun _ => rfl⟩, fun c hc => ?_⟩, rfl⟩
    rw [Fs.setLog_data, Fs.store_data_of_ne _ _ _ (hc b hb).symm]

theorem room_bfreeAll (hE : OtherStops E) {bs : List Nat} :
    ∀ {s : Fs}, s.sb.BitmapIn S → (∀ b ∈ bs, b < s.sb.size) → s.log.Room S k →
      wp (ideal (bfreeAll bs)) E (fun _ s' => Unmarks s s' S k ∧ s'.inode = s.inode) s := by
  induction bs with
  | nil => exact fun _ _ h => ⟨⟨.refl h, fun _ _ => rfl⟩, rfl⟩
  | cons b bs ih =>
    intro s hS hbs h
    rw [bfreeAll]
    split
    · refine wp_ideal_seq (room_bfree hE hS (hbs b (by simp)) h) ?_
      rintro _ s₁ ⟨hu, hinode⟩
      refine wp_imp (ih (hu.sb.symm ▸ hS) (fun c hc => ?_) hu.room) ?_
      · rw [hu.sb]
        exact hbs c (by simp [hc])
      · rintro _ s₂ ⟨hu₂, hinode₂⟩
        exact ⟨hu.trans hu₂, hinode₂.trans hinode⟩
    · exact ih hS (fun c hc => hbs c (by simp [hc])) h

theorem room_truncDirect (hE : OtherStops E) {is : List (Fin (NDIRECT + 1))} :
    ∀ {s : Fs}, s.sb.BitmapIn S → (∀ i, (s.inode ip).copy.addrs i < s.sb.size) → s.log.Room S k →
      wp (ideal (truncDirect ip is)) E (fun _ s' => Unmarks s s' S k ∧
        ∀ i, i ∉ is → (s'.inode ip).copy.addrs i = (s.inode ip).copy.addrs i) s := by
  induction is with
  | nil => exact fun _ _ h => ⟨⟨.refl h, fun _ _ => rfl⟩, fun _ _ => rfl⟩
  | cons i is ih =>
    intro s hS hA h
    rw [truncDirect, wp_ideal_bind, wp_inode]
    dsimp only
    split
    · simp only [wp_ideal_bind]
      refine wp_imp (room_bfree hE hS (hA i) h) ?_
      rintro _ s₁ ⟨hu, hinode⟩
      simp only [setAddr, wp_updateCopy]
      set s₂ := s₁.setInode ip { s₁.inode ip with
        copy := { (s₁.inode ip).copy with
          addrs := Function.update (s₁.inode ip).copy.addrs i 0 } } with hs₂
      have hu₂ : Unmarks s s₂ S k := ⟨hu.toSpent.updateCopy ip, hu.data⟩
      have haddrs : (s₂.inode ip).copy.addrs = Function.update (s.inode ip).copy.addrs i 0 := by
        rw [hs₂, Fs.setInode_inode_self, hinode]
      refine wp_imp (ih (hu₂.sb.symm ▸ hS) (fun j => ?_) hu₂.room) ?_
      · rw [haddrs, hu₂.sb, Function.update_apply]
        split
        · exact lt_of_le_of_lt (Nat.zero_le _) (hA i)
        · exact hA j
      · rintro _ s₃ ⟨hu₃, hrest⟩
        refine ⟨hu₂.trans hu₃, fun j hj => ?_⟩
        rw [List.mem_cons, not_or] at hj
        rw [hrest j hj.2, haddrs, Function.update_of_ne hj.1]
    · refine wp_imp (ih hS hA h) ?_
      rintro _ s₁ ⟨hu, hrest⟩
      exact ⟨hu, fun j hj => hrest j fun hmem => hj (List.mem_cons_of_mem i hmem)⟩

/-- **`itrunc`** costs the blocks of the free map and of the inode. -/
theorem room_itrunc (hE : OtherStops E) (hS : s.sb.BitmapIn S)
    (hi : s.sb.iblock (s.inode ip).inum ∈ S) (hA : ∀ i, (s.inode ip).copy.addrs i < s.sb.size)
    (hind : (s.inode ip).copy.indirect ≠ 0 →
      (∀ b < s.sb.size, s.sb.bblock b ≠ (s.inode ip).copy.indirect) ∧
      ∀ j < NINDIRECT, (s.data (s.inode ip).copy.indirect).entry j < s.sb.size)
    (h : s.log.Room S k) :
    wp (ideal (itrunc ip)) E (fun _ s' => Spent s s' S k) s := by
  -- the end of the function
  have hrest : ∀ s₁, Spent s s₁ S k →
      wp (ideal (do updateCopy ip fun d => { d with size := 0 }; iupdate ip)) E
        (fun _ s' => Spent s s' S k) s₁ := by
    intro s₁ hs
    rw [wp_ideal_bind, wp_updateCopy]
    have hs' := Spent.updateCopy ip (d := { (s₁.inode ip).copy with size := 0 }) hs
    refine wp_imp (room_iupdate ?_ hs'.room) fun _ s₂ hs₂ => hs'.trans hs₂
    rw [hs'.sb, hs'.inum]
    exact hi
  have hlast : Fin.last NDIRECT ∉ (List.finRange NDIRECT).map Fin.castSucc := fun hmem => by
    obtain ⟨n, -, hn⟩ := List.mem_map.1 hmem
    exact absurd hn (Fin.ne_of_lt (Fin.castSucc_lt_last n))
  rw [itrunc]
  refine wp_ideal_seq (room_truncDirect hE hS hA h) ?_
  rintro _ s₁ ⟨hu₁, hsame⟩
  have hind₁ : (s₁.inode ip).copy.indirect = (s.inode ip).copy.indirect := hsame _ hlast
  rw [wp_ideal_bind, wp_inode, hind₁]
  dsimp only
  split
  · next hne =>
    obtain ⟨hsep, hentries⟩ := hind hne
    simp only [wp_ideal_bind, wp_bread, wp_brelse]
    rw [hu₁.data _ hsep]
    refine wp_imp (room_bfreeAll hE (hu₁.sb.symm ▸ hS) (fun b hb => ?_) hu₁.room) ?_
    · obtain ⟨j, hj, rfl⟩ := List.mem_map.1 hb
      rw [hu₁.sb]
      exact hentries j (List.mem_range.1 hj)
    rintro _ s₂ ⟨hu₂, -⟩
    have hu₁₂ := hu₁.trans hu₂
    have hlt : (s.inode ip).copy.indirect < s₂.sb.size := by
      rw [hu₁₂.sb]
      exact hA (Fin.last NDIRECT)
    refine wp_imp (room_bfree hE (hu₁₂.sb.symm ▸ hS) hlt hu₁₂.room) ?_
    rintro _ s₃ ⟨hu₃, -⟩
    simp only [setAddr, wp_updateCopy]
    exact wp_ideal_bind.1 (hrest _ ((hu₁₂.trans hu₃).toSpent.updateCopy ip))
  · exact hrest s₁ hu₁.toSpent

theorem room_iget {inum : Nat} (hE : OtherStops E) (h : s.log.Room S k) :
    wp (ideal (iget inum)) E (fun ip s' => s'.log.Room S k ∧ s'.sb = s.sb ∧
      (s'.inode ip).inum = inum) s := by
  rw [iget]
  simp only [wp_ideal_bind, wp_ideal_get]
  split
  · next ip hfind =>
    simp only [wp_ideal_bind, wp_updateInode, wp_ideal_pure]
    have hfound := List.find?_some hfind
    have hinum := (of_decide_eq_true hfound).2
    exact ⟨h, rfl, by rw [Fs.setInode_inode_self]; exact hinum⟩
  · split
    · exact hE _ (by rintro ⟨⟩) (by rintro ⟨⟩)
    · next ip _ =>
      simp only [wp_ideal_bind, wp_updateInode, wp_ideal_pure]
      exact ⟨h, rfl, by rw [Fs.setInode_inode_self]⟩

theorem room_iallocFrom {sb : Superblock} {type : Int} (hE : OtherStops E) {n : Nat} :
    ∀ {inum : Nat} {s : Fs}, s.sb = sb → s.log.Room S (k + 1) →
      wp (ideal (iallocFrom sb type n inum)) E (fun res s' => s'.log.Room
        (match res with
          | some ip => insert (sb.iblock (s'.inode ip).inum) S
          | none => S) k ∧ s'.sb = sb) s := by
  induction n with
  | zero => exact fun hsb h => ⟨h.mono le_rfl (by omega), hsb⟩
  | succ n ih =>
    intro inum s hsb h
    rw [iallocFrom, wp_ideal_bind, wp_bread]
    split
    · simp only [wp_ideal_bind, wp_bstore]
      refine room_logWrite (s := s.store _ _) (Finset.mem_insert_self _ _)
        (h.insert (sb.iblock inum)) fun l hl => ?_
      refine wp_imp (room_iget (s := (s.store _ _).setLog l) hE hl) ?_
      rintro ip s' ⟨hroom, hsb', hinum⟩
      simp only [wp_brelse, wp_ideal_pure, hinum]
      exact ⟨hroom, hsb'.trans hsb⟩
    · simp only [wp_ideal_bind, wp_brelse]
      exact ih hsb h

/-- **`ialloc`** costs the block of the new inode. -/
theorem room_ialloc {type : Int} (hE : OtherStops E) (h : s.log.Room S (k + 1)) :
    wp (ideal (ialloc type)) E (fun res s' => s'.log.Room
      (match res with
        | some ip => insert (s.sb.iblock (s'.inode ip).inum) S
        | none => S) k ∧ s'.sb = s.sb) s := by
  rw [ialloc, wp_ideal_bind, wp_superblock]
  exact room_iallocFrom hE rfl h

end

end Xv6pp
