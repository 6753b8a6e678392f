import Xv6pp.Fs.Blocks

/-!
# The invariant of inodes and blocks

`Consistent s D dirty loose` ties together what the state of the file system says in several places.
`D` is the current value of every inode; the valid in-core inodes are copies of it, and so are the
inodes on the disk, except for the inode `dirty` while it has been changed in core and not yet been
written back by `iupdate`.  The blocks that the inodes refer to are distinct data blocks, and the
free map marks exactly those, the blocks before the data blocks, and `loose`, a block that was just
allocated and is not yet referred to.

`Grows` says how `bmap` changes the state when it allocates blocks: no block that was there moves,
and new blocks are full of zeros.
-/

set_option autoImplicit false

namespace Xv6pp

open Prog FileSystem Allocation

/-- The blocks in the slots of all allocated inodes. -/
def Fs.slots (s : Fs) (D : Nat → Dinode) : Nat × Slot → Nat := Xv6pp.slots s.sb s.data D

/-- The table of in-core inodes is a cache of the inodes. -/
structure Incore (sb : Superblock) (t : InodeId → Inode) (D : Nat → Dinode) : Prop where
  /-- The entries that are in use. -/
  inum : ∀ {k}, 0 < (t k).ref → sb.IsInum (t k).inum
  /-- The entries that are valid. -/
  copy : ∀ {k}, 0 < (t k).ref → (t k).valid = true → (t k).copy = D (t k).inum
  /-- No inode is in core twice. -/
  uniq : ∀ {j k}, 0 < (t j).ref → 0 < (t k).ref → (t j).inum = (t k).inum → j = k

/-- One entry of the table changes, and perhaps the inode of that entry. -/
theorem Incore.update {sb : Superblock} {t : InodeId → Inode} {D D' : Nat → Dinode}
    (h : Incore sb t D) {ip : InodeId} {v : Inode}
    (hD : ∀ {k}, k ≠ ip → 0 < (t k).ref → D' (t k).inum = D (t k).inum)
    (hinum : 0 < v.ref → sb.IsInum v.inum) (hcopy : 0 < v.ref → v.valid = true → v.copy = D' v.inum)
    (huniq : 0 < v.ref → ∀ {k}, k ≠ ip → 0 < (t k).ref → (t k).inum ≠ v.inum) :
    Incore sb (Function.update t ip v) D' := by
  refine ⟨fun {k} hk => ?_, fun {k} hk hv => ?_, fun {j k} hj hk hjk => ?_⟩
  · by_cases hkip : k = ip
    · subst hkip
      rw [Function.update_self] at hk ⊢
      exact hinum hk
    · rw [Function.update_of_ne hkip] at hk ⊢
      exact h.inum hk
  · by_cases hkip : k = ip
    · subst hkip
      rw [Function.update_self] at hk hv ⊢
      exact hcopy hk hv
    · rw [Function.update_of_ne hkip] at hk hv ⊢
      rw [h.copy hk hv, hD hkip hk]
  · by_cases hjip : j = ip
    · subst hjip
      by_cases hkj : k = j
      · exact hkj.symm
      · rw [Function.update_self] at hj hjk
        rw [Function.update_of_ne hkj] at hk hjk
        exact absurd hjk.symm (huniq hj hkj hk)
    · rw [Function.update_of_ne hjip] at hj hjk
      by_cases hkip : k = ip
      · subst hkip
        rw [Function.update_self] at hk hjk
        exact absurd hjk (huniq hk hjip hj)
      · rw [Function.update_of_ne hkip] at hk hjk
        exact h.uniq hj hk hjk

/-- The state of the file system is consistent. -/
structure Consistent (s : Fs) (D : Nat → Dinode) (dirty loose : Option Nat) : Prop
    extends Incore s.sb s.inode D where
  layout : s.sb.Layout
  log : LogOk s.sb s.log
  /-- The free map is exact. -/
  blocks : Exact s.sb.datastart s.sb.size s.bit (s.slots D) loose
  /-- The inodes on the disk. -/
  disk : ∀ {i}, s.sb.IsInum i → dirty ≠ some i → s.dinode i = D i
  fits : ∀ i, (D i).Fits

/-- The in-core inode `ip` is a valid copy of inode `i`. -/
structure Core (s : Fs) (ip : InodeId) (i : Nat) : Prop where
  ref : 0 < (s.inode ip).ref
  valid : (s.inode ip).valid = true
  inum : (s.inode ip).inum = i

section
variable {E : Panic → Prop} {s : Fs} {D : Nat → Dinode} {dirty loose : Option Nat} {b i : Nat}
  {l : Log} {ip : InodeId}

/-- Changing the copy of an inode in core, and with it the inode. -/
theorem Core.incore_copy (hip : Core s ip i) (h : Incore s.sb s.inode D) (d : Dinode) :
    Incore s.sb (Function.update s.inode ip { s.inode ip with copy := d })
      (Function.update D i d) := by
  obtain ⟨href, -, rfl⟩ := hip
  refine h.update (fun hk hkref => ?_) (fun _ => h.inum href) (fun _ _ => ?_) fun _ k hk hkref e => ?_
  · exact Function.update_of_ne (fun e => hk (h.uniq hkref href e)) ..
  · rw [Function.update_self]
  · exact hk (h.uniq hkref href e)

namespace Consistent

theorem weaken (h : Consistent s D none loose) (dirty : Option Nat) : Consistent s D dirty loose :=
  { h with disk := fun hi _ => h.disk hi nofun }

theorem setLog (h : Consistent s D dirty loose) (hl : LogOk s.sb l) :
    Consistent (s.setLog l) D dirty loose :=
  { h with log := hl }

/-- A change of an in-core inode that concerns its lock only. -/
theorem setFlag {v : Inode} (h : Consistent s D dirty loose) (href : v.ref = (s.inode ip).ref)
    (hinum : v.inum = (s.inode ip).inum) (hvalid : v.valid = (s.inode ip).valid)
    (hcopy : v.copy = (s.inode ip).copy) : Consistent (s.setInode ip v) D dirty loose := by
  refine { h with toIncore := h.toIncore.update (fun _ _ => rfl) (fun hr => ?_) (fun hr hv => ?_)
                    fun hr k hk hkr e => ?_ }
  · rw [hinum]
    exact h.inum (href ▸ hr)
  · rw [hcopy, hinum]
    exact h.copy (href ▸ hr) (hvalid ▸ hv)
  · exact hk (h.uniq hkr (href ▸ hr) (e.trans hinum))

/-- The blocks before the data blocks are marked. -/
theorem bit_of_lt (h : Consistent s D dirty loose) {c : Nat} (hc : c < s.sb.datastart) :
    s.bit c = true :=
  (h.blocks.used (lt_of_lt_of_le hc s.sb.datastart_le)).2 (.inl hc)

theorem home (h : Consistent s D dirty loose) {p : Nat × Slot} (hp : s.slots D p ≠ 0) :
    s.sb.Home (s.slots D p) :=
  h.layout.home_data (h.blocks.range hp).1 (h.blocks.range hp).2

/-- A change of the disk that concerns neither the inodes, nor the free map, nor an indirect block. -/
theorem of_data {s' : Fs} (h : Consistent s D dirty loose) (hl : LogOk s.sb s'.log)
    (hsb : s'.sb = s.sb) (hinode : s'.inode = s.inode)
    (hdinode : ∀ i, s.sb.IsInum i → s'.dinode i = s.dinode i)
    (hbit : ∀ c, c < s.sb.size → s'.bit c = s.bit c)
    (hind : ∀ j, s.slots D (j, .indirect) ≠ 0 →
      s'.data (s.slots D (j, .indirect)) = s.data (s.slots D (j, .indirect))) :
    Consistent s' D dirty loose ∧ s'.slots D = s.slots D := by
  have hslots : s'.slots D = s.slots D := by
    rw [Fs.slots, hsb]
    exact slots_congr hind
  refine ⟨⟨?_, hsb ▸ h.layout, hsb ▸ hl, ?_, fun {i} hi hd => ?_, h.fits⟩, hslots⟩
  · rw [hinode, hsb]
    exact h.toIncore
  · rw [hsb, hslots]
    exact h.blocks.congr_bit hbit
  · rw [hsb] at hi
    rw [hdinode i hi]
    exact h.disk hi hd

/-- Storing a data block that is not an indirect block. -/
theorem store (h : Consistent s D dirty loose) {d : Block} (hb : s.sb.datastart ≤ b)
    (hind : ∀ j, s.slots D (j, .indirect) ≠ b) :
    Consistent (s.store b d) D dirty loose ∧ (s.store b d).slots D = s.slots D := by
  refine h.of_data h.log rfl rfl (fun i hi => ?_) (fun c hc => Fs.bit_store ?_) fun j hj => ?_
  · rw [Fs.dinode, Fs.store_sb, Fs.store_data_of_ne _ _ _ (lt_of_lt_of_le (h.layout.iblock_lt hi) hb).ne]
    rfl
  · exact (lt_of_lt_of_le (h.layout.bitmap hc) hb).ne
  · exact Fs.store_data_of_ne _ _ _ (hind j)

/-- **Allocating a block.** -/
theorem alloced (h : Consistent s D dirty none) (hb : b < s.sb.size) (hbit : s.bit b = false)
    (hl : LogOk s.sb l) :
    Consistent (s.alloced b l) D dirty (some b) ∧ (s.alloced b l).slots D = s.slots D := by
  obtain ⟨hlo, -, hnot⟩ := h.blocks.not_mem hb hbit
  have hslots : (s.alloced b l).slots D = s.slots D := by
    refine slots_congr fun j hj => ?_
    have hj' : s.slots D (j, .indirect) ≠ 0 := hj
    show (s.alloced b l).data (s.slots D (j, .indirect)) = s.data (s.slots D (j, .indirect))
    rw [Fs.data_alloced h.layout hb (h.blocks.range hj').1, if_neg (hnot _)]
  refine ⟨⟨h.toIncore, h.layout, hl, ?_, fun {i} hi hd => ?_, h.fits⟩, hslots⟩
  · rw [hslots]
    exact h.blocks.alloc hb hbit fun c hc => Fs.bit_alloced h.layout hlo hc
  · rw [Fs.dinode_alloced h.layout hlo hi]
    exact h.disk hi hd

/-- Changing the in-core copy of an inode, and with it the current value of the inode. -/
theorem setCopy {d : Dinode} {loose' : Option Nat} (h : Consistent s D (some i) loose)
    (hip : Core s ip i) (hd : d.Fits)
    (hblocks : Exact s.sb.datastart s.sb.size s.bit (s.slots (Function.update D i d)) loose') :
    Consistent (s.setInode ip { s.inode ip with copy := d }) (Function.update D i d) (some i)
      loose' := by
  refine ⟨hip.incore_copy h.toIncore d, h.layout, h.log, hblocks, fun {j} hj hne => ?_, fun j => ?_⟩
  · rw [Function.update_of_ne fun e => hne (congrArg some e.symm)]
    exact h.disk hj hne
  · rw [Function.update_apply]
    split
    · exact hd
    · exact h.fits j

/-- Putting the loose block into an address of an inode. -/
theorem attachAddr {k : Fin (NDIRECT + 1)} (h : Consistent s D (some i) (some b))
    (hip : Core s ip i) (ht : (D i).type ≠ 0) (hk : (D i).addrs k = 0)
    (hzero : s.data b = Bytes.zero BSIZE) :
    let d := { D i with addrs := Function.update (D i).addrs k b }
    Consistent (s.setInode ip { s.inode ip with copy := d }) (Function.update D i d) (some i) none ∧
      s.slots (Function.update D i d) = Function.update (s.slots D) (i, .addr k) b := by
  intro d
  have hi : s.sb.IsInum i := hip.inum ▸ h.inum hip.ref
  have hslot : ∀ sl, d.slot s.data sl = if sl = .addr k then b else (D i).slot s.data sl := by
    intro sl
    cases sl with
    | addr j =>
      show Function.update (D i).addrs k b j = _
      rw [Function.update_apply]
      simp only [Slot.addr.injEq]
      rfl
    | entry j =>
      rw [if_neg nofun]
      by_cases hlast : k = Fin.last NDIRECT
      · subst hlast
        have hd : d.indirect = b := by
          show Function.update (D i).addrs (Fin.last NDIRECT) b (Fin.last NDIRECT) = b
          rw [Function.update_self]
        have h0 : (D i).indirect = 0 := hk
        rw [Dinode.slot, Dinode.slot, hd, h0, hzero, if_pos rfl, Block.entry_zero, ite_self]
      · have hd : d.indirect = (D i).indirect := Function.update_of_ne (Ne.symm hlast) ..
        rw [Dinode.slot, Dinode.slot, hd]
  have hslots : s.slots (Function.update D i d) = Function.update (s.slots D) (i, .addr k) b := by
    refine slots_update_one fun sl => ?_
    have ht' : (Function.update D i d i).type ≠ 0 := by
      rw [Function.update_self]
      exact ht
    rw [slots_eq hi ht', slots_eq hi ht, Function.update_self, hslot sl]
  refine ⟨h.setCopy hip ?_ ?_, hslots⟩
  · have hf := h.fits i
    refine ⟨hf.type, hf.major, hf.minor, hf.nlink, hf.size, fun j => ?_⟩
    show Function.update (D i).addrs k b j < 2 ^ 32
    rw [Function.update_apply]
    split
    · exact (h.blocks.fresh rfl).2.1.trans h.layout.word
    · exact hf.addrs j
  · rw [hslots]
    refine h.blocks.attach ?_
    rw [Fs.slots, slots_eq hi ht]
    exact hk

/-- Putting the loose block into an indirect block. -/
theorem attachEntry {j : Fin NINDIRECT} (h : Consistent s D dirty (some b)) (hi : s.sb.IsInum i)
    (ht : (D i).type ≠ 0) (hind : (D i).indirect ≠ 0)
    (hj : (s.data (D i).indirect).entry j = 0) :
    let s' := s.store (D i).indirect ((s.data (D i).indirect).setEntry j b)
    Consistent s' D dirty none ∧ s'.slots D = Function.update (s.slots D) (i, .entry j) b := by
  intro s'
  have hslot : s.slots D (i, .indirect) = (D i).indirect := slots_eq hi ht _
  have hrange := h.blocks.range (i := (i, Slot.indirect)) (by rwa [hslot])
  rw [hslot] at hrange
  have hb : b < 2 ^ 32 := (h.blocks.fresh rfl).2.1.trans h.layout.word
  -- no other inode has the same indirect block
  have hother : ∀ k, k ≠ i → s.slots D (k, .indirect) ≠ (D i).indirect := fun k hk e => by
    have := h.blocks.inj (i := (k, Slot.indirect)) (j := (i, Slot.indirect)) (by rwa [e])
      (by rw [e, hslot])
    exact hk (Prod.ext_iff.1 this).1
  have hslots : s'.slots D = Function.update (s.slots D) (i, .entry j) b := by
    funext p
    obtain ⟨k, sl⟩ := p
    by_cases hk : k = i
    · subst hk
      have h1 : s'.slots D (k, sl) = (D k).slot s'.data sl := slots_eq hi ht sl
      have h2 : s.slots D (k, sl) = (D k).slot s.data sl := slots_eq hi ht sl
      rw [h1, Function.update_apply, h2]
      cases sl with
      | addr m => rw [if_neg (by simp)]; rfl
      | entry m =>
        rw [Dinode.slot, Dinode.slot, if_neg hind, if_neg hind, Fs.store_data_self,
          Block.entry_setEntry j.2 hb]
        simp only [Prod.mk.injEq, true_and, Slot.entry.injEq, Fin.ext_iff]
    · rw [Function.update_of_ne fun e => hk (Prod.ext_iff.1 e).1]
      exact slots_congr_at (fun _ => Fs.store_data_of_ne _ _ _ (hother k hk)) sl
  refine ⟨⟨h.toIncore, h.layout, h.log, ?_, fun {k} hk hd => ?_, h.fits⟩, hslots⟩
  · rw [hslots]
    refine (h.blocks.attach ?_).congr_bit fun c hc => Fs.bit_store ?_
    · rw [Fs.slots, slots_eq hi ht, Dinode.slot, if_neg hind]
      exact hj
    · exact (lt_of_lt_of_le (h.layout.bitmap hc) hrange.1).ne
  · have hne : s.sb.iblock k ≠ (D i).indirect :=
      (lt_of_lt_of_le (h.layout.iblock_lt hk) hrange.1).ne
    rw [Fs.dinode, Fs.store_sb, Fs.store_data_of_ne _ _ _ hne]
    exact h.disk hk hd

end Consistent

end

/-! ## Growing files -/

/-- The state changes as `bmap` changes it: blocks are added to the inode `i`. -/
structure Grows (s : Fs) (D : Nat → Dinode) (ip : InodeId) (i : Nat) (s' : Fs) (D' : Nat → Dinode) :
    Prop where
  consistent : Consistent s' D' (some i) none
  sb : s'.sb = s.sb
  self : s'.inode ip = { s.inode ip with copy := D' i }
  other : ∀ {k}, k ≠ ip → s'.inode k = s.inode k
  inodes : ∀ {j}, j ≠ i → D' j = D j
  fields : ∃ a, D' i = { D i with addrs := a }
  /-- Slots that were full stay as they are, and so do all slots of other inodes. -/
  slots : ∀ {p}, s.slots D p ≠ 0 ∨ p.1 ≠ i → s'.slots D' p = s.slots D p
  /-- The blocks that were there keep their content, indirect blocks apart. -/
  kept : ∀ {p}, p.2 ≠ .indirect → s.slots D p ≠ 0 → s'.data (s.slots D p) = s.data (s.slots D p)
  /-- New blocks are zeroed. -/
  zeroed : ∀ {p}, p.2 ≠ .indirect → s.slots D p = 0 → s'.slots D' p ≠ 0 →
    s'.data (s'.slots D' p) = Bytes.zero BSIZE

section
variable {E : Panic → Prop} {s s' s'' : Fs} {D D' D'' : Nat → Dinode} {b i : Nat} {l : Log}
  {ip : InodeId}

theorem Core.copy {loose dirty : Option Nat} (hip : Core s ip i) (h : Consistent s D dirty loose) :
    (s.inode ip).copy = D i := by
  rw [h.copy hip.ref hip.valid, hip.inum]

theorem Core.isInum {loose dirty : Option Nat} (hip : Core s ip i)
    (h : Consistent s D dirty loose) : s.sb.IsInum i := hip.inum ▸ h.inum hip.ref

namespace Grows

theorem refl (h : Consistent s D (some i) none) (hip : Core s ip i) : Grows s D ip i s D where
  consistent := h
  sb := rfl
  self := by rw [← hip.copy h]
  other _ := rfl
  inodes _ := rfl
  fields := ⟨(D i).addrs, rfl⟩
  slots _ := rfl
  kept _ _ := rfl
  zeroed _ h0 hne := absurd h0 hne

theorem core (h : Grows s D ip i s' D') (hip : Core s ip i) : Core s' ip i := by
  obtain ⟨h1, h2, h3⟩ := hip
  refine ⟨?_, ?_, ?_⟩
  · rw [h.self]
    exact h1
  · rw [h.self]
    exact h2
  · rw [h.self]
    exact h3

theorem type_eq (h : Grows s D ip i s' D') (j : Nat) : (D' j).type = (D j).type := by
  by_cases hj : j = i
  · subst hj
    obtain ⟨a, ha⟩ := h.fields
    rw [ha]
  · rw [h.inodes hj]

theorem size_eq (h : Grows s D ip i s' D') (j : Nat) : (D' j).size = (D j).size := by
  by_cases hj : j = i
  · subst hj
    obtain ⟨a, ha⟩ := h.fields
    rw [ha]
  · rw [h.inodes hj]

theorem trans (h : Grows s D ip i s' D') (h' : Grows s' D' ip i s'' D'') :
    Grows s D ip i s'' D'' where
  consistent := h'.consistent
  sb := h'.sb.trans h.sb
  self := by rw [h'.self, h.self]
  other hk := (h'.other hk).trans (h.other hk)
  inodes hj := (h'.inodes hj).trans (h.inodes hj)
  fields := by
    obtain ⟨a, ha⟩ := h.fields
    obtain ⟨a', ha'⟩ := h'.fields
    exact ⟨a', by rw [ha', ha]⟩
  slots {p} hp := by
    have h1 := h.slots hp
    refine (h'.slots (hp.imp (fun hne => ?_) id)).trans h1
    rwa [h1]
  kept {p} hp hne := by
    have h1 := h.slots (p := p) (.inl hne)
    have h2 := h'.kept hp (by rwa [h1])
    rw [h1] at h2
    exact h2.trans (h.kept hp hne)
  zeroed {p} hp h0 hne := by
    by_cases hmid : s'.slots D' p = 0
    · exact h'.zeroed hp hmid hne
    · have h1 := h'.slots (p := p) (.inl hmid)
      rw [h1, h'.kept hp hmid]
      exact h.zeroed hp h0 hmid

/-- One block was added to one slot. -/
theorem of_slot (sl : Slot) (hc : Consistent s' D' (some i) none) (hsb : s'.sb = s.sb)
    (hself : s'.inode ip = { s.inode ip with copy := D' i })
    (hother : ∀ {k}, k ≠ ip → s'.inode k = s.inode k) (hinodes : ∀ {j}, j ≠ i → D' j = D j)
    (hfields : ∃ a, D' i = { D i with addrs := a }) (hempty : s.slots D (i, sl) = 0)
    (hslots : s'.slots D' = Function.update (s.slots D) (i, sl) b)
    (hdata : ∀ {p}, p.2 ≠ .indirect → s.slots D p ≠ 0 →
      s'.data (s.slots D p) = s.data (s.slots D p))
    (hzero : s'.data b = Bytes.zero BSIZE) : Grows s D ip i s' D' where
  consistent := hc
  sb := hsb
  self := hself
  other := hother
  inodes := hinodes
  fields := hfields
  slots {p} hp := by
    rw [hslots, Function.update_of_ne]
    rintro rfl
    rcases hp with hp | hp
    · exact hp hempty
    · exact hp rfl
  kept := hdata
  zeroed {p} _ h0 hne := by
    rw [hslots, Function.update_apply] at hne ⊢
    split at hne
    · next hp => rwa [if_pos hp]
    · exact absurd h0 hne

end Grows

/-- `balloc` in a consistent state. -/
theorem wp_balloc_consistent {dirty : Option Nat} (hE : LogStops E) (h : Consistent s D dirty none) :
    wp (ideal balloc) E (fun res s' =>
      (res = 0 ∧ s' = s ∧ ∀ c, c < s.sb.size → s.bit c = true) ∨
      (res ≠ 0 ∧ ∃ l, s' = s.alloced res l ∧ Consistent s' D dirty (some res) ∧
        s'.slots D = s.slots D ∧ s'.data res = Bytes.zero BSIZE ∧
        ∀ p, s.slots D p ≠ 0 → s'.data (s.slots D p) = s.data (s.slots D p))) s := by
  refine wp_imp (wp_balloc hE h.layout h.log fun c hc => h.bit_of_lt hc) ?_
  rintro res s' (hfull | ⟨hlt, hbit, l, hl, rfl⟩)
  · exact .inl hfull
  · obtain ⟨hlo, -, hnot⟩ := h.blocks.not_mem hlt hbit
    obtain ⟨hc, hslots⟩ := h.alloced hlt hbit hl
    refine .inr ⟨(lt_of_lt_of_le h.layout.pos hlo).ne', l, rfl, hc, hslots, ?_, fun p hp => ?_⟩
    · rw [Fs.data_alloced h.layout hlt hlo, if_pos rfl]
    · rw [Fs.data_alloced h.layout hlt (h.blocks.range hp).1, if_neg (hnot p)]

/-- The block at an address of the inode, allocated if necessary. -/
theorem wp_bmapAddr (hE : LogStops E) (h : Consistent s D (some i) none) (hip : Core s ip i)
    (ht : (D i).type ≠ 0) (k : Fin (NDIRECT + 1)) :
    wp (ideal (bmapAddr ip k)) E (fun res s' => ∃ D', Grows s D ip i s' D' ∧
      (res = 0 → ∀ c, c < s'.sb.size → s'.bit c = true) ∧
      (res ≠ 0 → s'.slots D' (i, .addr k) = res ∧ (D' i).addrs k = res)) s := by
  have hcopy := hip.copy h
  have hi := hip.isInum h
  have hslot : s.slots D (i, .addr k) = (D i).addrs k := slots_eq hi ht _
  rw [bmapAddr, wp_ideal_bind, wp_inode, hcopy]
  dsimp only
  split
  · next h0 =>
    refine wp_ideal_seq (wp_balloc_consistent hE h) ?_
    rintro res s₁ (⟨rfl, rfl, hfull⟩ | ⟨hne, l, rfl, hc, hslots, hzero, hkept⟩)
    · rw [if_pos rfl]
      exact ⟨D, Grows.refl h hip, fun _ => hfull, fun hne => absurd rfl hne⟩
    · rw [if_neg hne]
      have hip' : Core (s.alloced res l) ip i := ⟨hip.ref, hip.valid, hip.inum⟩
      obtain ⟨hc', hslots'⟩ := hc.attachAddr hip' ht h0 hzero
      rw [hslots] at hslots'
      simp only [setAddr, wp_ideal_bind, wp_updateCopy, wp_ideal_pure]
      have hcopy' : ((s.alloced res l).inode ip).copy = D i := hcopy
      rw [hcopy']
      refine ⟨_, Grows.of_slot (.addr k) hc' rfl ?_ (fun hk => ?_) (fun hj => ?_) ?_ ?_ hslots'
        (fun _ hp => hkept _ hp) hzero, fun h0 => absurd h0 hne, fun _ => ⟨?_, ?_⟩⟩
      · rw [Fs.setInode_inode_self, Function.update_self]
        rfl
      · exact Fs.setInode_inode_of_ne _ _ _ hk
      · exact Function.update_of_ne hj ..
      · exact ⟨_, Function.update_self ..⟩
      · rw [hslot]
        exact h0
      · exact (congrFun hslots' _).trans (Function.update_self ..)
      · rw [Function.update_self]
        show Function.update (D i).addrs k res k = res
        rw [Function.update_self]
  · next hne =>
    exact ⟨D, Grows.refl h hip, fun h0 => absurd h0 hne, fun _ => ⟨hslot, rfl⟩⟩

/-- The block in an entry of the indirect block, allocated if necessary. -/
theorem wp_bmapEntry (hE : LogStops E) (h : Consistent s D (some i) none) (hip : Core s ip i)
    (ht : (D i).type ≠ 0) (hind : (D i).indirect ≠ 0) (j : Fin NINDIRECT) :
    wp (ideal (bmapEntry (D i).indirect j)) E (fun res s' => ∃ D', Grows s D ip i s' D' ∧
      (res = 0 → ∀ c, c < s'.sb.size → s'.bit c = true) ∧
      (res ≠ 0 → s'.slots D' (i, .entry j) = res)) s := by
  have hi := hip.isInum h
  have hslot : s.slots D (i, .entry j) = (s.data (D i).indirect).entry j := by
    rw [Fs.slots, slots_eq hi ht, Dinode.slot, if_neg hind]
  have hindslot : s.slots D (i, .indirect) = (D i).indirect := slots_eq hi ht _
  rw [bmapEntry, wp_ideal_bind, wp_bread]
  split
  · next h0 =>
    refine wp_ideal_seq (wp_balloc_consistent hE h) ?_
    rintro res s₁ (⟨rfl, rfl, hfull⟩ | ⟨hne, l, rfl, hc, hslots, hzero, hkept⟩)
    · rw [if_neg (by simp)]
      exact ⟨D, Grows.refl h hip, fun _ => hfull, fun hne => absurd rfl hne⟩
    · have hdata : (s.alloced res l).data (D i).indirect = s.data (D i).indirect := by
        have := hkept (i, .indirect) (by rwa [hindslot])
        rwa [hindslot] at this
      have hhome := h.home (p := (i, Slot.indirect)) (by rwa [hindslot])
      rw [hindslot] at hhome
      obtain ⟨hc', hslots'⟩ := hc.attachEntry (j := j) hi ht hind (by rw [hdata]; exact h0)
      rw [hdata] at hslots' hc'
      rw [hslots] at hslots'
      rw [if_pos hne]
      simp only [wp_ideal_bind, wp_bstore, wp_brelse, wp_ideal_pure]
      refine wp_logWrite (s := (s.alloced res l).store _ _) hE h.layout hc.log hhome fun l' hl' => ?_
      refine ⟨D, Grows.of_slot (.entry j) (hc'.setLog hl') rfl ?_ (fun _ => rfl) (fun _ => rfl)
        ⟨(D i).addrs, rfl⟩ (hslot.trans h0) hslots' (fun {p} hp hpne => ?_) ?_,
        fun h0 => absurd h0 hne, fun _ => ?_⟩
      · exact (Grows.refl h hip).self
      · -- the indirect block is not in another slot
        have hne' : s.slots D p ≠ (D i).indirect := fun e => hp <| by
          have := h.blocks.inj (i := p) (j := (i, Slot.indirect)) hpne (e.trans hindslot.symm)
          rw [this]
        rw [Fs.setLog_data, Fs.store_data_of_ne _ _ _ hne', hkept p hpne]
      · have hne' : res ≠ (D i).indirect := fun e => by
          have := (hc.blocks.fresh rfl).2.2 (i, .indirect)
          rw [hslots, hindslot] at this
          exact this e.symm
        rw [Fs.setLog_data, Fs.store_data_of_ne _ _ _ hne', hzero]
      · exact (congrFun hslots' _).trans (Function.update_self ..)
  · next hne =>
    exact ⟨D, Grows.refl h hip, fun h0 => absurd h0 hne, fun _ => hslot⟩

/-- The slot of block `bn` of a file. -/
def fileSlot (bn : Nat) : Slot :=
  if h : bn < NDIRECT then .addr ⟨bn, Nat.lt_succ_of_lt h⟩
  else .entry ⟨(bn - NDIRECT) % NINDIRECT, Nat.mod_lt _ (by decide)⟩

theorem fileSlot_of_lt {bn : Nat} (h : bn < NDIRECT) :
    fileSlot bn = .addr ⟨bn, Nat.lt_succ_of_lt h⟩ := dif_pos h

theorem fileSlot_of_ge {bn : Nat} (h : ¬ bn < NDIRECT) (hlt : bn - NDIRECT < NINDIRECT) :
    fileSlot bn = .entry ⟨bn - NDIRECT, hlt⟩ := by
  rw [fileSlot, dif_neg h]
  exact congrArg Slot.entry (Fin.ext (Nat.mod_eq_of_lt hlt))

theorem fileSlot_ne_indirect (bn : Nat) : fileSlot bn ≠ .indirect := by
  rw [fileSlot, Slot.indirect]
  split
  · next h =>
    intro e
    exact h.ne (congrArg Fin.val (Slot.addr.inj e))
  · exact nofun

theorem fileSlot_inj {bn bn' : Nat} (h : bn < MAXFILE) (h' : bn' < MAXFILE)
    (e : fileSlot bn = fileSlot bn') : bn = bn' := by
  have hN : MAXFILE = NDIRECT + NINDIRECT := rfl
  by_cases h1 : bn < NDIRECT
  · rw [fileSlot_of_lt h1] at e
    by_cases h2 : bn' < NDIRECT
    · rw [fileSlot_of_lt h2] at e
      exact congrArg Fin.val (Slot.addr.inj e)
    · rw [fileSlot_of_ge h2 (by omega)] at e
      cases e
  · rw [fileSlot_of_ge h1 (by omega)] at e
    by_cases h2 : bn' < NDIRECT
    · rw [fileSlot_of_lt h2] at e
      cases e
    · rw [fileSlot_of_ge h2 (by omega)] at e
      have hval : bn - NDIRECT = bn' - NDIRECT := congrArg Fin.val (Slot.entry.inj e)
      omega

/-- **`bmap`**, of a block within the largest file, adds blocks as necessary, or finds the disk
full. -/
theorem wp_bmap {bn : Nat} (hE : LogStops E) (h : Consistent s D (some i) none) (hip : Core s ip i)
    (ht : (D i).type ≠ 0) (hbn : bn < MAXFILE) :
    wp (ideal (bmap ip bn)) E (fun res s' => ∃ D', Grows s D ip i s' D' ∧
      (res = 0 → ∀ c, c < s'.sb.size → s'.bit c = true) ∧
      (res ≠ 0 → s'.slots D' (i, fileSlot bn) = res)) s := by
  have hN : MAXFILE = NDIRECT + NINDIRECT := rfl
  rw [bmap]
  split
  · next hlt =>
    rw [fileSlot_of_lt hlt]
    refine wp_imp (wp_bmapAddr hE h hip ht _) ?_
    rintro res s' ⟨D', hg, hfull, hres⟩
    exact ⟨D', hg, hfull, fun hne => (hres hne).1⟩
  · next hge =>
    have hlt : bn - NDIRECT < NINDIRECT := by omega
    rw [if_pos hlt, fileSlot_of_ge hge hlt]
    refine wp_ideal_seq (wp_bmapAddr hE h hip ht _) ?_
    rintro addr s₁ ⟨D₁, hg₁, hfull₁, hres₁⟩
    split
    · next h0 => exact ⟨D₁, hg₁, fun _ => hfull₁ h0, fun hne => absurd rfl hne⟩
    · next hne =>
      have haddr : (D₁ i).indirect = addr := (hres₁ hne).2
      have hent := wp_bmapEntry hE hg₁.consistent (hg₁.core hip) (by rwa [hg₁.type_eq])
        (by rwa [haddr]) ⟨bn - NDIRECT, hlt⟩
      rw [haddr] at hent
      refine wp_imp hent ?_
      rintro res s' ⟨D', hg, hfull, hres⟩
      exact ⟨D', hg₁.trans hg, hfull, hres⟩

/-- **`bmap` of a block that is there** changes nothing. -/
theorem wp_bmap_mapped {bn : Nat} (h : Consistent s D (some i) none) (hip : Core s ip i)
    (hbn : bn < MAXFILE) (hne : s.slots D (i, fileSlot bn) ≠ 0) :
    wp (ideal (bmap ip bn)) E (fun res s' => res = s.slots D (i, fileSlot bn) ∧ s' = s) s := by
  have hN : MAXFILE = NDIRECT + NINDIRECT := rfl
  obtain ⟨hi, ht⟩ := slots_ne_zero hne
  have hcopy := hip.copy h
  have hslot : ∀ sl, s.slots D (i, sl) = (D i).slot s.data sl := slots_eq hi ht
  have hmap : ∀ k, (D i).addrs k ≠ 0 → {Q : Nat → Fs → Prop} → Q ((D i).addrs k) s →
      wp (ideal (bmapAddr ip k)) E Q s := by
    intro k hk Q hQ
    rw [bmapAddr, wp_ideal_bind, wp_inode, hcopy]
    dsimp only
    rw [if_neg hk]
    exact hQ
  rw [hslot] at hne ⊢
  rw [bmap]
  split
  · next hlt =>
    rw [fileSlot_of_lt hlt] at hne ⊢
    exact hmap _ hne ⟨rfl, rfl⟩
  · next hge =>
    have hlt : bn - NDIRECT < NINDIRECT := by omega
    rw [fileSlot_of_ge hge hlt] at hne ⊢
    have hind : (D i).indirect ≠ 0 := fun h0 => hne (by rw [Dinode.slot, if_pos h0])
    rw [Dinode.slot, if_neg hind] at hne ⊢
    rw [if_pos hlt, wp_ideal_bind]
    refine hmap _ hind ?_
    show wp (ideal (if (D i).indirect = 0 then pure 0 else bmapEntry (D i).indirect _)) E _ s
    rw [if_neg hind, bmapEntry, wp_ideal_bind, wp_bread, if_neg hne]
    exact ⟨rfl, rfl⟩

end

end Xv6pp
