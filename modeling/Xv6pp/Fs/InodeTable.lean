import Mathlib.Data.Fintype.Card
import Mathlib.Data.Multiset.Count
import Xv6pp.Fs.Files

/-!
# The table of in-core inodes

What `iget`, `ilock`, `iunlock` and `iput` do, on a file system in good order.  `iget` takes a
reference, to an inode that is in core already or by way of an entry that is not in use; `iput` gives
one back, and frees the inode when the last reference goes and no directory names it any more.

A function of the file system that takes several references, perhaps to one inode, knows which they
are: `Refs s₀ h s` says that in the state `s` it holds the references in `h`, in addition to those
that were there in the state `s₀` in which it began.
-/

set_option autoImplicit false

namespace Xv6pp

open Prog FileSystem Allocation

/-! ## Entries of the table -/

section
variable {E : Panic → Prop} {s s' s'' : Fs} {i x : Nat} {ip k : InodeId}

/-- An entry of the table changes. -/
theorem Fs.Sane.setInode {v : Inode} (h : s.Sane) (hinum : 0 < v.ref → s.sb.IsInum v.inum)
    (hcopy : 0 < v.ref → v.valid = true → v.copy = s.dinode v.inum)
    (huniq : 0 < v.ref → ∀ {k}, k ≠ ip → 0 < (s.inode k).ref → (s.inode k).inum ≠ v.inum) :
    (s.setInode ip v).Sane where
  consistent := { h.consistent with
    toIncore := h.consistent.toIncore.update (fun _ _ => rfl) hinum hcopy huniq }
  noHoles := h.noHoles

/-- An entry of the table changes, and what it stands for does not. -/
theorem Fs.Sane.setEntry {v : Inode} (h : s.Sane) (href : 0 < v.ref → 0 < (s.inode ip).ref)
    (hinum : v.inum = (s.inode ip).inum)
    (hcopy : 0 < v.ref → v.valid = true → v.copy = s.dinode v.inum) : (s.setInode ip v).Sane := by
  refine h.setInode (fun hr => ?_) hcopy fun hr k hk hkr e => ?_
  · rw [hinum]
    exact h.consistent.inum (href hr)
  · exact hk (h.consistent.uniq hkr (href hr) (e.trans hinum))

/-- The copy of the disk inode in an entry. -/
theorem Fs.Sane.copy (h : s.Sane) (hr : 0 < (s.inode ip).ref) (hv : (s.inode ip).valid = true) :
    (s.inode ip).copy = s.dinode (s.inode ip).inum := h.consistent.copy hr hv

/-- Two states that differ at most in the table of in-core inodes. -/
structure SameDisk (s s' : Fs) : Prop where
  dev : s'.dev = s.dev
  sb : s'.sb = s.sb
  log : s'.log = s.log

namespace SameDisk

theorem refl (s : Fs) : SameDisk s s := ⟨rfl, rfl, rfl⟩

theorem trans (h : SameDisk s s') (h' : SameDisk s' s'') : SameDisk s s'' :=
  ⟨h'.dev.trans h.dev, h'.sb.trans h.sb, h'.log.trans h.log⟩

theorem setInode (h : SameDisk s s') (ip : InodeId) (v : Inode) : SameDisk s (s'.setInode ip v) :=
  ⟨h.dev, h.sb, h.log⟩

theorem data (h : SameDisk s s') : s'.data = s.data := by
  funext b
  rw [Fs.data, h.dev]
  rfl

theorem dinode (h : SameDisk s s') : s'.dinode = s.dinode := by
  funext i
  rw [Fs.dinode, h.data, h.sb]
  rfl

theorem slots (h : SameDisk s s') : s'.slots s'.dinode = s.slots s.dinode := by
  rw [Fs.slots, h.data, h.sb, h.dinode]
  rfl

theorem content (h : SameDisk s s') : s'.content = s.content := by
  funext i
  rw [Fs.content, Fs.content, h.dinode]
  refine Fs.fileBytes_congr fun o _ => ?_
  have hslots : s'.slots s.dinode = s.slots s.dinode := by
    rw [← h.slots, h.dinode]
  rw [Fs.fileByte, Fs.fileByte, Fs.fileBlock_congr hslots, h.data]

end SameDisk

/-- Two states that differ at most in entries of the table that are not in use. -/
structure SameTable (s s' : Fs) : Prop extends SameDisk s s' where
  used : ∀ k, 0 < (s.inode k).ref → s'.inode k = s.inode k
  ref : ∀ k, (s'.inode k).ref = (s.inode k).ref
  locked : ∀ k, (s'.inode k).locked = (s.inode k).locked

namespace SameTable

theorem sane (h : SameTable s s') (hs : s.Sane) : s'.Sane where
  consistent :=
    { inum := fun {k} hk => by
        rw [h.ref] at hk
        rw [h.used k hk, h.sb]
        exact hs.consistent.inum hk
      copy := fun {k} hk hv => by
        rw [h.ref] at hk
        rw [h.used k hk] at hv ⊢
        rw [h.dinode]
        exact hs.consistent.copy hk hv
      uniq := fun {j k} hj hk e => by
        rw [h.ref] at hj hk
        rw [h.used j hj, h.used k hk] at e
        exact hs.consistent.uniq hj hk e
      layout := h.sb ▸ hs.consistent.layout
      log := by
        rw [h.sb, h.log]
        exact hs.consistent.log
      blocks := by
        have hbit : s'.bit = s.bit := by
          funext b
          rw [Fs.bit, h.data, h.sb]
          rfl
        rw [h.sb, hbit, h.slots]
        exact hs.consistent.blocks
      disk := fun _ _ => rfl
      fits := fun _ => Dinode.fits_ofBytes _ }
  noHoles j hj ht bn hbn := by
    rw [h.sb] at hj
    rw [h.dinode] at ht hbn
    rw [Fs.fileBlock_congr h.slots]
    exact hs.noHoles j hj ht bn hbn

theorem core (h : SameTable s s') (hk : Core s k i) : Core s' k i := by
  have hsame := h.used k hk.ref
  exact ⟨hsame ▸ hk.ref, hsame ▸ hk.valid, hsame ▸ hk.inum⟩

end SameTable

/-! ## `iget` -/

/-- **`iget`** finds the inode in core, or takes an entry that is not in use for it. -/
inductive Got (s : Fs) (x : Nat) (ip : InodeId) : Fs → Prop
  | again : 0 < (s.inode ip).ref → (s.inode ip).inum = x →
      Got s x ip (s.setInode ip { s.inode ip with ref := (s.inode ip).ref + 1 })
  | first : (s.inode ip).ref = 0 → (∀ k, 0 < (s.inode k).ref → (s.inode k).inum ≠ x) →
      Got s x ip (s.setInode ip { s.inode ip with inum := x, ref := 1, valid := false })

/-- There is an entry that is not in use, or `iget` may panic. -/
def Vacant (E : Panic → Prop) (s : Fs) : Prop := E .igetNoInodes ∨ ∃ k, (s.inode k).ref = 0

theorem wp_iget (hE : Vacant E s) : wp (ideal (iget x)) E (fun ip s' => Got s x ip s') s := by
  rw [iget]
  simp only [wp_ideal_bind, wp_ideal_get]
  split
  · next ip hfind =>
    simp only [wp_ideal_bind, wp_updateInode, wp_ideal_pure]
    have hfound := List.find?_some hfind
    obtain ⟨hr, hx⟩ := of_decide_eq_true hfound
    exact .again hr hx
  · next hnone =>
    have hnot : ∀ k, 0 < (s.inode k).ref → (s.inode k).inum ≠ x := fun k hr he => by
      have h := List.find?_eq_none.1 hnone k (List.mem_finRange k)
      exact h (decide_eq_true ⟨hr, he⟩)
    split
    · next hfull =>
      refine hE.resolve_right ?_
      rintro ⟨k, hk⟩
      have h := List.find?_eq_none.1 hfull k (List.mem_finRange k)
      exact h (decide_eq_true hk)
    · next ip hfind =>
      simp only [wp_ideal_bind, wp_updateInode, wp_ideal_pure]
      have hfound := List.find?_some hfind
      exact .first (of_decide_eq_true hfound) hnot

namespace Got

theorem sameDisk (h : Got s x ip s') : SameDisk s s' := by cases h <;> exact ⟨rfl, rfl, rfl⟩

theorem inum (h : Got s x ip s') : (s'.inode ip).inum = x := by
  cases h with
  | again _ hx => rw [Fs.setInode_inode_self, hx]
  | first _ _ => rw [Fs.setInode_inode_self]

theorem other (h : Got s x ip s') (hk : k ≠ ip) : s'.inode k = s.inode k := by
  cases h with
  | again _ _ => exact Fs.setInode_inode_of_ne _ _ _ hk
  | first _ _ => exact Fs.setInode_inode_of_ne _ _ _ hk

theorem ref (h : Got s x ip s') : (s'.inode ip).ref = (s.inode ip).ref + 1 := by
  cases h with
  | again _ _ => rw [Fs.setInode_inode_self]
  | first h0 _ => rw [Fs.setInode_inode_self, h0]; rfl

theorem locked (h : Got s x ip s') (k : InodeId) : (s'.inode k).locked = (s.inode k).locked := by
  by_cases hk : k = ip
  · subst hk
    cases h with
    | again _ _ => rw [Fs.setInode_inode_self]
    | first _ _ => rw [Fs.setInode_inode_self]
  · rw [h.other hk]

theorem sane (h : Got s x ip s') (hs : s.Sane) (hx : s.sb.IsInum x) : s'.Sane := by
  cases h with
  | again hr _ =>
    exact hs.setEntry (fun _ => hr) rfl fun _ hv => hs.copy hr hv
  | first _ hno => exact hs.setInode (fun _ => hx) (fun _ => nofun) fun _ k _ hk => hno k hk

/-- Giving the reference back at once. -/
theorem wp_iput (h : Got s x ip s') :
    wp (ideal (iput ip)) E (fun _ s'' => SameTable s s'') s' := by
  have hkeep : ¬ ((s'.inode ip).ref = 1 ∧ (s'.inode ip).valid = true ∧ (s'.inode ip).copy.nlink = 0) := by
    rintro ⟨hr, hv, -⟩
    cases h with
    | again hpos _ =>
      rw [Fs.setInode_inode_self] at hr
      simp only at hr
      omega
    | first _ _ =>
      rw [Fs.setInode_inode_self] at hv
      cases hv
  rw [iput]
  simp only [wp_ideal_bind, wp_inode]
  rw [if_neg hkeep]
  simp only [wp_updateInode]
  refine ⟨h.sameDisk.setInode _ _, fun k hk => ?_, fun k => ?_, fun k => ?_⟩
  · rw [Fs.setInode_inode, Function.update_apply]
    split
    · next hkip =>
      subst hkip
      cases h with
      | again _ _ =>
        rw [Fs.setInode_inode_self]
        simp
      | first h0 _ => exact absurd hk (by omega)
    · next hkip => exact h.other hkip
  · rw [Fs.setInode_inode, Function.update_apply]
    split
    · next hkip =>
      subst hkip
      show (s'.inode k).ref - 1 = _
      rw [h.ref]
      omega
    · next hkip => rw [h.other hkip]
  · rw [← h.locked, Fs.setInode_inode, Function.update_apply]
    split
    · next hkip => rw [hkip]
    · rfl

end Got

/-! ## `ilock` and `iunlock` -/

theorem Fs.setInode_setInode (s : Fs) (ip : InodeId) (v w : Inode) :
    (s.setInode ip v).setInode ip w = s.setInode ip w := by
  simp only [Fs.setInode, Function.update_idem]

/-- The inode is locked and in core. -/
def Fs.lockInode (s : Fs) (ip : InodeId) : Fs :=
  s.setInode ip { s.inode ip with locked := true, valid := true, copy := s.dinode (s.inode ip).inum }

/-- **`ilock`.** -/
theorem Fs.Sane.wp_ilock (h : s.Sane) (hr : 0 < (s.inode ip).ref)
    (hlock : E .deadlock ∨ (s.inode ip).locked = false)
    (htype : E .ilockNoType ∨ (s.dinode (s.inode ip).inum).type ≠ 0) :
    wp (ideal (ilock ip)) E (fun _ s' => s' = s.lockInode ip ∧
      ((s.inode ip).valid = false → (s.dinode (s.inode ip).inum).type ≠ 0)) s := by
  rw [ilock]
  simp only [wp_ideal_bind, wp_inode]
  rw [if_neg (by omega), acquire]
  simp only [wp_ideal_bind, wp_inode]
  split
  · next hlocked => exact hlock.resolve_right (by rw [hlocked]; decide)
  simp only [wp_updateInode, Fs.setInode_inode_self]
  split
  · next hv =>
    refine ⟨?_, fun e => ?_⟩
    · rw [Fs.lockInode, ← h.copy hr hv, ← hv]
    · rw [hv] at e
      cases e
  · next hv =>
    simp only [wp_ideal_bind, wp_superblock, wp_bread, wp_updateInode, Fs.setInode_sb]
    refine wp_ideal_ite.2 ⟨fun h0 => htype.resolve_right fun hne => hne h0, fun hne => ?_⟩
    refine ⟨?_, fun _ => hne⟩
    rw [Fs.lockInode, Fs.setInode_setInode]
    simp only [Fs.setInode_inode_self, Fs.setInode_data]
    rfl

theorem Fs.Sane.lockInode (h : s.Sane) : (s.lockInode ip).Sane :=
  h.setEntry id rfl fun _ _ => rfl

theorem Core.of_lockInode (hr : 0 < (s.inode ip).ref) : Core (s.lockInode ip) ip (s.inode ip).inum := by
  refine ⟨?_, ?_, ?_⟩
  all_goals rw [Fs.lockInode, Fs.setInode_inode_self]
  exact hr

/-- **`iunlock`.** -/
theorem wp_iunlock (hr : 0 < (s.inode ip).ref) (hlocked : (s.inode ip).locked = true) :
    wp (ideal (iunlock ip)) E (fun _ s' => s' = s.setLocked ip false) s := by
  rw [iunlock]
  simp only [wp_ideal_bind, wp_inode]
  rw [if_neg (by rw [hlocked]; simp; omega)]
  exact wp_updateInode.2 rfl

end

/-! ## References -/

/-- A reference to an in-core inode: which inode it is, and whether it is known to be valid. -/
structure Token where
  ip : InodeId
  inum : Nat
  valid : Bool

/-- How many of the references are to the in-core inode `k`. -/
def refsTo (h : Multiset Token) (k : InodeId) : Nat := h.countP (·.ip = k)

/-- A function that started in the state `s₀` is in the state `s` and holds the references `h`. -/
structure Refs (s₀ : Fs) (h : Multiset Token) (s : Fs) : Prop where
  nonneg : ∀ k, 0 ≤ (s₀.inode k).ref
  ref : ∀ k, (s.inode k).ref = (s₀.inode k).ref + refsTo h k
  /-- The inodes that were in core are still there. -/
  inum : ∀ k, 0 < (s₀.inode k).ref → (s.inode k).inum = (s₀.inode k).inum
  valid : ∀ k, 0 < (s₀.inode k).ref → (s₀.inode k).valid = true → (s.inode k).valid = true
  held : ∀ t ∈ h, (s.inode t.ip).inum = t.inum ∧ (t.valid = true → (s.inode t.ip).valid = true)

section
variable {s₀ s s' : Fs} {h : Multiset Token} {t : Token} {ip : InodeId} {x : Nat}

@[simp] theorem refsTo_zero (k : InodeId) : refsTo 0 k = 0 := Multiset.countP_zero _

theorem refsTo_cons (t : Token) (h : Multiset Token) (k : InodeId) :
    refsTo (t ::ₘ h) k = refsTo h k + if t.ip = k then 1 else 0 := by
  rw [refsTo, Multiset.countP_cons]
  rfl

theorem refsTo_pos (ht : t ∈ h) : 0 < refsTo h t.ip :=
  Multiset.countP_pos.2 ⟨t, ht, rfl⟩

namespace Refs

theorem refl (hs : ∀ k, 0 ≤ (s.inode k).ref) : Refs s 0 s where
  nonneg := hs
  ref k := by simp
  inum _ _ := rfl
  valid _ _ hv := hv
  held _ ht := absurd ht (Multiset.notMem_zero _)

theorem ref_pos (hr : Refs s₀ h s) (ht : t ∈ h) : 0 < (s.inode t.ip).ref := by
  have h1 := hr.ref t.ip
  have h2 := hr.nonneg t.ip
  have h3 := refsTo_pos ht
  omega

theorem core (hr : Refs s₀ h s) (ht : t ∈ h) (hv : t.valid = true) : Core s t.ip t.inum :=
  ⟨hr.ref_pos ht, (hr.held t ht).2 hv, (hr.held t ht).1⟩

/-- A change of the state that leaves references and inode numbers alone. -/
theorem congr (hr : Refs s₀ h s) (hk : ∀ k, (s'.inode k).ref = (s.inode k).ref ∧
    (s'.inode k).inum = (s.inode k).inum ∧ ((s.inode k).valid = true → (s'.inode k).valid = true)) :
    Refs s₀ h s' where
  nonneg := hr.nonneg
  ref k := (hk k).1.trans (hr.ref k)
  inum k h0 := (hk k).2.1.trans (hr.inum k h0)
  valid k h0 hv := (hk k).2.2 (hr.valid k h0 hv)
  held t ht := ⟨(hk _).2.1.trans (hr.held t ht).1, fun hv => (hk _).2.2 ((hr.held t ht).2 hv)⟩

theorem congr_setInode {v : Inode} (hr : Refs s₀ h s) (href : v.ref = (s.inode ip).ref)
    (hinum : v.inum = (s.inode ip).inum) (hv : (s.inode ip).valid = true → v.valid = true) :
    Refs s₀ h (s.setInode ip v) := hr.congr fun k => by
  rw [Fs.setInode_inode, Function.update_apply]
  split
  · next hk =>
    rw [hk]
    exact ⟨href, hinum, hv⟩
  · exact ⟨rfl, rfl, id⟩

/-- One more reference. -/
theorem got (hr : Refs s₀ h s) (hg : Got s x ip s') : Refs s₀ (⟨ip, x, false⟩ ::ₘ h) s' where
  nonneg := hr.nonneg
  ref k := by
    rw [refsTo_cons]
    have hk := hr.ref k
    by_cases hkip : ip = k
    · subst hkip
      rw [hg.ref, hk, if_pos rfl]
      omega
    · rw [hg.other fun e => hkip e.symm, hk, if_neg hkip]
      omega
  inum k h0 := by
    by_cases hkip : k = ip
    · subst hkip
      have h1 := hr.ref k
      cases hg with
      | again _ _ =>
        rw [Fs.setInode_inode_self]
        exact hr.inum k h0
      | first h2 _ => omega
    · rw [hg.other hkip]
      exact hr.inum k h0
  valid k h0 hv := by
    by_cases hkip : k = ip
    · subst hkip
      have h1 := hr.ref k
      cases hg with
      | again _ _ =>
        rw [Fs.setInode_inode_self]
        exact hr.valid k h0 hv
      | first h2 _ => omega
    · rw [hg.other hkip]
      exact hr.valid k h0 hv
  held t ht := by
    rcases Multiset.mem_cons.1 ht with rfl | ht
    · exact ⟨hg.inum, nofun⟩
    · by_cases htip : t.ip = ip
      · have hpos := hr.ref_pos ht
        have hheld := hr.held t ht
        rw [htip] at hpos hheld ⊢
        cases hg with
        | again _ _ =>
          rw [Fs.setInode_inode_self]
          exact hheld
        | first h2 _ => omega
      · rw [hg.other htip]
        exact hr.held t ht

/-- A reference is known to be valid from now on. -/
theorem validate (hr : Refs s₀ (t ::ₘ h) s) (hv : (s.inode t.ip).valid = true) :
    Refs s₀ ({ t with valid := true } ::ₘ h) s where
  nonneg := hr.nonneg
  ref k := by
    rw [refsTo_cons]
    have hk := hr.ref k
    rwa [refsTo_cons] at hk
  inum := hr.inum
  valid := hr.valid
  held t' ht := by
    rcases Multiset.mem_cons.1 ht with rfl | ht
    · exact ⟨(hr.held t (Multiset.mem_cons_self ..)).1, fun _ => hv⟩
    · exact hr.held t' (Multiset.mem_cons_of_mem ht)

/-- One reference less. -/
theorem drop {v : Inode} (hr : Refs s₀ (t ::ₘ h) s) (href : v.ref = (s.inode t.ip).ref - 1)
    (hinum : v.inum = (s.inode t.ip).inum)
    (hv : 0 < v.ref → (s.inode t.ip).valid = true → v.valid = true) :
    Refs s₀ h (s.setInode t.ip v) where
  nonneg := hr.nonneg
  ref k := by
    have hk := hr.ref k
    rw [refsTo_cons] at hk
    rw [Fs.setInode_inode, Function.update_apply]
    split
    · next hkip =>
      subst hkip
      rw [if_pos rfl] at hk
      omega
    · next hkip =>
      rw [if_neg fun e => hkip e.symm] at hk
      simpa using hk
  inum k h0 := by
    rw [← hr.inum k h0, Fs.setInode_inode, Function.update_apply]
    split
    · next hkip => rw [hkip, hinum]
    · rfl
  valid k h0 hval := by
    have hk := hr.ref k
    have hval' := hr.valid k h0 hval
    rw [Fs.setInode_inode, Function.update_apply]
    split
    · next hkip =>
      subst hkip
      rw [refsTo_cons, if_pos rfl] at hk
      exact hv (by omega) hval'
    · exact hval'
  held t' ht := by
    have hheld := hr.held t' (Multiset.mem_cons_of_mem ht)
    rw [Fs.setInode_inode, Function.update_apply]
    split
    · next hkip =>
      rw [hkip] at hheld
      refine ⟨hinum.trans hheld.1, fun hval => hv ?_ (hheld.2 hval)⟩
      -- there is another reference to this inode
      have hk := hr.ref t.ip
      have h0 := hr.nonneg t.ip
      have hpos := refsTo_pos ht
      rw [refsTo_cons, if_pos rfl] at hk
      rw [hkip] at hpos
      omega
    · exact hheld

theorem sameTable (hr : Refs s₀ h s) (hst : SameTable s s') : Refs s₀ h s' where
  nonneg := hr.nonneg
  ref k := (hst.ref k).trans (hr.ref k)
  inum k h0 := by
    have hk := hr.ref k
    rw [hst.used k (by omega)]
    exact hr.inum k h0
  valid k h0 hv := by
    have hk := hr.ref k
    rw [hst.used k (by omega)]
    exact hr.valid k h0 hv
  held t ht := by
    rw [hst.used t.ip (hr.ref_pos ht)]
    exact hr.held t ht

theorem trans {h' : Multiset Token} (hr : Refs s₀ h s) (hr' : Refs s h' s') : Refs s₀ (h' + h) s' where
  nonneg := hr.nonneg
  ref k := by
    rw [hr'.ref, hr.ref, refsTo, refsTo, refsTo, Multiset.countP_add]
    push_cast
    omega
  inum k h0 := by
    have h1 := hr.ref k
    rw [hr'.inum k (by omega), hr.inum k h0]
  valid k h0 hv := by
    have h1 := hr.ref k
    exact hr'.valid k (by omega) (hr.valid k h0 hv)
  held t ht := by
    rcases Multiset.mem_add.1 ht with ht | ht
    · exact hr'.held t ht
    · have hpos := hr.ref_pos ht
      obtain ⟨hinum, hvalid⟩ := hr.held t ht
      exact ⟨(hr'.inum _ hpos).trans hinum, fun hv => hr'.valid _ hpos (hvalid hv)⟩

theorem swap {t' : Token} (hr : Refs s₀ (t ::ₘ t' ::ₘ h) s) : Refs s₀ (t' ::ₘ t ::ₘ h) s := by
  rwa [Multiset.cons_swap]

end Refs

/-- Enough entries are not in use, or `iget` may panic. -/
def Roomy (E : Panic → Prop) (n : Nat) (s : Fs) : Prop :=
  E .igetNoInodes ∨ n ≤ (Finset.univ.filter fun k => (s.inode k).ref = 0).card

/-- A function that holds less than `n` references finds an entry that is not in use. -/
theorem Roomy.vacant {E : Panic → Prop} {n : Nat} (hroom : Roomy E n s₀) (hr : Refs s₀ h s)
    (hn : h.card < n) : Vacant E s := by
  refine hroom.imp_right fun hcard => ?_
  have hips : (h.map Token.ip).toFinset.card < (Finset.univ.filter fun k => (s₀.inode k).ref = 0).card :=
    calc (h.map Token.ip).toFinset.card ≤ (h.map Token.ip).card := Multiset.toFinset_card_le _
      _ = h.card := Multiset.card_map _ _
      _ < _ := by omega
  obtain ⟨k, hk, hnot⟩ := Finset.exists_mem_notMem_of_card_lt_card hips
  refine ⟨k, ?_⟩
  have hzero : refsTo h k = 0 := by
    refine Multiset.countP_eq_zero.2 fun t ht e => hnot ?_
    exact Multiset.mem_toFinset.2 (Multiset.mem_map.2 ⟨t, ht, e⟩)
  rw [hr.ref, hzero, (Finset.mem_filter.1 hk).2]
  rfl

end

/-! ## Sessions -/

/-- The inodes that are valid in core are allocated. -/
def Fs.Typed (s : Fs) : Prop :=
  ∀ k, 0 < (s.inode k).ref → (s.inode k).valid = true → (s.dinode (s.inode k).inum).type ≠ 0

/-- A function that started in the state `s₀` is in the state `s`, holds the references `h`, and the
inodes in `l` are locked. -/
structure Session (s₀ : Fs) (h : Multiset Token) (l : Finset InodeId) (s : Fs) : Prop where
  refs : Refs s₀ h s
  sane : s.Sane
  locked : ∀ k, (s.inode k).locked = true ↔ k ∈ l
  typed : s₀.Typed → s.Typed

section
variable {E : Panic → Prop} {s₀ s s' : Fs} {h : Multiset Token} {t : Token} {l : Finset InodeId}
  {ip : InodeId} {x : Nat}

/-- An entry of the table changes. -/
theorem Fs.Typed.setInode {v : Inode} (hs : s.Typed)
    (hv : 0 < v.ref → v.valid = true → (s.dinode v.inum).type ≠ 0) : (s.setInode ip v).Typed := by
  intro k hr hval
  rw [Fs.setInode_inode, Function.update_apply] at hr hval ⊢
  split
  · next hk =>
    rw [if_pos hk] at hr hval
    exact hv hr hval
  · next hk =>
    rw [if_neg hk] at hr hval
    exact hs k hr hval

theorem Got.typed (hg : Got s x ip s') (hs : s.Typed) : s'.Typed := by
  cases hg with
  | again hr _ => exact hs.setInode fun _ hv => hs ip hr hv
  | first _ _ => exact hs.setInode fun _ => nofun

namespace Session

theorem refl (hs : s.Sane) (hnonneg : ∀ k, 0 ≤ (s.inode k).ref)
    (hlock : ∀ k, (s.inode k).locked = false) : Session s 0 ∅ s where
  refs := .refl hnonneg
  sane := hs
  locked k := by simp [hlock k]
  typed := id

theorem locked_eq_false (hs : Session s₀ h l s) {k : InodeId} (hk : k ∉ l) :
    (s.inode k).locked = false := by
  rw [← Bool.not_eq_true]
  exact fun hl => hk ((hs.locked k).1 hl)

/-- `iget`. -/
theorem got (hs : Session s₀ h l s) (hg : Got s x ip s') (hx : s.sb.IsInum x) :
    Session s₀ (⟨ip, x, false⟩ ::ₘ h) l s' where
  refs := hs.refs.got hg
  sane := hg.sane hs.sane hx
  locked k := by
    rw [hg.locked]
    exact hs.locked k
  typed h0 := hg.typed (hs.typed h0)

theorem sameTable (hs : Session s₀ h l s) (hst : SameTable s s') : Session s₀ h l s' where
  refs := hs.refs.sameTable hst
  sane := hst.sane hs.sane
  locked k := by
    rw [hst.locked]
    exact hs.locked k
  typed h0 k hr hv := by
    rw [hst.ref] at hr
    rw [hst.used k hr] at hv ⊢
    rw [hst.dinode]
    exact hs.typed h0 k hr hv

/-- **`ilock`** of an inode to which there is a reference. -/
theorem wp_ilock (hs : Session s₀ (t ::ₘ h) l s) (hlock : E .deadlock ∨ t.ip ∉ l)
    (htype : E .ilockNoType ∨ (s.dinode t.inum).type ≠ 0) :
    wp (ideal (ilock t.ip)) E (fun _ s' =>
      Session s₀ ({ t with valid := true } ::ₘ h) (insert t.ip l) s' ∧ SameDisk s s' ∧
        ((s.inode t.ip).valid = false → (s.dinode t.inum).type ≠ 0)) s := by
  have hmem := Multiset.mem_cons_self t h
  have hinum := (hs.refs.held t hmem).1
  refine wp_imp (hs.sane.wp_ilock (hs.refs.ref_pos hmem) (hlock.imp_right hs.locked_eq_false)
    (by rwa [hinum])) ?_
  rintro _ s' ⟨rfl, hnew⟩
  rw [hinum] at hnew
  refine ⟨⟨?_, hs.sane.lockInode, fun k => ?_, fun h0 => ?_⟩, (SameDisk.refl s).setInode _ _, hnew⟩
  · refine Refs.validate (hs.refs.congr_setInode rfl rfl fun _ => rfl) ?_
    rw [Fs.lockInode, Fs.setInode_inode_self]
  · rw [Fs.lockInode, Fs.setInode_inode, Function.update_apply, Finset.mem_insert, ← hs.locked k]
    split
    · next hk => exact iff_of_true rfl (.inl hk)
    · next hk => simp [hk]
  · refine (hs.typed h0).setInode fun _ _ => ?_
    rw [hinum]
    cases hv : (s.inode t.ip).valid with
    | false => exact hnew hv
    | true => exact hinum ▸ hs.typed h0 t.ip (hs.refs.ref_pos hmem) hv

/-- **`iunlock`.** -/
theorem wp_iunlock (hs : Session s₀ h l s) (ht : t ∈ h) (hl : t.ip ∈ l) :
    wp (ideal (iunlock t.ip)) E (fun _ s' => Session s₀ h (l.erase t.ip) s' ∧ SameDisk s s') s := by
  refine wp_imp (Xv6pp.wp_iunlock (hs.refs.ref_pos ht) ((hs.locked _).2 hl)) ?_
  rintro _ s' rfl
  refine ⟨⟨hs.refs.congr_setInode rfl rfl id, hs.sane.setLocked _, fun k => ?_, fun h0 => ?_⟩,
    (SameDisk.refl s).setInode _ _⟩
  · rw [Fs.setLocked, Fs.setInode_inode, Function.update_apply, Finset.mem_erase, ← hs.locked k]
    split
    · next hk => simp [hk]
    · next hk => simp [hk]
  · exact (hs.typed h0).setInode fun hr hv => hs.typed h0 _ hr hv

/-- **`iput`** of a reference that is not the last one to an inode without links. -/
theorem wp_iput_keep (hs : Session s₀ (t ::ₘ h) l s)
    (hkeep : (s.inode t.ip).ref = 1 → (s.inode t.ip).valid = true → (s.dinode t.inum).nlink ≠ 0) :
    wp (ideal (iput t.ip)) E (fun _ s' => Session s₀ h l s' ∧ SameDisk s s') s := by
  have hmem := Multiset.mem_cons_self t h
  have hpos := hs.refs.ref_pos hmem
  rw [iput]
  simp only [wp_ideal_bind, wp_inode]
  rw [if_neg ?_]
  · simp only [wp_updateInode]
    refine ⟨⟨hs.refs.drop rfl rfl fun _ => id, ?_, fun k => ?_, fun h0 => ?_⟩,
      (SameDisk.refl s).setInode _ _⟩
    · exact hs.sane.setEntry (fun _ => hpos) rfl fun _ hv => hs.sane.copy hpos hv
    · rw [Fs.setInode_inode, Function.update_apply, ← hs.locked k]
      split
      · next hk => rw [hk]
      · rfl
    · exact (hs.typed h0).setInode fun _ hv => hs.typed h0 _ hpos hv
  · rintro ⟨hr, hv, hn⟩
    rw [hs.sane.copy hpos hv, (hs.refs.held t hmem).1] at hn
    exact hkeep hr hv hn

end Session

end

end Xv6pp
