import Xv6pp.Buffer.Outcome
import Xv6pp.Fs.Components

/-!
# What the functions of the file system hold

References to in-core inodes, their sleep locks, the operations of the log and the buffers of the
cache are taken and given back by the functions of `kernel/file_system.cpp`.  A `View` is what the
system knows of the first three; most functions leave it and the buffers as they were (`Quiet`),
whatever they find on the disk, and the others change it at one inode: `iget` and `idup` take a
reference, `iput` gives one back, `ilock` and `iunlock` take and give back a lock, and `namei`,
`nameiparent`, `dirlookup` and `ialloc` return with a reference to the inode they return.
-/

set_option autoImplicit false

namespace Xv6pp

/-! ## Views -/

/-- The references to the in-core inodes, their locks, and the number of operations in the log. -/
structure View where
  ref : InodeId → Int
  locked : InodeId → Bool
  outstanding : Int

namespace View

variable {v : View} {ip : InodeId}

/-- One more reference. -/
def hold (v : View) (ip : InodeId) : View := { v with ref := Function.update v.ref ip (v.ref ip + 1) }

/-- One reference less. -/
def drop (v : View) (ip : InodeId) : View := { v with ref := Function.update v.ref ip (v.ref ip - 1) }

/-- The lock is taken. -/
def lock (v : View) (ip : InodeId) : View := { v with locked := Function.update v.locked ip true }

/-- The lock is free. -/
def unlock (v : View) (ip : InodeId) : View := { v with locked := Function.update v.locked ip false }

@[simp] theorem drop_hold (v : View) (ip : InodeId) : (v.hold ip).drop ip = v := by
  simp [hold, drop]

@[simp] theorem hold_drop (v : View) (ip : InodeId) : (v.drop ip).hold ip = v := by
  simp [hold, drop]

@[simp] theorem unlock_lock (h : v.locked ip = false) : (v.lock ip).unlock ip = v := by
  have : Function.update v.locked ip false = v.locked := by rw [← h, Function.update_eq_self]
  simp [lock, unlock, this]

@[simp] theorem hold_locked (v : View) (ip : InodeId) : (v.hold ip).locked = v.locked := rfl

@[simp] theorem drop_locked (v : View) (ip : InodeId) : (v.drop ip).locked = v.locked := rfl

theorem hold_lock (v : View) (ip jp : InodeId) : (v.lock ip).hold jp = (v.hold jp).lock ip := rfl

theorem drop_hold_comm (v : View) (ip jp : InodeId) : (v.hold jp).drop ip = (v.drop ip).hold jp := by
  have : (Function.update (Function.update v.ref jp (v.ref jp + 1)) ip
      (Function.update v.ref jp (v.ref jp + 1) ip - 1)) =
      Function.update (Function.update v.ref ip (v.ref ip - 1)) jp
        (Function.update v.ref ip (v.ref ip - 1) jp + 1) := by
    funext kp
    simp only [Function.update_apply]
    split_ifs with h1 h2 h3 <;> subst_vars <;> simp_all
  simp only [hold, drop, this]

/-- One more reference to the inode, if there is one. -/
def holdOpt (v : View) : Option InodeId → View
  | none => v
  | some ip => v.hold ip

end View

/-- What the state of the file system says of these. -/
def FsMem.view (m : FsMem) : View where
  ref := fun ip => (m.inodes ip).ref
  locked := fun ip => (m.inodes ip).locked
  outstanding := m.log.outstanding

namespace FileSystem

/-! ## Commands -/

section
variable {s : FsMem} {held : List Nat} {b : Nat} {ip : InodeId}

@[simp] theorem always_bread {Q : Block → FsMem → List Nat → Prop} :
    Always (bread b) Q s held ↔ (b ∉ held → ∀ d, Q d s (b :: held)) := by
  rw [bread, buf, always_lift]
  constructor
  · exact fun h hb d => h d _ ⟨hb, d, rfl, rfl⟩
  · rintro h a held' ⟨hb, d, rfl, rfl⟩
    exact h hb a

@[simp] theorem always_bstore {Q : Unit → FsMem → List Nat → Prop} {d : Block} :
    Always (bstore b d) Q s held ↔ Q () s held := by
  rw [bstore, buf, always_lift]
  exact ⟨fun h => h () held ⟨rfl, rfl⟩, fun h _ _ ⟨_, hh⟩ => hh ▸ h⟩

@[simp] theorem always_brelse {Q : Unit → FsMem → List Nat → Prop} :
    Always (brelse b) Q s held ↔ (b ∈ held → Q () s (held.erase b)) := by
  rw [brelse, buf, always_lift]
  exact ⟨fun h hb => h () _ ⟨hb, rfl, rfl⟩, fun h _ _ ⟨hb, _, hh⟩ => hh ▸ h hb⟩

@[simp] theorem always_stop {α : Type} {Q : α → FsMem → List Nat → Prop} {e : Panic} :
    Always (stop e) Q s held :=
  always_lift.2 fun _ _ h => h.elim

@[simp] theorem always_superblock {Q : Superblock → FsMem → List Nat → Prop} :
    Always superblock Q s held ↔ Q s.sb s held := by
  rw [superblock, always_bind, always_get, always_pure]

@[simp] theorem always_inode {Q : Inode → FsMem → List Nat → Prop} :
    Always (inode ip) Q s held ↔ Q (s.inodes ip) s held := by
  rw [inode, always_bind, always_get, always_pure]

@[simp] theorem always_updateInode {Q : Unit → FsMem → List Nat → Prop} {f : Inode → Inode} :
    Always (updateInode ip f) Q s held ↔
      Q () { s with inodes := Function.update s.inodes ip (f (s.inodes ip)) } held :=
  always_modify

end

/-! ## Functions that change nothing of this -/

/-- The program takes nothing and gives nothing back. -/
def Quiet {α : Type} (m : FsM α) : Prop :=
  ∀ s held, Always m (fun _ s' held' => s'.view = s.view ∧ held' = held) s held

section
variable {α β : Type} {s : FsMem} {held : List Nat} {b : Nat} {ip : InodeId}

/-- Using a quiet program. -/
theorem Quiet.always {m : FsM α} (h : Quiet m) {Q : α → FsMem → List Nat → Prop}
    (hQ : ∀ a s', s'.view = s.view → Q a s' held) : Always m Q s held := by
  refine (h s held).imp ?_
  rintro a s' _ ⟨hs, rfl⟩
  exact hQ a s' hs

theorem Quiet.pure (a : α) : Quiet (Pure.pure a) := fun _ _ => always_pure.2 ⟨rfl, rfl⟩

theorem Quiet.stop (e : Panic) : Quiet (FileSystem.stop e : FsM α) := fun _ _ => always_stop

theorem Quiet.bind {m : FsM α} {f : α → FsM β} (hm : Quiet m) (hf : ∀ a, Quiet (f a)) :
    Quiet (m >>= f) := fun s held => by
  rw [always_bind]
  refine hm.always fun a s₁ h₁ => (hf a).always fun b s₂ h₂ => ⟨h₂.trans h₁, rfl⟩

theorem Quiet.ite {c : Prop} [Decidable c] {m m' : FsM α} (hm : Quiet m) (hm' : Quiet m') :
    Quiet (if c then m else m') := by
  split
  · exact hm
  · exact hm'

theorem quiet_superblock : Quiet superblock := fun _ _ => always_superblock.2 ⟨rfl, rfl⟩

theorem quiet_inode (ip : InodeId) : Quiet (inode ip) := fun _ _ => always_inode.2 ⟨rfl, rfl⟩

theorem quiet_bstore (b : Nat) (d : Block) : Quiet (bstore b d) := fun _ _ =>
  always_bstore.2 ⟨rfl, rfl⟩

/-- The view after a change of an inode. -/
theorem view_update (i : Inode) :
    FsMem.view { s with inodes := Function.update s.inodes ip i } =
      ⟨Function.update s.view.ref ip i.ref, Function.update s.view.locked ip i.locked,
        s.view.outstanding⟩ := by
  simp only [FsMem.view, View.mk.injEq, and_true]
  refine ⟨funext fun jp => ?_, funext fun jp => ?_⟩
  all_goals
    by_cases hj : jp = ip
    · subst hj
      rw [Function.update_self, Function.update_self]
    · rw [Function.update_of_ne hj, Function.update_of_ne hj]

/-- A change of an inode that does not concern its references and its lock. -/
theorem view_updateInode {i : Inode} (hr : i.ref = (s.inodes ip).ref)
    (hl : i.locked = (s.inodes ip).locked) :
    FsMem.view { s with inodes := Function.update s.inodes ip i } = s.view := by
  rw [view_update, hr, hl]
  simp [FsMem.view]

theorem quiet_updateCopy (ip : InodeId) (f : Dinode → Dinode) : Quiet (updateCopy ip f) := fun _ _ =>
  always_updateInode.2 ⟨view_updateInode rfl rfl, rfl⟩

theorem quiet_setAddr (ip : InodeId) (i : Fin (NDIRECT + 1)) (addr : Nat) : Quiet (setAddr ip i addr) :=
  quiet_updateCopy _ _

theorem quiet_logWrite (b : Nat) : Quiet (logWrite b) := fun s held => by
  simp only [logWrite, always_bind, always_get]
  split
  · exact always_stop
  · next l pinned hl =>
    simp only [always_bind, always_set]
    have hout : l.outstanding = s.log.outstanding := by
      rw [Log.logWrite_eq] at hl
      split_ifs at hl <;> cases hl <;> rfl
    have hview : FsMem.view { s with log := l } = s.view := by simp only [FsMem.view, hout]
    split
    · exact always_lift.2 fun _ _ hh => ⟨hview, hh.2⟩
    · exact always_pure.2 ⟨hview, rfl⟩

/-- The program gives back the buffer `b` that the process holds, and nothing else. -/
def Releases (b : Nat) (m : FsM α) : Prop :=
  ∀ s held, Always m (fun _ s' held' => s'.view = s.view ∧ held' = held) s (b :: held)

theorem Quiet.read {k : Block → FsM α} (hk : ∀ d, Releases b (k d)) : Quiet (bread b >>= k) :=
  fun s held => by
    rw [always_bind, always_bread]
    exact fun _ d => hk d s held

theorem Releases.brelse : Releases b (brelse b) := fun s held => by
  rw [always_brelse, List.erase_cons_head]
  exact fun _ => ⟨rfl, rfl⟩

theorem Releases.relse {f : Unit → FsM α} (hf : Quiet (f ())) : Releases b (FileSystem.brelse b >>= f) :=
  fun s held => (Releases.brelse s held).seq (by
    rintro _ s₁ _ ⟨h₁, rfl⟩
    exact hf.always fun a s₂ h₂ => ⟨h₂.trans h₁, rfl⟩)

theorem Releases.bind {m : FsM α} {f : α → FsM β} (hm : Quiet m) (hf : ∀ a, Releases b (f a)) :
    Releases b (m >>= f) := fun s held => by
  rw [always_bind]
  refine hm.always fun a s₁ h₁ => (hf a s₁ held).imp ?_
  rintro _ s₂ _ ⟨h₂, rfl⟩
  exact ⟨h₂.trans h₁, rfl⟩

theorem Releases.ite {c : Prop} [Decidable c] {m m' : FsM α} (hm : Releases b m)
    (hm' : Releases b m') : Releases b (if c then m else m') := by
  split
  · exact hm
  · exact hm'

theorem Releases.stop (e : Panic) : Releases b (FileSystem.stop e : FsM α) := fun _ _ => always_stop

/-! ## Blocks -/

theorem quiet_bzero (b : Nat) : Quiet (bzero b) :=
  .read fun _ => .bind (quiet_bstore _ _) fun _ => .bind (quiet_logWrite _) fun _ => .brelse

theorem quiet_ballocFrom (sb : Superblock) (n b : Nat) : Quiet (ballocFrom sb n b) := by
  induction n generalizing b with
  | zero => exact .pure _
  | succ n ih =>
    rw [ballocFrom]
    refine .read fun bp => ?_
    split
    · exact .bind (quiet_bstore _ _) fun _ => .bind (quiet_logWrite _) fun _ =>
        .bind (quiet_bzero _) fun _ => .relse (.pure _)
    · exact .relse (ih _)

theorem quiet_balloc : Quiet balloc := .bind quiet_superblock fun _ => quiet_ballocFrom _ _ _

theorem quiet_bfree (b : Nat) : Quiet (bfree b) :=
  .bind quiet_superblock fun _ => .read fun _ => .ite (.stop _) (.bind (quiet_bstore _ _) fun _ =>
    .bind (quiet_logWrite _) fun _ => .brelse)

theorem quiet_iupdate (ip : InodeId) : Quiet (iupdate ip) :=
  .bind (quiet_inode _) fun _ => .bind quiet_superblock fun _ => .read fun _ =>
    .bind (quiet_bstore _ _) fun _ => .bind (quiet_logWrite _) fun _ => .brelse

theorem quiet_bfreeAll (bs : List Nat) : Quiet (bfreeAll bs) := by
  induction bs with
  | nil => exact .pure _
  | cons b bs ih => exact .ite (.bind (quiet_bfree b) fun _ => ih) ih

theorem quiet_truncDirect (ip : InodeId) (is : List (Fin (NDIRECT + 1))) : Quiet (truncDirect ip is) := by
  induction is with
  | nil => exact .pure _
  | cons i is ih =>
    exact .bind (quiet_inode _) fun _ => .ite (.bind (quiet_bfree _) fun _ =>
      .bind (quiet_setAddr _ _ _) fun _ => ih) ih

theorem quiet_itrunc (ip : InodeId) : Quiet (itrunc ip) := by
  have hend : Quiet (updateCopy ip (fun d => { d with size := 0 }) >>= fun _ => iupdate ip) :=
    .bind (quiet_updateCopy _ _) fun _ => quiet_iupdate _
  refine .bind (quiet_truncDirect _ _) fun _ => .bind (quiet_inode _) fun i => .ite ?_ hend
  exact .read fun _ => .bind (quiet_bfreeAll _) fun _ => .relse (.bind (quiet_bfree _) fun _ =>
    .bind (quiet_setAddr _ _ _) fun _ => hend)

/-! ## The contents of files -/

theorem quiet_bmapEntry (addr bn : Nat) : Quiet (bmapEntry addr bn) := by
  refine .read fun bp => .ite ?_ (.relse (.pure _))
  refine .bind quiet_balloc fun a => .ite ?_ (.relse (.pure _))
  exact .bind (quiet_bstore _ _) fun _ => .bind (quiet_logWrite _) fun _ => .relse (.pure _)

theorem quiet_bmapAddr (ip : InodeId) (i : Fin (NDIRECT + 1)) : Quiet (bmapAddr ip i) :=
  .bind (quiet_inode _) fun _ => .ite (.bind quiet_balloc fun _ => .ite (.pure _)
    (.bind (quiet_setAddr _ _ _) fun _ => .pure _)) (.pure _)

theorem quiet_bmap (ip : InodeId) (bn : Nat) : Quiet (bmap ip bn) := by
  rw [bmap]
  split
  · exact quiet_bmapAddr _ _
  · exact .ite (.bind (quiet_bmapAddr _ _) fun _ => .ite (.pure _) (quiet_bmapEntry _ _)) (.stop _)

theorem quiet_readFrom (ip : InodeId) (dst : Nat → List UInt8 → Bool) (n fuel tot off : Nat)
    (bytes : List UInt8) : Quiet (readFrom ip dst n fuel tot off bytes) := by
  induction fuel generalizing tot off bytes with
  | zero => exact .pure _
  | succ fuel ih =>
    refine .ite (.bind (quiet_bmap _ _) fun addr => .ite (.pure _) ?_) (.pure _)
    exact .read fun bp => .relse (.ite (ih _ _ _) (.pure _))

theorem quiet_readi (ip : InodeId) (dst : Nat → List UInt8 → Bool) (off n : Nat) :
    Quiet (readi ip dst off n) :=
  .bind (quiet_inode _) fun _ => .ite (.pure _) (quiet_readFrom _ _ _ _ _ _ _)

theorem quiet_writeFrom (ip : InodeId) (src : Nat → Nat → List UInt8 × Bool) (n fuel tot off : Nat) :
    Quiet (writeFrom ip src n fuel tot off) := by
  induction fuel generalizing tot off with
  | zero => exact .pure _
  | succ fuel ih =>
    refine .ite (.bind (quiet_bmap _ _) fun addr => .ite (.pure _) ?_) (.pure _)
    refine .read fun bp => .bind (quiet_bstore _ _) fun _ => .ite ?_ (.relse (.pure _))
    exact .bind (quiet_logWrite _) fun _ => .relse (ih _ _)

theorem quiet_writei (ip : InodeId) (src : Nat → Nat → List UInt8 × Bool) (off n : Nat) :
    Quiet (writei ip src off n) :=
  .bind (quiet_inode _) fun _ => .ite (.pure _) (.ite (.pure _) (.bind (quiet_writeFrom _ _ _ _ _ _)
    fun _ => .bind (quiet_updateCopy _ _) fun _ => .bind (quiet_iupdate _) fun _ => .pure _))

theorem quiet_emptyFrom (dp : InodeId) (n off : Nat) : Quiet (emptyFrom dp n off) := by
  induction n generalizing off with
  | zero => exact .pure _
  | succ n ih =>
    refine .bind (quiet_inode _) fun _ => .ite (.bind (quiet_readi _ _ _ _) fun r => ?_) (.pure _)
    exact .ite (.stop _) (.ite (.pure _) (ih _))

/-! ## In-core inodes -/

/-- What a program does to the view, for each of its results; it gives back the buffers it takes. -/
def Effect (m : FsM α) (R : View → α → View → Prop) : Prop :=
  ∀ s held, Always m (fun a s' held' => R s.view a s'.view ∧ held' = held) s held

/-- Using the effect of a program. -/
theorem Effect.always {m : FsM α} {R : View → α → View → Prop} (h : Effect m R)
    {Q : α → FsMem → List Nat → Prop} (hQ : ∀ a s', R s.view a s'.view → Q a s' held) :
    Always m Q s held := by
  refine (h s held).imp ?_
  rintro a s' _ ⟨hs, rfl⟩
  exact hQ a s' hs

theorem view_hold {i : Inode} (hr : i.ref = (s.inodes ip).ref + 1)
    (hl : i.locked = (s.inodes ip).locked) :
    FsMem.view { s with inodes := Function.update s.inodes ip i } = s.view.hold ip := by
  rw [view_update, hr, hl]
  simp [FsMem.view, View.hold]

theorem view_drop {i : Inode} (hr : i.ref = (s.inodes ip).ref - 1)
    (hl : i.locked = (s.inodes ip).locked) :
    FsMem.view { s with inodes := Function.update s.inodes ip i } = s.view.drop ip := by
  rw [view_update, hr, hl]
  simp [FsMem.view, View.drop]

theorem view_lock {i : Inode} (hr : i.ref = (s.inodes ip).ref) :
    FsMem.view { s with inodes := Function.update s.inodes ip i } =
      { s.view with locked := Function.update s.view.locked ip i.locked } := by
  rw [view_update, hr]
  simp [FsMem.view]

theorem effect_iget (inum : Nat) : Effect (iget inum) fun v ip v' => v' = v.hold ip := by
  intro s held
  simp only [iget, always_bind, always_get]
  split
  · simp only [always_bind, always_updateInode, always_pure]
    exact ⟨view_hold rfl rfl, trivial⟩
  · split
    · exact always_stop
    · next ip hip =>
      have href : (s.inodes ip).ref = 0 := by simpa using List.find?_some hip
      simp only [always_bind, always_updateInode, always_pure]
      exact ⟨view_hold (by rw [href]; rfl) rfl, trivial⟩

theorem effect_idup (ip : InodeId) : Effect (idup ip) fun v jp v' => jp = ip ∧ v' = v.hold ip := by
  intro s held
  simp only [idup, always_bind, always_updateInode, always_pure]
  exact ⟨⟨trivial, view_hold rfl rfl⟩, trivial⟩

theorem effect_iallocFrom (sb : Superblock) (type : Int) (n inum : Nat) :
    Effect (iallocFrom sb type n inum) fun v r v' => v' = v.holdOpt r := by
  induction n generalizing inum with
  | zero => exact fun s held => always_pure.2 ⟨rfl, rfl⟩
  | succ n ih =>
    intro s held
    simp only [iallocFrom, always_bind, always_bread, always_ite]
    intro _ bp
    refine ⟨fun _ => ?_, fun _ => ?_⟩
    · rw [always_bstore]
      refine (quiet_logWrite _).always fun _ s₁ h₁ => (effect_iget _).always fun ip s₂ h₂ => ?_
      rw [always_brelse, List.erase_cons_head]
      exact fun _ => always_pure.2 ⟨by rw [h₂, h₁]; rfl, rfl⟩
    · rw [always_brelse, List.erase_cons_head]
      exact fun _ => ih _ s held

theorem effect_ialloc (type : Int) : Effect (ialloc type) fun v r v' => v' = v.holdOpt r := by
  intro s held
  simp only [ialloc, always_bind, always_superblock]
  exact effect_iallocFrom _ _ _ _ s held

theorem effect_acquire (ip : InodeId) :
    Effect (acquire ip) fun v _ v' => v.locked ip = false ∧ v' = v.lock ip := by
  intro s held
  simp only [acquire, always_bind, always_inode, always_ite, always_updateInode]
  refine ⟨fun _ => always_stop, fun hl => ⟨⟨Bool.eq_false_iff.2 hl, view_lock rfl⟩, trivial⟩⟩

theorem effect_ilock (ip : InodeId) :
    Effect (ilock ip) fun v _ v' => v.locked ip = false ∧ v' = v.lock ip := by
  intro s held
  simp only [ilock, always_bind, always_inode, always_ite]
  refine ⟨fun _ => always_stop, fun _ => ?_⟩
  refine (effect_acquire ip).always fun _ s₁ h₁ => ⟨fun _ => always_pure.2 ⟨h₁, rfl⟩, fun _ => ?_⟩
  simp only [always_superblock, always_bread, always_updateInode]
  intro _ bp
  refine ⟨fun _ => always_stop, fun _ => ?_⟩
  rw [always_brelse, List.erase_cons_head]
  refine fun _ => ⟨⟨h₁.1, ?_⟩, rfl⟩
  rw [← h₁.2]
  exact view_updateInode rfl rfl

theorem effect_iunlock (ip : InodeId) :
    Effect (iunlock ip) fun v _ v' => v' = v.unlock ip := by
  intro s held
  simp only [iunlock, always_bind, always_inode, always_ite, always_updateInode]
  exact ⟨fun _ => always_stop, fun _ => ⟨view_lock rfl, trivial⟩⟩

/-- **`iput`** gives back one reference, whether or not it frees the inode. -/
theorem effect_iput (ip : InodeId) : Effect (iput ip) fun v _ v' => v' = v.drop ip := by
  have hlast : Effect (updateInode ip fun i => { i with ref := i.ref - 1 })
      fun v _ v' => v' = v.drop ip := fun s held => always_updateInode.2 ⟨view_drop rfl rfl, rfl⟩
  have hunlock : Effect (updateInode ip fun i => { i with valid := false, locked := false })
      fun v _ v' => v' = v.unlock ip := fun s held => always_updateInode.2 ⟨view_lock rfl, rfl⟩
  intro s held
  simp only [iput, always_bind, always_inode, always_ite]
  refine ⟨fun _ => ?_, fun _ => hlast s held⟩
  refine (effect_acquire ip).always fun _ s₁ h₀ => (quiet_itrunc ip).always fun _ s₂ h₂ =>
    (quiet_updateCopy ip _).always fun _ s₃ h₃ => (quiet_iupdate ip).always fun _ s₄ h₄ =>
      hunlock.always fun _ s₅ h₅ => hlast.always fun _ s₆ h₆ => ⟨?_, rfl⟩
  rw [h₆, h₅, h₄, h₃, h₂, h₀.2, View.unlock_lock h₀.1]

theorem effect_iunlockput (ip : InodeId) :
    Effect (iunlockput ip) fun v _ v' => v' = (v.unlock ip).drop ip := by
  intro s held
  rw [iunlockput, always_bind]
  exact (effect_iunlock ip).always fun _ s₁ h₁ => (effect_iput ip).always fun _ s₂ h₂ =>
    ⟨by rw [h₂, h₁], rfl⟩

/-! ## Directories and path names -/

theorem effect_dirlookupFrom (dp : InodeId) (name : List UInt8) (n off : Nat) :
    Effect (dirlookupFrom dp name n off) fun v r v' => v' = v.holdOpt (r.map Prod.fst) := by
  induction n generalizing off with
  | zero => exact fun s held => always_pure.2 ⟨rfl, rfl⟩
  | succ n ih =>
    intro s held
    simp only [dirlookupFrom, always_bind, always_inode, always_ite]
    refine ⟨fun _ => ?_, fun _ => always_pure.2 ⟨rfl, rfl⟩⟩
    refine (quiet_readi _ _ _ _).always fun r s₁ h₁ => ?_
    rw [← h₁]
    refine ⟨fun _ => always_stop, fun _ => ⟨fun _ => ih _ s₁ held, fun _ => ⟨fun _ => ?_,
      fun _ => ih _ s₁ held⟩⟩⟩
    exact (effect_iget _).always fun ip s₂ h₂ => always_pure.2 ⟨h₂, rfl⟩

theorem effect_dirlookup (dp : InodeId) (name : List UInt8) :
    Effect (dirlookup dp name) fun v r v' => v' = v.holdOpt (r.map Prod.fst) := by
  intro s held
  simp only [dirlookup, always_bind, always_inode, always_ite]
  exact ⟨fun _ => always_stop, fun _ => effect_dirlookupFrom _ _ _ _ s held⟩

theorem quiet_dirlink (dp : InodeId) (name : List UInt8) (inum : Nat) : Quiet (dirlink dp name inum) := by
  intro s held
  rw [dirlink, always_bind]
  refine (effect_dirlookup dp name).always fun r s₁ h₁ => ?_
  rcases r with _ | ⟨ip, off⟩
  · have h₁ : s₁.view = s.view := h₁
    rw [← h₁]
    exact Quiet.bind (quiet_inode _) (fun _ => .bind (quiet_emptyFrom _ _ _) fun _ =>
      .bind (quiet_writei _ _ _ _) fun _ => .ite (.pure _) (.pure _)) s₁ held
  · have h₁ : s₁.view = s.view.hold ip := h₁
    simp only [always_bind]
    refine (effect_iput ip).always fun _ s₂ h₂ => always_pure.2 ⟨?_, rfl⟩
    rw [h₂, h₁, View.drop_hold]

/-- The loop of `namex` gives back its reference to `ip`, and returns with one to the inode it finds. -/
theorem effect_namexFrom (nameiparent : Bool) {n : Nat} (ip : InodeId) {path : List UInt8}
    (hn : path.length < n) : Effect (namexFrom nameiparent n ip path) fun v r v' =>
      v' = (v.drop ip).holdOpt (r.map Prod.fst) := by
  induction n generalizing ip path with
  | zero => exact absurd hn (Nat.not_lt_zero _)
  | succ n ih =>
    intro s held
    rw [namexFrom]
    split
    · rw [always_ite]
      refine ⟨fun _ => ?_, fun _ => always_pure.2 ⟨(View.hold_drop _ _).symm, rfl⟩⟩
      rw [always_bind]
      exact (effect_iput ip).always fun _ s₁ h₁ => always_pure.2 ⟨h₁, rfl⟩
    · next name rest hskip =>
      have hrest := skipelem_length hskip
      simp only [always_bind, always_inode, always_ite]
      refine (effect_ilock ip).always fun _ s₁ h₀ => ?_
      obtain ⟨hfree, h₁⟩ := h₀
      refine ⟨fun _ => ?_, fun _ => ⟨fun _ => ?_, fun _ => ?_⟩⟩
      · refine (effect_iunlockput ip).always fun _ s₂ h₂ => always_pure.2 ⟨?_, rfl⟩
        rw [h₂, h₁, View.unlock_lock hfree]
        rfl
      · refine (effect_iunlock ip).always fun _ s₂ h₂ => always_pure.2 ⟨?_, rfl⟩
        rw [h₂, h₁, View.unlock_lock hfree]
        exact (View.hold_drop _ _).symm
      · refine (effect_dirlookup ip name).always fun r s₂ h₂ => ?_
        rcases r with _ | ⟨next, off⟩
        · have h₂ : s₂.view = s₁.view := h₂
          simp only [always_bind]
          refine (effect_iunlockput ip).always fun _ s₃ h₃ => always_pure.2 ⟨?_, rfl⟩
          rw [h₃, h₂, h₁, View.unlock_lock hfree]
          rfl
        · have h₂ : s₂.view = s₁.view.hold next := h₂
          simp only [always_bind]
          refine (effect_iunlockput ip).always fun _ s₃ h₃ =>
            (ih next (by omega)).always fun r s₄ h₄ => ⟨?_, rfl⟩
          have hview : s₃.view = (s.view.drop ip).hold next := by
            rw [h₃, h₂, h₁, View.hold_lock, View.unlock_lock (by exact hfree), View.drop_hold_comm]
          rw [h₄, hview, View.drop_hold]

/-- **`namex`** returns with a reference to the inode it finds, and with nothing else. -/
theorem effect_namex (cwd : InodeId) (path : List UInt8) (nameiparent : Bool) :
    Effect (namex cwd path nameiparent) fun v r v' => v' = v.holdOpt (r.map Prod.fst) := by
  have hloop : ∀ (s₁ : FsMem) (v : View) (ip : InodeId) (held : List Nat), s₁.view = v.hold ip →
      Always (namexFrom nameiparent (path.length + 1) ip path) (fun r s' held' =>
        s'.view = v.holdOpt (r.map Prod.fst) ∧ held' = held) s₁ held := by
    intro s₁ v ip held h₁
    refine (effect_namexFrom nameiparent ip (Nat.lt_succ_self _)).always fun r s₂ h₂ => ⟨?_, rfl⟩
    rw [h₂, h₁, View.drop_hold]
  intro s held
  simp only [namex, always_bind, always_ite]
  refine ⟨fun _ => ?_, fun _ => ?_⟩
  · exact (effect_iget _).always fun ip s₁ h₁ => hloop s₁ _ ip held h₁
  · refine (effect_idup cwd).always fun ip s₁ h₁ => ?_
    obtain ⟨rfl, h₁⟩ := h₁
    exact hloop s₁ _ ip held h₁

theorem effect_namei (cwd : InodeId) (path : List UInt8) :
    Effect (namei cwd path) fun v r v' => v' = v.holdOpt r := by
  intro s held
  rw [namei, always_bind]
  exact (effect_namex cwd path false).always fun r s₁ h₁ => always_pure.2 ⟨h₁, rfl⟩

theorem effect_nameiparent (cwd : InodeId) (path : List UInt8) :
    Effect (FileSystem.nameiparent cwd path) fun v r v' => v' = v.holdOpt (r.map Prod.fst) :=
  effect_namex cwd path true

end

end FileSystem

end Xv6pp
