import Xv6pp.Fs.Ideal
import Xv6pp.Fs.Sysfile

/-!
# What an operation changes is in the log

Between `begin_op` and `end_op` the functions of the file system write nothing to the disk.  They change
blocks in the buffer cache, and log every block that they change, so that the commit puts all of them on
the disk.  `Journaled` says so of a program; its rules follow the way programs are built, and there is one
theorem for each function of the file system.

`writei` keeps to this only as long as the copy from its source succeeds.
-/

set_option autoImplicit false

namespace Xv6pp

open Prog FileSystem

/-! ## Programs that log what they change -/

/-- What happens to the cache and to the log between two states of an operation. -/
structure Journals (s s' : Fs) : Prop where
  /-- Every block that is different is in the transaction. -/
  logged : ∀ b, s'.data b ≠ s.data b → b ∈ s'.log.header.blocks
  /-- No block leaves the transaction. -/
  kept : ∀ b ∈ s.log.header.blocks, b ∈ s'.log.header.blocks
  /-- Nothing is written to the disk. -/
  issued : s'.dev.issued = s.dev.issued
  outstanding : s'.log.outstanding = s.log.outstanding
  committing : s'.log.committing = s.log.committing

/-- The program logs what it changes, when it runs inside of an operation. -/
def Journaled {α : Type} (m : FsM α) : Prop := ∀ s, 1 ≤ s.log.outstanding →
  wp (ideal m) (fun e => e ≠ .logWriteOutsideOfTrans) (fun _ s' => Journals s s') s

theorem Journals.refl (s : Fs) : Journals s s where
  logged _ h := absurd rfl h
  kept _ := id
  issued := rfl
  outstanding := rfl
  committing := rfl

theorem Journals.trans {s s' s'' : Fs} (h : Journals s s') (h' : Journals s' s'') : Journals s s'' where
  logged b hb := by
    by_cases hsame : s''.data b = s'.data b
    · exact h'.kept b (h.logged b (hsame ▸ hb))
    · exact h'.logged b hsame
  kept b hb := h'.kept b (h.kept b hb)
  issued := h'.issued.trans h.issued
  outstanding := h'.outstanding.trans h.outstanding
  committing := h'.committing.trans h.committing

/-- The table of inodes does not matter. -/
theorem Journals.setInode (s : Fs) (ip : InodeId) (i : Inode) : Journals s (s.setInode ip i) where
  logged _ h := absurd rfl h
  kept _ := id
  issued := rfl
  outstanding := rfl
  committing := rfl

namespace Journaled

variable {α β : Type} {b : Nat}

theorem pure (a : α) : Journaled (Pure.pure a) := fun s _ => Journals.refl s

theorem stop {e : Panic} (he : e ≠ .logWriteOutsideOfTrans) : Journaled (FileSystem.stop e : FsM α) :=
  fun _ _ => he

theorem bind {m : FsM α} {f : α → FsM β} (hm : Journaled m) (hf : ∀ a, Journaled (f a)) :
    Journaled (m >>= f) := fun s ho => by
  refine wp_ideal_seq (hm s ho) fun a s₁ h₁ => ?_
  exact wp_imp (hf a s₁ (h₁.outstanding ▸ ho)) fun _ _ h₂ => h₁.trans h₂

theorem ite {c : Prop} [Decidable c] {m m' : FsM α} (hm : Journaled m) (hm' : Journaled m') :
    Journaled (if c then m else m') := by
  split
  · exact hm
  · exact hm'

theorem superblock : Journaled FileSystem.superblock := fun s _ => Journals.refl s

theorem inode (ip : InodeId) : Journaled (FileSystem.inode ip) := fun s _ => Journals.refl s

theorem bread (b : Nat) : Journaled (FileSystem.bread b) := fun s _ => Journals.refl s

theorem brelse (b : Nat) : Journaled (FileSystem.brelse b) := fun s _ => Journals.refl s

theorem updateInode (ip : InodeId) (f : Inode → Inode) : Journaled (FileSystem.updateInode ip f) :=
  fun s _ => Journals.setInode s ip _

theorem updateCopy (ip : InodeId) (f : Dinode → Dinode) : Journaled (FileSystem.updateCopy ip f) :=
  updateInode _ _

/-- **A block is changed and logged.** -/
theorem logged {d : Block} {f : Unit → FsM α} (hf : Journaled (f ())) :
    Journaled (bstore b d >>= fun _ => logWrite b >>= f) := fun s ho => by
  rw [wp_ideal_bind, wp_bstore, wp_ideal_bind, logWrite, wp_ideal_bind, wp_ideal_get]
  have hlog : (s.store b d).mem.log = s.log := rfl
  rw [hlog]
  -- `log_write` panics, finds the block in the transaction, or adds it
  have hcases := Log.logWrite_eq s.log b
  rw [if_neg (Int.not_lt.2 ho)] at hcases
  cases hw : s.log.logWrite b with
  | error e =>
    rw [hw] at hcases
    split_ifs at hcases
    cases hcases
    exact fun h => by cases h
  | ok r =>
    obtain ⟨l, pinned⟩ := r
    have hmem : b ∈ l.header.blocks ∧ (∀ c ∈ s.log.header.blocks, c ∈ l.header.blocks) ∧
        l.outstanding = s.log.outstanding ∧ l.committing = s.log.committing := by
      rw [hw] at hcases
      split_ifs at hcases with hfull hin
      · cases hcases
        exact ⟨hin, fun _ => id, rfl, rfl⟩
      · cases hcases
        rw [Log.blocks_push]
        exact ⟨List.mem_append_right _ (List.mem_singleton_self b), fun c hc =>
          List.mem_append_left _ hc, rfl, rfl⟩
    obtain ⟨hb, hkept, hout, hcommitting⟩ := hmem
    have hstep : Journals s ((s.store b d).setLog l) := by
      refine ⟨fun c hc => ?_, hkept, rfl, hout, hcommitting⟩
      by_cases hcb : c = b
      · exact hcb ▸ hb
      · exact absurd (Fs.store_data_of_ne s b d hcb) hc
    have hrest : wp (ideal (f ())) (fun e => e ≠ .logWriteOutsideOfTrans) (fun _ s' => Journals s s')
        ((s.store b d).setLog l) :=
      wp_imp (hf _ (hstep.outstanding ▸ ho)) fun _ _ h => hstep.trans h
    cases pinned with
    | true => exact hrest
    | false => exact hrest

end Journaled

/-! ## Blocks and inodes -/

section
variable {α : Type}

theorem journaled_bzero (b : Nat) : Journaled (bzero b) :=
  .bind (.bread b) fun _ => .logged (.brelse b)

theorem journaled_ballocFrom (sb : Superblock) (n b : Nat) : Journaled (ballocFrom sb n b) := by
  induction n generalizing b with
  | zero => exact .pure _
  | succ n ih =>
    rw [ballocFrom]
    refine .bind (.bread _) fun bp => ?_
    split
    · exact .logged (.bind (journaled_bzero _) fun _ => .bind (.brelse _) fun _ => .pure _)
    · exact .bind (.brelse _) fun _ => ih _

theorem journaled_balloc : Journaled balloc :=
  .bind .superblock fun _ => journaled_ballocFrom _ _ _

theorem journaled_bfree (b : Nat) : Journaled (bfree b) :=
  .bind .superblock fun _ => .bind (.bread _) fun _ =>
    .ite (.stop (by decide)) (.logged (.brelse _))

theorem journaled_iget (inum : Nat) : Journaled (iget inum) := by
  refine fun s _ => ?_
  rw [iget, wp_ideal_bind, wp_ideal_get]
  split
  · exact Journals.setInode s _ _
  · split
    · exact fun h => by cases h
    · exact Journals.setInode s _ _

theorem journaled_idup (ip : InodeId) : Journaled (idup ip) :=
  .bind (.updateInode _ _) fun _ => .pure _

theorem journaled_iallocFrom (sb : Superblock) (type : Int) (n inum : Nat) :
    Journaled (iallocFrom sb type n inum) := by
  induction n generalizing inum with
  | zero => exact .pure _
  | succ n ih =>
    refine .bind (.bread _) fun bp => .ite ?_ (.bind (.brelse _) fun _ => ih _)
    exact .logged (.bind (journaled_iget _) fun _ => .bind (.brelse _) fun _ => .pure _)

theorem journaled_ialloc (type : Int) : Journaled (ialloc type) :=
  .bind .superblock fun _ => journaled_iallocFrom _ _ _ _

theorem journaled_acquire (ip : InodeId) : Journaled (acquire ip) :=
  .bind (.inode _) fun _ => .ite (.stop (by decide)) (.updateInode _ _)

theorem journaled_ilock (ip : InodeId) : Journaled (ilock ip) := by
  refine .bind (.inode _) fun _ => .ite (.stop (by decide)) (.bind (journaled_acquire _) fun _ =>
    .bind (.inode _) fun _ => .ite (.pure _) (.bind .superblock fun _ => .bind (.bread _) fun _ =>
      .bind (.updateInode _ _) fun _ => .ite (.stop (by decide)) (.brelse _)))

theorem journaled_iunlock (ip : InodeId) : Journaled (iunlock ip) :=
  .bind (.inode _) fun _ => .ite (.stop (by decide)) (.updateInode _ _)

theorem journaled_iupdate (ip : InodeId) : Journaled (iupdate ip) :=
  .bind (.inode _) fun _ => .bind .superblock fun _ => .bind (.bread _) fun _ => .logged (.brelse _)

theorem journaled_bfreeAll (bs : List Nat) : Journaled (bfreeAll bs) := by
  induction bs with
  | nil => exact .pure _
  | cons b bs ih => exact .ite (.bind (journaled_bfree b) fun _ => ih) ih

theorem journaled_truncDirect (ip : InodeId) (is : List (Fin (NDIRECT + 1))) :
    Journaled (truncDirect ip is) := by
  induction is with
  | nil => exact .pure _
  | cons i is ih =>
    exact .bind (.inode _) fun _ => .ite (.bind (journaled_bfree _) fun _ =>
      .bind (.updateCopy _ _) fun _ => ih) ih

theorem journaled_itrunc (ip : InodeId) : Journaled (itrunc ip) := by
  have hend : Journaled (updateCopy ip (fun d => { d with size := 0 }) >>= fun _ => iupdate ip) :=
    .bind (.updateCopy _ _) fun _ => journaled_iupdate _
  refine .bind (journaled_truncDirect _ _) fun _ => .bind (.inode _) fun i => .ite ?_ hend
  exact .bind (.bread _) fun _ => .bind (journaled_bfreeAll _) fun _ => .bind (.brelse _) fun _ =>
    .bind (journaled_bfree _) fun _ => .bind (.updateCopy _ _) fun _ => hend

theorem journaled_iput (ip : InodeId) : Journaled (iput ip) := by
  refine .bind (.inode _) fun i => .ite ?_ (.updateInode _ _)
  exact .bind (journaled_acquire _) fun _ => .bind (journaled_itrunc _) fun _ =>
    .bind (.updateCopy _ _) fun _ => .bind (journaled_iupdate _) fun _ =>
      .bind (.updateInode _ _) fun _ => .updateInode _ _

theorem journaled_iunlockput (ip : InodeId) : Journaled (iunlockput ip) :=
  .bind (journaled_iunlock _) fun _ => journaled_iput _

/-! ## The contents of files -/

theorem journaled_bmapEntry (addr bn : Nat) : Journaled (bmapEntry addr bn) := by
  have hend : ∀ a : Nat, Journaled (brelse addr >>= fun _ => Pure.pure a) := fun _ =>
    .bind (.brelse _) fun _ => .pure _
  refine .bind (.bread _) fun bp => .ite (.bind journaled_balloc fun a => .ite ?_ (hend a)) (hend _)
  exact .logged (hend a)

theorem journaled_bmapAddr (ip : InodeId) (i : Fin (NDIRECT + 1)) : Journaled (bmapAddr ip i) :=
  .bind (.inode _) fun _ => .ite (.bind journaled_balloc fun _ => .ite (.pure _)
    (.bind (.updateCopy _ _) fun _ => .pure _)) (.pure _)

theorem journaled_bmap (ip : InodeId) (bn : Nat) : Journaled (bmap ip bn) := by
  rw [bmap]
  split
  · exact journaled_bmapAddr _ _
  · exact .ite (.bind (journaled_bmapAddr _ _) fun _ => .ite (.pure _) (journaled_bmapEntry _ _))
      (.stop (by decide))

theorem journaled_readFrom (ip : InodeId) (dst : Nat → List UInt8 → Bool) (n fuel tot off : Nat)
    (bytes : List UInt8) : Journaled (readFrom ip dst n fuel tot off bytes) := by
  induction fuel generalizing tot off bytes with
  | zero => exact .pure _
  | succ fuel ih =>
    refine .ite (.bind (journaled_bmap _ _) fun addr => .ite (.pure _) ?_) (.pure _)
    exact .bind (.bread _) fun bp => .bind (.brelse _) fun _ => .ite (ih _ _ _) (.pure _)

theorem journaled_readi (ip : InodeId) (dst : Nat → List UInt8 → Bool) (off n : Nat) :
    Journaled (readi ip dst off n) :=
  .bind (.inode _) fun _ => .ite (.pure _) (journaled_readFrom _ _ _ _ _ _ _)

/-- The copies from a source all succeed. -/
def NeverFaults (src : Nat → Nat → List UInt8 × Bool) : Prop := ∀ tot m, (src tot m).2 = true

theorem journaled_writeFrom {src : Nat → Nat → List UInt8 × Bool} (hsrc : NeverFaults src) (ip : InodeId)
    (n fuel tot off : Nat) : Journaled (writeFrom ip src n fuel tot off) := by
  induction fuel generalizing tot off with
  | zero => exact .pure _
  | succ fuel ih =>
    refine .ite (.bind (journaled_bmap _ _) fun addr => .ite (.pure _) ?_) (.pure _)
    refine .bind (.bread _) fun bp => ?_
    have hcopied : ∀ tot m, (src tot m).2 = true := hsrc
    simp only [hcopied, if_true]
    exact .logged (.bind (.brelse _) fun _ => ih _ _)

theorem journaled_writei {src : Nat → Nat → List UInt8 × Bool} (hsrc : NeverFaults src) (ip : InodeId)
    (off n : Nat) : Journaled (writei ip src off n) :=
  .bind (.inode _) fun _ => .ite (.pure _) (.ite (.pure _) (.bind (journaled_writeFrom hsrc _ _ _ _ _)
    fun _ => .bind (.updateCopy _ _) fun _ => .bind (journaled_iupdate _) fun _ => .pure _))

theorem journaled_writeKernel (ip : InodeId) (bytes : List UInt8) (off : Nat) :
    Journaled (writeKernel ip bytes off) := journaled_writei (fun _ _ => rfl) _ _ _

/-! ## Directories and path names -/

theorem journaled_dirlookupFrom (dp : InodeId) (name : List UInt8) (n off : Nat) :
    Journaled (dirlookupFrom dp name n off) := by
  induction n generalizing off with
  | zero => exact .pure _
  | succ n ih =>
    refine .bind (.inode _) fun _ => .ite (.bind (journaled_readi _ _ _ _) fun r => ?_) (.pure _)
    refine .ite (.stop (by decide)) (.ite (ih _) (.ite ?_ (ih _)))
    exact .bind (journaled_iget _) fun _ => .pure _

theorem journaled_dirlookup (dp : InodeId) (name : List UInt8) : Journaled (dirlookup dp name) :=
  .bind (.inode _) fun _ => .ite (.stop (by decide)) (journaled_dirlookupFrom _ _ _ _)

theorem journaled_emptyFrom (dp : InodeId) (n off : Nat) : Journaled (emptyFrom dp n off) := by
  induction n generalizing off with
  | zero => exact .pure _
  | succ n ih =>
    refine .bind (.inode _) fun _ => .ite (.bind (journaled_readi _ _ _ _) fun r => ?_) (.pure _)
    exact .ite (.stop (by decide)) (.ite (.pure _) (ih _))

theorem journaled_dirlink (dp : InodeId) (name : List UInt8) (inum : Nat) :
    Journaled (dirlink dp name inum) := by
  refine .bind (journaled_dirlookup _ _) fun r => ?_
  split
  · exact .bind (journaled_iput _) fun _ => .pure _
  · exact .bind (.inode _) fun _ => .bind (journaled_emptyFrom _ _ _) fun _ =>
      .bind (journaled_writeKernel _ _ _) fun _ => .ite (.pure _) (.pure _)

theorem journaled_namexFrom (parent : Bool) (n : Nat) (ip : InodeId) (path : List UInt8) :
    Journaled (namexFrom parent n ip path) := by
  induction n generalizing ip path with
  | zero => exact .pure _
  | succ n ih =>
    rw [namexFrom]
    split
    · exact .ite (.bind (journaled_iput _) fun _ => .pure _) (.pure _)
    · refine .bind (journaled_ilock _) fun _ => .bind (.inode _) fun _ => .ite ?_ (.ite ?_ ?_)
      · exact .bind (journaled_iunlockput _) fun _ => .pure _
      · exact .bind (journaled_iunlock _) fun _ => .pure _
      · refine .bind (journaled_dirlookup _ _) fun r => ?_
        split
        · exact .bind (journaled_iunlockput _) fun _ => .pure _
        · exact .bind (journaled_iunlockput _) fun _ => ih _ _

theorem journaled_namex (cwd : InodeId) (path : List UInt8) (parent : Bool) :
    Journaled (namex cwd path parent) :=
  .ite (.bind (journaled_iget _) fun _ => journaled_namexFrom _ _ _ _)
    (.bind (journaled_idup _) fun _ => journaled_namexFrom _ _ _ _)

theorem journaled_namei (cwd : InodeId) (path : List UInt8) : Journaled (namei cwd path) :=
  .bind (journaled_namex _ _ _) fun _ => .pure _

/-! ## The functions of the system calls -/

theorem journaled_isdiremptyFrom (dp : InodeId) (n off : Nat) :
    Journaled (Sysfile.isdiremptyFrom dp n off) := by
  induction n generalizing off with
  | zero => exact .pure _
  | succ n ih =>
    refine .bind (.inode _) fun _ => .ite (.bind (journaled_readi _ _ _ _) fun r => ?_) (.pure _)
    exact .ite (.stop (by decide)) (.ite (.pure _) (ih _))

theorem journaled_isdirempty (dp : InodeId) : Journaled (Sysfile.isdirempty dp) :=
  .bind (.inode _) fun _ => journaled_isdiremptyFrom _ _ _

theorem journaled_createEntries (dp ip : InodeId) (name : List UInt8) (type : Int) :
    Journaled (Sysfile.createEntries dp ip name type) := by
  refine .bind (.inode _) fun i => .ite (.bind (journaled_dirlink _ _ _) fun _ => .ite (.pure _) ?_)
    (.bind (journaled_dirlink _ _ _) fun _ => .pure _)
  exact .bind (.inode _) fun _ => .bind (journaled_dirlink _ _ _) fun _ => .ite (.pure _)
    (.bind (journaled_dirlink _ _ _) fun _ => .pure _)

theorem journaled_loadsegFrom (ip : InodeId) (offset sz n i : Nat) :
    Journaled (Sysfile.loadsegFrom ip offset sz n i) := by
  induction n generalizing i with
  | zero => exact .pure _
  | succ n ih => exact .bind (journaled_readi _ _ _ _) fun _ => .ite (.pure _) (ih _)

theorem journaled_loadFrom (ip : InodeId) (mem : Sysfile.ExecMemory) (n i off : Nat) :
    Journaled (Sysfile.loadFrom ip mem n i off) := by
  induction n generalizing i off with
  | zero => exact .pure _
  | succ n ih =>
    exact .bind (journaled_readi _ _ _ _) fun _ => .ite (.pure _) (.ite (ih _ _) (.ite (.pure _)
      (.ite (.pure _) (.ite (.pure _) (.ite (.pure _) (.bind (journaled_loadsegFrom _ _ _ _ _) fun _ =>
        .ite (ih _ _) (.pure _)))))))

theorem journaled_load (ip : InodeId) (mem : Sysfile.ExecMemory) : Journaled (Sysfile.load ip mem) :=
  .bind (journaled_readi _ _ _ _) fun _ => .ite (.pure _) (.ite (.pure _) (.ite (.pure _)
    (journaled_loadFrom _ _ _ _ _)))

end

end Xv6pp
