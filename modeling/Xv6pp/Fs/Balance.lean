import Xv6pp.File.OpenInodes
import Xv6pp.Fs.Books

/-!
# Every system call balances its books

Whatever a system call finds on the disk and whichever way it returns, it has given back what it took: no
lock and no buffer is held, every operation is ended, every `iput` of a guard is inside an operation, and
the reference count of every inode is the number of current directories and open files that refer to it.
-/

set_option autoImplicit false

namespace Xv6pp

open FileSystem

namespace Sysfile

variable {α : Type} {op : Bool} {v : Books} {p : Fin NPROC}

theorem quiet_addLinks (ip : InodeId) (d : Int) : Quiet (addLinks ip d) := quiet_updateCopy _ _

theorem Within.sysLink (old new : Option (List UInt8)) :
    Within false (Sysfile.sysLink p old new) (fun _ v' => v' = v) v := by
  rcases old with _ | old
  · exact .pure rfl
  rcases new with _ | new
  · exact .pure rfl
  refine .logOp (.bind (.cwd fun cur _ => .bind (.find (effect_namei cur old) fun found =>
    .withRef ?_)))
  cases found with
  | none => exact .pure (by simp)
  | some ip =>
    refine .withLock fun hfree => .bind (.quiet (quiet_inode ip) fun i => .ite (fun _ => .pure ?_)
      fun _ => .bind (.quiet (quiet_addLinks ip 1) fun _ => .bind (.quiet (quiet_iupdate ip) fun _ =>
        .bind (.unlock ?_))))
    · simp [hfree]
    · rw [Books.endLock_locked, Books.unlock_lock hfree]
      refine .bind (.find (effect_nameiparent cur new) fun parent => .withRef ?_)
      rcases parent with _ | ⟨dp, name⟩
      · refine .bind (.pure (.bind (.bind (.unlock (.make fun hfree => .bind (.quiet (quiet_addLinks ip _)
          fun _ => .bind (.quiet (quiet_iupdate ip) fun _ => .pure ?_)))))))
        simp_all
      · refine .bind (.withLock fun hfree' => .bind (.quiet (quiet_inode _) fun j =>
          .bind (.quiet (quiet_dirlink _ _ _) fun r => .pure (.ite (fun _ => .pure ?_) fun _ => .bind (.bind (.unlock (.make fun hfree => .bind (.quiet (quiet_addLinks ip _)
          fun _ => .bind (.quiet (quiet_iupdate ip) fun _ => .pure ?_)))))))))
        · simp_all
        · simp_all [Books.drop_lock]

theorem quiet_readKernel (ip : InodeId) (off n : Nat) : Quiet (readKernel ip off n) := quiet_readi _ _ _ _

theorem quiet_writeKernel (ip : InodeId) (bytes : List UInt8) (off : Nat) :
    Quiet (writeKernel ip bytes off) := quiet_writei _ _ _ _

theorem quiet_isdiremptyFrom (dp : InodeId) (n off : Nat) : Quiet (isdiremptyFrom dp n off) := by
  induction n generalizing off with
  | zero => exact .pure _
  | succ n ih =>
    exact .bind (quiet_inode _) fun _ => .ite (.bind (quiet_readKernel _ _ _) fun _ =>
      .ite (.stop _) (.ite (.pure _) (ih _))) (.pure _)

theorem quiet_isdirempty (dp : InodeId) : Quiet (isdirempty dp) :=
  .bind (quiet_inode _) fun _ => quiet_isdiremptyFrom _ _ _

theorem Within.sysUnlink (path : Option (List UInt8)) :
    Within false (Sysfile.sysUnlink p path) (fun _ v' => v' = v) v := by
  rcases path with _ | path
  · exact .pure rfl
  refine .logOp (.bind (.cwd fun cur _ => .bind (.find (effect_nameiparent cur path) fun parent =>
    .withRef ?_)))
  rcases parent with _ | ⟨dp, name⟩
  · exact .pure (by simp)
  refine .withLock fun hdp => .ite (fun _ => .pure ?_) fun _ =>
    .bind (.find (effect_dirlookup dp name) fun found => .withRef ?_)
  · simp_all
  rcases found with _ | ⟨ip, off⟩
  · exact .pure (by simp_all)
  refine .withLock fun hip => .bind (.quiet (quiet_inode ip) fun i => .ite (fun _ => .stop) fun _ => ?_)
  refine .branch (fun _ => .quiet (.bind (quiet_isdirempty ip) fun _ => .pure _) fun _ => rfl)
    (fun _ => .pure rfl) fun full => .ite (fun _ => .pure ?_) fun _ => ?_
  · simp_all
  refine .bind (.quiet (quiet_writeKernel _ _ _) fun r => .ite (fun _ => .stop) fun _ =>
    .quietWhen (quiet_addLinks dp _) (quiet_iupdate dp) (.bind (.unlock (.bind (.resetRef
      (.bind (.quiet (quiet_addLinks ip _) fun _ => .bind (.quiet (quiet_iupdate ip) fun _ => .pure ?_))))))))
  simp only [Option.map, Books.locked_hold] at hdp hip
  simp only [Option.map, Books.endLock_locked, Books.put_some, Books.endLock_unlocked, Books.put_none]
  rw [Books.drop_parent hdp hip, Books.unlock_lock, Books.drop_hold, Books.ended_begun]
  exact (Books.locked_lock hip).2

theorem quiet_createEntries (dp ip : InodeId) (name : List UInt8) (type : Int) :
    Quiet (createEntries dp ip name type) := by
  refine .bind (quiet_inode _) fun i => .ite (.bind (quiet_dirlink _ _ _) fun _ => .ite (.pure _) ?_)
    (.bind (quiet_dirlink _ _ _) fun _ => .pure _)
  exact .bind (quiet_inode _) fun _ => .bind (quiet_dirlink _ _ _) fun _ => .ite (.pure _)
    (.bind (quiet_dirlink _ _ _) fun _ => .pure _)

/-- The books when `create` returns `r`: it has a reference to the inode and its lock. -/
def Created (v : Books) (r : Option InodeId) (v' : Books) : Prop :=
  match r with
  | none => v' = v
  | some ip => v.view.locked ip = false ∧ v' = (v.hold (some ip)).lock ip

theorem Within.create (path : List UInt8) (type major minor : Int) :
    Within true (Sysfile.create p path type major minor) (Created v) v := by
  refine .bind (.cwd fun cur _ => .bind (.find (effect_nameiparent cur path) fun parent => .withRef ?_))
  rcases parent with _ | ⟨dp, name⟩
  · exact .pure rfl
  refine .withLock fun hdp => .bind (.find (effect_dirlookup dp name) fun found => .withRef ?_)
  have hdp : v.view.locked dp = false := hdp
  have hback : ((v.hold (some dp)).lock dp).unlock dp = v.hold (some dp) := Books.unlock_lock hdp
  rcases found with _ | ⟨ip, off⟩
  · refine .bind (.find (effect_ialloc type) fun new => .bind (.resetRef ?_))
    rcases new with _ | ip
    · refine .pure ?_
      show (((v.hold (some dp)).lock dp).unlock dp).drop dp = v
      rw [hback, Books.drop_hold]
    refine .withLock fun hip => .bind (.quiet (quiet_updateCopy _ _) fun _ => .bind
      (.quiet (quiet_iupdate ip) fun _ => .bind (.quiet (quiet_createEntries _ _ _ _) fun ok =>
        .ite (fun _ => ?_) fun _ => ?_)))
    · refine .quietWhen (quiet_addLinks dp _) (quiet_iupdate dp) (.bind (.unlock (.bind (.resetRef
        (.pure ?_)))))
      exact ⟨(Books.locked_lock hip).2, Books.drop_parent hdp hip⟩
    · refine .bind (.quiet (quiet_updateCopy _ _) fun _ => .bind (.quiet (quiet_iupdate ip) fun _ =>
        .pure ?_))
      have hip : (((v.hold (some dp)).lock dp).hold (some ip)).view.locked ip = false := hip
      show (((((((v.hold (some dp)).lock dp).hold (some ip)).lock ip).unlock ip).drop ip).unlock dp).drop
        dp = v
      rw [Books.unlock_lock hip, Books.drop_hold, hback, Books.drop_hold]
  · refine .bind (.unlock (.bind (.resetRef ?_)))
    have hdir : ((((v.hold (some dp)).lock dp).hold (some ip)).unlock dp).drop dp = v.hold (some ip) := by
      rw [Books.unlock_hold, hback, Books.drop_hold_comm, Books.drop_hold]
    show Within true _ _ (((((v.hold (some dp)).lock dp).hold (some ip)).unlock dp).drop dp)
    rw [hdir]
    refine .withLock fun hip => .bind (.quiet (quiet_inode _) fun i => .ite (fun _ => .pure ⟨hip, rfl⟩)
      fun _ => .pure ?_)
    show (((v.hold (some ip)).lock ip).unlock ip).drop ip = v
    rw [Books.unlock_lock hip, Books.drop_hold]

theorem Within.makeNode (path : Option (List UInt8)) (type major minor : Int) :
    Within false (Sysfile.makeNode p path type major minor) (fun _ v' => v' = v) v := by
  refine .logOp ?_
  rcases path with _ | path
  · exact .pure (by simp)
  refine .bind ((Within.create path type major minor).imp ?_)
  rintro made v' hmade
  refine .withRef ?_
  rcases made with _ | ip
  · rw [show v' = v.begun from hmade]
    exact .pure (by simp)
  · obtain ⟨hfree, rfl⟩ := hmade
    refine .withNoLock (.bind (.bind (.unlock (.pure (.pure ?_)))))
    show ((((v.begun.hold (some ip)).lock ip).unlock ip).drop ip).ended = v
    rw [Books.unlock_lock (v := v.begun.hold (some ip)) hfree, Books.drop_hold, Books.ended_begun]

/-- What is read of a file by `exec`. -/
theorem quiet_loadsegFrom (ip : InodeId) (offset sz n i : Nat) :
    Quiet (loadsegFrom ip offset sz n i) := by
  induction n generalizing i with
  | zero => exact .pure _
  | succ n ih => exact .bind (quiet_readKernel _ _ _) fun _ => .ite (.pure _) (ih _)

theorem quiet_loadFrom (ip : InodeId) (mem : ExecMemory) (n i off : Nat) :
    Quiet (loadFrom ip mem n i off) := by
  induction n generalizing i off with
  | zero => exact .pure _
  | succ n ih =>
    exact .bind (quiet_readKernel _ _ _) fun _ => .ite (.pure _) (.ite (ih _ _) (.ite (.pure _)
      (.ite (.pure _) (.ite (.pure _) (.ite (.pure _) (.bind (quiet_loadsegFrom _ _ _ _ _) fun _ =>
        .ite (ih _ _) (.pure _)))))))

theorem quiet_load (ip : InodeId) (mem : ExecMemory) : Quiet (load ip mem) :=
  .bind (quiet_readKernel _ _ _) fun _ => .ite (.pure _) (.ite (.pure _) (.ite (.pure _)
    (quiet_loadFrom _ _ _ _ _)))

theorem Within.exec (path : List UInt8) (mem : ExecMemory) (argc : Nat) :
    Within false (Sysfile.exec p path mem argc) (fun _ v' => v' = v) v := by
  refine .bind (.logOp (.bind (.cwd fun cur _ => .bind (.find (effect_namei cur path) fun found =>
    .withRef ?_))))
  have hend : ∀ (ok : Bool) v', v' = v → Within false
      (if ok ∧ mem.stack then Pure.pure (argc : Int) else Pure.pure (-1)) (fun _ v' => v' = v) v' :=
    fun ok v' hv => .ite (fun _ => .pure hv) fun _ => .pure hv
  rcases found with _ | ip
  · exact .pure (hend _ _ (by simp))
  · refine .withLock fun hfree => .bind (.quiet (quiet_load ip mem) fun ok => .pure (hend _ _ ?_))
    show ((((v.begun.hold (some ip)).lock ip).unlock ip).drop ip).ended = v
    rw [Books.unlock_lock hfree, Books.drop_hold, Books.ended_begun]

end Sysfile

/-! ## The balance -/

/-- The number of processes whose current directory is an inode. -/
def cwds (cwd : Fin NPROC → Option InodeId) (ip : InodeId) : Nat :=
  (Finset.univ.filter fun p => cwd p = some ip).card

theorem cwds_update (cwd : Fin NPROC → Option InodeId) (p : Fin NPROC) (o : Option InodeId)
    (ip : InodeId) : cwds (Function.update cwd p o) ip + (if cwd p = some ip then 1 else 0) =
      cwds cwd ip + (if o = some ip then 1 else 0) := by
  have hchange := card_filter_change (P := fun q => cwd q = some ip)
    (Q := fun q => Function.update cwd p o q = some ip) (a := p) fun q hq => by
      rw [Function.update_of_ne hq]
  simp only [Function.update_self] at hchange
  exact hchange

/-- **The books balance**: descriptors and files account for each other, every reference to an inode is
from a current directory or an open file, no inode is locked, and only live processes have a current
directory. -/
structure Balanced (v : Books) : Prop where
  accounted : v.users.Accounted
  ref : ∀ ip, v.view.ref ip = cwds v.cwd ip + v.users.openers ip
  unlocked : ∀ ip, v.view.locked ip = false
  homeless : ∀ p, (v.users.procs p).state = .unused ∨ (v.users.procs p).state = .zombie →
    v.cwd p = none

/-- The books balance as before, with as many operations in the log. -/
def Kept (v v' : Books) : Prop := Balanced v' ∧ v'.view.outstanding = v.view.outstanding

theorem Kept.of_eq {v v' : Books} (h : Balanced v) (hv : v' = v) : Kept v v' := by
  subst hv
  exact ⟨h, rfl⟩

theorem Kept.trans {v v' v'' : Books} (h : Kept v v') (h' : Kept v' v'') : Kept v v'' :=
  ⟨h'.1, h'.2.trans h.2⟩

/-- The open files change, and the references with them. -/
theorem Balanced.users {v v' : Books} {d : InodeId → Int} (h : Balanced v)
    (hu : v.users.Alters v'.users d) (href : ∀ ip, v'.view.ref ip = v.view.ref ip + d ip)
    (hlocked : v'.view.locked = v.view.locked) (hcwd : v'.cwd = v.cwd) : Balanced v' := by
  refine ⟨hu.accounted, fun ip => ?_, fun ip => ?_, fun p hp => ?_⟩
  · rw [href, h.ref, hcwd, hu.openers]
    ring
  · rw [hlocked]
    exact h.unlocked ip
  · rw [hu.state] at hp
    rw [hcwd]
    exact h.homeless p hp

/-- The current directory of a process changes, and the references with it. -/
theorem Balanced.setCwd {v v' : Books} {p : Fin NPROC} {o : Option InodeId} (h : Balanced v)
    (hcwd : v'.cwd = Function.update v.cwd p o)
    (href : ∀ ip, v'.view.ref ip =
      v.view.ref ip + (if o = some ip then 1 else 0) - if v.cwd p = some ip then 1 else 0)
    (hlocked : v'.view.locked = v.view.locked) (husers : v'.users = v.users)
    (hp : o = none ∨ (v.users.procs p).state ≠ .unused ∧ (v.users.procs p).state ≠ .zombie) :
    Balanced v' := by
  refine ⟨husers ▸ h.accounted, fun ip => ?_, fun ip => ?_, fun q hq => ?_⟩
  · have hcount := cwds_update v.cwd p o ip
    rw [href, h.ref, hcwd, husers]
    split_ifs at hcount ⊢ <;> omega
  · rw [hlocked]
    exact h.unlocked ip
  · rw [husers] at hq
    rw [hcwd]
    by_cases hqp : q = p
    · subst hqp
      rw [Function.update_self]
      exact hp.resolve_right fun hlive => hq.elim hlive.1 hlive.2
    · rw [Function.update_of_ne hqp]
      exact h.homeless q hq

/-- The state of a process changes. -/
theorem Balanced.setState {v : Books} {p : Fin NPROC} {t : ProcessState} (h : Balanced v)
    (hfiles : t = .unused ∨ t = .zombie → ∀ fd, (v.users.procs p).ofile fd = none)
    (hcwd : t = .unused ∨ t = .zombie → v.cwd p = none) :
    Balanced { v with users := v.users.setProc p fun x => { x with state := t } } := by
  refine ⟨h.accounted.setState hfiles, h.ref, h.unlocked, fun q hq => ?_⟩
  by_cases hqp : q = p
  · subst hqp
    exact hcwd (by simpa [FileUsers.setProc] using hq)
  · exact h.homeless q (by simpa [FileUsers.setProc, hqp] using hq)

/-- What `put` does to the references. -/
theorem Books.ref_put (v : Books) (o : Option InodeId) (ip : InodeId) :
    (v.put o).view.ref ip = v.view.ref ip - if o = some ip then 1 else 0 := by
  cases o with
  | none => simp
  | some jp =>
    show Function.update v.view.ref jp (v.view.ref jp - 1) ip = _
    by_cases hjp : ip = jp
    · subst hjp
      simp
    · rw [Function.update_of_ne hjp, if_neg (fun heq => hjp (Option.some.inj heq).symm), sub_zero]

/-- What `hold` does to the references. -/
theorem Books.ref_hold (v : Books) (o : Option InodeId) (ip : InodeId) :
    (v.hold o).view.ref ip = v.view.ref ip + if o = some ip then 1 else 0 := by
  cases o with
  | none => simp
  | some jp =>
    show Function.update v.view.ref jp (v.view.ref jp + 1) ip = _
    by_cases hjp : ip = jp
    · subst hjp
      simp
    · rw [Function.update_of_ne hjp, if_neg (fun heq => hjp (Option.some.inj heq).symm), add_zero]

theorem Books.put_frame (v : Books) (o : Option InodeId) : (v.put o).view.locked = v.view.locked ∧
    (v.put o).view.outstanding = v.view.outstanding ∧ (v.put o).users = v.users ∧
    (v.put o).cwd = v.cwd := by
  cases o <;> exact ⟨rfl, rfl, rfl, rfl⟩

theorem Kept.alters {v : Books} {u : FileUsers} (h : Balanced v) (hu : v.users.Alters u 0) :
    Kept v { v with users := u } :=
  ⟨h.users hu (fun _ => by simp) rfl rfl, rfl⟩

namespace Sysfile

variable {v : Books} {p : Fin NPROC}

theorem Within.withFd {fd : Int} {m : Fin NOFILE → FileId → SysM Int} {Q : Int → Books → Prop} {op : Bool}
    (hnone : Q (-1) v)
    (h : ∀ fd f, (v.users.procs p).ofile fd = some f → Within op (m fd f) Q v) :
    Within op (Sysfile.withFd p fd m) Q v := by
  refine .get fun s hs => ?_
  have husers : s.users = v.users := by rw [← hs]; rfl
  split
  · exact .pure hnone
  · next fd f hfd =>
    rw [husers] at hfd
    exact h fd f (FileUsers.argfd_some hfd)

theorem Within.file {f : FileId} {Q : File → Books → Prop} {op : Bool}
    (h : Q (v.users.files.files f) v) : Within op (Sysfile.file f) Q v := by
  refine .get fun s hs => .pure ?_
  have husers : s.users = v.users := by rw [← hs]; rfl
  rw [husers]
  exact h

theorem Within.advance {f : FileId} {r : Int} {Q : Unit → Books → Prop} {op : Bool}
    (hv : v.users.Accounted) (h : ∀ u, v.users.Alters u 0 → Q () { v with users := u }) :
    Within op (Sysfile.advance f r) Q v := by
  refine .files fun _ u hu => ?_
  cases hu
  exact h _ (.setOff (u := fun o => (o + r.toNat) % 2 ^ 32) hv)

theorem Within.read {f : FileId} {n : Nat} {dst : Nat → List UInt8 → Bool} {r : Int} {k : Nat}
    (h : Balanced v) : Within false (Sysfile.read f n dst r k) (fun _ => Kept v) v := by
  refine .bind (.file (.ite (fun _ => ?_) fun _ => .files fun _ u hu => ?_))
  · rcases hip : (v.users.files.files f).ip with _ | ip
    · exact .withNoLock .stop
    · refine .withLock fun hfree => .bind (.quiet (quiet_readi _ _ _ _) fun r => .bind
        (.advance h.accounted fun u hu => .pure ?_))
      show Kept v ((Books.lock { v with users := u } ip).unlock ip)
      rw [Books.unlock_lock (v := { v with users := u }) hfree]
      exact .alters h hu
  · exact .alters h (.read h.accounted hu)

theorem Within.stat {f : FileId} {copied : Bool} (h : Balanced v) :
    Within false (Sysfile.stat f copied) (fun _ => Kept v) v := by
  refine .bind (.file (.ite (fun _ => ?_) fun _ => .pure (.of_eq h rfl)))
  rcases hip : (v.users.files.files f).ip with _ | ip
  · exact .withNoLock (.pure (.of_eq h rfl))
  · refine .withLock fun hfree => .pure (.of_eq h ?_)
    exact Books.unlock_lock hfree

theorem Within.writeFrom {f : FileId} {src : Nat → Nat → List UInt8 × Bool} {n : Nat} (fuel i : Nat)
    (h : Balanced v) : Within false (Sysfile.writeFrom f src n fuel i) (fun _ => Kept v) v := by
  induction fuel generalizing i v with
  | zero => exact .pure (.of_eq h rfl)
  | succ fuel ih =>
    refine .ite (fun _ => .bind (.file (.bind (.logOp ?_)))) fun _ => .pure (.of_eq h rfl)
    rcases hip : (v.users.files.files f).ip with _ | ip
    · exact .withNoLock .stop
    · refine .withLock fun hfree => .bind (.quiet (quiet_writei _ _ _ _) fun r => .bind
        (.advance h.accounted fun u hu => .pure ?_))
      have hback : ((Books.lock (Books.begun { v with users := u }) ip).unlock ip).ended =
          { v with users := u } := by
        rw [Books.unlock_lock (v := Books.begun { v with users := u }) hfree, Books.ended_begun]
      have hkept : Kept v { v with users := u } := .alters h hu
      show Within false _ _ ((Books.lock (Books.begun { v with users := u }) ip).unlock ip).ended
      rw [hback]
      exact .ite (fun _ => .pure hkept) fun _ => (ih _ hkept.1).imp fun _ _ h' => hkept.trans h'

theorem Within.write {f : FileId} {n r : Int} {src : Nat → Nat → List UInt8 × Bool}
    {bytes : List UInt8} (h : Balanced v) :
    Within false (Sysfile.write f n src r bytes) (fun _ => Kept v) v := by
  refine .bind (.file (.ite (fun _ => .bind ((Within.writeFrom _ _ h).imp fun _ _ h' => .pure h'))
    fun _ => .files fun _ u hu => ?_))
  exact .alters h (.write h.accounted hu)

/-- The open file of an inode that `sys_open` holds and has locked. -/
theorem Within.openInode {omode : Nat} {ip : InodeId} (h : Balanced v)
    (hp : (v.users.procs p).state = .runnable) (hfree : v.view.locked ip = false) :
    Within true (Sysfile.openInode p omode ip ⟨some ip⟩ ⟨some ip, true⟩)
      (fun r v' => Kept v ((v'.endLock r.2).put r.1.2.ip).ended) ((v.begun.hold (some ip)).lock ip) := by
  have hback : ∀ u, (((Books.begun { v with users := u }).hold (some ip)).lock ip).unlock ip =
      (Books.begun { v with users := u }).hold (some ip) := fun u => Books.unlock_lock hfree
  refine .bind (.quiet (quiet_inode ip) fun i => .bind (.files fun fd u hu => ?_))
  have husers : ((v.begun.hold (some ip)).lock ip).users = v.users := rfl
  rw [husers] at hu
  rcases FileUsers.Alters.sysOpen h.accounted hp hu with ⟨hfd, rfl⟩ | ⟨hfd, halters⟩
  · refine .ite (fun _ => .pure (.of_eq h ?_)) fun hfd' => absurd hfd hfd'
    show (((((v.begun).hold (some ip)).lock ip).unlock ip).drop ip).ended = v
    rw [Books.unlock_lock (v := v.begun.hold (some ip)) hfree, Books.drop_hold, Books.ended_begun]
  · refine .ite (fun hfd' => by omega) fun _ => ?_
    have hkept : Kept v (Books.ended ((Books.begun { v with users := u }).hold (some ip))) := by
      refine ⟨h.users halters (fun jp => ?_) rfl rfl, ?_⟩
      · have href := Books.ref_hold (Books.begun { v with users := u }) (some ip) jp
        simp only [Option.some.injEq, eq_comm (a := ip)] at href
        exact href
      · show v.view.outstanding + 1 - 1 = _
        omega
    have hrest : Within true (LockGuard.unlock ⟨some ip, true⟩ >>= fun ipLock =>
        Pure.pure ((fd, RefGuard.release ⟨some ip⟩), ipLock))
        (fun r v' => Kept v ((v'.endLock r.2).put r.1.2.ip).ended)
        (((Books.begun { v with users := u }).hold (some ip)).lock ip) := by
      refine .bind (.unlock (.pure ?_))
      show Kept v (((((Books.begun { v with users := u }).hold (some ip)).lock ip).unlock ip).ended)
      rw [hback]
      exact hkept
    exact .ite (fun _ => .bind (.quiet (quiet_itrunc ip) fun _ => hrest)) fun _ => hrest

theorem Within.sysOpen {path : Option (List UInt8)} {omode : Nat} (h : Balanced v)
    (hp : (v.users.procs p).state = .runnable) :
    Within false (Sysfile.sysOpen p path omode) (fun _ => Kept v) v := by
  rcases path with _ | path
  · exact .pure (.of_eq h rfl)
  have hnone : Kept v v.begun.ended := .of_eq h v.ended_begun
  refine .logOp (.withRef (.withNoLock (.ite (fun _ => ?_) fun _ => ?_)))
  · refine .bind ((Within.create path T_FILE 0 0).imp ?_)
    rintro made v' hmade
    refine .bind (.resetRef ?_)
    rcases made with _ | ip
    · rw [show v' = v.begun from hmade]
      exact .pure hnone
    · obtain ⟨hfree, rfl⟩ := hmade
      exact .bind (.bind (.unlock (.pure (.openInode h hp hfree))))
  · refine .bind (.cwd fun cur _ => .bind (.find (effect_namei cur path) fun found =>
      .bind (.resetRef ?_)))
    rcases found with _ | ip
    · exact .pure hnone
    · exact .bind (.bind (.unlock (.make fun hfree => .openInode h hp hfree)))

theorem Within.sysChdir {path : Option (List UInt8)} (h : Balanced v)
    (hp : (v.users.procs p).state = .runnable) :
    Within false (Sysfile.sysChdir p path) (fun _ => Kept v) v := by
  refine .logOp ?_
  rcases path with _ | path
  · exact .pure (.of_eq h v.ended_begun)
  refine .bind (.cwd fun cur _ => .bind (.find (effect_namei cur path) fun found => .withRef ?_))
  rcases found with _ | ip
  · exact .pure (.of_eq h v.ended_begun)
  refine .withLock fun hfree => .bind (.quiet (quiet_inode ip) fun i => .ite (fun _ => .pure (.of_eq h ?_))
    fun _ => .bind (.unlock ?_))
  · show ((((v.begun.hold (some ip)).lock ip).unlock ip).drop ip).ended = v
    rw [Books.unlock_lock hfree, Books.drop_hold, Books.ended_begun]
  · show Within true _ _ (((v.begun.hold (some ip)).lock ip).unlock ip)
    rw [Books.unlock_lock hfree]
    refine .get fun s hs => .withRef (.bind (.setCwd (.pure ?_)))
    have hcwd : s.cwd p = v.cwd p := by
      rw [show s.cwd = s.books.cwd from rfl, hs]
      rfl
    rw [hcwd]
    obtain ⟨hlocked, hout, husers, hcwd'⟩ := Books.put_frame
      { v.begun.hold (some ip) with cwd := Function.update v.cwd p (some ip) } (v.cwd p)
    refine ⟨h.setCwd (p := p) (o := some ip) hcwd' (fun jp => ?_) hlocked husers
      (.inr (by simp [hp])), ?_⟩
    · have href := Books.ref_put
        { v.begun.hold (some ip) with cwd := Function.update v.cwd p (some ip) } (v.cwd p) jp
      have href' := Books.ref_hold v.begun (some ip) jp
      exact href.trans (by rw [href']; rfl)
    · exact (congrArg (· - 1) hout).trans (add_sub_cancel_right _ _)

/-! ## Closing -/

/-- The inode that `file::close` gives back is the one that the file opened. -/
theorem lastInode_iff {f : FileId} {m : FileManager} (hf : 0 < (m.files f).ref) (ip : InodeId) :
    (m.files f).ref = 1 ∧ (m.files f).opens ip ↔ lastInode f m = some (some ip) := by
  rw [lastInode, FileManager.dropRef, if_neg (by omega)]
  by_cases hone : (m.files f).ref = 1
  · rw [if_neg (by omega), File.opens]
    simp only [hone, true_and, Nat.one_pos]
    split_ifs with htype
    · simp [htype]
    · simp [htype]
  · rw [if_pos (by omega)]
    simp [hone]

theorem Within.closeFd {fd : Fin NOFILE} {f : FileId} (h : Balanced v)
    (hfd : (v.users.procs p).ofile fd = some f) :
    Within false (Sysfile.closeFd p fd f) (fun _ v' => Kept v v' ∧ v'.cwd = v.cwd ∧
      v'.users.procs = (v.users.setOfile p fd none).procs) v := by
  refine .get fun s hs => .bind (.files fun _ u hu => ?_)
  have husers : s.users = v.users := by rw [← hs]; rfl
  rw [husers]
  obtain ⟨u', hu', haccounted, hprocs⟩ := h.accounted.closeFd hfd
  rw [hu'] at hu
  cases hu
  have halters := FileUsers.Alters.closeFd h.accounted hfd hu'
  simp only [lastInode_iff (h.accounted.pos hfd)] at halters
  split
  · next hlast =>
    refine .pure ⟨⟨h.users halters (fun ip => ?_) rfl rfl, rfl⟩, rfl, hprocs⟩
    rw [hlast, if_neg (by simp), add_zero]
  · next o hlast =>
    refine .logOp (.withRef (.pure ?_))
    obtain ⟨hlocked, hout, husers', hcwd⟩ := Books.put_frame (Books.begun { v with users := u }) o
    have husers'' : (Books.ended ((Books.begun { v with users := u }).put o)).users = u := husers'
    refine ⟨⟨h.users (husers'' ▸ halters) (fun ip => ?_) hlocked hcwd, ?_⟩, hcwd,
      (congrArg FileUsers.procs husers'').trans hprocs⟩
    · have href := Books.ref_put (Books.begun { v with users := u }) o ip
      refine href.trans ?_
      rw [hlast]
      simp only [Option.some.injEq]
      show v.view.ref ip - _ = _
      split_ifs <;> omega
    · exact (congrArg (· - 1) hout).trans (add_sub_cancel_right _ _)

theorem Within.sysClose {fd : Int} (h : Balanced v) :
    Within false (Sysfile.sysClose p fd) (fun _ => Kept v) v :=
  .withFd (.of_eq h rfl) fun _ _ hfd => .bind ((Within.closeFd h hfd).imp fun _ _ h' => .pure h'.1)

/-- **The loop of `exit`**: the descriptors it has passed are free. -/
theorem Within.exitFiles (l : List (Fin NOFILE)) (h : Balanced v) :
    Within false (Sysfile.exitFiles p l) (fun _ v' => Kept v v' ∧ v'.cwd = v.cwd ∧
      ∀ fd, (v.users.procs p).ofile fd = none ∨ fd ∈ l → (v'.users.procs p).ofile fd = none) v := by
  induction l generalizing v with
  | nil => exact .pure ⟨.of_eq h rfl, rfl, fun fd hfd => by simpa using hfd⟩
  | cons i l ih =>
    refine .get fun s hs => ?_
    have husers : s.users = v.users := by rw [← hs]; rfl
    rw [husers]
    split
    · next hi =>
      refine (ih h).imp ?_
      rintro _ v' ⟨hkept, hcwd, hfree⟩
      refine ⟨hkept, hcwd, fun fd hfd => hfree fd ?_⟩
      rcases hfd with hfd | hfd
      · exact .inl hfd
      · rcases List.mem_cons.1 hfd with rfl | hfd
        · exact .inl hi
        · exact .inr hfd
    · next f hf =>
      refine .bind ((Within.closeFd h hf).imp ?_)
      rintro _ v₁ ⟨hkept₁, hcwd₁, hprocs⟩
      refine (ih hkept₁.1).imp ?_
      rintro _ v' ⟨hkept, hcwd, hfree⟩
      refine ⟨hkept₁.trans hkept, hcwd.trans hcwd₁, fun fd hfd => hfree fd ?_⟩
      rw [hprocs, FileUsers.setOfile_ofile]
      by_cases hfi : fd = i
      · simp [hfi]
      · rw [if_neg (by simp [hfi])]
        rcases hfd with hfd | hfd
        · exact .inl hfd
        · exact .inr ((List.mem_cons.1 hfd).resolve_left hfi)

theorem Within.exit (h : Balanced v) : Within false (Sysfile.exit p) (fun _ => Kept v) v := by
  refine .bind ((Within.exitFiles _ h).imp ?_)
  rintro _ v₁ ⟨hkept, -, hfree⟩
  have h₁ := hkept.1
  refine .get fun s hs => .bind (.logOp (.withRef (.pure (.bind (.setCwd (.files fun _ u hu => ?_))))))
  cases hu
  have hcwd : s.cwd p = v₁.cwd p := by rw [← hs]; rfl
  rw [hcwd]
  obtain ⟨hlocked, hout, husers, hcwd'⟩ := Books.put_frame v₁.begun (v₁.cwd p)
  have hhome : Balanced { (v₁.begun.put (v₁.cwd p)).ended with
      cwd := Function.update (v₁.begun.put (v₁.cwd p)).cwd p none } := by
    refine h₁.setCwd (p := p) (o := none) ?_ (fun ip => ?_) hlocked husers (.inl rfl)
    · rw [hcwd']
      rfl
    · refine (Books.ref_put v₁.begun (v₁.cwd p) ip).trans ?_
      simp [Books.begun, Books.withView]
  refine hkept.trans ⟨hhome.setState (p := p) (t := .zombie) ?_ ?_, ?_⟩
  · exact fun _ fd => (congrArg (fun u => (FileUsers.procs u p).ofile fd) husers).trans
      (hfree fd (.inr (List.mem_finRange fd)))
  · exact fun _ => Function.update_self ..
  · exact (congrArg (· - 1) hout).trans (add_sub_cancel_right _ _)

/-- **`fork`**: the child has the open files and the current directory of its parent. -/
theorem Within.fork {np : Fin NPROC} (h : Balanced v) (hnp : (v.users.procs np).state = .unused)
    : Within false (Sysfile.fork p np) (fun _ => Kept v) v := by
  refine .bind (.files fun _ u hu => .bind (.cwd fun cur hcur => .bind (.fs (effect_idup cur)
    fun ip w hw => .setCwd ?_)))
  obtain ⟨rfl, rfl⟩ := hw
  obtain ⟨u', hu', hu''⟩ : ∃ u', v.users.fork p np = .ok u' ∧ u' = u := by
    revert hu
    cases v.users.fork p np with
    | error e => exact fun hu => by cases hu
    | ok u' => exact fun hu => by cases hu; exact ⟨_, rfl, rfl⟩
  subst hu''
  obtain ⟨haccounted, hopeners, hrunnable, hstate⟩ := FileUsers.openers_fork h.accounted hnp hu'
  have hhome := h.homeless np (.inl hnp)
  refine ⟨⟨haccounted, fun jp => ?_, h.unlocked, fun q hq => ?_⟩, rfl⟩
  · have hcount := cwds_update v.cwd np (some ip) jp
    have href := Books.ref_hold v (some ip) jp
    rw [hhome, if_neg (by simp), add_zero] at hcount
    refine href.trans ?_
    rw [h.ref jp]
    show _ = ((cwds (Function.update v.cwd np (some ip)) jp : Nat) : Int) + u'.openers jp
    rw [hcount, hopeners]
    split_ifs <;> push_cast <;> ring
  · replace hq : (u'.procs q).state = .unused ∨ (u'.procs q).state = .zombie := hq
    have hqnp : q ≠ np := by
      rintro rfl
      rw [hrunnable] at hq
      simp at hq
    rw [hstate q hqnp] at hq
    show Function.update v.cwd np (some ip) q = none
    rw [Function.update_of_ne hqnp]
    exact h.homeless q hq

/-- **Every system call keeps the books balanced.** -/
theorem Within.prog (c : SysCall) (h : Balanced v) (hp : (v.users.procs p).state = .runnable) :
    Within false (c.prog p) (fun _ => Kept v) v := by
  have hsame : ∀ {m : SysM Int}, Within false m (fun _ v' => v' = v) v →
      Within false m (fun _ => Kept v) v := fun hm => hm.imp fun _ _ hv => .of_eq h hv
  cases c with
  | dup fd => exact .files fun _ u hu => .alters h (.sysDup h.accounted hp hu)
  | read fd n dst r k => exact .withFd (.of_eq h rfl) fun _ _ _ => .read h
  | write fd n src r bytes => exact .withFd (.of_eq h rfl) fun _ _ _ => .write h
  | close fd => exact .sysClose h
  | fstat fd copied => exact .withFd (.of_eq h rfl) fun _ _ _ => .stat h
  | link old new => exact hsame (.sysLink old new)
  | unlink path => exact hsame (.sysUnlink path)
  | «open» path omode => exact .sysOpen h hp
  | mkdir path => exact hsame (.makeNode path _ _ _)
  | mknod path major minor => exact hsame (.makeNode path _ _ _)
  | chdir path => exact .sysChdir h hp
  | exec path mem argc => exact hsame (.exec path mem argc)
  | pipe copy₀ copy₁ => exact .files fun _ u hu => .alters h (.sysPipe h.accounted hp hu)
  | exit => exact .bind ((Within.exit h).imp fun _ _ h' => .pure h')

end Sysfile

/-! ## Runs -/

/-- The first process has been made: its current directory is the root, to which it has the only
reference. -/
structure SysMem.Boots (s : SysMem) : Prop where
  users : ∃ data, s.users = .boot data
  cwd : ∃ ip, s.cwd = Function.update (fun _ => none) ⟨0, by decide⟩ (some ip) ∧
    ∀ jp, (s.fs.inodes jp).ref = if jp = ip then 1 else 0
  unlocked : ∀ ip, (s.fs.inodes ip).locked = false

/-- The states of the system between system calls. -/
inductive SysMem.Reached : SysMem → Prop
  | boot {s : SysMem} : s.Boots → s.Reached
  /-- A system call returns. -/
  | call {s s' : SysMem} {p : Fin NPROC} {c : SysCall} {r : Int} {held : List Nat} : s.Reached →
      (s.users.procs p).state = .runnable →
      ((c.prog p).run { s with trace := [] }).Outcome [] (r, s') held → s'.Reached
  /-- `fork` returns, where `alloc` has found the unused process `np`. -/
  | fork {s s' : SysMem} {p np : Fin NPROC} {held : List Nat} : s.Reached →
      (s.users.procs np).state = .unused →
      ((Sysfile.fork p np).run { s with trace := [] }).Outcome [] ((), s') held → s'.Reached
  /-- A `wait` reaps a process. -/
  | reap {s : SysMem} {np : Fin NPROC} : s.Reached → (s.users.procs np).state = .zombie →
      SysMem.Reached { s with users := s.users.setProc np fun x => { x with state := .unused } }

theorem SysMem.Boots.balanced {s : SysMem} (h : s.Boots) : Balanced s.books := by
  obtain ⟨data, husers⟩ := h.users
  obtain ⟨ip, hcwd, href⟩ := h.cwd
  have hopeners : ∀ jp, (FileUsers.boot data).openers jp = 0 := fun jp =>
    Finset.card_eq_zero.2 (Finset.filter_false_of_mem fun f _ => File.not_opens_of_ref rfl)
  refine ⟨?_, fun jp => ?_, h.unlocked, fun p hp => ?_⟩
  · show s.users.Accounted
    rw [husers]
    exact FileUsers.accounted_boot data
  · have hcount := cwds_update (fun _ => none) ⟨0, by decide⟩ (some ip) jp
    have hnone : cwds (fun _ => none) jp = 0 :=
      Finset.card_eq_zero.2 (Finset.filter_false_of_mem fun p _ => by simp)
    rw [hnone, if_neg (by simp), ← hcwd] at hcount
    show (s.fs.inodes jp).ref = (cwds s.cwd jp : Int) + s.users.openers jp
    rw [href, husers, hopeners]
    simp only [Option.some.injEq, eq_comm (a := ip)] at hcount
    split_ifs at hcount ⊢ <;> omega
  · replace hp : (s.users.procs p).state = .unused ∨ (s.users.procs p).state = .zombie := hp
    show s.cwd p = none
    have hne : p ≠ ⟨0, by decide⟩ := by
      rintro rfl
      rw [husers] at hp
      simp [FileUsers.boot] at hp
    rw [hcwd, Function.update_of_ne hne]

theorem SysMem.Reached.balanced {s : SysMem} (h : s.Reached) : Balanced s.books := by
  induction h with
  | boot hs => exact hs.balanced
  | @call s _ _ c _ _ _ hp hout ih =>
    exact (Sysfile.Within.prog c ih hp { s with trace := [] } [] rfl rfl _ _ _ hout).2.2.1
  | @fork s _ _ _ _ _ hnp hout ih =>
    exact (Sysfile.Within.fork ih hnp { s with trace := [] } [] rfl rfl _ _ _ hout).2.2.1
  | reap _ hz ih =>
    exact ih.setState (fun _ => ih.accounted.closed _ (.inr hz)) fun _ => ih.homeless _ (.inr hz)

/-- **Every system call balances its books**, whatever it finds on the disk and however it returns: the
process holds no buffer, no inode is locked, the operations it began it ended, every `iput` of a guard was
inside of one, and every inode has as many references as current directories and open files point to it. -/
theorem syscall_balance {s s' : SysMem} {p : Fin NPROC} {c : SysCall} {r : Int} {held : List Nat}
    (hs : s.Reached) (hp : (s.users.procs p).state = .runnable)
    (hout : ((c.prog p).run { s with trace := [] }).Outcome [] (r, s') held) :
    held = [] ∧ (∀ ip, (s'.fs.inodes ip).locked = false) ∧
      s'.fs.log.outstanding = s.fs.log.outstanding ∧ inOp s'.trace = some false ∧
      ∀ ip, (s'.fs.inodes ip).ref = cwds s'.cwd ip + s'.users.openers ip := by
  obtain ⟨hop, hheld, hbalanced, hops⟩ :=
    Sysfile.Within.prog c hs.balanced hp { s with trace := [] } [] rfl rfl r s' held hout
  exact ⟨hheld, hbalanced.unlocked, hops, hop, hbalanced.ref⟩

/-- A system whose first process is at the root. -/
def atRoot : SysMem where
  fs := {
    sb := ⟨2000, 1954, 200, 31, 2, 33, 46⟩
    log := ⟨2, 31, 0, false, ⟨0, fun _ => 0⟩⟩
    inodes := fun ip => if ip = ⟨0, NINODE_pos⟩ then
        ⟨ROOTINO, 1, false, true, ⟨T_DIR, 0, 0, 1, 1024, fun _ => 0⟩⟩
      else ⟨0, 0, false, false, ⟨0, 0, 0, 0, 0, fun _ => 0⟩⟩ }
  users := .boot fun _ _ => 0
  cwd := Function.update (fun _ => none) ⟨0, NPROC_pos⟩ (some ⟨0, NINODE_pos⟩)
  trace := []

theorem atRoot_boots : atRoot.Boots := by
  refine ⟨⟨_, rfl⟩, ⟨⟨0, by decide⟩, rfl, fun jp => ?_⟩, fun ip => ?_⟩
  · simp only [atRoot]
    split <;> rfl
  · simp only [atRoot]
    split <;> rfl

set_option maxRecDepth 4000 in
/-- Its `chdir("/")`. -/
theorem syscall_balance_chdir : ∃ s' held,
    (((SysCall.chdir (some [slash])).prog ⟨0, by decide⟩).run atRoot).Outcome [] (0, s') held ∧
      held = [] ∧ (∀ ip, (s'.fs.inodes ip).locked = false) ∧ s'.fs.log.outstanding = 0 ∧
      inOp s'.trace = some false ∧
      ∀ ip, (s'.fs.inodes ip).ref = cwds s'.cwd ip + s'.users.openers ip := by
  have hvalue : (((SysCall.chdir (some [slash])).prog ⟨0, by decide⟩).run atRoot).value?.map Prod.fst =
      some 0 := by
    decide +kernel
  obtain ⟨⟨r, s'⟩, hrun, rfl⟩ := Option.map_eq_some_iff.1 hvalue
  have hout := BufM.outcome_of_value hrun []
  exact ⟨s', [], hout, syscall_balance (s := atRoot) (.boot atRoot_boots) rfl hout⟩

end Xv6pp
