import Xv6pp.Fs.Holding
import Xv6pp.Fs.Sysfile

/-!
# The books of a system call

The books are what a system call has to keep in balance: the references to inodes and their locks, the
operations of the log, the open files and the current directories.  `Within` says what becomes of them
when a program of the kernel runs inside or outside of an operation, whatever it finds on the disk; its
rules follow the scopes of the guards, whose destructors give back what they still hold.
-/

set_option autoImplicit false

namespace Xv6pp

open FileSystem

/-! ## Operations of the log -/

/-- Whether the process is in an operation after an event; `none` if the event should not have
happened. -/
def Event.step : Event → Option Bool → Option Bool
  | .beginOp, some false => some true
  | .endOp, some true => some false
  | .iput _, some true => some true
  | _, _ => none

/-- Whether the process is in an operation after these events; `none` if an operation was begun inside
another or ended outside of one, or if a guard's `iput` was outside of an operation. -/
def inOp (trace : List Event) : Option Bool := trace.foldl (fun op e => e.step op) (some false)

theorem inOp_append (trace : List Event) (e : Event) : inOp (trace ++ [e]) = e.step (inOp trace) := by
  rw [inOp, List.foldl_append]
  rfl

namespace BufM

/-- The program gives back the buffers it takes. -/
def Neutral {α : Type} (p : BufM α) : Prop := ∀ held a held', p.Outcome held a held' → held' = held

theorem Neutral.bind {α β : Type} {p : BufM α} {f : α → BufM β} (hp : Neutral p)
    (hf : ∀ a, Neutral (f a)) : Neutral (p >>= f) := by
  intro held b held' h
  obtain ⟨a, held₁, h₁, h₂⟩ := outcome_bind.1 h
  exact (hf a _ _ _ h₂).trans (hp _ _ _ h₁)

theorem Neutral.pure {α : Type} (a : α) : Neutral (Pure.pure a : BufM α) := fun _ _ _ h => h.2

theorem Neutral.forM {α : Type} {l : List α} {f : α → BufM PUnit} (hf : ∀ a, Neutral (f a)) :
    Neutral (l.forM f) := by
  induction l with
  | nil => exact .pure _
  | cons a l ih => exact .bind (hf a) fun _ => ih

end BufM

open BufM in
theorem neutral_writeHead (l : Log) : Neutral l.writeHead := by
  rintro held a held' ⟨-, d, -, -, rfl⟩
  exact List.erase_cons_head _ _

open BufM in
theorem neutral_commit (l : Log) : Neutral l.commit := by
  have hlog : Neutral l.writeLog := by
    refine .forM fun tail => ?_
    rintro held a held' ⟨-, d, -, d', -, -, -, rfl⟩
    rw [List.erase_cons_head, List.erase_cons_head]
  have htrans : Neutral (l.installTrans false) := by
    refine .forM fun tail => ?_
    rintro held a held' ⟨-, d, -, d', -, -, -, rfl⟩
    rw [List.erase_cons_head, List.erase_cons_head]
  rw [Log.commit]
  split
  · exact .bind hlog fun _ => .bind (neutral_writeHead l) fun _ => .bind htrans fun _ =>
      .bind (neutral_writeHead _) fun _ => .pure _
  · exact .pure _

/-! ## The books -/

/-- What is kept in balance: references, locks and operations, the open files, the current
directories. -/
structure Books where
  view : View
  users : FileUsers
  cwd : Fin NPROC → Option InodeId

/-- The books of a state. -/
def SysMem.books (s : SysMem) : Books := ⟨s.fs.view, s.users, s.cwd⟩

namespace Books

/-- The books with another view. -/
def withView (v : Books) (w : View) : Books := { v with view := w }

/-- One more reference to the inode, if there is one. -/
def hold (v : Books) (ip : Option InodeId) : Books := v.withView (v.view.holdOpt ip)

/-- One reference less. -/
def drop (v : Books) (ip : InodeId) : Books := v.withView (v.view.drop ip)

/-- The lock is taken. -/
def lock (v : Books) (ip : InodeId) : Books := v.withView (v.view.lock ip)

/-- The lock is free. -/
def unlock (v : Books) (ip : InodeId) : Books := v.withView (v.view.unlock ip)

/-- One more operation. -/
def begun (v : Books) : Books := v.withView { v.view with outstanding := v.view.outstanding + 1 }

/-- One operation less. -/
def ended (v : Books) : Books := v.withView { v.view with outstanding := v.view.outstanding - 1 }

/-- The end of a reference guard. -/
def put (v : Books) : Option InodeId → Books
  | none => v
  | some ip => v.drop ip

/-- The end of a lock guard. -/
def endLock (v : Books) (g : Sysfile.LockGuard) : Books :=
  match g.ip, g.locked with
  | some ip, true => v.unlock ip
  | _, _ => v

section
variable {v : Books} {ip jp : InodeId} {o : Option InodeId}

@[simp] theorem hold_none (v : Books) : v.hold none = v := rfl

@[simp] theorem put_none (v : Books) : v.put none = v := rfl

@[simp] theorem put_some (v : Books) (ip : InodeId) : v.put (some ip) = v.drop ip := rfl

@[simp] theorem endLock_locked (v : Books) (ip : InodeId) : v.endLock ⟨some ip, true⟩ = v.unlock ip :=
  rfl

@[simp] theorem endLock_unlocked (v : Books) (o : Option InodeId) : v.endLock ⟨o, false⟩ = v := by
  cases o <;> rfl

@[simp] theorem drop_hold (v : Books) (ip : InodeId) : (v.hold (some ip)).drop ip = v :=
  congrArg v.withView (v.view.drop_hold ip)

@[simp] theorem hold_drop (v : Books) (ip : InodeId) : (v.drop ip).hold (some ip) = v :=
  congrArg v.withView (v.view.hold_drop ip)

theorem drop_hold_comm (v : Books) (ip jp : InodeId) :
    (v.hold (some jp)).drop ip = (v.drop ip).hold (some jp) :=
  congrArg v.withView (v.view.drop_hold_comm ip jp)

@[simp] theorem unlock_lock (h : v.view.locked ip = false) : (v.lock ip).unlock ip = v :=
  congrArg v.withView (View.unlock_lock h)

theorem drop_lock (v : Books) (ip jp : InodeId) : (v.lock ip).drop jp = (v.drop jp).lock ip := rfl

theorem hold_lock (v : Books) (ip : InodeId) (o : Option InodeId) :
    (v.lock ip).hold o = (v.hold o).lock ip := by
  cases o <;> rfl

@[simp] theorem locked_hold (v : Books) (o : Option InodeId) :
    (v.hold o).view.locked = v.view.locked := by
  cases o <;> rfl

@[simp] theorem locked_drop (v : Books) (ip : InodeId) : (v.drop ip).view.locked = v.view.locked := rfl

@[simp] theorem locked_begun (v : Books) : v.begun.view.locked = v.view.locked := rfl

theorem locked_lock (h : (v.lock ip).view.locked jp = false) : jp ≠ ip ∧ v.view.locked jp = false := by
  have hne : jp ≠ ip := by
    rintro rfl
    simp [lock, withView, View.lock] at h
  refine ⟨hne, ?_⟩
  simpa [lock, withView, View.lock, Function.update_of_ne hne] using h

theorem unlock_lock_comm (v : Books) (h : ip ≠ jp) : (v.lock ip).unlock jp = (v.unlock jp).lock ip := by
  simp only [lock, unlock, withView, View.lock, View.unlock, Function.update_comm h]

theorem unlock_hold (v : Books) (ip : InodeId) (o : Option InodeId) :
    (v.hold o).unlock ip = (v.unlock ip).hold o := by
  cases o <;> rfl

/-- A directory is given back while one of its entries is kept. -/
theorem drop_parent (hdp : v.view.locked ip = false)
    (hip : ((v.hold (some ip)).lock ip).view.locked jp = false) :
    (((((v.hold (some ip)).lock ip).hold (some jp)).lock jp).unlock ip).drop ip =
      (v.hold (some jp)).lock jp := by
  obtain ⟨hne, -⟩ := locked_lock hip
  rw [unlock_lock_comm _ hne, unlock_hold, unlock_lock (by simpa using hdp), drop_lock, drop_hold_comm,
    drop_hold]

@[simp] theorem ended_begun (v : Books) : v.begun.ended = v := by
  simp [begun, ended, withView]

end

end Books

namespace Sysfile

variable {α β : Type} {op : Bool} {v : Books}

/-- The program `m`, begun with the books `v` inside or outside of an operation, ends where it began and
with the buffers it began with, and `Q` holds whenever it returns. -/
def Within (op : Bool) (m : SysM α) (Q : α → Books → Prop) (v : Books) : Prop :=
  ∀ s held, inOp s.trace = some op → s.books = v → Always m (fun a s' held' =>
    inOp s'.trace = some op ∧ held' = held ∧ Q a s'.books) s held

namespace Within

theorem pure {a : α} {Q : α → Books → Prop} (h : Q a v) : Within op (Pure.pure a) Q v := by
  rintro s held hop rfl
  exact always_pure.2 ⟨hop, rfl, h⟩

theorem bind {m : SysM α} {f : α → SysM β} {Q : β → Books → Prop}
    (h : Within op m (fun a v' => Within op (f a) Q v') v) : Within op (m >>= f) Q v := by
  intro s held hop hv
  refine (h s held hop hv).seq ?_
  rintro a s' _ ⟨hop', rfl, h'⟩
  exact h' s' _ hop' rfl

theorem imp {m : SysM α} {Q Q' : α → Books → Prop} (h : Within op m Q v)
    (hQ : ∀ a v', Q a v' → Q' a v') : Within op m Q' v := fun s held hop hv =>
  (h s held hop hv).imp fun a _ _ h' => ⟨h'.1, h'.2.1, hQ a _ h'.2.2⟩

theorem ite {c : Prop} [Decidable c] {m m' : SysM α} {Q : α → Books → Prop}
    (h : c → Within op m Q v) (h' : ¬ c → Within op m' Q v) :
    Within op (if c then m else m') Q v := by
  split
  · next hc => exact h hc
  · next hc => exact h' hc

/-- A choice between two programs that change nothing, before the rest. -/
theorem branch {c : Prop} [Decidable c] {m m' : SysM α} {f : α → SysM β} {Q : β → Books → Prop}
    (h : c → Within op m (fun _ v' => v' = v) v) (h' : ¬ c → Within op m' (fun _ v' => v' = v) v)
    (hf : ∀ a, Within op (f a) Q v) : Within op (if c then m >>= f else m' >>= f) Q v := by
  refine ite (fun hc => bind ((h hc).imp ?_)) fun hc => bind ((h' hc).imp ?_)
  all_goals
    rintro a _ rfl
    exact hf a

theorem get {f : SysMem → SysM β} {Q : β → Books → Prop}
    (h : ∀ s, s.books = v → Within op (f s) Q v) : Within op (MonadState.get >>= f) Q v := by
  intro s held hop hv
  rw [always_bind, always_get]
  exact h s hv s held hop hv

/-- A function of the file system. -/
theorem fs {m : FsM α} {E : View → α → View → Prop} {Q : α → Books → Prop} (h : Effect m E)
    (hQ : ∀ a w, E v.view a w → Q a (v.withView w)) : Within op (Sysfile.fs m) Q v := by
  rintro s held hop rfl a s' held' hout
  obtain ⟨⟨b, f⟩, held₁, h₁, hb, rfl⟩ := BufM.outcome_bind.1 hout
  cases hb
  obtain ⟨he, rfl⟩ := h s.fs held a f held' h₁
  exact ⟨hop, rfl, hQ a _ he⟩

/-- A function that returns with a reference to the inode it finds. -/
theorem find {m : FsM α} {sel : α → Option InodeId} {Q : α → Books → Prop}
    (h : Effect m fun w a w' => w' = w.holdOpt (sel a)) (hQ : ∀ a, Q a (v.hold (sel a))) :
    Within op (Sysfile.fs m) Q v :=
  fs h fun a w hw => by
    rw [hw]
    exact hQ a

theorem quiet {m : FsM α} {Q : α → Books → Prop} (h : Quiet m) (hQ : ∀ a, Q a v) :
    Within op (Sysfile.fs m) Q v :=
  fs (E := fun w _ w' => w' = w) h fun a w hw => by
    rw [hw]
    exact hQ a

/-- Two functions that change nothing, if at all, before the rest. -/
theorem quietWhen {c : Prop} [Decidable c] {m m' : FsM Unit} {f : Unit → SysM β} {Q : β → Books → Prop}
    (hm : Quiet m) (hm' : Quiet m') (hf : Within op (f ()) Q v) :
    Within op (if c then Sysfile.fs m >>= fun _ => Sysfile.fs m' >>= f else f ()) Q v :=
  ite (fun _ => bind (quiet hm fun _ => bind (quiet hm' fun _ => hf))) fun _ => hf

theorem stop {e : Panic} {Q : α → Books → Prop} : Within op (Sysfile.fs (FileSystem.stop e)) Q v :=
  fs (E := fun _ _ _ => False) (fun _ _ => always_stop) fun _ _ h => h.elim

/-- A function on the open files. -/
theorem files {g : FileUsers → Except Panic (α × FileUsers)} {Q : α → Books → Prop}
    (h : ∀ a u, g v.users = .ok (a, u) → Q a { v with users := u }) :
    Within op (Sysfile.files g) Q v := by
  rintro s held hop rfl a s' held' hout
  simp only [Sysfile.files, StateT.run] at hout
  split at hout
  · next b u hg =>
    obtain ⟨hb, rfl⟩ := hout
    cases hb
    exact ⟨hop, rfl, h a u hg⟩
  · exact hout.elim

theorem cwd {p : Fin NPROC} {Q : InodeId → Books → Prop} (h : ∀ ip, v.cwd p = some ip → Q ip v) :
    Within op (Sysfile.cwd p) Q v := by
  refine get fun s hs => ?_
  have hcwd : s.cwd p = v.cwd p := by rw [← hs]; rfl
  split
  · exact stop
  · next ip hip => exact pure (h ip (hcwd.symm.trans hip))

theorem setCwd {p : Fin NPROC} {ip : Option InodeId} {Q : Unit → Books → Prop}
    (h : Q () { v with cwd := Function.update v.cwd p ip }) : Within op (Sysfile.setCwd p ip) Q v := by
  rintro s held hop rfl
  exact always_modify.2 ⟨hop, rfl, h⟩

/-! ## Guards -/

/-- `reset` of a reference guard, inside of an operation. -/
theorem resetRef {g : RefGuard} {ip : Option InodeId} {Q : RefGuard → Books → Prop}
    (h : Q ⟨ip⟩ (v.put g.ip)) : Within true (g.reset ip) Q v := by
  rw [RefGuard.reset]
  split
  · next hg =>
    rw [hg] at h
    exact pure h
  · next jp hg =>
    rw [hg] at h
    have hrecord : Within true (record (.iput jp)) (fun _ v' => v' = v) v := by
      rintro s held hop rfl
      exact always_modify.2 ⟨by rw [inOp_append, hop]; rfl, rfl, rfl⟩
    refine bind (hrecord.imp ?_)
    rintro _ _ rfl
    refine bind (fs (effect_iput jp) fun _ w hw => pure ?_)
    rw [hw]
    exact h

/-- The scope of a reference guard. -/
theorem withRef {ip : Option InodeId} {body : RefGuard → SysM (α × RefGuard)} {Q : α → Books → Prop}
    (h : Within true (body ⟨ip⟩) (fun r v' => Q r.1 (v'.put r.2.ip)) v) :
    Within true (Sysfile.withRef ip body) Q v := by
  refine bind (h.imp ?_)
  rintro ⟨a, g⟩ v' h'
  exact bind (bind (resetRef (pure (pure h'))))

theorem unlock {g : LockGuard} {Q : LockGuard → Books → Prop}
    (h : Q ⟨g.ip, false⟩ (v.endLock g)) : Within op g.unlock Q v := by
  rw [LockGuard.unlock]
  split
  · next jp hip hlocked =>
    refine bind (fs (effect_iunlock jp) fun _ w hw => pure ?_)
    rw [Books.endLock, hip, hlocked] at h
    rw [hw]
    exact h
  · next hnot =>
    refine pure ?_
    have hsame : v.endLock g = v := by
      rw [Books.endLock]
      split
      · next ip hip hlocked => exact (hnot ip hip hlocked).elim
      · rfl
    rw [hsame] at h
    exact h

theorem make {ip : InodeId} {Q : LockGuard → Books → Prop}
    (h : v.view.locked ip = false → Q ⟨some ip, true⟩ (v.lock ip)) :
    Within op (LockGuard.make (some ip)) Q v := by
  refine bind (fs (effect_ilock ip) fun _ w hw => pure ?_)
  obtain ⟨hfree, rfl⟩ := hw
  exact h hfree

theorem destroy {g : LockGuard} {Q : Unit → Books → Prop} (h : Q () (v.endLock g)) :
    Within op g.destroy Q v :=
  bind (unlock (pure h))

/-- The scope of a lock guard. -/
theorem withLock {ip : InodeId} {body : LockGuard → SysM (α × LockGuard)} {Q : α → Books → Prop}
    (h : v.view.locked ip = false → Within op (body ⟨some ip, true⟩)
      (fun r v' => Q r.1 (v'.endLock r.2)) (v.lock ip)) :
    Within op (Sysfile.withLock (some ip) body) Q v := by
  refine bind (make fun hfree => bind ((h hfree).imp ?_))
  rintro ⟨a, g⟩ v' h'
  exact bind (destroy (pure h'))

/-- The scope of a lock guard that is empty at first. -/
theorem withNoLock {body : LockGuard → SysM (α × LockGuard)} {Q : α → Books → Prop}
    (h : Within op (body ⟨none, false⟩) (fun r v' => Q r.1 (v'.endLock r.2)) v) :
    Within op (Sysfile.withLock none body) Q v := by
  refine bind (pure (bind (h.imp ?_)))
  rintro ⟨a, g⟩ v' h'
  exact bind (destroy (pure h'))

/-! ## Operations -/

end Within

theorem commit_outstanding {l l' : Log} {held held' : List Nat} (h : l.commit.Outcome held l' held') :
    l'.outstanding = l.outstanding := by
  rw [Log.commit] at h
  split at h
  · obtain ⟨_, _, -, h⟩ := BufM.outcome_bind.1 h
    obtain ⟨_, _, -, h⟩ := BufM.outcome_bind.1 h
    obtain ⟨_, _, -, h⟩ := BufM.outcome_bind.1 h
    obtain ⟨_, _, -, h⟩ := BufM.outcome_bind.1 h
    obtain ⟨rfl, -⟩ := h
    rfl
  · obtain ⟨rfl, -⟩ := h
    rfl

theorem endOp_outstanding {l l' : Log} {b : Bool} (h : l.endOp = .ok (l', b)) :
    l'.outstanding = l.outstanding - 1 := by
  rw [Log.endOp] at h
  split_ifs at h <;> cases h <;> rfl

theorem effect_finishOp : Effect finishOp fun w _ w' =>
    w' = { w with outstanding := w.outstanding - 1 } := by
  intro s held
  rw [finishOp, always_bind, always_get]
  split
  · exact always_stop
  · next l hl =>
    refine always_set.2 ⟨?_, rfl⟩
    simp only [FsMem.view, endOp_outstanding hl]
  · next l hl =>
    rw [always_bind, buf, always_lift]
    intro l' held' h
    refine always_set.2 ⟨?_, neutral_commit _ _ _ _ h⟩
    simp only [FsMem.view, Log.endCommit, commit_outstanding h, endOp_outstanding hl]

/-- **The scope of an operation**, outside of any other. -/
theorem Within.logOp {body : SysM α} {Q : α → Books → Prop}
    (h : Within true body (fun a v' => Q a v'.ended) v.begun) :
    Within false (Sysfile.logOp body) Q v := by
  have hbegin : ∀ s held, inOp s.trace = some false → Always beginOp (fun _ s' held' =>
      inOp s'.trace = some true ∧ held' = held ∧ s'.books = s.books.begun) s held := by
    intro s held hop
    rw [beginOp, always_bind, always_get]
    split
    · intro a s' held' hout
      exact ((Within.stop (Q := fun _ _ => False)) s held hop rfl a s' held' hout).2.2.elim
    · next l hl =>
      rw [Log.beginOp] at hl
      split_ifs at hl
      cases hl
      rw [always_bind, always_set, record, always_modify]
      exact ⟨by rw [inOp_append, hop]; rfl, rfl, rfl⟩
  have hend : ∀ s held, inOp s.trace = some true → Always endOp (fun _ s' held' =>
      inOp s'.trace = some false ∧ held' = held ∧ s'.books = s.books.ended) s held := by
    intro s held hop
    have hop' : inOp (s.trace ++ [.endOp]) = some false := by rw [inOp_append, hop]; rfl
    rw [endOp, always_bind, record, always_modify]
    have hfinish : Within false (Sysfile.fs finishOp) (fun _ v => v = s.books.ended)
        s.books := Within.fs effect_finishOp fun _ w hw => by rw [hw]; rfl
    exact hfinish { s with trace := s.trace ++ [.endOp] } held hop' rfl
  rintro s held hop rfl
  refine (hbegin s held hop).seq ?_
  rintro _ s₁ _ ⟨hop₁, rfl, hv₁⟩
  refine (h s₁ _ hop₁ hv₁).seq ?_
  rintro a s₂ _ ⟨hop₂, rfl, h₂⟩
  refine (hend s₂ _ hop₂).seq ?_
  rintro _ s₃ _ ⟨hop₃, rfl, hv₃⟩
  refine always_pure.2 ⟨hop₃, rfl, ?_⟩
  rw [hv₃]
  exact h₂

end Sysfile

end Xv6pp
