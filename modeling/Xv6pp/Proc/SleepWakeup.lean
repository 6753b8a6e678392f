import Xv6pp.Lib.Machine
import Xv6pp.Proc.Process

/-!
# Sleeping and waking up

The sleep protocol statement by statement: `process::sleep`, `interrupt_manager::sleep`,
`process_manager::wakeup`, the scheduler of each processor with `sched` and `yield`, and the spin locks
they use.  Any number of processes run on any number of processors; a spin lock is held by a
processor, and the lock of a process passes from the process to the scheduler and back.

A sleep is a *decision*, taken while the process holds the lock `l` that it gives to `sleep`.  The books
number the acquisitions of each lock and record, with each decision, the acquisition under which it
was taken, and with each finished `wakeup`, the acquisitions under which it was made.
-/

set_option autoImplicit false

namespace Xv6pp

/-- The statements of a sleep. -/
inductive SleepStmt
  /-- `p->lock.acquire()`. -/
  | lock
  /-- `lk.release()`. -/
  | releaseLk
  /-- `p->chan = chan`. -/
  | setChan
  /-- `p->state = SLEEPING`. -/
  | setSleeping
  /-- `sched(p)`. -/
  | sched
  /-- `p->chan = 0`. -/
  | clearChan
  /-- `p->lock.release()`. -/
  | unlock
  /-- `lk.acquire()`. -/
  | acquireLk
  deriving DecidableEq

/-- `process::sleep`; the lock is held by a guard in a scope of its own. -/
def Process.sleep : List SleepStmt :=
  [.lock, .releaseLk, .setChan, .setSleeping, .sched, .clearChan, .unlock, .acquireLk]

/-- `interrupt_manager::sleep`. -/
def InterruptManager.sleep : List SleepStmt :=
  [.lock, .releaseLk, .setChan, .setSleeping, .sched, .clearChan, .unlock, .acquireLk]

/-- The two copies of `sleep`. -/
inductive SleepImpl
  | process
  | interruptManager

/-- The statements of either copy. -/
def SleepImpl.code : SleepImpl → List SleepStmt
  | .process => Process.sleep
  | .interruptManager => InterruptManager.sleep

/-- What a process calls in the kernel. -/
inductive SleepCall (ι χ Λ : Type)
  /-- `lk.acquire()`. -/
  | acquire (l : Λ)
  /-- `lk.release()`. -/
  | release (l : Λ)
  /-- A decision to sleep on `c`, with the lock `l` held. -/
  | sleep (impl : SleepImpl) (c : χ) (l : Λ)
  /-- `wakeup(c)`. -/
  | wakeup (c : χ)
  /-- `yield`. -/
  | yield
  /-- `kill` of the process `q`. -/
  | kill (q : ι)

/-- Where the kernel thread of a process is. -/
inductive SleepPc (ι χ Λ : Type)
  /-- Between calls. -/
  | idle
  | acquire (l : Λ)
  | release (l : Λ)
  /-- In a sleep, with these statements to go. -/
  | sleep (code : List SleepStmt) (c : χ) (l : Λ)
  /-- In the loop of `wakeup`, with these processes to go. -/
  | wakeup (c : χ) (rest : List ι)
  /-- The loop has locked the process `q`. -/
  | wakeTest (c : χ) (q : ι) (rest : List ι)
  /-- The loop is done with the process `q`. -/
  | wakeUnlock (c : χ) (q : ι) (rest : List ι)
  | killLock (q : ι)
  | killTest (q : ι)
  | killUnlock (q : ι)
  | yieldLock
  | yieldState
  | yieldSched
  /-- At the release of its own lock, at the end of `yield` or at the start of `forkret`. -/
  | unlockSelf

/-- What a processor does. -/
inductive CpuMode (ι : Type)
  /-- The loop of the scheduler. -/
  | scan
  /-- The scheduler has locked a process. -/
  | locked (p : ι)
  /-- The kernel thread of a process. -/
  | running (p : ι)
  /-- A process has switched to the scheduler. -/
  | back (p : ι)

/-- A finished `wakeup`. -/
structure WakeupRecord (ι χ Λ : Type) where
  /-- Its caller. -/
  caller : ι
  /-- The channel. -/
  chan : χ
  /-- The locks it was made under, with the number of the acquisition. -/
  held : Λ → Option Nat

/-- Processes, processors and locks. -/
structure SleepState (ι κ χ Λ : Type) where
  /-- What each processor does. -/
  mode : κ → CpuMode ι
  /-- Depth of `push_off` nesting of each processor. -/
  noff : κ → Int
  /-- The holders of the locks. -/
  lk : Λ → Option κ
  /-- The holders of the locks of the processes. -/
  plock : ι → Option κ
  /-- The states of the processes. -/
  state : ι → ProcessState
  /-- The channels of the processes. -/
  chan : ι → Option χ
  /-- Where the processes are. -/
  pc : ι → SleepPc ι χ Λ
  /-- Books: how often each lock was acquired. -/
  acquired : Λ → Nat
  /-- Books: the last decision of each process to sleep, and the acquisition it was taken under. -/
  decision : ι → Option (χ × Λ × Nat)
  /-- Books: the finished wakeups. -/
  wakeups : List (WakeupRecord ι χ Λ)

/-- What can happen. -/
inductive SleepAct (ι κ χ Λ : Type)
  /-- The scheduler of a processor locks the next process of its scan. -/
  | pick (k : κ) (p : ι)
  /-- The scheduler tests the process it has locked. -/
  | dispatch (k : κ)
  /-- The scheduler unlocks the process that has come back. -/
  | finish (k : κ)
  /-- The process on a processor calls a function. -/
  | call (k : κ) (f : SleepCall ι χ Λ)
  /-- The process on a processor makes one step. -/
  | step (k : κ)

namespace SleepState

variable {ι κ χ Λ : Type} [DecidableEq ι] [DecidableEq κ] [DecidableEq χ] [DecidableEq Λ]

/-- The process `p` is now at `pc`. -/
def goto (p : ι) (pc : SleepPc ι χ Λ) (s : SleepState ι κ χ Λ) : SleepState ι κ χ Λ :=
  { s with pc := Function.update s.pc p pc }

/-- `acquire` of the lock of a process, by the processor `k`. -/
def lockProc (k : κ) (q : ι) (s : SleepState ι κ χ Λ) :
    Option (Except Panic (SleepState ι κ χ Λ)) :=
  if s.plock q = some k then some (.error .acquire)
  else if s.plock q ≠ none then none
  else
    some (.ok { s with
      plock := Function.update s.plock q (some k)
      noff := Function.update s.noff k (s.noff k + 1) })

/-- `release` of the lock of a process. -/
def unlockProc (k : κ) (q : ι) (s : SleepState ι κ χ Λ) : Except Panic (SleepState ι κ χ Λ) :=
  if s.plock q ≠ some k then .error .release
  else
    .ok { s with
      plock := Function.update s.plock q none
      noff := Function.update s.noff k (s.noff k - 1) }

/-- `acquire` of a lock. -/
def lock (k : κ) (l : Λ) (s : SleepState ι κ χ Λ) :
    Option (Except Panic (SleepState ι κ χ Λ)) :=
  if s.lk l = some k then some (.error .acquire)
  else if s.lk l ≠ none then none
  else
    some (.ok { s with
      lk := Function.update s.lk l (some k)
      noff := Function.update s.noff k (s.noff k + 1)
      acquired := Function.update s.acquired l (s.acquired l + 1) })

/-- `release` of a lock. -/
def unlock (k : κ) (l : Λ) (s : SleepState ι κ χ Λ) : Except Panic (SleepState ι κ χ Λ) :=
  if s.lk l ≠ some k then .error .release
  else
    .ok { s with
      lk := Function.update s.lk l none
      noff := Function.update s.noff k (s.noff k - 1) }

/-- `sched`: switch to the scheduler; the process will go on at `pc`. -/
def sched (k : κ) (p : ι) (pc : SleepPc ι χ Λ) (s : SleepState ι κ χ Λ) :
    Except Panic (SleepState ι κ χ Λ) :=
  if s.plock p ≠ some k then .error .schedLock
  else if s.noff k ≠ 1 then .error .schedLocks
  else if s.state p = .running then .error .schedRunning
  else .ok (goto p pc { s with mode := Function.update s.mode k (.back p) })

/-- A sleeping process is made runnable. -/
def rouse (q : ι) (s : SleepState ι κ χ Λ) : SleepState ι κ χ Λ :=
  { s with state := Function.update s.state q .runnable }

/-- The locks the processor `k` holds, with the numbers of their acquisitions. -/
def under (k : κ) (s : SleepState ι κ χ Λ) (l : Λ) : Option Nat :=
  if s.lk l = some k then some (s.acquired l) else none

/-- One statement of a sleep by the process `p` on the processor `k`. -/
def sleepStep (k : κ) (p : ι) (c : χ) (l : Λ) (rest : List SleepStmt) (s : SleepState ι κ χ Λ) :
    SleepStmt → Option (Except Panic (SleepState ι κ χ Λ))
  | .lock => (s.goto p (.sleep rest c l)).lockProc k p
  | .releaseLk => some ((s.goto p (.sleep rest c l)).unlock k l)
  | .setChan =>
    some (.ok (goto p (.sleep rest c l) { s with chan := Function.update s.chan p (some c) }))
  | .setSleeping =>
    some (.ok (goto p (.sleep rest c l) { s with state := Function.update s.state p .sleeping }))
  | .sched => some (s.sched k p (.sleep rest c l))
  | .clearChan =>
    some (.ok (goto p (.sleep rest c l) { s with chan := Function.update s.chan p none }))
  | .unlock => some ((s.goto p (.sleep rest c l)).unlockProc k p)
  | .acquireLk => (s.goto p (.sleep rest c l)).lock k l

/-- One statement of the process `p` on the processor `k`. -/
def advance (k : κ) (p : ι) (s : SleepState ι κ χ Λ) :
    SleepPc ι χ Λ → Option (Except Panic (SleepState ι κ χ Λ))
  | .idle => none
  | .acquire l => (s.goto p .idle).lock k l
  | .release l => some ((s.goto p .idle).unlock k l)
  | .sleep [] _ _ => some (.ok (s.goto p .idle))
  | .sleep (st :: rest) c l => s.sleepStep k p c l rest st
  | .wakeup c [] =>
    some (.ok (goto p .idle { s with wakeups := ⟨p, c, s.under k⟩ :: s.wakeups }))
  | .wakeup c (q :: rest) =>
    if q ≠ p then (s.goto p (.wakeTest c q rest)).lockProc k q
    else some (.ok (s.goto p (.wakeup c rest)))
  | .wakeTest c q rest =>
    some (.ok (goto p (.wakeUnlock c q rest)
      (if s.state q = .sleeping ∧ s.chan q = some c then s.rouse q else s)))
  | .wakeUnlock c q rest => some ((s.goto p (.wakeup c rest)).unlockProc k q)
  | .killLock q => (s.goto p (.killTest q)).lockProc k q
  | .killTest q =>
    some (.ok (goto p (.killUnlock q) (if s.state q = .sleeping then s.rouse q else s)))
  | .killUnlock q => some ((s.goto p .idle).unlockProc k q)
  | .yieldLock => (s.goto p .yieldState).lockProc k p
  | .yieldState =>
    some (.ok (goto p .yieldSched { s with state := Function.update s.state p .runnable }))
  | .yieldSched => some (s.sched k p .unlockSelf)
  | .unlockSelf => some ((s.goto p .idle).unlockProc k p)

/-- The place where a call begins; `procs` is the process table. -/
def entry (procs : List ι) : SleepCall ι χ Λ → SleepPc ι χ Λ
  | .acquire l => .acquire l
  | .release l => .release l
  | .sleep impl c l => .sleep impl.code c l
  | .wakeup c => .wakeup c procs
  | .yield => .yieldLock
  | .kill q => .killLock q

/-- The process `p` on the processor `k` calls a function.  The caller of `sleep` holds the lock that it
gives to it. -/
def call (procs : List ι) (k : κ) (p : ι) (s : SleepState ι κ χ Λ) (f : SleepCall ι χ Λ) :
    Option (Except Panic (SleepState ι κ χ Λ)) :=
  match f with
  | .sleep _ c l =>
    if s.lk l = some k then
      some (.ok (goto p (entry procs f)
        { s with decision := Function.update s.decision p (some (c, l, s.acquired l)) }))
    else none
  | f => some (.ok (s.goto p (entry procs f)))

/-- One action. -/
def step (procs : List ι) (s : SleepState ι κ χ Λ) :
    SleepAct ι κ χ Λ → Option (Except Panic (SleepState ι κ χ Λ))
  | .pick k p =>
    match s.mode k with
    | .scan => lockProc k p { s with mode := Function.update s.mode k (.locked p) }
    | _ => none
  | .dispatch k =>
    match s.mode k with
    | .locked p =>
      if s.state p = .runnable then
        some (.ok { s with
          state := Function.update s.state p .running
          mode := Function.update s.mode k (.running p) })
      else some (unlockProc k p { s with mode := Function.update s.mode k .scan })
    | _ => none
  | .finish k =>
    match s.mode k with
    | .back p => some (unlockProc k p { s with mode := Function.update s.mode k .scan })
    | _ => none
  | .call k f =>
    match s.mode k with
    | .running p =>
      match s.pc p with
      | .idle => s.call procs k p f
      | _ => none
    | _ => none
  | .step k =>
    match s.mode k with
    | .running p => s.advance k p (s.pc p)
    | _ => none

/-- All processes are runnable and about to enter `forkret`; no lock is held. -/
def init : SleepState ι κ χ Λ where
  mode := fun _ => .scan
  noff := fun _ => 0
  lk := fun _ => none
  plock := fun _ => none
  state := fun _ => .runnable
  chan := fun _ => none
  pc := fun _ => .unlockSelf
  acquired := fun _ => 0
  decision := fun _ => none
  wakeups := []

end SleepState

end Xv6pp
