import Xv6pp.Lib.Machine
import Xv6pp.Proc.Process

/-!
# `fork`, `exit` and `wait` over the process table

The part of `kernel/process.cpp` and `kernel/process_manager.cpp` that creates, ends and reaps processes,
with its two kinds of locks.  What a process does under the lock of one process is a step; `wait_lock` is
held over many steps, and there are two stretches in which the lock of a process stays held when a
step is over: from the release of `wait_lock` in `sleep` until the process is `SLEEPING`, and from there in
`exit` until the scheduler has switched away from the zombie.  `fork` holds the lock of the new process
while it copies the parent.

The books record with which status each process called `exit`, and which `wait` reaped it.
-/

set_option autoImplicit false

namespace Xv6pp

/-- What a process sleeps on. -/
inductive WaitChan (ι : Type)
  /-- The address of a process. -/
  | proc (p : ι)
  /-- Something else. -/
  | other
  deriving DecidableEq

/-- The fields of a process that matter here. -/
structure Task (ι : Type) where
  state : ProcessState
  /-- If set, sleeping on this channel. -/
  chan : Option (WaitChan ι)
  killed : Bool
  /-- Exit status to be returned to the parent's `wait`. -/
  xstate : Int
  pid : Int
  parent : Option ι

/-- Where the kernel thread of a process is. -/
inductive WaitPc (ι : Type)
  /-- In none of the functions. -/
  | idle
  /-- `fork`: holds the lock of the new process while it copies. -/
  | forkCopy (np : ι)
  /-- `fork`: at the assignment of the parent. -/
  | forkParent (np : ι)
  /-- `fork`: at the assignment of `RUNNABLE`. -/
  | forkRunnable (np : ι)
  /-- `exit`: at `wait_lock.acquire()`. -/
  | exitEnter (status : Int)
  /-- `exit`: in the loop of `reparent`. -/
  | exitReparent (status : Int) (todo : List ι)
  /-- `exit`: in `wakeup(initprocess)`, called by `reparent`. -/
  | exitWakeInit (status : Int) (todo w : List ι)
  /-- `exit`: in `wakeup(parent)`. -/
  | exitWake (status : Int) (w : List ι)
  /-- `exit`: at `lock.acquire()`. -/
  | exitZombie (status : Int)
  /-- `exit`: in `sched`, or switched away for good. -/
  | dead
  /-- `wait`: at `wait_lock.acquire()`, at the start or at the end of `sleep`. -/
  | waitEnter (addr : Nat)
  /-- `wait`: in the scan of the table. -/
  | waitScan (addr : Nat) (todo : List ι) (havekids : Bool)
  /-- `wait`: at `sleep(p, wait_lock)`. -/
  | waitSleep (addr : Nat)
  /-- `wait`: in `sleep`, with its own lock held and `wait_lock` released. -/
  | waitCommit (addr : Nat)
  deriving DecidableEq

/-- A child that was reaped. -/
structure Reap (ι : Type) where
  /-- The process that called `wait`. -/
  caller : ι
  /-- The parent of the child at that time. -/
  parent : Option ι
  /-- The process ID of the child. -/
  pid : Int
  /-- What `wait` returned. -/
  result : Int
  /-- The argument of `wait`. -/
  addr : Nat
  /-- What was copied to it. -/
  copied : Option Int

/-- The process table. -/
structure WaitState (ι : Type) where
  /-- The holder of `wait_lock`. -/
  waitLock : Option ι
  tasks : ι → Task ι
  /-- Whether the lock of the process stays held between two steps. -/
  held : ι → Bool
  pc : ι → WaitPc ι
  nextPid : Int
  /-- Books: the calls of `exit` that made a zombie: process ID and status. -/
  exits : List (Int × Int)
  /-- Books: the children that were reaped. -/
  reaps : List (Reap ι)

/-- What can happen. -/
inductive WaitAct (ι : Type)
  /-- The scheduler picks a process. -/
  | run (p : ι)
  /-- A process gives up the processor. -/
  | yield (p : ι)
  /-- A process sleeps on something else. -/
  | sleepOther (p : ι)
  /-- A process that sleeps on something else is woken. -/
  | wakeOther (p : ι)
  /-- `kill` hits this process. -/
  | kill (p : ι)
  /-- A process calls `fork` and `alloc` finds this unused process. -/
  | fork (p np : ι)
  /-- A process calls `exit`. -/
  | exit (p : ι) (status : Int)
  /-- A process calls `wait`. -/
  | wait (p : ι) (addr : Nat)
  /-- A process makes a step; `ok` says whether there is memory and whether a copy to the user works. -/
  | step (p : ι) (ok : Bool)

namespace WaitState

variable {ι : Type} [DecidableEq ι]

/-- Change a process. -/
def setTask (i : ι) (f : Task ι → Task ι) (s : WaitState ι) : WaitState ι :=
  { s with tasks := Function.update s.tasks i (f (s.tasks i)) }

/-- The process `p` goes on at `pc`. -/
def goto (p : ι) (pc : WaitPc ι) (s : WaitState ι) : WaitState ι :=
  { s with pc := Function.update s.pc p pc }

/-- The lock of a process stays held, or is released. -/
def setHeld (i : ι) (b : Bool) (s : WaitState ι) : WaitState ι :=
  { s with held := Function.update s.held i b }

/-- `free`, the part that concerns these fields. -/
def freed (t : Task ι) : Task ι :=
  { t with pid := 0, parent := none, chan := none, killed := false, xstate := 0, state := .unused }

/-- One iteration of the loop of `wakeup(chan)`, called by `p`, at the process `q`. -/
def wake (p : ι) (chan : Option ι) (q : ι) (s : WaitState ι) : WaitState ι :=
  if q ≠ p ∧ (s.tasks q).state = .sleeping ∧ (s.tasks q).chan = chan.map .proc then
    s.setTask q fun t => { t with state := .runnable }
  else s

/-- Return from `wait`; the guard releases `wait_lock`. -/
def waitReturn (p : ι) (s : WaitState ι) : WaitState ι := { s.goto p .idle with waitLock := none }

/-- The iteration of the scan of `wait` at the process `q`, a child of `p` whose lock is free. -/
def waitChild (p q : ι) (addr : Nat) (todo : List ι) (ok : Bool) (s : WaitState ι) :
    WaitState ι :=
  if (s.tasks q).state = .zombie then
    if addr ≠ 0 ∧ ok = false then s.waitReturn p
    else
      waitReturn p { s.setTask q freed with
        reaps := s.reaps ++ [{
          caller := p
          parent := (s.tasks q).parent
          pid := (s.tasks q).pid
          result := (s.tasks q).pid
          addr := addr
          copied := if addr ≠ 0 then some (s.tasks q).xstate else none }] }
  else s.goto p (.waitScan addr todo true)

/-- One step of the process `p`; `procs` is the process table and `init` its `initprocess`. -/
def advance (procs : List ι) (init p : ι) (ok : Bool) (s : WaitState ι) :
    WaitPc ι → Option (WaitState ι)
  | .idle => none
  | .forkCopy np =>
    if ok then some ((s.setHeld np false).goto p (.forkParent np))
    else some (((s.setTask np freed).setHeld np false).goto p .idle)
  | .forkParent np =>
    if s.waitLock = none then
      some ((s.setTask np fun t => { t with parent := some p }).goto p (.forkRunnable np))
    else none
  | .forkRunnable np =>
    if s.held np = false then
      some ((s.setTask np fun t => { t with state := .runnable }).goto p .idle)
    else none
  | .exitEnter status =>
    if s.waitLock = none then
      some { s.goto p (.exitReparent status procs) with waitLock := some p }
    else none
  | .exitReparent status [] => some (s.goto p (.exitWake status procs))
  | .exitReparent status (q :: todo) =>
    if (s.tasks q).parent = some p then
      some ((s.setTask q fun t => { t with parent := some init }).goto p
        (.exitWakeInit status todo procs))
    else some (s.goto p (.exitReparent status todo))
  | .exitWakeInit status todo [] => some (s.goto p (.exitReparent status todo))
  | .exitWakeInit status todo (q :: w) =>
    if q = p ∨ s.held q = false then
      some ((s.wake p (some init) q).goto p (.exitWakeInit status todo w))
    else none
  | .exitWake status [] => some (s.goto p (.exitZombie status))
  | .exitWake status (q :: w) =>
    if q = p ∨ s.held q = false then
      some ((s.wake p (s.tasks p).parent q).goto p (.exitWake status w))
    else none
  | .exitZombie status =>
    if s.held p = false then
      some { ((s.setTask p fun t => { t with xstate := status, state := .zombie }).setHeld p
          true).goto p .dead with
        waitLock := none
        exits := s.exits ++ [((s.tasks p).pid, status)] }
    else none
  | .dead => none
  | .waitEnter addr =>
    if s.waitLock = none then
      some { (s.setTask p fun t => { t with chan := none }).goto p
          (.waitScan addr procs false) with waitLock := some p }
    else none
  | .waitScan addr [] havekids =>
    if havekids = false ∨ (s.tasks p).killed then some (s.waitReturn p)
    else some (s.goto p (.waitSleep addr))
  | .waitScan addr (q :: todo) havekids =>
    if (s.tasks q).parent = some p then
      if s.held q = false then some (s.waitChild p q addr todo ok) else none
    else some (s.goto p (.waitScan addr todo havekids))
  | .waitSleep addr =>
    if s.held p = false then
      some { (s.setHeld p true).goto p (.waitCommit addr) with waitLock := none }
    else none
  | .waitCommit addr =>
    some (((s.setTask p fun t => { t with chan := some (.proc p), state := .sleeping }).setHeld p
      false).goto p (.waitEnter addr))

/-- May the process give up the processor here?  Not while it holds `wait_lock` or the lock of a
process. -/
def preemptible : WaitPc ι → Bool
  | .idle | .forkParent _ | .forkRunnable _ | .exitEnter _ | .waitEnter _ => true
  | _ => false

/-- One action. -/
def step (procs : List ι) (init : ι) (s : WaitState ι) :
    WaitAct ι → Option (Except Panic (WaitState ι))
  | .run p =>
    if s.held p = false ∧ (s.tasks p).state = .runnable then
      some (.ok (s.setTask p fun t => { t with state := .running }))
    else none
  | .yield p =>
    if (s.tasks p).state = .running ∧ preemptible (s.pc p) then
      some (.ok (s.setTask p fun t => { t with state := .runnable }))
    else if s.pc p = .dead then
      -- the scheduler has switched away from the zombie, and releases its lock
      some (.ok (s.setHeld p false))
    else none
  | .sleepOther p =>
    if (s.tasks p).state = .running ∧ s.pc p = .idle then
      some (.ok (s.setTask p fun t => { t with state := .sleeping, chan := some .other }))
    else none
  | .wakeOther p =>
    if s.held p = false ∧ (s.tasks p).state = .sleeping ∧ (s.tasks p).chan = some .other then
      some (.ok (s.setTask p fun t => { t with state := .runnable }))
    else none
  | .kill p =>
    if s.held p = false then
      some (.ok (s.setTask p fun t =>
        { t with killed := true, state := if t.state = .sleeping then .runnable else t.state }))
    else none
  | .fork p np =>
    if (s.tasks p).state = .running ∧ s.pc p = .idle then
      if s.held np = false ∧ (s.tasks np).state = .unused then
        some (.ok { (((s.setTask np fun t => { t with pid := s.nextPid, state := .used }).setHeld np
          true).goto np .idle).goto p (.forkCopy np) with nextPid := s.nextPid + 1 })
      else none
    else none
  | .exit p status =>
    if (s.tasks p).state = .running ∧ s.pc p = .idle then
      if p = init then some (.error .initExiting) else some (.ok (s.goto p (.exitEnter status)))
    else none
  | .wait p addr =>
    if (s.tasks p).state = .running ∧ s.pc p = .idle then
      some (.ok (s.goto p (.waitEnter addr)))
    else none
  | .step p ok =>
    if (s.tasks p).state = .running then (s.advance procs init p ok (s.pc p)).map .ok else none

/-- The table after the first process has been made. -/
def boot (init : ι) : WaitState ι where
  waitLock := none
  tasks := fun i =>
    if i = init then ⟨.runnable, none, false, 0, 1, none⟩ else ⟨.unused, none, false, 0, 0, none⟩
  held := fun _ => false
  pc := fun _ => .idle
  nextPid := 2
  exits := []
  reaps := []

end WaitState

end Xv6pp
