import Xv6pp.Lib.Machine
import Xv6pp.Proc.Process
import Mathlib.Data.List.Nodup

/-!
# Processors, spin locks and the scheduler

`cpu_manager::push_off` and `pop_off`, the spin locks that use them, and `process_scheduler`, for any
number of processors, processes and locks.  The kernel threads are those of the processes and one
scheduler for each processor.  A step is a piece of code that nothing on the same processor can
interrupt: `push_off` reads the interrupt bit in one step and goes on in the next, and an interrupt
may come in between.

What a thread does between the calls is left open: it acquires and releases locks in any order,
nests guards to any depth, goes through `sched`, changes the states of processes whose locks it
holds, and takes interrupts.
-/

set_option autoImplicit false

namespace Xv6pp

namespace CpuManager

/-! ## `push_off` and `pop_off` -/

/-- The messages of `panic`. -/
inductive SpinPanic
  | acquire
  | release
  | popOffInterruptible
  | popOff
  | schedLock
  | schedLocks
  | schedRunning
  | schedInterruptible
  deriving DecidableEq

/-- `cpu_state`, with the interrupt bit of the processor. -/
structure CpuState where
  /-- Depth of `push_off` nesting: each of them has a frame on the stack of a kernel thread. -/
  noff : Int
  /-- Were interrupts enabled before `push_off`? -/
  intena : Bool
  /-- `SSTATUS_SIE`. -/
  sie : Bool
  deriving DecidableEq

/-- `push_off`, after it has read the interrupt bit. -/
def CpuState.pushOff (c : CpuState) (old : Bool) : CpuState where
  noff := c.noff + 1
  intena := if c.noff = 0 then old else c.intena
  sie := false

/-- `pop_off`. -/
def CpuState.popOff (c : CpuState) : Except SpinPanic CpuState :=
  if c.sie then .error .popOffInterruptible
  else if c.noff < 1 then .error .popOff
  else .ok { c with noff := c.noff - 1, sie := if c.noff - 1 = 0 ∧ c.intena then true else c.sie }

/-! ## Spin locks -/

/-- A `spin_lock`, with `none` for the processor `-1`. -/
structure SpinLock (κ : Type) where
  locked : Bool
  cpuid : Option κ
  deriving DecidableEq

/-- `holding`. -/
def SpinLock.holding {κ : Type} [DecidableEq κ] (l : SpinLock κ) (c : κ) : Bool :=
  l.locked && decide (l.cpuid = some c)

/-- The locks: those of the processes, and others. -/
inductive LockId (ι Λ : Type)
  /-- `p->lock`. -/
  | proc (p : ι)
  | other (l : Λ)
  deriving DecidableEq

/-- Where a kernel thread is. -/
inductive ThreadPc (ι Λ : Type)
  /-- Between calls. -/
  | idle
  /-- `push_off` has read the interrupt bit.  It was called by `acquire` of a lock, or by a
  `cpu_guard`. -/
  | pushed (old : Bool) (l : Option (LockId ι Λ))
  /-- In the loop of `acquire`. -/
  | spin (l : LockId ι Λ)
  /-- The loop has ended, and `cpuid` is not set yet. -/
  | own (l : LockId ι Λ)
  /-- `release` has reset `cpuid`. -/
  | unlock (l : LockId ι Λ)
  /-- `release` has given up the lock. -/
  | popOff
  /-- `sched` has called `swtch`. -/
  | switched (intena : Bool)
  /-- At the start of `forkret`. -/
  | forkret
  deriving DecidableEq

/-- A kernel thread. -/
structure KThread (ι Λ : Type) where
  pc : ThreadPc ι Λ
  /-- The locks that it has acquired and not released. -/
  held : List (LockId ι Λ)
  /-- The `cpu_guard`s on its stack. -/
  guards : Nat
  /-- Where it was interrupted, for each interrupt that it is handling. -/
  trapped : List (ThreadPc ι Λ)

/-- The `push_off` of a call that is not over. -/
def ThreadPc.pending {ι Λ : Type} : ThreadPc ι Λ → Nat
  | spin _ | own _ | unlock _ | popOff => 1
  | _ => 0

/-- The number of outstanding `push_off`s of a thread.  While it is switched out, the one for its own
lock has been handed over to the scheduler, and will be handed back. -/
def KThread.depth {ι Λ : Type} (t : KThread ι Λ) : Nat := t.held.length + t.guards + t.pc.pending

/-- What the code on a processor reads and writes. -/
structure CpuView (ι κ Λ : Type) where
  cpu : CpuState
  thread : KThread ι Λ
  lock : LockId ι Λ → SpinLock κ

/-- The calls and returns of a thread. -/
inductive SpinCall (ι Λ : Type)
  /-- A constructor of `cpu_guard`. -/
  | guard
  /-- A destructor of `cpu_guard`. -/
  | unguard
  | acquire (l : LockId ι Λ)
  | release (l : LockId ι Λ)
  /-- A device or timer interrupt. -/
  | interrupt
  /-- The return from `kerneltrap`. -/
  | sret
  deriving DecidableEq

section
variable {ι κ Λ : Type} [DecidableEq ι] [DecidableEq κ] [DecidableEq Λ]

/-- `release` of a lock, up to the store to `cpuid`. -/
def CpuView.release (c : κ) (l : LockId ι Λ) (v : CpuView ι κ Λ) :
    Except SpinPanic (CpuView ι κ Λ) :=
  if (v.lock l).holding c then
    .ok { v with
      thread := { v.thread with pc := .unlock l, held := v.thread.held.erase l }
      lock := Function.update v.lock l { v.lock l with cpuid := none } }
  else .error .release

/-- The call in progress goes on. -/
def CpuView.go (c : κ) (v : CpuView ι κ Λ) : Option (Except SpinPanic (CpuView ι κ Λ)) :=
  match v.thread.pc with
  | .pushed old none => some <| .ok { v with
      cpu := v.cpu.pushOff old
      thread := { v.thread with pc := .idle, guards := v.thread.guards + 1 } }
  | .pushed old (some l) => some <|
      if (v.lock l).holding c then .error .acquire
      else .ok { v with cpu := v.cpu.pushOff old, thread := { v.thread with pc := .spin l } }
  | .spin l => some <|
      if (v.lock l).locked then .ok v
      else .ok { v with
        thread := { v.thread with pc := .own l }
        lock := Function.update v.lock l { v.lock l with locked := true } }
  | .own l => some <| .ok { v with
      thread := { v.thread with pc := .idle, held := l :: v.thread.held }
      lock := Function.update v.lock l { v.lock l with cpuid := some c } }
  | .unlock l => some <| .ok { v with
      thread := { v.thread with pc := .popOff }
      lock := Function.update v.lock l { v.lock l with locked := false } }
  | .popOff => some <| v.cpu.popOff.map fun cpu =>
      { v with cpu := cpu, thread := { v.thread with pc := .idle } }
  | .switched intena => some <| .ok { v with
      cpu := { v.cpu with intena := intena }, thread := { v.thread with pc := .idle } }
  | .idle | .forkret => none

/-- A call or a return.  A thread releases only what it holds, and an interrupt handler has released
what it acquired when it returns. -/
def CpuView.call (c : κ) (v : CpuView ι κ Λ) :
    SpinCall ι Λ → Option (Except SpinPanic (CpuView ι κ Λ))
  | .guard =>
    if v.thread.pc = .idle then
      some <| .ok { v with thread := { v.thread with pc := .pushed v.cpu.sie none } }
    else none
  | .unguard =>
    if v.thread.pc = .idle ∧ 0 < v.thread.guards then
      some <| v.cpu.popOff.map fun cpu =>
        { v with cpu := cpu, thread := { v.thread with guards := v.thread.guards - 1 } }
    else none
  | .acquire l =>
    if v.thread.pc = .idle then
      some <| .ok { v with thread := { v.thread with pc := .pushed v.cpu.sie (some l) } }
    else none
  | .release l =>
    if v.thread.pc = .idle ∧ l ∈ v.thread.held then some (v.release c l) else none
  | .interrupt =>
    if v.cpu.sie then
      some <| .ok { v with
        cpu := { v.cpu with sie := false }
        thread := { v.thread with pc := .idle, trapped := v.thread.pc :: v.thread.trapped } }
    else none
  | .sret =>
    match v.thread.trapped with
    | [] => none
    | pc :: trapped =>
      if v.thread.pc = .idle ∧ v.thread.held = [] ∧ v.thread.guards = 0 then
        some <| .ok { v with
          cpu := { v.cpu with sie := true }
          thread := { v.thread with pc := pc, trapped := trapped } }
      else none

end

/-! ## The scheduler -/

/-- Where the scheduler of a processor is in `run`. -/
inductive SchedPos (ι : Type)
  /-- Before `intr_on`. -/
  | top
  /-- Before `intr_off`. -/
  | enabled
  /-- In the loop over the processes, with these to go. -/
  | loop (ps : List ι)
  /-- At or after the acquisition of the lock of `p`. -/
  | locked (p : ι) (ps : List ι)
  /-- At `swtch` to `p`. -/
  | away (p : ι) (ps : List ι)

/-- The processors, the locks, the processes and the schedulers. -/
structure Cpus (ι κ Λ : Type) where
  cpu : κ → CpuState
  lock : LockId ι Λ → SpinLock κ
  /-- The process that runs on a processor; `none` while its scheduler does. -/
  running : κ → Option ι
  /-- The states of the processes. -/
  state : ι → ProcessState
  /-- The kernel threads of the processes. -/
  proc : ι → KThread ι Λ
  /-- The schedulers. -/
  sched : κ → KThread ι Λ
  pos : κ → SchedPos ι

/-- What a processor does. -/
inductive CpuMove (ι Λ : Type)
  /-- The thread goes on with a call, with `sched`, `forkret` or `run`. -/
  | go
  | call (m : SpinCall ι Λ)
  /-- `intr_on` in `user_interrupt`; `intr_off` in `prepare_return`, or a trap from user space. -/
  | intr (on : Bool)
  /-- The process gives up its state `RUNNING`, in `yield`, `sleep` or `exit`. -/
  | leave (st : ProcessState)
  /-- `sched`. -/
  | sched
  /-- The thread changes the state of another process. -/
  | change (q : ι) (st : ProcessState)
  /-- `process_manager::alloc` has found the process `q`. -/
  | alloc (q : ι)
  deriving DecidableEq

/-- The changes of the state of another process: `wakeup` and `kill`, `fork`, and `free`. -/
def changes : ProcessState → ProcessState → Bool
  | .sleeping, .runnable | .used, .runnable | .used, .unused | .zombie, .unused => true
  | _, _ => false

section
variable {ι κ Λ : Type} [DecidableEq ι] [DecidableEq κ] [DecidableEq Λ]

/-- A new kernel thread, to which the scheduler will switch with the lock of the process held. -/
def newThread (p : ι) : KThread ι Λ where
  pc := .forkret
  held := [.proc p]
  guards := 0
  trapped := []

/-- Every processor enters `run`, with interrupts off; some processes are runnable. -/
def init (runnable : ι → Bool) : Cpus ι κ Λ where
  cpu _ := ⟨0, false, false⟩
  lock _ := ⟨false, none⟩
  running _ := none
  state p := if runnable p then .runnable else .unused
  proc := newThread
  sched _ := ⟨.idle, [], 0, []⟩
  pos _ := .top

namespace Cpus

/-- The thread that runs on a processor. -/
def thread (s : Cpus ι κ Λ) (c : κ) : KThread ι Λ :=
  match s.running c with
  | none => s.sched c
  | some p => s.proc p

def view (s : Cpus ι κ Λ) (c : κ) : CpuView ι κ Λ := ⟨s.cpu c, s.thread c, s.lock⟩

/-- The state after a step of the thread that runs on a processor. -/
def put (s : Cpus ι κ Λ) (c : κ) (v : CpuView ι κ Λ) : Cpus ι κ Λ :=
  { s with
    cpu := Function.update s.cpu c v.cpu
    lock := v.lock
    sched := match s.running c with
      | none => Function.update s.sched c v.thread
      | some _ => s.sched
    proc := match s.running c with
      | none => s.proc
      | some p => Function.update s.proc p v.thread }

/-- `run`, between its calls; `procs` is the table of processes. -/
def run (procs : List ι) (s : Cpus ι κ Λ) (c : κ) :
    Except SpinPanic (Cpus ι κ Λ) :=
  let v := s.view c
  let setPos pos s := { s with pos := Function.update s.pos c pos }
  match s.pos c with
  | .top => .ok <| setPos .enabled <| s.put c { v with cpu := { v.cpu with sie := true } }
  | .enabled => .ok <| setPos (.loop procs) <| s.put c { v with cpu := { v.cpu with sie := false } }
  | .loop [] => .ok <| setPos .top s
  | .loop (p :: ps) => .ok <| setPos (.locked p ps) <|
      s.put c { v with thread := { v.thread with pc := .pushed v.cpu.sie (some (.proc p)) } }
  | .locked p ps =>
    if s.state p = .runnable then
      .ok { s with
        state := Function.update s.state p .running
        running := Function.update s.running c (some p)
        pos := Function.update s.pos c (.away p ps) }
    else (v.release c (.proc p)).map fun v => setPos (.loop ps) (s.put c v)
  | .away p ps => (v.release c (.proc p)).map fun v => setPos (.loop ps) (s.put c v)

/-- `sched`, up to `swtch`. -/
def doSched (s : Cpus ι κ Λ) (c : κ) (p : ι) : Except SpinPanic (Cpus ι κ Λ) :=
  let v := s.view c
  if !(s.lock (.proc p)).holding c then .error .schedLock
  else if v.cpu.noff ≠ 1 then .error .schedLocks
  else if s.state p = .running then .error .schedRunning
  else if v.cpu.sie then .error .schedInterruptible
  else .ok { s.put c { v with thread := { v.thread with pc := .switched v.cpu.intena } } with
    running := Function.update s.running c none }

end Cpus

/-- A step of a processor. -/
def step (procs : List ι) (s : Cpus ι κ Λ) (a : κ × CpuMove ι Λ) :
    Option (Except SpinPanic (Cpus ι κ Λ)) :=
  let c := a.1
  let t := s.thread c
  match a.2, s.running c with
  | .go, none =>
    if t.pc = .idle ∧ t.trapped = [] then some (s.run procs c)
    else ((s.view c).go c).map fun r => r.map (s.put c)
  | .go, some p =>
    if t.pc = .forkret then some (((s.view c).release c (.proc p)).map (s.put c))
    else ((s.view c).go c).map fun r => r.map (s.put c)
  -- the scheduler makes its calls in `run`, and others only in an interrupt handler
  | .call m, none =>
    if t.trapped = [] ∧ m ≠ .interrupt then none
    else ((s.view c).call c m).map fun r => r.map (s.put c)
  -- a process that has given up its state keeps its lock until it has switched
  | .call m, some p =>
    if m = .release (.proc p) ∧ s.state p ≠ .running then none
    else ((s.view c).call c m).map fun r => r.map (s.put c)
  | .intr on, some _ =>
    if t.pc = .idle ∧ t.depth = 0 ∧ t.trapped = [] then
      some <| .ok <| s.put c { s.view c with cpu := { s.cpu c with sie := on } }
    else none
  | .leave st, some p =>
    if t.pc = .idle ∧ .proc p ∈ t.held ∧ st ∈ [.runnable, .sleeping, .zombie] then
      some <| .ok { s with state := Function.update s.state p st }
    else none
  -- `sched` is entered with exactly the lock of the process held
  | .sched, some p =>
    if t.pc = .idle ∧ t.held = [.proc p] ∧ t.guards = 0 then some (s.doSched c p) else none
  | .change q st, r =>
    if t.pc = .idle ∧ .proc q ∈ t.held ∧ r ≠ some q ∧ (r = none → t.trapped ≠ []) ∧
        changes (s.state q) st then
      some <| .ok { s with state := Function.update s.state q st }
    else none
  | .alloc q, some p =>
    if t.pc = .idle ∧ .proc q ∈ t.held ∧ p ≠ q ∧ s.state q = .unused then
      some <| .ok { s with
        state := Function.update s.state q .used
        proc := Function.update s.proc q (newThread q) }
    else none
  | _, none => none

end

end CpuManager

end Xv6pp
