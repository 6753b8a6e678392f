import Mathlib.Algebra.Ring.Nat
import Xv6pp.Lib.Ring
import Xv6pp.Lib.Machine

/-!
# Pipes

`kernel/pipe.cpp` and the processes that use one pipe.  A process that calls `read`, `write` or `close`
first acquires the pipe's lock; inside, it makes one step for each test and one for each iteration of
its loop, and a sleep gives up the lock together with the processor.  A killed flag can be set between
any two steps.

Two kinds of books are kept beside the pipe, which no step reads: the bytes that writes have put into
the buffer, each with the call that did it, and for every finished call what it returned.
-/

set_option autoImplicit false

namespace Xv6pp

/-- The size of a pipe's buffer. -/
def PIPESIZE : Nat := 512

/-! ## The pipe -/

/-- A `pipe`, without its lock. -/
structure Pipe where
  /-- The buffer; byte number `k` is in cell `k % PIPESIZE`. -/
  data : Nat → UInt8
  /-- Number of bytes read, as a 32-bit counter. -/
  nread : UInt32
  /-- Number of bytes written, as a 32-bit counter. -/
  nwrite : UInt32
  /-- Is the read end open? -/
  readopen : Bool
  /-- Is the write end open? -/
  writeopen : Bool

/-- The two channels processes sleep on. -/
inductive PipeChan
  /-- `&nread`: readers wait for bytes. -/
  | nread
  /-- `&nwrite`: writers wait for room. -/
  | nwrite
  deriving DecidableEq, Repr

namespace Pipe

/-- A pipe as `alloc_pipe` hands it out; the buffer holds what was left there. -/
def opened (data : Nat → UInt8) : Pipe := ⟨data, 0, 0, true, true⟩

/-- The test of `read`: `nread == nwrite`. -/
def empty (p : Pipe) : Bool := p.nread == p.nwrite

/-- The test of `write`: `nwrite == nread + PIPESIZE`. -/
def full (p : Pipe) : Bool := p.nwrite == p.nread + UInt32.ofNat PIPESIZE

/-- `data[nread++ % PIPESIZE]`. -/
def get (p : Pipe) : UInt8 × Pipe :=
  (p.data (p.nread.toNat % PIPESIZE), { p with nread := p.nread + 1 })

/-- `data[nwrite++ % PIPESIZE] = ch`. -/
def put (p : Pipe) (ch : UInt8) : Pipe :=
  { p with data := Function.update p.data (p.nwrite.toNat % PIPESIZE) ch, nwrite := p.nwrite + 1 }

/-- How many bytes are in the buffer: `nwrite - nread` modulo `2^32`. -/
def count (p : Pipe) : Nat := Ring.count (2 ^ 32) p.nread.toNat p.nwrite.toNat

/-- The bytes in the buffer, oldest first. -/
def contents (p : Pipe) : List UInt8 :=
  Ring.contents PIPESIZE (2 ^ 32) p.data p.nread.toNat p.nwrite.toNat

end Pipe

/-! ## Processes at the pipe -/

/-- A place inside `read`, `write` or `close` at which the process holds the pipe's lock.  The buffer of a
`read` is given by which of its bytes `copyout` can write, that of a `write` by its bytes, where `none`
stands for one that `copyin` cannot read. -/
inductive PipeStage
  /-- `read`: the condition of the `while`, and the test of the killed flag in it. -/
  | readTest (n : Int) (dst : Nat → Bool)
  /-- `read`: at `sleep(&nread, lock)`. -/
  | readSleep (n : Int) (dst : Nat → Bool)
  /-- `read`: the `for` loop, with the bytes copied so far. -/
  | readCopy (n : Int) (dst : Nat → Bool) (out : List UInt8)
  /-- `write`: the condition of the `while` and the first test in it, with `i`. -/
  | writeTest (n : Int) (src : Nat → Option UInt8) (i : Nat)
  /-- `write`: the rest of an iteration. -/
  | writeBody (n : Int) (src : Nat → Option UInt8) (i : Nat)
  /-- `close(writable)`. -/
  | close (writable : Bool)

/-- Where a process is. -/
inductive PipePc
  /-- Outside the pipe's functions. -/
  | user
  /-- It needs the pipe's lock to go on with a stage: at the start of a call, or in a sleep. -/
  | acquire (st : PipeStage)
  /-- It holds the pipe's lock. -/
  | inside (st : PipeStage)

/-- A finished `read`. -/
structure ReadRecord where
  /-- The length asked for. -/
  n : Int
  /-- The bytes copied to the caller. -/
  bytes : List UInt8
  /-- What the call returned. -/
  result : Int
  /-- The pipe when it returned. -/
  pipe : Pipe

/-- A finished `write`. -/
structure WriteRecord (ι : Type) where
  /-- The process that called it. -/
  caller : ι
  /-- How many calls it had made before. -/
  call : Nat
  /-- The length given. -/
  n : Int
  /-- The caller's buffer. -/
  src : Nat → Option UInt8
  /-- What the call returned. -/
  result : Int

/-- A byte in the books: who put it into the buffer, in which of its calls. -/
structure Accepted (ι : Type) where
  /-- The process. -/
  caller : ι
  /-- How many calls it had made before. -/
  call : Nat
  /-- The byte. -/
  byte : UInt8

/-- A pipe and the processes that use it. -/
structure PipeUsers (ι : Type) where
  /-- The pipe. -/
  pipe : Pipe
  /-- The holder of its lock. -/
  lock : Option ι
  /-- Where each process is. -/
  pc : ι → PipePc
  /-- The channel a process is `SLEEPING` on. -/
  chan : ι → Option PipeChan
  /-- The killed flags. -/
  killed : ι → Bool
  /-- Books: finished calls of each process. -/
  calls : ι → Nat
  /-- Books: the bytes put into the buffer, in this order. -/
  accepted : List (Accepted ι)
  /-- Books: how many bytes were put into the buffer since the lock was last taken. -/
  fresh : Nat
  /-- Books: the finished reads. -/
  reads : List ReadRecord
  /-- Books: the finished writes. -/
  writes : List (WriteRecord ι)

/-- What can happen at a pipe. -/
inductive PipeAct (ι : Type)
  /-- A process calls `read(addr, n)`. -/
  | read (p : ι) (n : Int) (dst : Nat → Bool)
  /-- A process calls `write(addr, n)`. -/
  | write (p : ι) (n : Int) (src : Nat → Option UInt8)
  /-- A process calls `close(writable)`. -/
  | close (p : ι) (writable : Bool)
  /-- A process that is not asleep gets the pipe's lock. -/
  | acquire (p : ι)
  /-- The process that holds the lock makes one step. -/
  | step (p : ι)
  /-- `process_manager::kill`, or another way to set the killed flag. -/
  | kill (p : ι)

namespace PipeUsers

variable {ι : Type} [DecidableEq ι]

/-- A fresh pipe and no process in it. -/
def init (data : Nat → UInt8) : PipeUsers ι where
  pipe := .opened data
  lock := none
  pc := fun _ => .user
  chan := fun _ => none
  killed := fun _ => false
  calls := fun _ => 0
  accepted := []
  fresh := 0
  reads := []
  writes := []

/-- `wakeup(chan)` by process `p`. -/
def wakeup (c : PipeChan) (p : ι) (s : PipeUsers ι) : PipeUsers ι :=
  { s with
    chan := fun q => if q ≠ p ∧ s.chan q = some c then none else s.chan q }

/-- `sleep(c, lock)` by process `p`, which goes on with `st` once it has the lock again. -/
def sleep (c : PipeChan) (p : ι) (st : PipeStage) (s : PipeUsers ι) : PipeUsers ι :=
  { s with
    lock := none
    chan := Function.update s.chan p (some c)
    pc := Function.update s.pc p (.acquire st) }

/-- Process `p` goes on with `st`. -/
def goto (p : ι) (st : PipeStage) (s : PipeUsers ι) : PipeUsers ι :=
  { s with pc := Function.update s.pc p (.inside st) }

/-- Process `p` leaves the pipe's functions; the guard releases the lock. -/
def leave (p : ι) (s : PipeUsers ι) : PipeUsers ι :=
  { s with
    lock := none
    pc := Function.update s.pc p .user
    calls := Function.update s.calls p (s.calls p + 1) }

/-- `read` returns `r` with `bytes` copied to the caller. -/
def readReturn (p : ι) (n : Int) (bytes : List UInt8) (r : Int) (s : PipeUsers ι) : PipeUsers ι :=
  leave p { s with reads := s.reads ++ [⟨n, bytes, r, s.pipe⟩] }

/-- `write` returns `r`. -/
def writeReturn (p : ι) (n : Int) (src : Nat → Option UInt8) (r : Int) (s : PipeUsers ι) :
    PipeUsers ι :=
  leave p { s with writes := s.writes ++ [⟨p, s.calls p, n, src, r⟩] }

/-- The byte `ch` goes into the buffer. -/
def store (p : ι) (ch : UInt8) (s : PipeUsers ι) : PipeUsers ι :=
  { s with
    pipe := s.pipe.put ch
    accepted := s.accepted ++ [⟨p, s.calls p, ch⟩]
    fresh := s.fresh + 1 }

/-- One step of the process that holds the lock. -/
def advance (p : ι) (s : PipeUsers ι) : PipeStage → PipeUsers ι
  | .readTest n dst =>
    if s.pipe.empty ∧ s.pipe.writeopen then
      if s.killed p then s.readReturn p n [] (-1) else s.goto p (.readSleep n dst)
    else s.goto p (.readCopy n dst [])
  | .readSleep n dst => s.sleep .nread p (.readTest n dst)
  | .readCopy n dst out =>
    if out.length < n ∧ s.pipe.empty = false then
      let s' := { s with pipe := s.pipe.get.2 }
      if dst out.length then s'.goto p (.readCopy n dst (out ++ [s.pipe.get.1]))
      else (s'.wakeup .nwrite p).readReturn p n out out.length
    else (s.wakeup .nwrite p).readReturn p n out out.length
  | .writeTest n src i =>
    if i < n then
      if s.pipe.readopen = false ∨ s.killed p then s.writeReturn p n src (-1)
      else s.goto p (.writeBody n src i)
    else (s.wakeup .nread p).writeReturn p n src i
  | .writeBody n src i =>
    if s.pipe.full then (s.wakeup .nread p).sleep .nwrite p (.writeTest n src i)
    else
      match src i with
      | none => (s.wakeup .nread p).writeReturn p n src i
      | some ch => (s.store p ch).goto p (.writeTest n src (i + 1))
  | .close writable =>
    if writable then
      leave p (wakeup .nread p { s with pipe := { s.pipe with writeopen := false } })
    else leave p (wakeup .nwrite p { s with pipe := { s.pipe with readopen := false } })

/-- A call starts: the process has to get the lock. -/
def call (p : ι) (st : PipeStage) (s : PipeUsers ι) : Option (Except Empty (PipeUsers ι)) :=
  match s.pc p with
  | .user => some (.ok { s with pc := Function.update s.pc p (.acquire st) })
  | _ => none

/-- One action. -/
def step (s : PipeUsers ι) : PipeAct ι → Option (Except Empty (PipeUsers ι))
  | .read p n dst => s.call p (.readTest n dst)
  | .write p n src => s.call p (.writeTest n src 0)
  | .close p writable => s.call p (.close writable)
  | .acquire p =>
    match s.pc p with
    | .acquire st =>
      if s.lock = none ∧ s.chan p = none then
        some (.ok { s with
          lock := some p
          pc := Function.update s.pc p (.inside st)
          fresh := 0 })
      else none
    | _ => none
  | .step p =>
    match s.pc p with
    | .inside st => some (.ok (s.advance p st))
    | _ => none
  | .kill p =>
    -- a process asleep anywhere is made runnable
    some (.ok { s with
      killed := Function.update s.killed p true
      chan := Function.update s.chan p none })

end PipeUsers

end Xv6pp
