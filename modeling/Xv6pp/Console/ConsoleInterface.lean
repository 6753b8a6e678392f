import Mathlib.Algebra.Ring.Nat
import Xv6pp.Lib.Ring
import Xv6pp.Lib.Machine

/-!
# The console

`kernel/console_interface.cpp` and the processes that read from the console.  The interrupt handler
and a reader hold the console's lock while they work on its buffer, and a reader gives it up to sleep;
so what a process does in `read` is a sequence of stretches, each from the lock's acquisition to the
next sleep or to the end of the call.

What the handler echoes to the device is left out.
-/

set_option autoImplicit false

namespace Xv6pp

/-- The size of the console's buffer. -/
def INPUT_BUF_SIZE : Nat := 128

/-- A `console_interface`, without its lock. -/
structure ConsoleInterface where
  /-- The buffer; character number `k` is in cell `k % INPUT_BUF_SIZE`. -/
  buf : Nat → UInt8
  /-- Read index. -/
  r : UInt32
  /-- Write index. -/
  w : UInt32
  /-- Edit index. -/
  e : UInt32

namespace ConsoleInterface

/-- `C(c)`: the character that the control key makes of a letter. -/
def C (c : Char) : UInt8 := .ofNat (c.toNat - '@'.toNat)

/-- `'\n'`. -/
def newline : UInt8 := 10

/-- `'\r'`. -/
def carriageReturn : UInt8 := 13

/-- `'\x7f'`: the delete key. -/
def delete : UInt8 := 0x7f

/-- An empty console. -/
def opened (buf : Nat → UInt8) : ConsoleInterface := ⟨buf, 0, 0, 0⟩

/-! ## `interrupt` -/

/-- The loop of `interrupt` that kills a line. -/
def killLineFrom : Nat → ConsoleInterface → ConsoleInterface
  | 0, c => c
  | n + 1, c =>
    if c.e ≠ c.w ∧ c.buf ((c.e - 1).toNat % INPUT_BUF_SIZE) ≠ newline then
      killLineFrom n { c with e := c.e - 1 }
    else c

/-- Kill line; every round takes one of the characters between `w` and `e` away. -/
def killLine (c : ConsoleInterface) : ConsoleInterface := killLineFrom (c.e - c.w).toNat c

/-- The default case of `interrupt`: a character that is stored, unless the buffer is full.  The
second component says whether the readers are woken. -/
def store (ch : UInt8) (c : ConsoleInterface) : ConsoleInterface × Bool :=
  if ch ≠ 0 ∧ (c.e - c.r).toNat < INPUT_BUF_SIZE then
    let ch := if ch = carriageReturn then newline else ch
    let c := { c with buf := Function.update c.buf (c.e.toNat % INPUT_BUF_SIZE) ch, e := c.e + 1 }
    if ch = newline ∨ ch = C 'D' ∨ (c.e - c.r).toNat = INPUT_BUF_SIZE then
      ({ c with w := c.e }, true)
    else (c, false)
  else (c, false)

/-- `interrupt(c)`: a character arrives. -/
def interrupt (ch : UInt8) (c : ConsoleInterface) : ConsoleInterface × Bool :=
  if ch = C 'P' then (c, false)
  else if ch = C 'U' then (c.killLine, false)
  else if ch = C 'H' ∨ ch = delete then
    if c.e ≠ c.w then ({ c with e := c.e - 1 }, false) else (c, false)
  else c.store ch

/-! ## `read` -/

/-- The loop of `read`, once the bytes `out` have been copied to the caller; `target` is the length
asked for, and `dst` says which bytes of the caller's buffer can be written.  The result is the
console, the bytes copied, and what `read` returns, or `none` where it sleeps. -/
def readFrom (killed : Bool) (dst : Nat → Bool) (target : Int) : Nat → List UInt8 →
    ConsoleInterface → ConsoleInterface × List UInt8 × Option Int
  | 0, out, c => (c, out, some out.length)
  | fuel + 1, out, c =>
    if out.length < target then
      if c.r = c.w then (c, out, if killed then some (-1) else none)
      else
        let ch := c.buf (c.r.toNat % INPUT_BUF_SIZE)
        let c := { c with r := c.r + 1 }
        if ch = C 'D' then
          -- `n < target` says that something has been copied
          (if 0 < out.length then { c with r := c.r - 1 } else c, out, some out.length)
        else if dst out.length = false then (c, out, some out.length)
        else if ch = newline then (c, out ++ [ch], some (out ++ [ch]).length)
        else readFrom killed dst target fuel (out ++ [ch]) c
    else (c, out, some out.length)

/-- A stretch of `read`. -/
def read (killed : Bool) (dst : Nat → Bool) (target : Int) (out : List UInt8) (c : ConsoleInterface) :
    ConsoleInterface × List UInt8 × Option Int :=
  readFrom killed dst target (target.toNat - out.length) out c

end ConsoleInterface

/-! ## Processes at the console -/

/-- A process in `read`. -/
structure ConsoleCall where
  /-- The length asked for. -/
  target : Int
  /-- The bytes copied so far. -/
  out : List UInt8
  /-- It sleeps on `&r`. -/
  asleep : Bool

/-- A finished `read`. -/
structure ConsoleRead where
  /-- The length asked for. -/
  target : Int
  /-- The bytes copied to the caller. -/
  bytes : List UInt8
  /-- What the call returned. -/
  result : Int
  /-- The console when it returned. -/
  console : ConsoleInterface

/-- What happens to the characters in the console. -/
inductive ConsoleEvent
  /-- A character arrives. -/
  | typed (ch : UInt8)
  /-- A reader takes characters out. -/
  | taken (n : Nat)

/-- The console and the processes that read from it. -/
structure ConsoleUsers (ι : Type) where
  /-- The console. -/
  console : ConsoleInterface
  /-- The processes that are in `read`. -/
  calls : ι → Option ConsoleCall
  /-- Books: what happened. -/
  trace : List ConsoleEvent
  /-- Books: the bytes handed to readers, in this order. -/
  delivered : List UInt8
  /-- Books: the finished reads. -/
  reads : List ConsoleRead

/-- What can happen at the console. -/
inductive ConsoleAct (ι : Type)
  /-- A character arrives. -/
  | interrupt (ch : UInt8)
  /-- A process calls `read`. -/
  | read (p : ι) (n : Int)
  /-- A reader that was woken goes on. -/
  | resume (p : ι)

namespace ConsoleUsers

variable {ι : Type}

/-- An empty console and no reader. -/
def init (buf : Nat → UInt8) : ConsoleUsers ι where
  console := .opened buf
  calls := fun _ => none
  trace := []
  delivered := []
  reads := []

/-- A stretch of the `read` of a process that is not killed, into memory that can be written. -/
def stretch [DecidableEq ι] (s : ConsoleUsers ι) (p : ι) (target : Int) (out : List UInt8) :
    ConsoleUsers ι :=
  match s.console.read false (fun _ => true) target out with
  | (c, out', res) =>
    { console := c
      calls := Function.update s.calls p (if res = none then some ⟨target, out', true⟩ else none)
      trace := s.trace ++ [.taken (c.r - s.console.r).toNat]
      delivered := s.delivered ++ out'.drop out.length
      reads := s.reads ++ (res.map fun v => ⟨target, out', v, c⟩).toList }

/-- One action. -/
def step [DecidableEq ι] (s : ConsoleUsers ι) : ConsoleAct ι → Option (Except Empty (ConsoleUsers ι))
  | .interrupt ch =>
    let (c, woken) := s.console.interrupt ch
    some (.ok { s with
      console := c
      calls := fun p => (s.calls p).map fun call => { call with asleep := call.asleep && !woken }
      trace := s.trace ++ [.typed ch] })
  | .read p n =>
    match s.calls p with
    | none => some (.ok (s.stretch p n []))
    | some _ => none
  | .resume p =>
    match s.calls p with
    | some ⟨target, out, false⟩ => some (.ok (s.stretch p target out))
    | _ => none

end ConsoleUsers

end Xv6pp
