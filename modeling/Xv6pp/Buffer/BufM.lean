import Xv6pp.Param
import Xv6pp.Lib.Bytes
import Xv6pp.Lib.Writes

/-!
# Programs over the buffer cache

The file system and the log never touch the disk directly: they obtain a buffer with
`buffer_guard`, look at or change its data, perhaps write it to the disk, and release it.
`BufM α` is the type of such programs.  A program is a tree of *buffer commands*, and `BufM.exec` runs
it over an ideal cache, which has a buffer for every block, never forgets one, and records the disk
writes it was asked for.  The `NBUF` buffers of the real cache are modelled on their own, with the
processes that use them: these programs are not run over them, so that the panic for want of a buffer
is not among the outcomes of a program here.

Everything happens on one device, `ROOTDEV`, so a buffer is named by its block number.
-/

set_option autoImplicit false

namespace Xv6pp

/-- The contents of a disk block. -/
abbrev Block : Type := Bytes BSIZE

/-- A program over the buffer cache. -/
inductive BufM (α : Type) : Type
  /-- Return a value. -/
  | ret (a : α) : BufM α
  /-- `buffer_cache::read`: get the locked buffer of block `b` and look at its data. -/
  | read (b : Nat) (k : Block → BufM α) : BufM α
  /-- Overwrite the data of the buffer of block `b`. -/
  | store (b : Nat) (d : Block) (k : BufM α) : BufM α
  /-- `buffer_cache::write`: write the buffer of block `b` to the disk. -/
  | write (b : Nat) (k : BufM α) : BufM α
  /-- `buffer_cache::pin`. -/
  | pin (b : Nat) (k : BufM α) : BufM α
  /-- `buffer_cache::unpin`. -/
  | unpin (b : Nat) (k : BufM α) : BufM α
  /-- `buffer_cache::relse`. -/
  | relse (b : Nat) (k : BufM α) : BufM α
  /-- Stop the machine. -/
  | panic (e : Panic) : BufM α

namespace BufM

variable {α β : Type}

/-- Run `p`, then the program `f` makes of its result. -/
def bind : BufM α → (α → BufM β) → BufM β
  | ret a, f => f a
  | read b k, f => read b fun d => (k d).bind f
  | store b d k, f => store b d (k.bind f)
  | write b k, f => write b (k.bind f)
  | pin b k, f => pin b (k.bind f)
  | unpin b k, f => unpin b (k.bind f)
  | relse b k, f => relse b (k.bind f)
  | panic e, _ => panic e

instance : Monad BufM where
  pure := ret
  bind := bind

/-! ## The commands -/

/-- `buffer_guard bp(dev, b)`: the data of block `b`. -/
def bread (b : Nat) : BufM Block := read b ret

/-- Overwrite the data of a buffer. -/
def bstore (b : Nat) (d : Block) : BufM Unit := store b d (ret ())

/-- `kernel.cache.write(bp)`. -/
def bwrite (b : Nat) : BufM Unit := write b (ret ())

/-- `kernel.cache.pin(bp)`. -/
def bpin (b : Nat) : BufM Unit := pin b (ret ())

/-- `kernel.cache.unpin(bp)`. -/
def bunpin (b : Nat) : BufM Unit := unpin b (ret ())

/-- The end of a `buffer_guard`'s scope. -/
def brelse (b : Nat) : BufM Unit := relse b (ret ())

/-! ## Running over an ideal cache -/

/-- An ideal cache: the data of every block as a `buffer_guard` sees it, and the writes to the
disk that have been asked for, in program order. -/
structure Device where
  /-- The data of each block. -/
  data : Nat → Block
  /-- The writes issued so far. -/
  issued : List (Nat × Block)

/-- Run a program over an ideal cache. -/
def exec : BufM α → Device → Except Panic (α × Device)
  | ret a, s => .ok (a, s)
  | read b k, s => (k (s.data b)).exec s
  | store b d k, s => k.exec { s with data := Function.update s.data b d }
  | write b k, s => k.exec { s with issued := s.issued ++ [(b, s.data b)] }
  | pin _ k, s => k.exec s
  | unpin _ k, s => k.exec s
  | relse _ k, s => k.exec s
  | panic e, _ => .error e

@[simp] theorem exec_pure (a : α) (s : Device) : (pure a : BufM α).exec s = .ok (a, s) := rfl

theorem exec_bind' (p : BufM α) (f : α → BufM β) (s : Device) :
    (p.bind f).exec s = (p.exec s).bind fun r => (f r.1).exec r.2 := by
  induction p generalizing s with
  | ret a => rfl
  | panic e => rfl
  | read b k ih => exact ih _ s
  | store b d k ih => exact ih _
  | write b k ih => exact ih _
  | pin b k ih => exact ih _
  | unpin b k ih => exact ih _
  | relse b k ih => exact ih _

theorem exec_bind (p : BufM α) (f : α → BufM β) (s : Device) :
    (p >>= f).exec s = (p.exec s).bind fun r => (f r.1).exec r.2 :=
  exec_bind' p f s

/-- Sequencing after a run whose outcome is known. -/
theorem exec_bind_ok {p : BufM α} {f : α → BufM β} {s s' : Device} {a : α}
    (h : p.exec s = .ok (a, s')) : (p >>= f).exec s = (f a).exec s' := by
  rw [exec_bind, h]; rfl

@[simp] theorem exec_bread (b : Nat) (s : Device) : (bread b).exec s = .ok (s.data b, s) := rfl

@[simp] theorem exec_bstore (b : Nat) (d : Block) (s : Device) :
    (bstore b d).exec s = .ok ((), { s with data := Function.update s.data b d }) := rfl

@[simp] theorem exec_bwrite (b : Nat) (s : Device) :
    (bwrite b).exec s = .ok ((), { s with issued := s.issued ++ [(b, s.data b)] }) := rfl

@[simp] theorem exec_bunpin (b : Nat) (s : Device) : (bunpin b).exec s = .ok ((), s) := rfl

@[simp] theorem exec_brelse (b : Nat) (s : Device) : (brelse b).exec s = .ok ((), s) := rfl

end BufM

end Xv6pp
