import Xv6pp.Fs.Balance
import Xv6pp.Fs.Journal
import Xv6pp.Fs.Upkeep
import Xv6pp.Log.Recovery

/-!
# System calls over an ideal cache

A system call that runs alone, over a buffer cache that behaves as it should: `solo`.  It waits forever if
it asks for a buffer that it holds already.  `Goes m Q s` says that the program `m` does not stop in a panic
that would mean disorder, and that `Q` holds when it returns; what `Within` says about the books and what
`Upkeep` and `Journaled` say about the functions of the file system is put together here, for the programs
of the kernel.
-/

set_option autoImplicit false

namespace Xv6pp

open Prog FileSystem BufM

/-! ## Programs and the buffers that they hold -/

namespace BufM

variable {α β : Type}

/-- Run a program over an ideal cache, for a process that holds the buffers `held`. -/
def execHeld : BufM α → Device → List Nat → Except Panic (α × Device × List Nat)
  | ret a, s, held => .ok (a, s, held)
  | read b k, s, held => if b ∈ held then .error .deadlock else (k (s.data b)).execHeld s (b :: held)
  | store b d k, s, held => k.execHeld { s with data := Function.update s.data b d } held
  | write b k, s, held => k.execHeld { s with issued := s.issued ++ [(b, s.data b)] } held
  | pin _ k, s, held => k.execHeld s held
  | unpin _ k, s, held => k.execHeld s held
  | relse b k, s, held => if b ∈ held then k.execHeld s (held.erase b) else .error .relseNotHolding
  | panic e, _, _ => .error e

theorem execHeld_bind' (p : BufM α) (f : α → BufM β) (s : Device) (held : List Nat) :
    (p.bind f).execHeld s held = (p.execHeld s held).bind fun r => (f r.1).execHeld r.2.1 r.2.2 := by
  induction p generalizing s held with
  | ret a => rfl
  | panic e => rfl
  | read b k ih =>
    rw [bind, execHeld, execHeld]
    split
    · rfl
    · exact ih _ _ _
  | relse b k ih =>
    rw [bind, execHeld, execHeld]
    split
    · exact ih _ _
    · rfl
  | store b d k ih => exact ih _ _
  | write b k ih => exact ih _ _
  | pin b k ih => exact ih _ _
  | unpin b k ih => exact ih _ _

/-- A run that returns is a run over an ideal cache, and one of the outcomes of the program. -/
theorem execHeld_ok {p : BufM α} {s s' : Device} {held held' : List Nat} {a : α}
    (h : p.execHeld s held = .ok (a, s', held')) : p.exec s = .ok (a, s') ∧ p.Outcome held a held' := by
  induction p generalizing s held with
  | ret b =>
    cases h
    exact ⟨rfl, rfl, rfl⟩
  | panic e => cases h
  | read b k ih =>
    rw [execHeld] at h
    split at h
    · cases h
    · next hb =>
      obtain ⟨hexec, hout⟩ := ih _ h
      exact ⟨hexec, hb, _, hout⟩
  | relse b k ih =>
    rw [execHeld] at h
    split at h
    · next hb =>
      obtain ⟨hexec, hout⟩ := ih h
      exact ⟨hexec, hb, hout⟩
    · cases h
  | store b d k ih => exact ih h
  | write b k ih => exact ih h
  | pin b k ih => exact ih h
  | unpin b k ih => exact ih h

/-- A run that fails has misused a buffer, or fails over an ideal cache. -/
theorem execHeld_error {p : BufM α} {s : Device} {held : List Nat} {e : Panic}
    (h : p.execHeld s held = .error e) :
    e = .deadlock ∨ e = .relseNotHolding ∨ p.exec s = .error e := by
  induction p generalizing s held with
  | ret b => cases h
  | panic e' =>
    cases h
    exact .inr (.inr rfl)
  | read b k ih =>
    rw [execHeld] at h
    split at h
    · cases h
      exact .inl rfl
    · exact ih _ h
  | relse b k ih =>
    rw [execHeld] at h
    split at h
    · exact ih h
    · cases h
      exact .inr (.inl rfl)
  | store b d k ih => exact ih h
  | write b k ih => exact ih h
  | pin b k ih => exact ih h
  | unpin b k ih => exact ih h

end BufM

/-- The system with one process running: the state of the kernel, the cache, and the buffers that the
process holds. -/
structure Sys where
  mem : SysMem
  dev : Device
  held : List Nat

namespace Sys

/-- The file system. -/
def fs (s : Sys) : Fs := ⟨s.mem.fs, s.dev⟩

/-- Another file system. -/
def withFs (s : Sys) (f : Fs) (held : List Nat) : Sys := ⟨{ s.mem with fs := f.mem }, f.dev, held⟩

/-- Other open files. -/
def withUsers (s : Sys) (u : FileUsers) : Sys := { s with mem := { s.mem with users := u } }

section
variable (s : Sys) (f : Fs) (held : List Nat) (u : FileUsers)

@[simp] theorem withFs_fs : (s.withFs f held).fs = f := rfl
@[simp] theorem withFs_users : (s.withFs f held).mem.users = s.mem.users := rfl
@[simp] theorem withFs_cwd : (s.withFs f held).mem.cwd = s.mem.cwd := rfl
@[simp] theorem withFs_trace : (s.withFs f held).mem.trace = s.mem.trace := rfl
@[simp] theorem withFs_withFs (f' : Fs) (held' : List Nat) :
    (s.withFs f held).withFs f' held' = s.withFs f' held' := rfl
@[simp] theorem withUsers_fs : (s.withUsers u).fs = s.fs := rfl
@[simp] theorem withUsers_users : (s.withUsers u).mem.users = u := rfl

end

end Sys

/-- Run a program of the kernel alone. -/
def solo {α : Type} (m : SysM α) : StateT Sys (Except Panic) α := fun s =>
  match (m s.mem).execHeld s.dev s.held with
  | .ok ((a, mem), dev, held) => .ok (a, ⟨mem, dev, held⟩)
  | .error e => .error e

/-- The panics that would mean that the file system or the log is not in order. -/
def disorder : List Panic :=
  [.logWriteOutsideOfTrans, .committing, .freeingFreeBlock, .ilock, .iunlock, .dirlinkRead, .dirlookupRead,
    .bmapOutOfRange, .isdiremptyReadi, .unlinkWritei]

/-- The program `m`, run alone from the state `s`, does not stop in disorder, and `Q` holds when it
returns. -/
def Goes {α : Type} (m : SysM α) (Q : α → Sys → Prop) (s : Sys) : Prop :=
  wp (solo m) (fun e => e ∉ disorder) Q s

/-! ## Rules -/

namespace Goes

variable {α β : Type} {s : Sys}

theorem pure {a : α} {Q : α → Sys → Prop} (h : Q a s) : Goes (Pure.pure a) Q s := h

theorem bind {m : SysM α} {f : α → SysM β} {Q : β → Sys → Prop}
    (h : Goes m (fun a s' => Goes (f a) Q s') s) : Goes (m >>= f) Q s := by
  have hexec : ((m >>= f) s.mem).execHeld s.dev s.held
      = ((m s.mem).execHeld s.dev s.held).bind fun r => ((f r.1.1) r.1.2).execHeld r.2.1 r.2.2 :=
    BufM.execHeld_bind' (m s.mem) (fun r => (f r.1) r.2) s.dev s.held
  simp only [Goes, wp, solo, StateT.run] at h ⊢
  rw [hexec]
  cases hm : (m s.mem).execHeld s.dev s.held with
  | error e =>
    rw [hm] at h
    exact h
  | ok r =>
    rw [hm] at h
    exact h

theorem imp {m : SysM α} {Q Q' : α → Sys → Prop} (h : Goes m Q s) (hQ : ∀ a s', Q a s' → Q' a s') :
    Goes m Q' s := wp_imp h hQ

theorem seq {m : SysM α} {f : α → SysM β} {Q : α → Sys → Prop} {Q' : β → Sys → Prop} (h : Goes m Q s)
    (hf : ∀ a s', Q a s' → Goes (f a) Q' s') : Goes (m >>= f) Q' s := bind (h.imp hf)

theorem ite {c : Prop} [Decidable c] {m m' : SysM α} {Q : α → Sys → Prop} (h : c → Goes m Q s)
    (h' : ¬ c → Goes m' Q s) : Goes (if c then m else m') Q s := by
  split
  · next hc => exact h hc
  · next hc => exact h' hc

/-- A choice between two programs before the rest. -/
theorem branch {c : Prop} [Decidable c] {m m' : SysM α} {f : α → SysM β} {P : Sys → Prop}
    {Q : β → Sys → Prop} (h : c → Goes m (fun _ s' => P s') s) (h' : ¬ c → Goes m' (fun _ s' => P s') s)
    (hf : ∀ a s', P s' → Goes (f a) Q s') : Goes (if c then m >>= f else m' >>= f) Q s :=
  ite (fun hc => seq (h hc) hf) fun hc => seq (h' hc) hf

theorem get {f : SysMem → SysM β} {Q : β → Sys → Prop} (h : Goes (f s.mem) Q s) :
    Goes (MonadState.get >>= f) Q s := bind (pure h)

theorem set {m : SysMem} {Q : Unit → Sys → Prop} (h : Q () { s with mem := m }) :
    Goes (MonadStateOf.set m) Q s := h

/-- What the program does to the books. -/
theorem within {m : SysM α} {Q : α → Sys → Prop} {R : α → Books → Prop} {op : Bool} (h : Goes m Q s)
    (hw : Sysfile.Within op m R s.mem.books) (hop : inOp s.mem.trace = some op) :
    Goes m (fun a s' => Q a s' ∧ inOp s'.mem.trace = some op ∧ s'.held = s.held ∧ R a s'.mem.books) s := by
  simp only [Goes, wp, solo, StateT.run] at h ⊢
  cases hm : (m s.mem).execHeld s.dev s.held with
  | error e =>
    rw [hm] at h
    exact h
  | ok r =>
    obtain ⟨⟨a, mem⟩, dev, held⟩ := r
    rw [hm] at h
    exact ⟨h, hw s.mem s.held hop rfl a mem held (BufM.execHeld_ok hm).2⟩

/-- A function of the file system. -/
theorem fs {m : FsM α} {E : Panic → Prop} {R : α → Fs → Prop} {Q : α → Sys → Prop}
    (h : wp (ideal m) E R s.fs) (hE : ∀ e, E e → e ∉ disorder)
    (hQ : ∀ a f held, R a f → Q a (s.withFs f held)) : Goes (Sysfile.fs m) Q s := by
  have hexec : ((Sysfile.fs m) s.mem).execHeld s.dev s.held
      = ((m s.mem.fs).execHeld s.dev s.held).bind fun r =>
          .ok ((r.1.1, ({ s.mem with fs := r.1.2 } : SysMem)), r.2) :=
    BufM.execHeld_bind' (m s.mem.fs) (fun r => .ret (r.1, ({ s.mem with fs := r.2 } : SysMem))) s.dev s.held
  simp only [Goes, wp, solo, ideal, StateT.run] at h ⊢
  rw [hexec]
  cases hm : (m s.mem.fs).execHeld s.dev s.held with
  | error e =>
    show e ∉ disorder
    rcases BufM.execHeld_error hm with rfl | rfl | herr
    · decide
    · decide
    · have herr' : (m s.fs.mem).exec s.fs.dev = .error e := herr
      rw [herr'] at h
      exact hE e h
  | ok r =>
    obtain ⟨⟨a, mem⟩, dev, held⟩ := r
    have hok : (m s.fs.mem).exec s.fs.dev = .ok ((a, mem), dev) := (BufM.execHeld_ok hm).1
    rw [hok] at h
    exact hQ a ⟨mem, dev⟩ held h

theorem stop {e : Panic} {Q : α → Sys → Prop} (he : e ∉ disorder) :
    Goes (Sysfile.fs (FileSystem.stop e : FsM α)) Q s :=
  fs (E := (· = e)) (R := fun _ _ => False) rfl (fun _ h => h ▸ he) fun _ _ _ h => h.elim

/-- A function on the open files. -/
theorem files {g : FileUsers → Except Panic (α × FileUsers)} {Q : α → Sys → Prop}
    (herror : ∀ e, g s.mem.users = .error e → e ∉ disorder)
    (h : ∀ a u, g s.mem.users = .ok (a, u) → Q a (s.withUsers u)) : Goes (Sysfile.files g) Q s := by
  simp only [Goes, wp, solo, StateT.run, Sysfile.files]
  cases hg : g s.mem.users with
  | error e => exact herror e hg
  | ok r => exact h r.1 r.2 hg

theorem record {e : Event} {Q : Unit → Sys → Prop}
    (h : Q () { s with mem := { s.mem with trace := s.mem.trace ++ [e] } }) :
    Goes (Sysfile.record e) Q s := h

theorem setCwd {p : Fin NPROC} {ip : Option InodeId} {Q : Unit → Sys → Prop}
    (h : Q () { s with mem := { s.mem with cwd := Function.update s.mem.cwd p ip } }) :
    Goes (Sysfile.setCwd p ip) Q s := h

theorem cwd {p : Fin NPROC} {Q : InodeId → Sys → Prop} (h : ∀ ip, s.mem.cwd p = some ip → Q ip s) :
    Goes (Sysfile.cwd p) Q s := by
  refine get ?_
  split
  · exact stop (by decide)
  · next ip hip => exact pure (h ip hip)

end Goes

end Xv6pp
