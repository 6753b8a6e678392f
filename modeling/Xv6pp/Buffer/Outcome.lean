import Xv6pp.Buffer.BufM

/-!
# Every outcome of a program

A program over the buffer cache may find anything in the buffers it reads: `BufM.Outcome` relates a
program, with the buffers its process holds when it starts, to the results it may return with and the
buffers it holds then.  A program that panics, or waits for a buffer that its own process holds, does
not return.  `Always` says that something holds of all outcomes of a program with a state of its own,
and its rules execute such programs step by step.
-/

set_option autoImplicit false

namespace Xv6pp

namespace BufM

variable {α β : Type}

/-- The program may return `a` while the process holds `held'`, if it starts while the process holds
`held`. -/
def Outcome : BufM α → List Nat → α → List Nat → Prop
  | ret a, held, a', held' => a' = a ∧ held' = held
  | read b k, held, a', held' => b ∉ held ∧ ∃ d, (k d).Outcome (b :: held) a' held'
  | store _ _ k, held, a', held' => k.Outcome held a' held'
  | write _ k, held, a', held' => k.Outcome held a' held'
  | pin _ k, held, a', held' => k.Outcome held a' held'
  | unpin _ k, held, a', held' => k.Outcome held a' held'
  | relse b k, held, a', held' => b ∈ held ∧ k.Outcome (held.erase b) a' held'
  | panic _, _, _, _ => False

theorem outcome_bind {p : BufM α} {f : α → BufM β} {held held' : List Nat} {b : β} :
    (p >>= f).Outcome held b held' ↔
      ∃ a held₁, p.Outcome held a held₁ ∧ (f a).Outcome held₁ b held' := by
  show (p.bind f).Outcome held b held' ↔ _
  induction p generalizing held with
  | ret a => simp [bind, Outcome]
  | panic e => simp [bind, Outcome]
  | read c k ih =>
    simp only [bind, Outcome, ih]
    constructor
    · rintro ⟨hc, d, a, held₁, h, h'⟩
      exact ⟨a, held₁, ⟨hc, d, h⟩, h'⟩
    · rintro ⟨a, held₁, ⟨hc, d, h⟩, h'⟩
      exact ⟨hc, d, a, held₁, h, h'⟩
  | relse c k ih =>
    simp only [bind, Outcome, ih]
    constructor
    · rintro ⟨hc, a, held₁, h, h'⟩
      exact ⟨a, held₁, ⟨hc, h⟩, h'⟩
    · rintro ⟨a, held₁, ⟨hc, h⟩, h'⟩
      exact ⟨hc, a, held₁, h, h'⟩
  | store c d k ih => exact ih
  | write c k ih => exact ih
  | pin c k ih => exact ih
  | unpin c k ih => exact ih

/-- The result of a program that needs no buffers. -/
def value? : BufM α → Option α
  | ret a => some a
  | _ => none

theorem outcome_of_value {p : BufM α} {a : α} (h : p.value? = some a) (held : List Nat) :
    p.Outcome held a held := by
  cases p with
  | ret b =>
    cases h
    exact ⟨rfl, rfl⟩
  | _ => cases h

end BufM

/-! ## What holds of all outcomes -/

variable {σ α β : Type}

/-- `Q` holds whenever the program `m`, started in state `s` by a process that holds the buffers
`held`, returns. -/
def Always (m : StateT σ BufM α) (Q : α → σ → List Nat → Prop) (s : σ) (held : List Nat) : Prop :=
  ∀ a s' held', (m.run s).Outcome held (a, s') held' → Q a s' held'

section
variable {Q Q' : α → σ → List Nat → Prop} {s : σ} {held : List Nat}

@[simp] theorem always_pure {a : α} : Always (pure a) Q s held ↔ Q a s held := by
  constructor
  · exact fun h => h a s held ⟨rfl, rfl⟩
  · rintro h a' s' held' ⟨ha, rfl⟩
    cases ha
    exact h

@[simp] theorem always_bind {m : StateT σ BufM α} {f : α → StateT σ BufM β}
    {Q : β → σ → List Nat → Prop} :
    Always (m >>= f) Q s held ↔ Always m (fun a s' held' => Always (f a) Q s' held') s held := by
  constructor
  · intro h a s₁ held₁ h₁ b s' held' h'
    exact h b s' held' (BufM.outcome_bind.2 ⟨(a, s₁), held₁, h₁, h'⟩)
  · intro h b s' held' h'
    obtain ⟨⟨a, s₁⟩, held₁, h₁, h₂⟩ := BufM.outcome_bind.1 h'
    exact h a s₁ held₁ h₁ b s' held' h₂

@[simp] theorem always_get {Q : σ → σ → List Nat → Prop} : Always get Q s held ↔ Q s s held :=
  always_pure (α := σ) (a := s)

@[simp] theorem always_set {Q : PUnit → σ → List Nat → Prop} {s' : σ} :
    Always (set s') Q s held ↔ Q ⟨⟩ s' held := by
  constructor
  · exact fun h => h _ s' held ⟨rfl, rfl⟩
  · rintro h a s₁ held' ⟨ha, rfl⟩
    cases ha
    exact h

@[simp] theorem always_modify {Q : PUnit → σ → List Nat → Prop} {f : σ → σ} :
    Always (modify f) Q s held ↔ Q ⟨⟩ (f s) held := by
  constructor
  · exact fun h => h _ (f s) held ⟨rfl, rfl⟩
  · rintro h a s₁ held' ⟨ha, rfl⟩
    cases ha
    exact h

theorem always_lift {p : BufM α} :
    Always (StateT.lift p) Q s held ↔ ∀ a held', p.Outcome held a held' → Q a s held' := by
  constructor
  · intro h a held' hp
    exact h a s held' (BufM.outcome_bind.2 ⟨a, held', hp, rfl, rfl⟩)
  · intro h a s' held' hp
    obtain ⟨a', held₁, h₁, ha, rfl⟩ := BufM.outcome_bind.1 hp
    cases ha
    exact h a held' h₁

theorem always_ite {c : Prop} [Decidable c] {m m' : StateT σ BufM α} :
    Always (if c then m else m') Q s held ↔
      (c → Always m Q s held) ∧ (¬ c → Always m' Q s held) := by
  split <;> simp [*]

/-- **Weakening.** -/
theorem Always.imp {m : StateT σ BufM α} (h : Always m Q s held)
    (hQ : ∀ a s' held', Q a s' held' → Q' a s' held') : Always m Q' s held :=
  fun a s' held' ha => hQ a s' held' (h a s' held' ha)

/-- Sequencing with a lemma about the first part. -/
theorem Always.seq {m : StateT σ BufM α} {f : α → StateT σ BufM β} {R : β → σ → List Nat → Prop}
    (h : Always m Q s held) (hf : ∀ a s' held', Q a s' held' → Always (f a) R s' held') :
    Always (m >>= f) R s held :=
  always_bind.2 (h.imp hf)

end

end Xv6pp
