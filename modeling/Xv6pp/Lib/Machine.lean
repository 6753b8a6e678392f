import Mathlib.Logic.Basic

/-!
# Machines that may stop

The step function of a machine takes a state and an action and answers `none` when the action is
not enabled, `some (.error e)` when it stops the machine with the failure `e`, and
`some (.ok s')` when the machine goes on in state `s'`.  `Run step s as s'` says that the actions
`as`, taken in this order from `s`, all succeed and end in `s'`.

`Run.invariant` is the induction every safety argument uses; `Run.invariant_hist` is the same for
a property that also looks at the actions taken so far.
-/

set_option autoImplicit false

namespace Machine

variable {σ α ε : Type}

/-- The actions `as` lead from one state to another. -/
inductive Run (step : σ → α → Option (Except ε σ)) (s : σ) : List α → σ → Prop
  | nil : Run step s [] s
  | snoc {as : List α} {s' s'' : σ} {a : α} (h : Run step s as s')
      (ha : step s' a = some (.ok s'')) : Run step s (as ++ [a]) s''

variable {step : σ → α → Option (Except ε σ)} {s : σ}

/-- **The invariant rule.** -/
theorem Run.invariant {P : σ → Prop} (h0 : P s)
    (hstep : ∀ s a s', P s → step s a = some (.ok s') → P s') {as : List α} {s' : σ}
    (h : Run step s as s') : P s' := by
  induction h with
  | nil => exact h0
  | snoc _ ha ih => exact hstep _ _ _ ih ha

/-- The invariant rule for a property of the state and of the actions that led to it. -/
theorem Run.invariant_hist {P : List α → σ → Prop} (h0 : P [] s)
    (hstep : ∀ as s a s', P as s → step s a = some (.ok s') → P (as ++ [a]) s')
    {as : List α} {s' : σ} (h : Run step s as s') : P as s' := by
  induction h with
  | nil => exact h0
  | snoc _ ha ih => exact hstep _ _ _ _ ih ha

/-- Run a list of actions, stopping at the first that is not enabled or fails. -/
def exec (step : σ → α → Option (Except ε σ)) : List α → σ → Option (Except ε σ)
  | [], s => some (.ok s)
  | a :: as, s =>
    match step s a with
    | some (.ok s') => exec step as s'
    | r => r

theorem Run.append {as bs : List α} {s' s'' : σ} (h : Run step s as s')
    (h' : Run step s' bs s'') : Run step s (as ++ bs) s'' := by
  induction h' with
  | nil => simpa using h
  | snoc _ ha ih => rw [← List.append_assoc]; exact ih.snoc ha

/-- Executing a list of actions to the end is a run. -/
theorem run_of_exec {as : List α} : ∀ {s s' : σ}, exec step as s = some (.ok s') →
    Run step s as s' := by
  induction as with
  | nil =>
    intro s s' h
    simp only [exec, Option.some.injEq, Except.ok.injEq] at h
    exact h ▸ Run.nil
  | cons a as ih =>
    intro s s' h
    rw [exec] at h
    split at h
    · next s1 h1 => exact (Run.nil.snoc h1).append (ih h)
    · next hno => exact absurd h (hno s')

/-- Executing a list of actions either gets through a prefix of it, or ends in a failure inside that
prefix. -/
theorem exec_append {pre post : List α} {r : Except ε σ} :
    ∀ {s : σ}, exec step (pre ++ post) s = some r →
      (∃ t, Run step s pre t ∧ exec step post t = some r) ∨
      ∃ as a bs t e, pre = as ++ a :: bs ∧ Run step s as t ∧ step t a = some (.error e) ∧
        r = .error e := by
  induction pre with
  | nil => exact fun h => Or.inl ⟨_, Run.nil, h⟩
  | cons a pre ih =>
    intro s h
    rw [List.cons_append, exec] at h
    split at h
    · next s1 h1 =>
      have hrun : Run step s [a] s1 := Run.nil.snoc h1
      rcases ih h with ⟨t, ht, hpost⟩ | ⟨as, b, bs, t, e, rfl, ht, hb, hr⟩
      · exact Or.inl ⟨t, hrun.append ht, hpost⟩
      · exact Or.inr ⟨a :: as, b, bs, t, e, rfl, hrun.append ht, hb, hr⟩
    · next hno =>
      cases r with
      | ok s' => exact absurd h (hno s')
      | error e => exact Or.inr ⟨[], a, pre, s, e, rfl, Run.nil, h, rfl⟩

/-- An execution that fails does so at some action, after a run. -/
theorem exec_error {as : List α} {e : ε} {s : σ} (h : exec step as s = some (.error e)) :
    ∃ pre a post t, as = pre ++ a :: post ∧ Run step s pre t ∧ step t a = some (.error e) := by
  have h' : exec step (as ++ []) s = some (.error e) := by rwa [List.append_nil]
  rcases exec_append h' with ⟨t, -, ht⟩ | ⟨pre, a, post, t, e', has, hrun, ha, he⟩
  · simp [exec] at ht
  · cases he
    exact ⟨pre, a, post, t, has, hrun, ha⟩

/-! ## Runs whose steps meet a condition -/

/-- The machine that takes only the steps that meet a condition on the state before the step and
the action. -/
def restrict (c : σ → α → Bool) (step : σ → α → Option (Except ε σ)) (s : σ) (a : α) :
    Option (Except ε σ) :=
  if c s a then step s a else none

theorem restrict_eq_some {c : σ → α → Bool} {s : σ} {a : α} {r : Except ε σ} :
    restrict c step s a = some r ↔ c s a = true ∧ step s a = some r := by
  rw [restrict]
  split <;> simp_all

end Machine
