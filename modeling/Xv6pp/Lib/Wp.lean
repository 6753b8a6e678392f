import Mathlib.Logic.Basic

/-!
# Preconditions for programs with a state and failures

A program over a state `σ` that may stop with a failure is a `StateT σ (Except ε)` computation.
`wp m E Q s` says that `m`, started in `s`, either stops with a failure that `E` allows or returns
a result and a state that satisfy `Q`.  With `E := fun _ => False` this is total correctness: the
program returns.

The rules below reduce `wp` of a program to `wp` of its parts, one rule for each way of building a
program; a function of the program then needs one lemma that gives its `wp`, and its callers use
that lemma through `wp_bind` and `wp_mono`.
-/

set_option autoImplicit false

namespace Prog

variable {σ ε α β : Type}

/-- From the state `s`, `m` fails as `E` allows or returns as `Q` says. -/
def wp (m : StateT σ (Except ε) α) (E : ε → Prop) (Q : α → σ → Prop) (s : σ) : Prop :=
  match m.run s with
  | .ok (a, s') => Q a s'
  | .error e => E e

variable {E E' : ε → Prop} {s : σ}

@[simp] theorem wp_pure {Q : α → σ → Prop} {a : α} :
    wp (pure a : StateT σ (Except ε) α) E Q s ↔ Q a s := Iff.rfl

@[simp] theorem wp_throw {Q : α → σ → Prop} {e : ε} :
    wp (throw e : StateT σ (Except ε) α) E Q s ↔ E e := Iff.rfl

@[simp] theorem wp_get {Q : σ → σ → Prop} :
    wp (get : StateT σ (Except ε) σ) E Q s ↔ Q s s := Iff.rfl

@[simp] theorem wp_set {Q : PUnit → σ → Prop} {s' : σ} :
    wp (set s' : StateT σ (Except ε) PUnit) E Q s ↔ Q ⟨⟩ s' := Iff.rfl

@[simp] theorem wp_modify {Q : PUnit → σ → Prop} {f : σ → σ} :
    wp (modify f : StateT σ (Except ε) PUnit) E Q s ↔ Q ⟨⟩ (f s) := Iff.rfl

@[simp] theorem wp_bind {m : StateT σ (Except ε) α} {f : α → StateT σ (Except ε) β}
    {Q : β → σ → Prop} : wp (m >>= f) E Q s ↔ wp m E (fun a s' => wp (f a) E Q s') s := by
  simp only [wp, StateT.run_bind]
  cases m.run s with
  | error e => rfl
  | ok r => rfl

@[simp] theorem wp_map {m : StateT σ (Except ε) α} {f : α → β} {Q : β → σ → Prop} :
    wp (f <$> m) E Q s ↔ wp m E (fun a s' => Q (f a) s') s := by
  rw [← bind_pure_comp, wp_bind]
  rfl

theorem wp_ite {c : Prop} [Decidable c] {m m' : StateT σ (Except ε) α} {Q : α → σ → Prop} :
    wp (if c then m else m') E Q s ↔ (c → wp m E Q s) ∧ (¬ c → wp m' E Q s) := by
  split <;> simp [*]

/-- **Weakening.**  What a program's own lemma says may be replaced by less. -/
theorem wp_mono {m : StateT σ (Except ε) α} {Q Q' : α → σ → Prop} (h : wp m E Q s)
    (hQ : ∀ a s', Q a s' → Q' a s') (hE : ∀ e, E e → E' e) : wp m E' Q' s := by
  unfold wp at h ⊢
  split at h
  · exact hQ _ _ h
  · exact hE _ h

/-- Weakening of the result alone. -/
theorem wp_imp {m : StateT σ (Except ε) α} {Q Q' : α → σ → Prop} (h : wp m E Q s)
    (hQ : ∀ a s', Q a s' → Q' a s') : wp m E Q' s :=
  wp_mono h hQ fun _ => id

/-- Two lemmas about the same program. -/
theorem wp_and {m : StateT σ (Except ε) α} {Q Q' : α → σ → Prop} (h : wp m E Q s)
    (h' : wp m E' Q' s) : wp m E (fun a s' => Q a s' ∧ Q' a s') s := by
  unfold wp at h h' ⊢
  split at h
  · next hm =>
    rw [hm] at h'
    exact ⟨h, h'⟩
  · exact h

/-- Two lemmas about the same program, each of which excludes some of the failures. -/
theorem wp_both {m : StateT σ (Except ε) α} {Q Q' : α → σ → Prop} (h : wp m E Q s)
    (h' : wp m E' Q' s) : wp m (fun e => E e ∧ E' e) (fun a s' => Q a s' ∧ Q' a s') s := by
  unfold wp at h h' ⊢
  split at h
  · next hm =>
    rw [hm] at h'
    exact ⟨h, h'⟩
  · next hm =>
    rw [hm] at h'
    exact ⟨h, h'⟩

/-- What holds whatever the program does. -/
theorem wp_const {m : StateT σ (Except ε) α} {P : Prop} (h : P) :
    wp m (fun _ => True) (fun _ _ => P) s := by
  unfold wp
  split
  · exact h
  · trivial

/-- Sequencing with a lemma about the first part. -/
theorem wp_seq {m : StateT σ (Except ε) α} {f : α → StateT σ (Except ε) β} {Q : α → σ → Prop}
    {Q' : β → σ → Prop} (h : wp m E Q s) (hf : ∀ a s', Q a s' → wp (f a) E Q' s') :
    wp (m >>= f) E Q' s :=
  wp_bind.2 (wp_imp h hf)

/-- What `wp` says about a program that returned. -/
theorem wp_ok {m : StateT σ (Except ε) α} {Q : α → σ → Prop} {a : α} {s' : σ} (h : wp m E Q s)
    (hm : m.run s = .ok (a, s')) : Q a s' := by
  rw [wp, hm] at h
  exact h

/-- What `wp` says about a program that failed. -/
theorem wp_error {m : StateT σ (Except ε) α} {Q : α → σ → Prop} {e : ε} (h : wp m E Q s)
    (hm : m.run s = .error e) : E e := by
  rw [wp, hm] at h
  exact h

/-- A program that cannot fail returns. -/
theorem wp_total {m : StateT σ (Except ε) α} {Q : α → σ → Prop} (h : wp m (fun _ => False) Q s) :
    ∃ a s', m.run s = .ok (a, s') ∧ Q a s' := by
  cases hm : m.run s with
  | error e => exact (wp_error h hm).elim
  | ok r => exact ⟨r.1, r.2, rfl, wp_ok h hm⟩

/-- A program that cannot return fails. -/
theorem wp_stops {m : StateT σ (Except ε) α} {e : ε}
    (h : wp m (· = e) (fun _ _ => False) s) : m.run s = .error e := by
  cases hm : m.run s with
  | error e' => rw [wp_error h hm]
  | ok r => exact (wp_ok h hm).elim

/-- Whether `m`, started in `s`, returns `a` and a state that satisfies `c`. -/
def returns [DecidableEq α] (m : StateT σ (Except ε) α) (s : σ) (a : α) (c : σ → Bool) : Bool :=
  match m.run s with
  | .ok (b, s') => decide (b = a) && c s'
  | .error _ => false

theorem of_returns [DecidableEq α] {m : StateT σ (Except ε) α} {a : α} {c : σ → Bool}
    (h : returns m s a c = true) : ∃ s', m.run s = .ok (a, s') ∧ c s' = true := by
  unfold returns at h
  split at h
  · next b s' hm =>
    rw [Bool.and_eq_true, decide_eq_true_iff] at h
    obtain ⟨rfl, hc⟩ := h
    exact ⟨s', hm, hc⟩
  · exact absurd h Bool.false_ne_true

/-- **The loop rule.**  A loop over the list `l` keeps an invariant of what is still to be done. -/
theorem wp_forM {l : List α} {f : α → StateT σ (Except ε) PUnit} (I : List α → σ → Prop)
    (h0 : I l s) (hstep : ∀ a rest s, I (a :: rest) s → wp (f a) E (fun _ s' => I rest s') s) :
    wp (l.forM f) E (fun _ s' => I [] s') s := by
  induction l generalizing s with
  | nil => exact h0
  | cons a l ih =>
    show wp (f a >>= fun _ => l.forM f) E _ s
    exact wp_seq (hstep a l s h0) fun _ s' h => ih h

end Prog
