import Mathlib.Data.List.Basic
import Mathlib.Logic.Function.Basic

/-!
# Sequences of atomic writes

A store that survives a crash is a function `d : ι → β`, and what a program does to it is a list
of writes, each of one location and each atomic.  `Writes.perform ws d` performs them in order; a
crash after `k` of them leaves `Writes.perform (ws.take k) d`.

The facts a recovery argument needs: a location that is not written keeps its value
(`perform_of_not_mem`), and a location takes the value a family of writes to distinct locations gives it
(`perform_range_map`).
-/

set_option autoImplicit false

namespace Writes

variable {ι β : Type} [DecidableEq ι]

/-- Perform the writes in order. -/
def perform (ws : List (ι × β)) (d : ι → β) : ι → β :=
  ws.foldl (fun d w => Function.update d w.1 w.2) d

@[simp] theorem perform_nil (d : ι → β) : perform [] d = d := rfl

@[simp] theorem perform_cons (w : ι × β) (ws : List (ι × β)) (d : ι → β) :
    perform (w :: ws) d = perform ws (Function.update d w.1 w.2) := rfl

theorem perform_append (ws vs : List (ι × β)) (d : ι → β) :
    perform (ws ++ vs) d = perform vs (perform ws d) := by
  simp [perform]

/-- A location no write touches keeps its value. -/
theorem perform_of_not_mem {ws : List (ι × β)} {d : ι → β} {x : ι} (h : ∀ w ∈ ws, w.1 ≠ x) :
    perform ws d x = d x := by
  induction ws generalizing d with
  | nil => rfl
  | cons w ws ih =>
    rw [perform_cons, ih fun v hv => h v (List.mem_cons_of_mem _ hv)]
    exact Function.update_of_ne (h w List.mem_cons_self).symm _ _

/-- The value of a location after the writes depends on its old value only if no write touches
it. -/
theorem perform_congr {ws : List (ι × β)} {d e : ι → β} {x : ι}
    (h : (∃ w ∈ ws, w.1 = x) ∨ d x = e x) : perform ws d x = perform ws e x := by
  induction ws generalizing d e with
  | nil =>
    rcases h with ⟨w, hw, -⟩ | h
    · exact absurd hw (by simp)
    · exact h
  | cons w ws ih =>
    rw [perform_cons, perform_cons]
    refine ih ?_
    by_cases hx : w.1 = x
    · right
      subst hx
      simp
    · rcases h with ⟨v, hv, hvx⟩ | h
      · rcases List.mem_cons.1 hv with rfl | hv
        · exact absurd hvx hx
        · exact Or.inl ⟨v, hv, hvx⟩
      · right
        simp [Function.update_of_ne (Ne.symm hx), h]

/-- Writes `(loc i, val i)` for `i < n` to distinct locations: each gets its own value. -/
theorem perform_range_map (loc : Nat → ι) {val : Nat → β} {n i : Nat} (hi : i < n)
    (hinj : ∀ i j, i < n → j < n → loc i = loc j → i = j) (d : ι → β) :
    perform ((List.range n).map fun t => (loc t, val t)) d (loc i) = val i := by
  induction n with
  | zero => omega
  | succ n ih =>
    rw [List.range_succ, List.map_append, perform_append]
    simp only [List.map_cons, List.map_nil, perform_cons, perform_nil]
    by_cases hin : i = n
    · subst hin; simp
    · have hne : loc i ≠ loc n := fun h => hin (hinj i n (by omega) (by omega) h)
      rw [Function.update_of_ne hne]
      exact ih (by omega) fun a b ha hb => hinj a b (by omega) (by omega)

end Writes
