import Mathlib.Logic.Function.Basic

/-!
# Tables of slots as finite maps

A table is a list of slots, each of which is free or holds a key and a value.  It stands for a finite
map as long as no key is in two slots (`Distinct`): writing a key that is not there to a free slot, or
to a new slot at the end, adds a binding, and clearing a slot removes the one that it held.
-/

set_option autoImplicit false

namespace Slots

variable {κ ν : Type} [DecidableEq κ]

/-- A table of slots. -/
abbrev Table (κ ν : Type) : Type := List (Option (κ × ν))

/-- The value in the first slot with this key. -/
def lookup : Table κ ν → κ → Option ν
  | [], _ => none
  | none :: t, key => lookup t key
  | some (k, v) :: t, key => if k = key then some v else lookup t key

/-- No key is in two slots. -/
def Distinct (t : Table κ ν) : Prop :=
  ∀ ⦃i j : Nat⦄ ⦃key : κ⦄ ⦃v w : ν⦄, t[i]? = some (some (key, v)) → t[j]? = some (some (key, w)) → i = j

/-- Overwrite slot `k`, or append a slot. -/
def write (t : Table κ ν) (k : Nat) (o : Option (κ × ν)) : Table κ ν := t.take k ++ o :: t.drop (k + 1)

section
variable {t : Table κ ν} {key : κ} {v : ν} {k : Nat} {o : Option (κ × ν)}

@[simp] theorem lookup_nil (key : κ) : lookup ([] : Table κ ν) key = none := rfl

@[simp] theorem lookup_free (t : Table κ ν) (key : κ) : lookup (none :: t) key = lookup t key := rfl

theorem lookup_cons_self (t : Table κ ν) : lookup (some (key, v) :: t) key = some v := if_pos rfl

theorem lookup_cons_of_ne {k : κ} (t : Table κ ν) (h : k ≠ key) :
    lookup (some (k, v) :: t) key = lookup t key := if_neg h

/-- A value that is found is in a slot with its key. -/
theorem exists_of_lookup (h : lookup t key = some v) : ∃ k : Nat, t[k]? = some (some (key, v)) := by
  induction t with
  | nil => cases h
  | cons o t ih =>
    have hrest : lookup t key = some v → ∃ k : Nat, (o :: t)[k]? = some (some (key, v)) := fun hl => by
      obtain ⟨k, hk⟩ := ih hl
      exact ⟨k + 1, hk⟩
    cases o with
    | none => exact hrest h
    | some p =>
      obtain ⟨k, w⟩ := p
      rw [lookup] at h
      split at h
      · next hkey =>
        cases hkey
        cases h
        exact ⟨0, rfl⟩
      · exact hrest h

theorem lookup_eq_none : lookup t key = none ↔ ∀ (k : Nat) (v : ν), t[k]? ≠ some (some (key, v)) := by
  induction t with
  | nil => simp
  | cons o t ih =>
    have hrest : (∀ (k : Nat) (v : ν), (o :: t)[k]? ≠ some (some (key, v))) ↔
        (∀ v, o ≠ some (key, v)) ∧ ∀ (k : Nat) (v : ν), t[k]? ≠ some (some (key, v)) := by
      refine ⟨fun h => ⟨fun v e => h 0 v (by rw [e]; rfl), fun k v => h (k + 1) v⟩, fun h k v => ?_⟩
      cases k with
      | zero => exact fun e => h.1 v (Option.some.inj e)
      | succ k => exact h.2 k v
    rw [hrest, ← ih]
    cases o with
    | none => simp
    | some p =>
      obtain ⟨k, w⟩ := p
      rw [lookup]
      split
      · next hkey =>
        cases hkey
        simp
      · next hkey => simp [hkey]

/-- **What a table with distinct keys stands for.** -/
theorem lookup_eq_some (h : Distinct t) :
    lookup t key = some v ↔ ∃ k : Nat, t[k]? = some (some (key, v)) := by
  refine ⟨exists_of_lookup, fun ⟨k, hk⟩ => ?_⟩
  cases hl : lookup t key with
  | none => exact absurd hk (lookup_eq_none.1 hl k v)
  | some w =>
    obtain ⟨j, hj⟩ := exists_of_lookup hl
    cases h hk hj
    rw [hk] at hj
    cases hj
    rfl

omit [DecidableEq κ] in
theorem getElem?_write (hk : k ≤ t.length) (j : Nat) :
    (write t k o)[j]? = if j = k then some o else t[j]? := by
  have hlen : (t.take k).length = k := List.length_take_of_le hk
  rw [write]
  rcases Nat.lt_trichotomy j k with hj | hj | hj
  · rw [List.getElem?_append_left (by omega), List.getElem?_take_of_lt hj, if_neg (by omega)]
  · rw [List.getElem?_append_right (by omega), hlen, if_pos hj, hj, Nat.sub_self]
    rfl
  · obtain ⟨d, rfl⟩ : ∃ d, j = k + 1 + d := ⟨j - (k + 1), by omega⟩
    rw [List.getElem?_append_right (by omega), hlen, if_neg (by omega),
      show k + 1 + d - k = d + 1 by omega, List.getElem?_cons_succ, List.getElem?_drop]

omit [DecidableEq κ] in
theorem length_write (hk : k ≤ t.length) : (write t k o).length = max t.length (k + 1) := by
  rw [write, List.length_append, List.length_take_of_le hk, List.length_cons, List.length_drop]
  omega

/-- A table with distinct keys is the map that has its bindings. -/
theorem lookup_unique {m : κ → Option ν} (h : Distinct t)
    (hm : ∀ key v, m key = some v ↔ ∃ k : Nat, t[k]? = some (some (key, v))) : lookup t = m := by
  funext key
  refine Option.ext fun v => ?_
  rw [lookup_eq_some h, hm]

/-- **Adding a binding** in a slot that is free, or at the end. -/
theorem write_some (h : Distinct t) (hk : k ≤ t.length) (hfree : ∀ p, t[k]? ≠ some (some p))
    (hkey : lookup t key = none) :
    Distinct (write t k (some (key, v))) ∧
      lookup (write t k (some (key, v))) = Function.update (lookup t) key (some v) := by
  have hslot := getElem?_write (o := some (key, v)) hk
  have hnone := lookup_eq_none.1 hkey
  have hdistinct : Distinct (write t k (some (key, v))) := by
    intro i j key' v₁ v₂ hi hj
    rw [hslot] at hi hj
    split at hi
    · next hik =>
      split at hj
      · next hjk => rw [hik, hjk]
      · cases hi
        exact absurd hj (hnone _ _)
    · split at hj
      · cases hj
        exact absurd hi (hnone _ _)
      · exact h hi hj
  refine ⟨hdistinct, lookup_unique hdistinct fun key' v' => ?_⟩
  rw [Function.update_apply]
  split
  · next hk' =>
    subst hk'
    refine ⟨fun e => ⟨k, ?_⟩, fun ⟨j, hj⟩ => ?_⟩
    · rw [hslot, if_pos rfl, ← Option.some.inj e]
    · rw [hslot] at hj
      split at hj
      · cases hj
        rfl
      · exact absurd hj (hnone _ _)
  · next hne =>
    rw [lookup_eq_some h]
    refine exists_congr fun j => ?_
    rw [hslot]
    split
    · next hjk =>
      subst hjk
      refine iff_of_false (hfree _) fun e => ?_
      cases e
      exact hne rfl
    · rfl

/-- Writing nothing to a slot that is free, or at the end. -/
theorem write_none (h : Distinct t) (hk : k ≤ t.length) (hfree : ∀ p, t[k]? ≠ some (some p)) :
    Distinct (write t k none) ∧ lookup (write t k none) = lookup t := by
  have hslot := getElem?_write (o := (none : Option (κ × ν))) hk
  have hsame : ∀ (j : Nat) p, (write t k none)[j]? = some (some p) ↔ t[j]? = some (some p) := by
    intro j p
    rw [hslot]
    split
    · next hjk => exact iff_of_false (by simp) (hjk ▸ hfree p)
    · rfl
  have hdistinct : Distinct (write t k (none : Option (κ × ν))) := fun i j _ _ _ hi hj =>
    h ((hsame i _).1 hi) ((hsame j _).1 hj)
  refine ⟨hdistinct, lookup_unique hdistinct fun key v => ?_⟩
  rw [lookup_eq_some h]
  exact exists_congr fun j => (hsame j _).symm

/-- **Removing a binding** by clearing its slot. -/
theorem write_clear (h : Distinct t) (hk : t[k]? = some (some (key, v))) :
    Distinct (write t k none) ∧ lookup (write t k none) = Function.update (lookup t) key none := by
  have hlt : k < t.length := (List.getElem?_eq_some_iff.1 hk).1
  have hslot := getElem?_write (o := (none : Option (κ × ν))) (Nat.le_of_lt hlt)
  have hdistinct : Distinct (write t k (none : Option (κ × ν))) := by
    intro i j key' v₁ v₂ hi hj
    rw [hslot] at hi hj
    split at hi
    · cases hi
    · split at hj
      · cases hj
      · exact h hi hj
  refine ⟨hdistinct, lookup_unique hdistinct fun key' v' => ?_⟩
  rw [Function.update_apply]
  split
  · next hk' =>
    subst hk'
    refine iff_of_false nofun fun ⟨j, hj⟩ => ?_
    rw [hslot] at hj
    split at hj
    · cases hj
    · next hjk => exact hjk (h hj hk)
  · next hne =>
    rw [lookup_eq_some h]
    refine exists_congr fun j => ?_
    rw [hslot]
    split
    · next hjk =>
      subst hjk
      refine iff_of_false (fun e => ?_) nofun
      rw [hk] at e
      cases e
      exact hne rfl
    · rfl

end

end Slots
