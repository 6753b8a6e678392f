import Mathlib.Data.List.Basic
import Mathlib.Logic.Function.Basic

/-!
# Ring buffers with wrapping counters

A ring of `size` cells with two counters: `r` counts the elements taken out and `w` those put in.
The counters wrap at `M`, a multiple of `size`, and element number `k` is in cell `k % size`.  `count`
is the number of elements in the ring and `contents` is the list of them, oldest first; putting an
element in and taking one out are the operations of a queue on this list.
-/

set_option autoImplicit false

namespace Ring

variable {α : Type} {size M r w : Nat}

/-- How many elements are in the ring. -/
def count (M r w : Nat) : Nat := (w + M - r) % M

/-- The elements in the ring, oldest first. -/
def contents (size M : Nat) (cells : Nat → α) (r w : Nat) : List α :=
  (List.range (count M r w)).map fun k => cells ((r + k) % size)

/-- The counters, for those who want to compute with them. -/
theorem count_cases (hr : r < M) (hw : w < M) :
    r ≤ w ∧ count M r w = w - r ∨ w < r ∧ count M r w = w + M - r := by
  rcases Nat.lt_or_ge w r with h | h
  · exact .inr ⟨h, Nat.mod_eq_of_lt (by omega)⟩
  · refine .inl ⟨h, ?_⟩
    have heq : w + M - r = (w - r) + M := by omega
    rw [count, heq, Nat.add_mod_right, Nat.mod_eq_of_lt (by omega)]

/-- The ring is empty when the counters agree. -/
theorem count_eq_zero (hr : r < M) (hw : w < M) : count M r w = 0 ↔ r = w := by
  rcases count_cases hr hw with ⟨h, e⟩ | ⟨h, e⟩ <;> omega

/-- The ring is full when one counter is a whole round ahead. -/
theorem count_eq_size (hsize : size < M) (hr : r < M) (hw : w < M) :
    count M r w = size ↔ w = (r + size) % M := by
  have hmod : r + size < M ∧ (r + size) % M = r + size ∨
      M ≤ r + size ∧ (r + size) % M = r + size - M := by
    rcases Nat.lt_or_ge (r + size) M with h | h
    · exact .inl ⟨h, Nat.mod_eq_of_lt h⟩
    · exact .inr ⟨h, by rw [Nat.mod_eq_sub_mod h, Nat.mod_eq_of_lt (by omega)]⟩
  rcases count_cases hr hw with ⟨h, e⟩ | ⟨h, e⟩ <;> omega

theorem succ_mod_lt (hw : w < M) : (w + 1) % M < M := Nat.mod_lt _ (by omega)

theorem succ_mod_cases (hw : w < M) :
    w + 1 < M ∧ (w + 1) % M = w + 1 ∨ w + 1 = M ∧ (w + 1) % M = 0 := by
  rcases Nat.lt_or_ge (w + 1) M with h | h
  · exact .inl ⟨h, Nat.mod_eq_of_lt h⟩
  · obtain rfl : w + 1 = M := by omega
    exact .inr ⟨rfl, Nat.mod_self _⟩

theorem count_push (hr : r < M) (hw : w < M) (hc : count M r w + 1 < M) :
    count M r ((w + 1) % M) = count M r w + 1 := by
  rcases count_cases hr hw with ⟨h, e⟩ | ⟨h, e⟩ <;>
    rcases count_cases hr (succ_mod_lt hw) with ⟨h', e'⟩ | ⟨h', e'⟩ <;>
      rcases succ_mod_cases hw with ⟨h'', e''⟩ | ⟨h'', e''⟩ <;> omega

theorem count_pop (hr : r < M) (hw : w < M) (hne : r ≠ w) :
    count M r w = count M ((r + 1) % M) w + 1 := by
  rcases count_cases hr hw with ⟨h, e⟩ | ⟨h, e⟩ <;>
    rcases count_cases (succ_mod_lt hr) hw with ⟨h', e'⟩ | ⟨h', e'⟩ <;>
      rcases succ_mod_cases hr with ⟨h'', e''⟩ | ⟨h'', e''⟩ <;> omega

/-- The cell of the next element, counted from the oldest one. -/
theorem cell_eq (hdvd : size ∣ M) (hr : r < M) (hw : w < M) : (r + count M r w) % size = w % size := by
  rcases count_cases hr hw with ⟨h, e⟩ | ⟨h, e⟩
  · rw [e, Nat.add_sub_cancel' h]
  · obtain ⟨q, rfl⟩ := hdvd
    have heq : r + (w + size * q - r) = w + size * q := by omega
    rw [e, heq, Nat.add_mul_mod_self_left]

/-- The next element is put in a cell that no element is in. -/
theorem cell_ne {k : Nat} (hdvd : size ∣ M) (hr : r < M) (hw : w < M) (hc : count M r w < size)
    (hk : k < count M r w) : (r + k) % size ≠ w % size := by
  rw [← cell_eq hdvd hr hw]
  intro heq
  have hdiv : (r + count M r w - (r + k)) % size = 0 := Nat.sub_mod_eq_zero_of_mod_eq heq.symm
  have hsub : r + count M r w - (r + k) = count M r w - k := by omega
  rw [hsub, Nat.mod_eq_of_lt (by omega)] at hdiv
  omega

/-- **Putting an element in** appends it to the contents. -/
theorem contents_push (cells : Nat → α) (hdvd : size ∣ M) (hsize : size < M) (hr : r < M) (hw : w < M)
    (hc : count M r w < size) (x : α) :
    contents size M (Function.update cells (w % size) x) r ((w + 1) % M) =
      contents size M cells r w ++ [x] := by
  rw [contents, contents, count_push hr hw (by omega), List.range_succ, List.map_append,
    List.map_singleton, cell_eq hdvd hr hw, Function.update_self]
  congr 1
  refine List.map_congr_left fun k hk => ?_
  rw [Function.update_of_ne (cell_ne hdvd hr hw hc (List.mem_range.1 hk))]

/-- **Taking an element out** removes the first of the contents. -/
theorem contents_pop {cells : Nat → α} (hdvd : size ∣ M) (hr : r < M) (hw : w < M) (hne : r ≠ w) :
    contents size M cells r w = cells (r % size) :: contents size M cells ((r + 1) % M) w := by
  rw [contents, contents, count_pop hr hw hne, List.range_succ_eq_map, List.map_cons, List.map_map]
  congr 1
  refine List.map_congr_left fun k _ => congrArg cells ?_
  have hwrap : ((r + 1) % M + k) % size = (r + 1 + k) % size := by
    rw [Nat.add_mod, Nat.mod_mod_of_dvd _ hdvd, ← Nat.add_mod]
  rw [hwrap]
  congr 1
  show r + (k + 1) = r + 1 + k
  omega

/-! ## Several positions in one ring -/

/-- A position of the ring is determined by its distance from the oldest element. -/
theorem count_inj {w' : Nat} (hr : r < M) (hw : w < M) (hw' : w' < M) :
    count M r w = count M r w' ↔ w = w' := by
  refine ⟨fun h => ?_, fun h => by rw [h]⟩
  rcases count_cases hr hw with ⟨h1, e1⟩ | ⟨h1, e1⟩ <;>
    rcases count_cases hr hw' with ⟨h2, e2⟩ | ⟨h2, e2⟩ <;> omega

/-- The distance between two positions. -/
theorem count_sub {e : Nat} (hr : r < M) (hw : w < M) (he : e < M) (hle : count M r w ≤ count M r e) :
    count M w e = count M r e - count M r w := by
  rcases count_cases hr hw with ⟨h1, e1⟩ | ⟨h1, e1⟩ <;>
    rcases count_cases hr he with ⟨h2, e2⟩ | ⟨h2, e2⟩ <;>
      rcases count_cases hw he with ⟨h3, e3⟩ | ⟨h3, e3⟩ <;> omega

/-- The elements before a position. -/
theorem contents_take {w' : Nat} (cells : Nat → α) (hle : count M r w' ≤ count M r w) :
    contents size M cells r w' = (contents size M cells r w).take (count M r w') := by
  rw [contents, contents, ← List.map_take, List.take_range, Nat.min_eq_left hle]

theorem pred_mod_lt (hw : w < M) : (w + M - 1) % M < M := Nat.mod_lt _ (by omega)

/-- Taking back the element put in last. -/
theorem count_unpush (hr : r < M) (hw : w < M) (hne : r ≠ w) :
    count M r w = count M r ((w + M - 1) % M) + 1 := by
  have hpred : 0 < w ∧ (w + M - 1) % M = w - 1 ∨ w = 0 ∧ (w + M - 1) % M = M - 1 := by
    rcases Nat.eq_zero_or_pos w with h | h
    · subst h
      rw [Nat.zero_add]
      exact .inr ⟨rfl, Nat.mod_eq_of_lt (by omega)⟩
    · refine .inl ⟨h, ?_⟩
      have heq : w + M - 1 = (w - 1) + M := by omega
      rw [heq, Nat.add_mod_right, Nat.mod_eq_of_lt (by omega)]
  rcases count_cases hr hw with ⟨h1, e1⟩ | ⟨h1, e1⟩ <;>
    rcases count_cases hr (pred_mod_lt hw) with ⟨h2, e2⟩ | ⟨h2, e2⟩ <;>
      rcases hpred with ⟨h3, e3⟩ | ⟨h3, e3⟩ <;> omega

theorem contents_unpush (cells : Nat → α) (hdvd : size ∣ M) (hr : r < M) (hw : w < M) (hne : r ≠ w) :
    contents size M cells r w =
      contents size M cells r ((w + M - 1) % M) ++ [cells ((w + M - 1) % M % size)] := by
  have hcount := count_unpush hr hw hne
  rw [contents, contents, hcount, List.range_succ, List.map_append, List.map_singleton,
    cell_eq hdvd hr (pred_mod_lt hw)]

end Ring
