import Xv6pp.Fs.FileSystem

/-!
# The components of a path name

`skipelem` takes a path apart from the left.  What it takes are the components of the path: the
maximal non-empty pieces without a slash, each cut to the length of a name.
-/

set_option autoImplicit false

namespace Xv6pp

open FileSystem

/-- The maximal non-empty pieces of a path that have no slash, each cut to `DIRSIZ` bytes. -/
def components (path : List UInt8) : List (List UInt8) :=
  ((path.splitOn slash).filter (· ≠ [])).map (·.take DIRSIZ)

section
variable {path name rest w : List UInt8}

@[simp] theorem components_nil : components [] = [] := rfl

@[simp] theorem components_slash (path : List UInt8) : components (slash :: path) = components path := by
  have h : (slash :: path).splitOn slash = [] :: path.splitOn slash :=
    List.splitOnP_append_cons_of_forall_mem (p := (· == slash)) (fun _ h => absurd h List.not_mem_nil)
      slash (beq_self_eq_true _) path
  rw [components, h]
  rfl

/-- Leading slashes do not count. -/
theorem components_dropWhile (path : List UInt8) :
    components (path.dropWhile (· == slash)) = components path := by
  induction path with
  | nil => rfl
  | cons c path ih =>
    rw [List.dropWhile_cons]
    split
    · next hc => rw [ih, eq_of_beq hc, components_slash]
    · rfl

/-- A piece without a slash in front of a slash or of the end. -/
theorem components_append (hw : ∀ c ∈ w, c ≠ slash) (hne : w ≠ [])
    (hrest : ∀ c, rest.head? = some c → c = slash) :
    components (w ++ rest) = w.take DIRSIZ :: components rest := by
  have hpred : ∀ c ∈ w, (c == slash) = false := fun c hc => beq_eq_false_iff_ne.2 (hw c hc)
  cases rest with
  | nil =>
    have h : (w ++ []).splitOn slash = [w] := by
      rw [List.append_nil]
      exact List.splitOnP_eq_singleton hpred
    rw [components, h]
    simp [hne]
  | cons c rest =>
    obtain rfl := hrest c rfl
    have h : (w ++ slash :: rest).splitOn slash = w :: rest.splitOn slash :=
      List.splitOnP_append_cons_of_forall_mem hpred slash (beq_self_eq_true _) rest
    rw [components_slash, components, h]
    simp [hne, components]

/-- The first character after the leading slashes. -/
theorem ne_slash_of_dropWhile {c : UInt8} {cs : List UInt8}
    (h : path.dropWhile (· == slash) = c :: cs) : c ≠ slash := by
  have hhead := List.head?_dropWhile_not (fun x => x == slash) path
  rw [h] at hhead
  simpa using hhead

theorem skipelem_none (h : skipelem path = none) : components path = [] := by
  rw [skipelem] at h
  split at h
  · next hnil => rw [← components_dropWhile, hnil, components_nil]
  · cases h

/-- **`skipelem` takes the first component off.** -/
theorem skipelem_some (h : skipelem path = some (name, rest)) :
    components path = name :: components rest ∧ (rest = [] ↔ components rest = []) := by
  rw [skipelem] at h
  split at h
  · cases h
  next c cs hc =>
  simp only [Option.some.injEq, Prod.mk.injEq] at h
  obtain ⟨rfl, rfl⟩ := h
  have hslash := ne_slash_of_dropWhile hc
  have hword : ∀ x ∈ (c :: cs).takeWhile (· != slash), x ≠ slash := fun x hx => by
    simpa using List.mem_takeWhile_imp (p := (· != slash)) hx
  have hne : (c :: cs).takeWhile (· != slash) ≠ [] := by
    rw [List.takeWhile_cons, if_pos (bne_iff_ne.2 hslash)]
    exact List.cons_ne_nil _ _
  have hend : ∀ x, ((c :: cs).dropWhile (· != slash)).head? = some x → x = slash := fun x hx => by
    have hhead := List.head?_dropWhile_not (fun x => x != slash) (c :: cs)
    rw [hx] at hhead
    simpa using hhead
  refine ⟨?_, fun h => by rw [h, components_nil], fun h => ?_⟩
  · rw [components_dropWhile, ← components_append hword hne hend, List.takeWhile_append_dropWhile,
      ← hc, components_dropWhile]
  · -- a rest that is not empty begins with a component
    by_contra hcons
    obtain ⟨y, ys, hy⟩ := List.exists_cons_of_ne_nil hcons
    have hy' := ne_slash_of_dropWhile hy
    have hpiece : components ((y :: ys).takeWhile (· != slash) ++ (y :: ys).dropWhile (· != slash)) = _ :=
      components_append
      (fun x hx => by simpa using List.mem_takeWhile_imp (p := (· != slash)) hx)
      (by rw [List.takeWhile_cons, if_pos (bne_iff_ne.2 hy')]; exact List.cons_ne_nil _ _)
      fun x hx => by
        have hhead := List.head?_dropWhile_not (fun x => x != slash) (y :: ys)
        rw [hx] at hhead
        simpa using hhead
    rw [List.takeWhile_append_dropWhile, ← hy, h] at hpiece
    cases hpiece

theorem skipelem_length (h : skipelem path = some (name, rest)) : rest.length < path.length := by
  rw [skipelem] at h
  split at h
  · cases h
  · next c cs hc =>
    simp only [Option.some.injEq, Prod.mk.injEq] at h
    obtain ⟨-, rfl⟩ := h
    -- the element has at least the character `c`
    have hslash : (c != slash) = true := bne_iff_ne.2 (ne_slash_of_dropWhile hc)
    have h1 : (((c :: cs).dropWhile (· != slash)).dropWhile (· == slash)).length ≤ cs.length := by
      rw [List.dropWhile_cons, if_pos hslash]
      exact (List.dropWhile_sublist _).length_le.trans (List.dropWhile_sublist _).length_le
    have h2 : (c :: cs).length ≤ path.length := by
      rw [← hc]
      exact (List.dropWhile_sublist _).length_le
    rw [List.length_cons] at h2
    omega

/-- What `skipelem` takes off is a name. -/
theorem isName_of_skipelem (hpath : ∀ c ∈ path, c ≠ 0) (h : skipelem path = some (name, rest)) :
    IsName name ∧ ∀ c ∈ rest, c ≠ 0 := by
  rw [skipelem] at h
  split at h
  · cases h
  next c cs hc =>
  simp only [Option.some.injEq, Prod.mk.injEq] at h
  obtain ⟨rfl, rfl⟩ := h
  have hsub : ∀ x ∈ c :: cs, x ≠ 0 := fun x hx => by
    rw [← hc] at hx
    exact hpath x ((List.dropWhile_sublist _).subset hx)
  refine ⟨⟨List.length_take_le _ _, fun x hx => hsub x ?_⟩, fun x hx => hsub x ?_⟩
  · exact (List.takeWhile_sublist _).subset (List.mem_of_mem_take hx)
  · exact (List.dropWhile_sublist _).subset ((List.dropWhile_sublist _).subset hx)

end

end Xv6pp
