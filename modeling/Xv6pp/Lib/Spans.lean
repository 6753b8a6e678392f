import Mathlib.Data.List.Basic
import Mathlib.Tactic.Tauto
import Mathlib.Order.Basic

/-!
# Spans and chains

A span is an interval of addresses that does not contain its end.  Spans that stand in order and do not
touch each other are the only such way to cover what they cover; `join` puts a span in front of such a
list and makes one of it and the first if they touch.

A chain is a list of addresses each of which leads to the next.
-/

set_option autoImplicit false

namespace Spans

/-- The addresses from `lo` up to `hi`, without `hi`. -/
structure Span where
  lo : Nat
  hi : Nat
  deriving DecidableEq

/-- An address in one of the spans. -/
def Covers (l : List Span) (x : Nat) : Prop := ∃ s ∈ l, s.lo ≤ x ∧ x < s.hi

/-- Every span ends before the next begins. -/
def Separated (l : List Span) : Prop := l.Pairwise fun s t => s.hi < t.lo

/-- No address is in both. -/
def Span.Disjoint (s t : Span) : Prop := s.hi ≤ t.lo ∨ t.hi ≤ s.lo

theorem Span.Disjoint.symm {s t : Span} (h : s.Disjoint t) : t.Disjoint s := Or.symm h

instance : Std.Symm Span.Disjoint := ⟨fun _ _ h => h.symm⟩

section
variable {s t : Span} {l l' : List Span} {x : Nat}

theorem covers_nil : ¬ Covers [] x := by
  rintro ⟨s, hs, -⟩
  cases hs

theorem covers_cons : Covers (s :: l) x ↔ s.lo ≤ x ∧ x < s.hi ∨ Covers l x := by
  rw [Covers, List.exists_mem_cons_iff, Covers]

theorem covers_append : Covers (l ++ l') x ↔ Covers l x ∨ Covers l' x := by
  simp only [Covers, List.mem_append, or_and_right, exists_or]

theorem Separated.mem (h : Separated l) (hs : s ∈ l) (ht : t ∈ l) : s = t ∨ s.hi < t.lo ∨ t.hi < s.lo := by
  induction l with
  | nil => cases hs
  | cons a l ih =>
    obtain ⟨ha, hl⟩ := List.pairwise_cons.1 h
    rcases List.mem_cons.1 hs with hsa | hsl
    · rcases List.mem_cons.1 ht with hta | htl
      · exact .inl (hsa.trans hta.symm)
      · exact .inr (.inl (hsa ▸ ha t htl))
    · rcases List.mem_cons.1 ht with hta | htl
      · exact .inr (.inr (hta ▸ ha s hsl))
      · exact ih hl hsl htl

/-- **An interval that is covered lies in one span.** -/
theorem Separated.interval (h : Separated l) {lo hi : Nat} (hlt : lo < hi)
    (hcover : ∀ x, lo ≤ x → x < hi → Covers l x) : ∃ s ∈ l, s.lo ≤ lo ∧ hi ≤ s.hi := by
  obtain ⟨s, hs, hlo, hs'⟩ := hcover lo (Nat.le_refl lo) hlt
  refine ⟨s, hs, hlo, ?_⟩
  by_contra hend
  obtain ⟨t, ht, hlo', ht'⟩ := hcover s.hi (by omega) (by omega)
  obtain rfl | h | h := h.mem hs ht
  · omega
  · omega
  · omega

end

/-! ## Joining -/

/-- A span in front of others; it becomes one with the first if they touch. -/
def join (a : Span) : List Span → List Span
  | [] => [a]
  | b :: l => if a.hi = b.lo then ⟨a.lo, b.hi⟩ :: l else a :: b :: l

section
variable {a s : Span} {l : List Span} {x : Nat}

/-- A span of the result begins with `a`, or is one of the others. -/
theorem mem_join (h : s ∈ join a l) :
    s.lo = a.lo ∧ (s.hi = a.hi ∨ ∃ b ∈ l, a.hi = b.lo ∧ s.hi = b.hi) ∨ s ∈ l := by
  cases l with
  | nil =>
    obtain rfl := List.mem_singleton.1 h
    exact .inl ⟨rfl, .inl rfl⟩
  | cons b l =>
    rw [join] at h
    split at h
    · next heq =>
      obtain rfl | h := List.mem_cons.1 h
      · exact .inl ⟨rfl, .inr ⟨b, List.mem_cons_self .., heq, rfl⟩⟩
      · exact .inr (List.mem_cons_of_mem _ h)
    · obtain rfl | h := List.mem_cons.1 h
      · exact .inl ⟨rfl, .inl rfl⟩
      · exact .inr h

theorem covers_join (ha : a.lo ≤ a.hi) (hl : ∀ b ∈ l, b.lo ≤ b.hi) :
    Covers (join a l) x ↔ a.lo ≤ x ∧ x < a.hi ∨ Covers l x := by
  cases l with
  | nil => exact covers_cons
  | cons b l =>
    have hb := hl b (List.mem_cons_self ..)
    rw [join]
    split
    · rw [covers_cons, covers_cons, ← or_assoc]
      refine or_congr_left ?_
      show a.lo ≤ x ∧ x < b.hi ↔ _
      omega
    · exact covers_cons

/-- The result is separated, if `a` ends where the others begin or before. -/
theorem separated_join (h : Separated l) (hl : ∀ b ∈ l, b.lo ≤ b.hi) (ha : ∀ b ∈ l, a.hi ≤ b.lo) :
    Separated (join a l) := by
  cases l with
  | nil => exact List.pairwise_singleton _ _
  | cons b l =>
    obtain ⟨hb, hrest⟩ := List.pairwise_cons.1 h
    have hbound := hl b (List.mem_cons_self ..)
    have hle := ha b (List.mem_cons_self ..)
    rw [join]
    split
    · exact List.pairwise_cons.2 ⟨hb, hrest⟩
    · next hne =>
      refine List.pairwise_cons.2 ⟨fun c hc => ?_, h⟩
      obtain rfl | hc := List.mem_cons.1 hc
      · omega
      · have := hb c hc
        omega

theorem join_head (a : Span) (l : List Span) : ∃ s rest, join a l = s :: rest ∧ s.lo = a.lo := by
  cases l with
  | nil => exact ⟨a, [], rfl, rfl⟩
  | cons b l =>
    rw [join]
    split
    · exact ⟨_, l, rfl, rfl⟩
    · exact ⟨a, b :: l, rfl, rfl⟩

end

section
variable {before after : List Span} {p a s : Span} {x : Nat}

/-- The place of `a` among separated spans: behind `p` and before those of `after`. -/
structure Place (before : List Span) (p a : Span) (after : List Span) : Prop where
  separated : Separated (before ++ p :: after)
  bounds : ∀ b ∈ before ++ p :: after, b.lo ≤ b.hi
  bound : a.lo ≤ a.hi
  below : p.hi ≤ a.lo
  above : ∀ b ∈ after, a.hi ≤ b.lo

/-- The spans with `a` put in. -/
def insert (before : List Span) (p a : Span) (after : List Span) : List Span :=
  before ++ join p (join a after)

theorem Place.after_bounds (h : Place before p a after) : ∀ b ∈ after, b.lo ≤ b.hi :=
  fun b hb => h.bounds b (List.mem_append_right _ (List.mem_cons_of_mem _ hb))

theorem Place.mem_joined (h : Place before p a after) (hs : s ∈ join a after) :
    a.lo ≤ s.lo ∧ s.lo ≤ s.hi := by
  obtain ⟨hlo, hhi⟩ | hs := mem_join hs
  · obtain hhi | ⟨b, hb, hab, hhi⟩ := hhi
    · have := h.bound
      omega
    · have := h.bound
      have := h.after_bounds b hb
      omega
  · have := h.bound
    have := h.above s hs
    have := h.after_bounds s hs
    omega

theorem Place.covers (h : Place before p a after) :
    Covers (insert before p a after) x ↔ a.lo ≤ x ∧ x < a.hi ∨ Covers (before ++ p :: after) x := by
  have hp := h.bounds p (List.mem_append_right _ (List.mem_cons_self ..))
  rw [insert, covers_append, covers_join hp fun b hb => (h.mem_joined hb).2,
    covers_join h.bound h.after_bounds, covers_append, covers_cons]
  tauto

/-- The spans are separated with `a` among them. -/
theorem Place.insert_separated (h : Place before p a after) : Separated (insert before p a after) := by
  obtain ⟨hbefore, hrest, hcross⟩ := List.pairwise_append.1 h.separated
  obtain ⟨hp, hafter⟩ := List.pairwise_cons.1 hrest
  have hinner := separated_join hafter h.after_bounds h.above
  have hbelow := h.below
  have hbound := h.bound
  refine List.pairwise_append.2 ⟨hbefore, separated_join hinner (fun b hb => (h.mem_joined hb).2) ?_, ?_⟩
  · intro b hb
    have := (h.mem_joined hb).1
    omega
  · intro b hb s hs
    have hbp := hcross b hb p (List.mem_cons_self ..)
    have hpp := h.bounds p (List.mem_append_right _ (List.mem_cons_self ..))
    obtain ⟨hlo, -⟩ | hs := mem_join hs
    · omega
    · have := (h.mem_joined hs).1
      omega

theorem Place.mem_joined_cases (h : Place before p a after) (hs : s ∈ join a after) :
    s.lo = a.lo ∧ a.hi ≤ s.hi ∨ s ∈ after := by
  obtain ⟨hlo, hhi | ⟨b, hb, hab, hhi⟩⟩ | hs := mem_join hs
  · exact .inl ⟨hlo, Nat.le_of_eq hhi.symm⟩
  · have := h.after_bounds b hb
    exact .inl ⟨hlo, by omega⟩
  · exact .inr hs

/-- A span of the result is one of the old ones, or begins where `p` or `a` does. -/
theorem Place.mem_insert (h : Place before p a after) (hs : s ∈ insert before p a after) :
    s ∈ before ∨ s ∈ after ∨ s.lo = p.lo ∧ (s.hi = p.hi ∨ p.hi = a.lo ∧ a.hi ≤ s.hi) ∨
      s.lo = a.lo ∧ a.hi ≤ s.hi := by
  obtain hs | hs := List.mem_append.1 hs
  · exact .inl hs
  · obtain ⟨hlo, hhi | ⟨b, hb, hpb, hhi⟩⟩ | hs := mem_join hs
    · exact .inr (.inr (.inl ⟨hlo, .inl hhi⟩))
    · refine .inr (.inr (.inl ⟨hlo, .inr ?_⟩))
      obtain ⟨hba, hab⟩ | hb := h.mem_joined_cases hb
      · exact ⟨hpb.trans hba, hhi ▸ hab⟩
      · have := h.below
        have := h.bound
        have := h.above b hb
        have := h.after_bounds b hb
        omega
    · obtain hs | hs := h.mem_joined_cases hs
      · exact .inr (.inr (.inr hs))
      · exact .inr (.inl hs)

end

/-! ## Chains -/

/-- From `q` the addresses of the list are passed, in order, and `e` is reached. -/
def Chain (next : Nat → Nat) : Nat → List Nat → Nat → Prop
  | q, [], e => q = e
  | q, x :: xs, e => q = x ∧ Chain next (next x) xs e

section
variable {next next' : Nat → Nat} {q e : Nat} {xs ys : List Nat}

theorem chain_append : Chain next q (xs ++ ys) e ↔ ∃ r, Chain next q xs r ∧ Chain next r ys e := by
  induction xs generalizing q with
  | nil =>
    constructor
    · exact fun h => ⟨q, rfl, h⟩
    · rintro ⟨r, rfl, h⟩
      exact h
  | cons x xs ih =>
    rw [List.cons_append, Chain, ih]
    constructor
    · rintro ⟨rfl, r, hxs, hys⟩
      exact ⟨r, ⟨rfl, hxs⟩, hys⟩
    · rintro ⟨r, ⟨rfl, hxs⟩, hys⟩
      exact ⟨rfl, r, hxs, hys⟩

/-- A chain goes through the links of its own addresses only. -/
theorem Chain.congr (h : Chain next q xs e) (hnext : ∀ x ∈ xs, next' x = next x) :
    Chain next' q xs e := by
  induction xs generalizing q with
  | nil => exact h
  | cons x xs ih =>
    obtain ⟨rfl, h⟩ := h
    refine ⟨rfl, ?_⟩
    rw [hnext q (List.mem_cons_self ..)]
    exact ih h fun x hx => hnext x (List.mem_cons_of_mem _ hx)

end

end Spans
