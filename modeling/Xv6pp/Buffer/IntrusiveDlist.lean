import Mathlib.Data.List.Nodup
import Mathlib.Logic.Function.Basic

/-!
# Intrusive doubly linked lists

`kernel/intrusive_dlist.h`: the nodes carry the links, and the list has the ends and the number of its
nodes.  The nodes are of any type; a null pointer is `none`.

A list of this kind stands for a sequence of distinct nodes if the nodes can be reached in this order
from the head and in the opposite order from the tail.  Seen in the mirror, where the two directions
change places, it stands for the reversed sequence, and `push_back` becomes `push_front`; so everything
is shown for one direction.
-/

set_option autoImplicit false

namespace Xv6pp

/-- `intrusive_dlist`, with the links of all nodes. -/
structure IntrusiveDlist (α : Type) where
  prev : α → Option α
  next : α → Option α
  head : Option α
  tail : Option α
  count : Nat

namespace IntrusiveDlist

variable {α : Type}

/-! ## The code -/

/-- `empty`. -/
def empty (s : IntrusiveDlist α) : Bool := s.head.isNone

/-- `front`. -/
def front (s : IntrusiveDlist α) : Option α := s.head

/-- `back`. -/
def back (s : IntrusiveDlist α) : Option α := s.tail

/-- The list with its directions exchanged. -/
def mirror (s : IntrusiveDlist α) : IntrusiveDlist α := ⟨s.next, s.prev, s.tail, s.head, s.count⟩

section
variable [DecidableEq α]

/-- `node->prev = p`. -/
def setPrev (s : IntrusiveDlist α) (node : α) (p : Option α) : IntrusiveDlist α :=
  { s with prev := Function.update s.prev node p }

/-- `node->next = p`. -/
def setNext (s : IntrusiveDlist α) (node : α) (p : Option α) : IntrusiveDlist α :=
  { s with next := Function.update s.next node p }

/-- `push_front`. -/
def pushFront (s : IntrusiveDlist α) (node : α) : IntrusiveDlist α :=
  let s := s.setPrev node none
  let s := s.setNext node s.head
  let s :=
    match s.head with
    | some h => s.setPrev h (some node)
    | none => { s with tail := some node }
  { s with head := some node, count := s.count + 1 }

/-- `push_back`. -/
def pushBack (s : IntrusiveDlist α) (node : α) : IntrusiveDlist α :=
  let s := s.setNext node none
  let s := s.setPrev node s.tail
  let s :=
    match s.tail with
    | some t => s.setNext t (some node)
    | none => { s with head := some node }
  { s with tail := some node, count := s.count + 1 }

/-- `remove`. -/
def remove (s : IntrusiveDlist α) (node : α) : IntrusiveDlist α :=
  let s :=
    match s.prev node with
    | some p => s.setNext p (s.next node)
    | none => { s with head := s.next node }
  let s :=
    match s.next node with
    | some x => s.setPrev x (s.prev node)
    | none => { s with tail := s.prev node }
  let s := (s.setNext node none).setPrev node none
  { s with count := s.count - 1 }

/-- `pop_front`. -/
def popFront (s : IntrusiveDlist α) : Option α × IntrusiveDlist α :=
  match s.head with
  | none => (none, s)
  | some n => (some n, s.remove n)

/-- `pop_back`. -/
def popBack (s : IntrusiveDlist α) : Option α × IntrusiveDlist α :=
  match s.tail with
  | none => (none, s)
  | some n => (some n, s.remove n)

end

/-! ## Chains -/

/-- From the pointer `o` the links `f` lead through the nodes of the list and end at the pointer `m`. -/
def Chain (f : α → Option α) : Option α → List α → Option α → Prop
  | o, [], m => o = m
  | o, x :: xs, m => o = some x ∧ Chain f (f x) xs m

section
variable {f g : α → Option α} {o m : Option α} {x : α} {xs ys : List α}

theorem chain_append : Chain f o (xs ++ ys) m ↔ ∃ k, Chain f o xs k ∧ Chain f k ys m := by
  induction xs generalizing o with
  | nil =>
    constructor
    · exact fun h => ⟨o, rfl, h⟩
    · rintro ⟨k, rfl, h⟩
      exact h
  | cons x xs ih =>
    rw [List.cons_append, Chain, ih]
    constructor
    · rintro ⟨ho, k, h, h'⟩
      exact ⟨k, ⟨ho, h⟩, h'⟩
    · rintro ⟨k, ⟨ho, h⟩, h'⟩
      exact ⟨ho, k, h, h'⟩

theorem chain_append_cons : Chain f o (xs ++ x :: ys) m ↔ Chain f o xs (some x) ∧ Chain f (f x) ys m := by
  rw [chain_append]
  constructor
  · rintro ⟨k, h, rfl, h'⟩
    exact ⟨h, h'⟩
  · rintro ⟨h, h'⟩
    exact ⟨some x, h, rfl, h'⟩

theorem chain_concat : Chain f o (xs ++ [x]) m ↔ Chain f o xs (some x) ∧ f x = m := chain_append_cons

/-- A chain depends on the links of its nodes only. -/
theorem Chain.congr (h : Chain f o xs m) (hfg : ∀ x ∈ xs, g x = f x) : Chain g o xs m := by
  induction xs generalizing o with
  | nil => exact h
  | cons x xs ih =>
    refine ⟨h.1, ?_⟩
    rw [hfg x (List.mem_cons_self ..)]
    exact ih h.2 fun y hy => hfg y (List.mem_cons_of_mem _ hy)

theorem Chain.update [DecidableEq α] (h : Chain f o xs m) (hx : x ∉ xs) (p : Option α) :
    Chain (Function.update f x p) o xs m :=
  h.congr fun y hy => Function.update_of_ne (by rintro rfl; exact hx hy) ..

theorem Chain.head (h : Chain f o xs none) : o = xs.head? := by
  cases xs with
  | nil => exact h
  | cons x xs => exact h.1

end

/-! ## Representing a sequence -/

/-- The list stands for the sequence `xs` of distinct nodes. -/
structure Represents (s : IntrusiveDlist α) (xs : List α) : Prop where
  nodup : xs.Nodup
  /-- The chain from the head, which ends in a null pointer. -/
  next : Chain s.next s.head xs none
  /-- The chain from the tail. -/
  prev : Chain s.prev s.tail xs.reverse none
  count : s.count = xs.length

/-- The links of the nodes that are not in `xs` are the same. -/
def SameOutside (s s' : IntrusiveDlist α) (xs : List α) : Prop :=
  ∀ x, x ∉ xs → s'.prev x = s.prev x ∧ s'.next x = s.next x

section
variable {s s' : IntrusiveDlist α} {n x : α} {xs as bs : List α}

@[simp] theorem mirror_mirror (s : IntrusiveDlist α) : s.mirror.mirror = s := rfl

theorem represents_mirror : s.mirror.Represents xs.reverse ↔ s.Represents xs := by
  constructor
  · rintro ⟨h1, h2, h3, h4⟩
    rw [List.reverse_reverse] at h3
    exact ⟨List.nodup_reverse.1 h1, h3, h2, by rwa [List.length_reverse] at h4⟩
  · rintro ⟨h1, h2, h3, h4⟩
    refine ⟨List.nodup_reverse.2 h1, h3, ?_, by rwa [List.length_reverse]⟩
    rwa [List.reverse_reverse]

theorem Represents.mirror (h : s.Represents xs) : s.mirror.Represents xs.reverse := represents_mirror.2 h

theorem sameOutside_mirror (h : SameOutside s.mirror s'.mirror xs.reverse) : SameOutside s s' xs :=
  fun x hx => (h x fun hm => hx (List.mem_reverse.1 hm)).symm

theorem Represents.head (h : s.Represents xs) : s.head = xs.head? := h.next.head

theorem Represents.tail (h : s.Represents xs) : s.tail = xs.getLast? := by
  rw [h.prev.head, List.head?_reverse]

/-- The neighbours of a node in a list. -/
theorem Represents.neighbours (h : s.Represents (as ++ n :: bs)) :
    s.prev n = as.getLast? ∧ s.next n = bs.head? := by
  have hnext := (chain_append_cons.1 h.next).2
  have hprev := h.prev
  rw [List.reverse_append, List.reverse_cons, List.append_assoc, List.singleton_append,
    chain_append_cons] at hprev
  rw [hnext.head, hprev.2.head, List.head?_reverse]
  exact ⟨rfl, rfl⟩

theorem Represents.ne_neighbours (h : s.Represents (as ++ n :: bs)) :
    s.prev n ≠ some n ∧ s.next n ≠ some n := by
  obtain ⟨hprev, hnext⟩ := h.neighbours
  have hnodup := h.nodup
  rw [List.nodup_append, List.nodup_cons] at hnodup
  obtain ⟨-, ⟨hnbs, -⟩, hne⟩ := hnodup
  rw [hprev, hnext]
  refine ⟨fun e => ?_, fun e => hnbs (List.mem_of_mem_head? e)⟩
  exact hne n (List.mem_of_getLast? e) n (List.mem_cons_self ..) rfl

/-! ## Pushing -/

variable [DecidableEq α]

theorem mirror_pushBack : (s.pushBack n).mirror = s.mirror.pushFront n := by
  obtain ⟨prev, next, head, tail, count⟩ := s
  cases tail <;> rfl

/-- **`push_front`** of a node that is not in the list. -/
theorem Represents.pushFront (h : s.Represents xs) (hn : n ∉ xs) :
    (s.pushFront n).Represents (n :: xs) ∧ SameOutside s (s.pushFront n) (n :: xs) := by
  have hhead := h.head
  cases xs with
  | nil =>
    have hs : s.pushFront n =
        ⟨Function.update s.prev n none, Function.update s.next n none, some n, some n, s.count + 1⟩ := by
      rw [IntrusiveDlist.pushFront]
      simp only [setPrev, setNext, hhead, List.head?_nil]
    rw [hs]
    refine ⟨⟨List.nodup_singleton n, ⟨rfl, Function.update_self ..⟩, ⟨rfl, Function.update_self ..⟩, ?_⟩,
      fun x hx => ?_⟩
    · show s.count + 1 = 1
      rw [h.count]
      rfl
    · have hne : x ≠ n := fun e => hx (e ▸ List.mem_cons_self ..)
      exact ⟨Function.update_of_ne hne .., Function.update_of_ne hne ..⟩
  | cons a xs =>
    have hs : s.pushFront n = ⟨Function.update (Function.update s.prev n none) a (some n),
        Function.update s.next n (some a), some n, s.tail, s.count + 1⟩ := by
      rw [IntrusiveDlist.pushFront]
      simp only [setPrev, setNext, hhead, List.head?_cons]
    rw [hs]
    have hna : n ≠ a := fun e => hn (e ▸ List.mem_cons_self ..)
    have ha : a ∉ xs := (List.nodup_cons.1 h.nodup).1
    refine ⟨⟨List.nodup_cons.2 ⟨hn, h.nodup⟩, ⟨rfl, ?_⟩, ?_, ?_⟩, fun x hx => ?_⟩
    · show Chain _ (Function.update s.next n (some a) n) (a :: xs) none
      rw [Function.update_self, ← hhead.trans (List.head?_cons ..)]
      exact h.next.update hn _
    · have hprev := h.prev
      rw [List.reverse_cons, chain_concat] at hprev
      rw [List.reverse_cons, List.reverse_cons, chain_concat, chain_concat]
      refine ⟨⟨(hprev.1.update ?_ _).update ?_ _, Function.update_self ..⟩, ?_⟩
      · exact fun hm => hn (List.mem_cons_of_mem _ (List.mem_reverse.1 hm))
      · exact fun hm => ha (List.mem_reverse.1 hm)
      · exact (Function.update_of_ne hna ..).trans (Function.update_self ..)
    · show s.count + 1 = _
      rw [h.count]
      rfl
    · have hxn : x ≠ n := fun e => hx (e ▸ List.mem_cons_self ..)
      have hxa : x ≠ a := fun e => hx (e ▸ List.mem_cons_of_mem _ (List.mem_cons_self ..))
      exact ⟨(Function.update_of_ne hxa ..).trans (Function.update_of_ne hxn ..), Function.update_of_ne hxn ..⟩

/-- **`push_back`** of a node that is not in the list. -/
theorem Represents.pushBack (h : s.Represents xs) (hn : n ∉ xs) :
    (s.pushBack n).Represents (xs ++ [n]) ∧ SameOutside s (s.pushBack n) (xs ++ [n]) := by
  have hm := h.mirror.pushFront (n := n) fun hm => hn (List.mem_reverse.1 hm)
  have hrev : n :: xs.reverse = (xs ++ [n]).reverse := by
    rw [List.reverse_append]
    rfl
  rw [← mirror_pushBack, hrev] at hm
  exact ⟨represents_mirror.1 hm.1, sameOutside_mirror hm.2⟩

/-! ## Removing -/

/-- All that `remove` does, if the node is not its own neighbour. -/
theorem remove_eq (hne : s.prev n ≠ some n) : s.remove n =
    { prev := Function.update (match s.next n with
        | some x => Function.update s.prev x (s.prev n)
        | none => s.prev) n none
      next := Function.update (match s.prev n with
        | some p => Function.update s.next p (s.next n)
        | none => s.next) n none
      head := match s.prev n with
        | some _ => s.head
        | none => s.next n
      tail := match s.next n with
        | some _ => s.tail
        | none => s.prev n
      count := s.count - 1 } := by
  rw [IntrusiveDlist.remove]
  cases hp : s.prev n with
  | none =>
    dsimp only
    rw [hp]
    cases s.next n <;> rfl
  | some p =>
    have hpn : n ≠ p := fun e => hne (hp.trans (congrArg some e.symm))
    simp only [setNext, setPrev, Function.update_of_ne hpn, hp]
    cases s.next n <;> rfl

/-- In the mirror, `remove` does the same. -/
theorem Represents.mirror_remove (h : s.Represents (as ++ n :: bs)) :
    (s.remove n).mirror = s.mirror.remove n := by
  obtain ⟨hprev, hnext⟩ := h.ne_neighbours
  rw [remove_eq hprev, remove_eq (s := s.mirror) hnext]
  rfl

/-- What `remove` does to the chain from the head, and to the links outside of the list. -/
theorem Represents.remove_next (h : s.Represents (as ++ n :: bs)) :
    Chain (s.remove n).next (s.remove n).head (as ++ bs) none ∧ (s.remove n).next n = none ∧
      ∀ x, x ∉ as ++ n :: bs → (s.remove n).next x = s.next x := by
  obtain ⟨hprev, hnext⟩ := h.neighbours
  obtain ⟨hfront, hback⟩ := chain_append_cons.1 h.next
  obtain ⟨hnas, hnbs, hdisjoint⟩ : n ∉ as ∧ n ∉ bs ∧ ∀ x ∈ as, x ∉ bs := by
    have hnodup := h.nodup
    rw [List.nodup_append, List.nodup_cons] at hnodup
    obtain ⟨-, ⟨hnbs, -⟩, hne⟩ := hnodup
    exact ⟨fun hm => hne n hm n (List.mem_cons_self ..) rfl, hnbs,
      fun x hx hx' => hne x hx x (List.mem_cons_of_mem _ hx') rfl⟩
  rcases List.eq_nil_or_concat' as with rfl | ⟨as, p, rfl⟩
  · -- the node is the first one
    have hs : (s.remove n).next = Function.update s.next n none ∧ (s.remove n).head = s.next n := by
      rw [IntrusiveDlist.remove]
      simp only [hprev, List.getLast?_nil]
      cases s.next n <;> exact ⟨rfl, rfl⟩
    rw [hs.1, hs.2]
    refine ⟨hback.update hnbs _, Function.update_self .., fun x hx => Function.update_of_ne ?_ ..⟩
    rintro rfl
    exact hx (List.mem_cons_self ..)
  · have hpn : p ≠ n := by
      rintro rfl
      exact hnas (List.mem_append_right _ (List.mem_singleton_self _))
    have hpbs : p ∉ bs := hdisjoint p (List.mem_append_right _ (List.mem_singleton_self _))
    have hpas : p ∉ as := by
      have hnodup := (List.nodup_append.1 h.nodup).1
      intro hm
      exact (List.nodup_append.1 hnodup).2.2 p hm p (List.mem_singleton_self _) rfl
    have hs : (s.remove n).next = Function.update (Function.update s.next p (s.next n)) n none ∧
        (s.remove n).head = s.head := by
      rw [IntrusiveDlist.remove]
      simp only [hprev, List.getLast?_concat, setNext, setPrev]
      split <;> exact ⟨rfl, rfl⟩
    rw [hs.1, hs.2, List.append_assoc, List.singleton_append, chain_append_cons]
    rw [chain_concat] at hfront
    refine ⟨⟨(hfront.1.update hpas _).update (fun hm => hnas (List.mem_append_left _ hm)) _, ?_⟩,
      Function.update_self .., fun x hx => ?_⟩
    · rw [Function.update_of_ne hpn, Function.update_self]
      exact (hback.update hpbs _).update hnbs _
    · rw [Function.update_of_ne, Function.update_of_ne]
      · rintro rfl
        simp at hx
      · rintro rfl
        simp at hx

/-- **`remove`** of a node of the list. -/
theorem Represents.remove (h : s.Represents (as ++ n :: bs)) :
    (s.remove n).Represents (as ++ bs) ∧ (s.remove n).prev n = none ∧ (s.remove n).next n = none ∧
      SameOutside s (s.remove n) (as ++ n :: bs) := by
  have hrev : (as ++ n :: bs).reverse = bs.reverse ++ n :: as.reverse := by simp
  have hm : s.mirror.Represents (bs.reverse ++ n :: as.reverse) := hrev ▸ h.mirror
  obtain ⟨hnext, hnone, hout⟩ := h.remove_next
  obtain ⟨hprev, hnone', hout'⟩ := hm.remove_next
  rw [← h.mirror_remove] at hprev hnone' hout'
  refine ⟨⟨?_, hnext, ?_, ?_⟩, hnone', hnone, fun x hx => ⟨hout' x ?_, hout x hx⟩⟩
  · exact h.nodup.sublist (List.sublist_cons_self n bs |>.append_left as)
  · rwa [List.reverse_append]
  · rw [remove_eq h.ne_neighbours.1]
    show s.count - 1 = _
    rw [h.count, List.length_append, List.length_append, List.length_cons]
    rfl
  · rw [← hrev]
    exact fun hm => hx (List.mem_reverse.1 hm)

/-- The same, without naming the place of the node. -/
theorem Represents.remove_mem (h : s.Represents xs) (hn : n ∈ xs) :
    (s.remove n).Represents (xs.erase n) ∧ (s.remove n).prev n = none ∧ (s.remove n).next n = none ∧
      SameOutside s (s.remove n) xs := by
  obtain ⟨as, bs, rfl⟩ := List.append_of_mem hn
  have hnas : n ∉ as := fun hm =>
    (List.nodup_append.1 h.nodup).2.2 n hm n (List.mem_cons_self ..) rfl
  rw [List.erase_append_right _ hnas, List.erase_cons_head]
  exact h.remove

/-- **`pop_front`.** -/
theorem Represents.popFront (h : s.Represents xs) :
    s.popFront.1 = xs.head? ∧ s.popFront.2.Represents xs.tail ∧ SameOutside s s.popFront.2 xs := by
  rw [IntrusiveDlist.popFront, h.head]
  cases xs with
  | nil => exact ⟨rfl, h, fun _ _ => ⟨rfl, rfl⟩⟩
  | cons n xs =>
    obtain ⟨hr, -, -, hout⟩ := @Represents.remove _ _ _ [] _ _ h
    exact ⟨rfl, hr, hout⟩

/-- **`pop_back`.** -/
theorem Represents.popBack (h : s.Represents xs) :
    s.popBack.1 = xs.getLast? ∧ s.popBack.2.Represents xs.dropLast ∧ SameOutside s s.popBack.2 xs := by
  rw [IntrusiveDlist.popBack, h.tail]
  rcases List.eq_nil_or_concat' xs with rfl | ⟨xs, n, rfl⟩
  · exact ⟨rfl, h, fun _ _ => ⟨rfl, rfl⟩⟩
  · obtain ⟨hr, -, -, hout⟩ := @Represents.remove _ _ _ _ [] _ h
    rw [List.getLast?_concat, List.dropLast_concat]
    rw [List.append_nil] at hr
    exact ⟨rfl, hr, hout⟩

/-- **Moving a node to the front**, as `buffer_cache::read` does. -/
theorem Represents.moveFront (h : s.Represents xs) (hn : n ∈ xs) :
    ((s.remove n).pushFront n).Represents (n :: xs.erase n) ∧
      SameOutside s ((s.remove n).pushFront n) xs := by
  obtain ⟨hr, -, -, hout⟩ := h.remove_mem hn
  obtain ⟨hp, hout'⟩ := hr.pushFront h.nodup.not_mem_erase
  refine ⟨hp, fun x hx => ?_⟩
  have hx' : x ∉ n :: xs.erase n := fun hm => by
    rcases List.mem_cons.1 hm with rfl | hm
    · exact hx hn
    · exact hx (List.mem_of_mem_erase hm)
  exact ⟨(hout' x hx').1.trans (hout x hx).1, (hout' x hx').2.trans (hout x hx).2⟩

/-- **Moving a node to the back**, as `buffer_cache::relse` does. -/
theorem Represents.moveBack (h : s.Represents xs) (hn : n ∈ xs) :
    ((s.remove n).pushBack n).Represents (xs.erase n ++ [n]) ∧
      SameOutside s ((s.remove n).pushBack n) xs := by
  obtain ⟨hr, -, -, hout⟩ := h.remove_mem hn
  obtain ⟨hp, hout'⟩ := hr.pushBack h.nodup.not_mem_erase
  refine ⟨hp, fun x hx => ?_⟩
  have hx' : x ∉ xs.erase n ++ [n] := fun hm => by
    rcases List.mem_append.1 hm with hm | hm
    · exact hx (List.mem_of_mem_erase hm)
    · exact hx (List.mem_singleton.1 hm ▸ hn)
  exact ⟨(hout' x hx').1.trans (hout x hx).1, (hout' x hx').2.trans (hout x hx).2⟩

end

/-! ## Main result -/

/-- The sequence `ys` has the nodes of `xs`, and all of them but `n` in the same order. -/
def MovesOnly [DecidableEq α] (n : α) (xs ys : List α) : Prop :=
  ys.Perm xs ∧ ys.erase n = xs.erase n

/-- **The list refines sequences.**  Of a list that stands for the sequence `xs`, every operation makes
one that stands for what the operation does to a sequence, and it changes no links of other nodes. -/
theorem intrusive_dlist_refines [DecidableEq α] {s : IntrusiveDlist α} {xs : List α}
    (h : s.Represents xs) :
    (∀ n, n ∉ xs → (s.pushFront n).Represents (n :: xs) ∧ SameOutside s (s.pushFront n) (n :: xs)) ∧
    (∀ n, n ∉ xs → (s.pushBack n).Represents (xs ++ [n]) ∧ SameOutside s (s.pushBack n) (xs ++ [n])) ∧
    (∀ n, n ∈ xs → (s.remove n).Represents (xs.erase n) ∧ (s.remove n).prev n = none ∧
      (s.remove n).next n = none ∧ SameOutside s (s.remove n) xs) ∧
    (s.popFront.1 = xs.head? ∧ s.popFront.2.Represents xs.tail ∧ SameOutside s s.popFront.2 xs) ∧
    (s.popBack.1 = xs.getLast? ∧ s.popBack.2.Represents xs.dropLast ∧ SameOutside s s.popBack.2 xs) ∧
    ∀ n, n ∈ xs →
      (∃ ys, ((s.remove n).pushFront n).Represents ys ∧ ys.head? = some n ∧ MovesOnly n xs ys ∧
        SameOutside s ((s.remove n).pushFront n) xs) ∧
      ∃ ys, ((s.remove n).pushBack n).Represents ys ∧ ys.getLast? = some n ∧ MovesOnly n xs ys ∧
        SameOutside s ((s.remove n).pushBack n) xs := by
  refine ⟨fun n => h.pushFront, fun n => h.pushBack, fun n => h.remove_mem, h.popFront, h.popBack,
    fun n hn => ⟨?_, ?_⟩⟩
  · obtain ⟨hr, hout⟩ := h.moveFront hn
    exact ⟨_, hr, List.head?_cons .., ⟨(List.perm_cons_erase hn).symm, List.erase_cons_head ..⟩, hout⟩
  · obtain ⟨hr, hout⟩ := h.moveBack hn
    refine ⟨_, hr, List.getLast?_concat .., ⟨?_, ?_⟩, hout⟩
    · exact (List.perm_append_singleton n _).trans (List.perm_cons_erase hn).symm
    · rw [List.erase_append_right _ h.nodup.not_mem_erase, List.erase_cons_head, List.append_nil]

/-- The empty list. -/
def nil : IntrusiveDlist α := ⟨fun _ => none, fun _ => none, none, none, 0⟩

theorem nil_represents : (nil : IntrusiveDlist α).Represents [] := ⟨List.nodup_nil, rfl, rfl, rfl⟩

/-- Three nodes, in this order. -/
def three : IntrusiveDlist Nat := ((nil.pushBack 4).pushBack 7).pushBack 2

theorem three_represents : three.Represents [4, 7, 2] := by
  have h₁ := ((nil_represents (α := Nat)).pushBack (n := 4) (by decide)).1
  have h₂ := (h₁.pushBack (n := 7) (by decide)).1
  exact (h₂.pushBack (n := 2) (by decide)).1

/-- The node in the middle is removed: its neighbours are linked to each other, and the last node can
still be taken off the end. -/
theorem intrusive_dlist_three : (three.remove 7).Represents [4, 2] ∧
    (three.remove 7).next 4 = some 2 ∧ (three.remove 7).prev 2 = some 4 ∧
    (three.remove 7).count = 2 ∧ (three.remove 7).popBack.1 = some 2 ∧
    (three.remove 7).popBack.2.Represents [4] := by
  obtain ⟨hremoved, -, -, -⟩ := (intrusive_dlist_refines three_represents).2.2.1 7 (by decide)
  obtain ⟨hlast, hpopped, -⟩ := (intrusive_dlist_refines hremoved).2.2.2.2.1
  exact ⟨hremoved, by decide, by decide, by decide, hlast, hpopped⟩

end IntrusiveDlist

end Xv6pp
