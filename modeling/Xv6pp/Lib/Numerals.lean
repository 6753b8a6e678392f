import Mathlib.Data.Nat.Digits.Lemmas

/-!
# Numerals

A number is written to a base by taking its digits off the low end, in a loop that writes at least
one, and turning them round.  This file has the digits, the loop with the room it has for them, the
numeral with its sign, and the way back.

* `loop_eq` says that the loop writes the digits when there is room for them.
* `readBack_spell` says that a numeral stands for the number it was made of.
-/

set_option autoImplicit false

namespace Numerals

/-! ## Digits -/

/-- The digits of `n`, the lowest first; zero has one. -/
def lowFirst (base n : Nat) : List Nat := if n = 0 then [0] else Nat.digits base n

section
variable {base n : Nat}

theorem lowFirst_step (hb : 1 < base) :
    lowFirst base n = n % base :: if n / base = 0 then [] else lowFirst base (n / base) := by
  rw [lowFirst]
  split
  · next h =>
    rw [h, Nat.zero_mod, Nat.zero_div, if_pos rfl]
  · next h =>
    rw [Nat.digits_def' hb (Nat.pos_of_ne_zero h), lowFirst]
    split
    · next hq => rw [hq, Nat.digits_zero]
    · rfl

theorem ofDigits_lowFirst : Nat.ofDigits base (lowFirst base n) = n := by
  rw [lowFirst]
  split
  · next h => rw [h, Nat.ofDigits_singleton]
  · exact Nat.ofDigits_digits base n

theorem lt_of_mem_lowFirst (hb : 1 < base) {d : Nat} (hd : d ∈ lowFirst base n) : d < base := by
  rw [lowFirst] at hd
  split at hd
  · rw [List.mem_singleton.1 hd]
    exact Nat.zero_lt_of_lt hb
  · exact Nat.digits_lt_base hb hd

theorem length_lowFirst_le (hb : 1 < base) {k : Nat} (hk : 0 < k) (hn : n < base ^ k) :
    (lowFirst base n).length ≤ k := by
  rw [lowFirst]
  split
  · exact hk
  · exact (Nat.digits_length_le_iff hb n).2 hn

/-- The digits as a loop takes them off, with room for so many. -/
def loop (base : Nat) : Nat → Nat → Option (List Nat)
  | 0, _ => none
  | room + 1, n =>
    if n / base = 0 then some [n % base] else (loop base room (n / base)).map (n % base :: ·)

/-- The loop writes the digits, when there is room for them. -/
theorem loop_eq (hb : 1 < base) {room : Nat} (hroom : (lowFirst base n).length ≤ room) :
    loop base room n = some (lowFirst base n) := by
  induction room generalizing n with
  | zero =>
    rw [lowFirst_step hb] at hroom
    exact absurd hroom (Nat.not_succ_le_zero _)
  | succ room ih =>
    rw [lowFirst_step hb] at hroom ⊢
    rw [loop]
    split
    · rfl
    · next h =>
      rw [if_neg h] at hroom
      rw [ih (Nat.le_of_succ_le_succ hroom)]
      rfl

end

/-! ## Numerals with a sign -/

section
variable {α : Type} {base : Nat}

/-- A sign or none, and the digits of `n`, the highest first. -/
def spell (symbol : Nat → α) (minus : α) (base : Nat) (negative : Bool) (n : Nat) : List α :=
  (if negative then [minus] else []) ++ ((lowFirst base n).map symbol).reverse

/-- The numeral of `v`. -/
def numeral (symbol : Nat → α) (minus : α) (base : Nat) (v : Int) : List α :=
  spell symbol minus base (decide (v < 0)) v.natAbs

/-- The number that the symbols stand for. -/
def readBack [DecidableEq α] (digit : α → Nat) (minus : α) (base : Nat) (text : List α) : Int :=
  if text.head? = some minus then -(Nat.ofDigits base (text.tail.reverse.map digit) : Nat)
  else (Nat.ofDigits base (text.reverse.map digit) : Nat)

variable [DecidableEq α] {symbol : Nat → α} {digit : α → Nat} {minus : α}

/-- **Round trip**: what was spelled is read back. -/
theorem readBack_spell (hb : 1 < base) (hdigit : ∀ d < base, digit (symbol d) = d)
    (hminus : ∀ d < base, symbol d ≠ minus) (negative : Bool) (n : Nat) :
    readBack digit minus base (spell symbol minus base negative n) =
      if negative then -(n : Int) else n := by
  have hmap : ((lowFirst base n).map symbol).map digit = lowFirst base n := by
    rw [List.map_map]
    conv_rhs => rw [← List.map_id (lowFirst base n)]
    exact List.map_congr_left fun d hd => hdigit d (lt_of_mem_lowFirst hb hd)
  cases negative with
  | true =>
    have hhead : (spell symbol minus base true n).head? = some minus := rfl
    rw [readBack, if_pos hhead]
    show -((Nat.ofDigits base (((lowFirst base n).map symbol).reverse.reverse.map digit) : Nat) : Int) = _
    rw [List.reverse_reverse, hmap, ofDigits_lowFirst]
    rfl
  | false =>
    have hhead : (spell symbol minus base false n).head? ≠ some minus := by
      intro h
      have hmem := List.mem_of_mem_head? h
      obtain ⟨d, hd, hsymbol⟩ := List.mem_map.1 (List.mem_reverse.1 hmem)
      exact hminus d (lt_of_mem_lowFirst hb hd) hsymbol
    rw [readBack, if_neg hhead]
    show ((Nat.ofDigits base (((lowFirst base n).map symbol).reverse.reverse.map digit) : Nat) : Int) = _
    rw [List.reverse_reverse, hmap, ofDigits_lowFirst]
    rfl

theorem readBack_numeral (hb : 1 < base) (hdigit : ∀ d < base, digit (symbol d) = d)
    (hminus : ∀ d < base, symbol d ≠ minus) (v : Int) :
    readBack digit minus base (numeral symbol minus base v) = v := by
  rw [numeral, readBack_spell hb hdigit hminus]
  by_cases h : v < 0
  · rw [decide_eq_true h, if_pos rfl]
    omega
  · rw [decide_eq_false h, if_neg Bool.false_ne_true]
    omega

end

end Numerals
