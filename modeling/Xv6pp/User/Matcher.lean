import Mathlib.Computability.Language

/-!
# The matcher of `grep`

`match`, `matchhere` and `matchstar` of `user/grep.c`, on strings without their terminating zero: the
character after the last one of a string is the zero, so that a test of `re[1]` or of `*text` is a
question about the list.

A pattern is read as a sequence of items from left to right.  The items but a final `$` have a
language, and the matcher decides whether a piece of the text belongs to it: a piece at the beginning
if the pattern begins with `^`, and a piece at the end if it ends in the item `$`.
-/

set_option autoImplicit false

namespace Xv6pp

open Computability

namespace Grep

/-! ## The code -/

/-- The character `^`. -/
def caret : UInt8 := 94
/-- The character `$`. -/
def dollar : UInt8 := 36
/-- The character `.`. -/
def dot : UInt8 := 46
/-- The character `*`. -/
def star : UInt8 := 42

mutual

/-- `matchhere`: search for `re` at the beginning of the text. -/
def matchhere (re text : List UInt8) : Bool :=
  match re with
  | [] => true
  | c :: re =>
    if re.head? = some star then matchstar c re.tail text
    else if c = dollar ∧ re = [] then text.isEmpty
    else
      match text with
      | [] => false
      | t :: text => if c = dot ∨ c = t then matchhere re text else false
termination_by (re.length, text.length, 0)

/-- `matchstar`: search for `c*re` at the beginning of the text. -/
def matchstar (c : UInt8) (re text : List UInt8) : Bool :=
  -- a * matches zero or more instances
  if matchhere re text then true
  else
    match text with
    | [] => false
    | t :: text => if t = c ∨ c = dot then matchstar c re text else false
termination_by (re.length, text.length, 1)

end

/-- The loop of `match`, which looks at the empty rest of the text too. -/
def matchFrom (re : List UInt8) : List UInt8 → Bool
  | [] => matchhere re []
  | t :: text => if matchhere re (t :: text) then true else matchFrom re text

/-- `match`. -/
def matchText (re text : List UInt8) : Bool :=
  if re.head? = some caret then matchhere re.tail text else matchFrom re text

/-! ## Patterns -/

/-- The items of a pattern. -/
inductive Item
  /-- A character, or any character for `.`. -/
  | one (c : UInt8)
  /-- Zero or more of them. -/
  | many (c : UInt8)
  /-- The end of the text. -/
  | stop

/-- The items of a pattern, from left to right. -/
def items : List UInt8 → List Item
  | [] => []
  | [c] => if c = dollar then [.stop] else [.one c]
  | c :: d :: re => if d = star then .many c :: items re else .one c :: items (d :: re)

/-- The characters that a character of a pattern stands for. -/
def Stands (c t : UInt8) : Prop := c = dot ∨ c = t

/-- The words of one character that it stands for. -/
def charLanguage (c : UInt8) : Language UInt8 := {w | ∃ t, Stands c t ∧ w = [t]}

/-- The language of an item; the end of the text is a condition on what follows, and adds nothing. -/
def Item.language : Item → Language UInt8
  | .one c => charLanguage c
  | .many c => (charLanguage c)∗
  | .stop => 1

/-- The language of a sequence of items. -/
def language (is : List Item) : Language UInt8 := (is.map Item.language).prod

/-- The sequence ends in the end of the text. -/
def ToEnd (is : List Item) : Prop := is.getLast? = some .stop

section
variable {c d t : UInt8} {re text w : List UInt8} {i : Item} {is : List Item}

@[simp] theorem language_nil : language [] = 1 := rfl

@[simp] theorem language_cons : language (i :: is) = i.language * language is := by
  rw [language, List.map_cons, List.prod_cons]
  rfl

theorem items_single (h : ¬ (c = dollar ∧ re = [])) (hstar : re.head? ≠ some star) :
    items (c :: re) = .one c :: items re := by
  cases re with
  | nil => exact if_neg fun hc => h ⟨hc, rfl⟩
  | cons d re => exact if_neg fun hd => hstar (congrArg some hd)

theorem items_star (hstar : re.head? = some star) : items (c :: re) = .many c :: items re.tail := by
  cases re with
  | nil => cases hstar
  | cons d re => rw [items, if_pos (Option.some.inj hstar), List.tail_cons]

theorem toEnd_nil : ¬ ToEnd [] := by rintro ⟨⟩

/-- An item in front is the last one only if it is the only one. -/
theorem toEnd_cons (h : i ≠ .stop) : ToEnd (i :: is) ↔ ToEnd is := by
  cases is with
  | nil =>
    refine iff_of_false (fun hc => h ?_) toEnd_nil
    exact Option.some.inj hc
  | cons j is => rw [ToEnd, ToEnd, List.getLast?_cons_cons]

/-- A repetition consists of characters that each stand for the item's. -/
theorem mem_many : w ∈ (charLanguage c)∗ ↔ ∀ t ∈ w, Stands c t := by
  rw [Language.mem_kstar]
  constructor
  · rintro ⟨L, rfl, hL⟩ t ht
    obtain ⟨y, hy, hty⟩ := List.mem_flatten.1 ht
    obtain ⟨t', ht', rfl⟩ := hL y hy
    rw [List.mem_singleton.1 hty]
    exact ht'
  · intro h
    refine ⟨w.map fun t => [t], ?_, fun y hy => ?_⟩
    · rw [← List.flatMap_def, List.flatMap_singleton']
    · obtain ⟨t, ht, rfl⟩ := List.mem_map.1 hy
      exact ⟨t, h t ht, rfl⟩

/-! ## What the functions decide -/

/-- `matchstar` skips characters that its own stands for. -/
theorem matchstar_iff : matchstar c re text = true ↔
    ∃ w rest, text = w ++ rest ∧ (∀ t ∈ w, Stands c t) ∧ matchhere re rest = true := by
  induction text with
  | nil =>
    rw [matchstar]
    constructor
    · intro h
      refine ⟨[], [], rfl, fun t ht => absurd ht List.not_mem_nil, ?_⟩
      simpa using h
    · rintro ⟨w, rest, hw, -, hrest⟩
      rw [(List.append_eq_nil_iff.1 hw.symm).2] at hrest
      rw [if_pos hrest]
  | cons t text ih =>
    rw [matchstar]
    by_cases hhere : matchhere re (t :: text) = true
    · rw [if_pos hhere]
      exact iff_of_true rfl ⟨[], t :: text, rfl, fun t ht => absurd ht List.not_mem_nil, hhere⟩
    rw [if_neg hhere]
    constructor
    · intro h
      split at h
      · next ht =>
        obtain ⟨w, rest, rfl, hw, hrest⟩ := ih.1 h
        refine ⟨t :: w, rest, rfl, fun u hu => ?_, hrest⟩
        rcases List.mem_cons.1 hu with rfl | hu
        · exact ht.symm.imp_right Eq.symm
        · exact hw u hu
      · cases h
    · rintro ⟨w, rest, hw, hall, hrest⟩
      cases w with
      | nil => exact absurd (hw ▸ hrest) hhere
      | cons u w =>
        obtain ⟨rfl, rfl⟩ := List.cons.inj hw
        have ht : Stands c t := hall t (List.mem_cons_self ..)
        rw [if_pos (ht.symm.imp_left Eq.symm)]
        exact ih.2 ⟨w, rest, rfl, fun u hu => hall u (List.mem_cons_of_mem _ hu), hrest⟩

/-- A beginning of the text is in the language, and it is the whole text if the items say so. -/
def Here (is : List Item) (text : List UInt8) : Prop :=
  ∃ b rest, text = b ++ rest ∧ b ∈ language is ∧ (ToEnd is → rest = [])

theorem here_nil : Here [] text := ⟨[], text, rfl, rfl, fun h => absurd h toEnd_nil⟩

/-- The first item takes a piece, and the others continue behind it. -/
theorem here_cons (h : i ≠ .stop) :
    Here (i :: is) text ↔ ∃ w rest, text = w ++ rest ∧ w ∈ i.language ∧ Here is rest := by
  constructor
  · rintro ⟨b, rest, rfl, hb, hend⟩
    rw [language_cons] at hb
    obtain ⟨w, hw, b', hb', rfl⟩ := Language.mem_mul.1 hb
    exact ⟨w, b' ++ rest, List.append_assoc .., hw, b', rest, rfl, hb', fun he => hend ((toEnd_cons h).2 he)⟩
  · rintro ⟨w, _, rfl, hw, b, rest, rfl, hb, hend⟩
    refine ⟨w ++ b, rest, (List.append_assoc ..).symm, ?_, fun he => hend ((toEnd_cons h).1 he)⟩
    rw [language_cons]
    exact Language.mem_mul.2 ⟨w, hw, b, hb, rfl⟩

/-- `$` at the end of a pattern. -/
theorem here_stop : Here [.stop] text ↔ text = [] := by
  constructor
  · rintro ⟨b, rest, rfl, hb, hend⟩
    rw [language_cons, language_nil, mul_one] at hb
    rw [hend rfl, show b = [] from hb]
    rfl
  · rintro rfl
    exact ⟨[], [], rfl, by rw [language_cons, language_nil, mul_one]; rfl, fun _ => rfl⟩

/-- **`matchhere`** decides whether a beginning of the text is in the language. -/
theorem matchhere_iff : ∀ {n : Nat} {re text : List UInt8}, re.length ≤ n →
    (matchhere re text = true ↔ Here (items re) text)
  | _, [], text, _ => by
    rw [matchhere]
    exact iff_of_true rfl here_nil
  | 0, c :: re, text, hn => by cases hn
  | n + 1, c :: re, text, hn => by
    have hlen : re.length ≤ n := Nat.le_of_succ_le_succ hn
    rw [matchhere.eq_def]
    dsimp only
    split
    · next hstar =>
      have htail : re.tail.length ≤ n := by
        rw [List.length_tail]
        omega
      rw [matchstar_iff, items_star hstar, here_cons (by rintro ⟨⟩)]
      simp only [Item.language, mem_many, matchhere_iff htail]
    next hstar =>
    split
    · next hstop =>
      obtain ⟨rfl, rfl⟩ := hstop
      rw [List.isEmpty_iff]
      exact here_stop.symm
    next hstop =>
    rw [items_single hstop hstar, here_cons (by rintro ⟨⟩)]
    constructor
    · intro h
      cases text with
      | nil => cases h
      | cons t text =>
        dsimp only at h
        split at h
        · next ht => exact ⟨[t], text, rfl, ⟨t, ht, rfl⟩, (matchhere_iff hlen).1 h⟩
        · cases h
    · rintro ⟨_, rest, rfl, ⟨t, ht, rfl⟩, hrest⟩
      rw [List.singleton_append]
      dsimp only
      rw [if_pos (show c = dot ∨ c = t from ht)]
      exact (matchhere_iff hlen).2 hrest

/-- The loop of `match` finds the first place that will do. -/
theorem matchFrom_iff : matchFrom re text = true ↔ ∃ a rest, text = a ++ rest ∧ matchhere re rest = true := by
  induction text with
  | nil =>
    rw [matchFrom]
    constructor
    · exact fun h => ⟨[], [], rfl, h⟩
    · rintro ⟨a, rest, ha, hrest⟩
      rwa [(List.append_eq_nil_iff.1 ha.symm).2] at hrest
  | cons t text ih =>
    rw [matchFrom]
    constructor
    · intro h
      split at h
      · next hhere => exact ⟨[], t :: text, rfl, hhere⟩
      · obtain ⟨a, rest, rfl, hrest⟩ := ih.1 h
        exact ⟨t :: a, rest, rfl, hrest⟩
    · rintro ⟨a, rest, ha, hrest⟩
      cases a with
      | nil => rw [if_pos (ha ▸ hrest)]
      | cons u a =>
        obtain ⟨rfl, rfl⟩ := List.cons.inj ha
        split
        · rfl
        · exact ih.2 ⟨a, rest, rfl, hrest⟩

end

/-! ## Main result -/

/-- A pattern: whether it begins with `^`, and its items. -/
structure Pattern where
  anchored : Bool
  items : List Item

/-- How a pattern is read. -/
def pattern (re : List UInt8) : Pattern :=
  if re.head? = some caret then ⟨true, items re.tail⟩ else ⟨false, items re⟩

/-- Some piece of the text is in the language of the pattern: a piece at the beginning of the text if
the pattern begins with `^`, and one at its end if the pattern ends in the item `$`. -/
def Pattern.Matches (p : Pattern) (text : List UInt8) : Prop :=
  ∃ a b c, text = a ++ b ++ c ∧ b ∈ language p.items ∧ (p.anchored = true → a = []) ∧
    (ToEnd p.items → c = [])

/-- **The matcher implements its regular expressions**: it returns, and says whether the pattern
matches. -/
theorem match_iff (re text : List UInt8) : matchText re text = true ↔ (pattern re).Matches text := by
  rw [matchText, pattern]
  split
  · rw [matchhere_iff le_rfl]
    constructor
    · rintro ⟨b, c, rfl, hb, hend⟩
      exact ⟨[], b, c, rfl, hb, fun _ => rfl, hend⟩
    · rintro ⟨a, b, c, rfl, hb, hfront, hend⟩
      exact ⟨b, c, by rw [hfront rfl, List.nil_append], hb, hend⟩
  · rw [matchFrom_iff]
    constructor
    · rintro ⟨a, rest, rfl, hrest⟩
      obtain ⟨b, c, rfl, hb, hend⟩ := (matchhere_iff le_rfl).1 hrest
      exact ⟨a, b, c, (List.append_assoc ..).symm, hb, fun h => absurd h Bool.false_ne_true, hend⟩
    · rintro ⟨a, b, c, rfl, hb, -, hend⟩
      exact ⟨a, b ++ c, List.append_assoc .., (matchhere_iff le_rfl).2 ⟨b, c, rfl, hb, hend⟩⟩

end Grep

end Xv6pp
