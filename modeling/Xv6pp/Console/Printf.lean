import Mathlib.Data.BitVec
import Xv6pp.Lib.Wp
import Xv6pp.Lib.Numerals

/-!
# Formatted output

`printf` and `vprintf` of `kernel/printf.cpp` and `vprintf` of `user/printf.c`.  A format is read
through a pointer: what the model has of it at any moment is the list of the bytes from `fmt[i]` up to
the terminating zero, so that a program that reads past the zero asks for a byte that is not there.

The arguments are the words of the `va_list`; `va_arg` takes the next one and converts it to its type.
The lock that keeps the output of two processors apart is left out.
-/

set_option autoImplicit false

namespace Xv6pp

namespace Printf

open Prog

/-! ## Output and arguments -/

/-- Why a call does not return. -/
inductive Fault
  /-- A byte of the format beyond its terminating zero is read. -/
  | overread
  /-- An argument is taken and there is none. -/
  | noArgument
  /-- More than the digit buffer holds is stored in it. -/
  | overrun
  deriving DecidableEq

/-- What a call has written, and the arguments it has not yet taken. -/
structure Printer where
  out : List UInt8
  args : List (BitVec 64)
  deriving DecidableEq

abbrev PrintM := StateT Printer (Except Fault)

/-- `console.putc(c)`, and `putc(fd, c)` of the user's library. -/
def putc (c : UInt8) : PrintM PUnit := modify fun p => { p with out := p.out ++ [c] }

/-- A loop of `putc`. -/
def putAll (text : List UInt8) : PrintM PUnit := text.forM putc

/-- The next word of the `va_list`. -/
def nextWord : PrintM (BitVec 64) := do
  match (← get).args with
  | [] => throw .noArgument
  | w :: ws =>
    modify fun p => { p with args := ws }
    pure w

/-- `va_arg(ap, int)`, converted to `long long`. -/
def vaArgInt : PrintM (BitVec 64) := do
  let w ← nextWord
  pure ((w.setWidth 32).signExtend 64)

/-- `va_arg(ap, uint32)`, converted to `long long`. -/
def vaArgUint32 : PrintM (BitVec 64) := do
  let w ← nextWord
  pure ((w.setWidth 32).setWidth 64)

/-- `va_arg(ap, uint64)`, and a pointer. -/
def vaArgUint64 : PrintM (BitVec 64) := nextWord

/-- `'-'`. -/
def minus : UInt8 := 45

/-- `'%'`. -/
def percent : UInt8 := 37

/-- The digits of the kernel, `"0123456789abcdef"`. -/
def digits : List UInt8 := [48, 49, 50, 51, 52, 53, 54, 55, 56, 57, 97, 98, 99, 100, 101, 102]

/-- The digits of the user's library, `"0123456789ABCDEF"`. -/
def userDigits : List UInt8 := [48, 49, 50, 51, 52, 53, 54, 55, 56, 57, 65, 66, 67, 68, 69, 70]

/-- `"(null)"`. -/
def nullText : List UInt8 := [40, 110, 117, 108, 108, 41]

/-- The size of the digit buffer. -/
def bufSize : Nat := 32

/-- `printint(xx, base, sign)` with the digits `table` and a working variable `x` of `width` bits.  The
negation of the most negative number is itself, read without sign. -/
def printintWith (table : List UInt8) (width : Nat) (xx : BitVec 64) (base : Nat) (sign : Bool) :
    PrintM PUnit :=
  let negative := sign && xx.msb
  let x := (if negative then -xx else xx).setWidth width
  match Numerals.loop base bufSize x.toNat with
  | none => throw .overrun
  | some ds =>
    let buf := ds.map (table.getD · 0) ++ if negative then [minus] else []
    if bufSize < buf.length then throw .overrun else putAll buf.reverse

/-- The loop of `printptr`: the digit at the top, then the next below it. -/
def ptrDigits (table : List UInt8) : Nat → BitVec 64 → List UInt8
  | 0, _ => []
  | n + 1, x => table.getD (x >>> 60).toNat 0 :: ptrDigits table n (x <<< 4)

/-- `printptr(x)`: `"0x"` and sixteen digits. -/
def printptrWith (table : List UInt8) (x : BitVec 64) : PrintM PUnit :=
  putAll ([48, 120] ++ ptrDigits table 16 x)

/-! ## Conversions -/

/-- What differs between the library of the kernel and that of the user, in a conversion. -/
structure Port where
  table : List UInt8
  /-- The width of the working variable of `printint`. -/
  width : Nat
  /-- `va_arg` for `%u` and `%x`. -/
  vaArgUnsigned : PrintM (BitVec 64)
  /-- Whether `%c` is understood. -/
  chars : Bool

/-- `kernel/printf.cpp`. -/
def kernelPort : Port := ⟨digits, 64, vaArgInt, false⟩

/-- `user/printf.c`. -/
def userPort : Port := ⟨userDigits, 32, vaArgUint32, true⟩

/-- The branches of a conversion: what is done for the characters `c0`, `c1` and `c2` after a percent
sign and how far `i` is moved, or nothing when they are not a conversion.  `str` has the bytes of the
string at an address, up to its zero. -/
def conversion (port : Port) (str : BitVec 64 → List UInt8) (c0 c1 c2 : UInt8) :
    Option (PrintM PUnit × Nat) :=
  if c0 = 100 then some (vaArgInt >>= fun xx => printintWith port.table port.width xx 10 true, 0)
  else if c0 = 108 ∧ c1 = 100 then
    some (vaArgUint64 >>= fun xx => printintWith port.table port.width xx 10 true, 1)
  else if c0 = 108 ∧ c1 = 108 ∧ c2 = 100 then
    some (vaArgUint64 >>= fun xx => printintWith port.table port.width xx 10 true, 2)
  else if c0 = 117 then
    some (port.vaArgUnsigned >>= fun xx => printintWith port.table port.width xx 10 false, 0)
  else if c0 = 108 ∧ c1 = 117 then
    some (vaArgUint64 >>= fun xx => printintWith port.table port.width xx 10 false, 1)
  else if c0 = 108 ∧ c1 = 108 ∧ c2 = 117 then
    some (vaArgUint64 >>= fun xx => printintWith port.table port.width xx 10 false, 2)
  else if c0 = 120 then
    some (port.vaArgUnsigned >>= fun xx => printintWith port.table port.width xx 16 false, 0)
  else if c0 = 108 ∧ c1 = 120 then
    some (vaArgUint64 >>= fun xx => printintWith port.table port.width xx 16 false, 1)
  else if c0 = 108 ∧ c1 = 108 ∧ c2 = 120 then
    some (vaArgUint64 >>= fun xx => printintWith port.table port.width xx 16 false, 2)
  else if c0 = 112 then some (vaArgUint64 >>= printptrWith port.table, 0)
  else if c0 = 99 ∧ port.chars then some (vaArgUint32 >>= fun c => putc (.ofBitVec (c.setWidth 8)), 0)
  else if c0 = 115 then
    some (vaArgUint64 >>= fun s => putAll (if s = 0 then nullText else str s), 0)
  else if c0 = percent then some (putc percent, 0)
  else none

/-- `fmt[k]`. -/
def byteAt (fmt : List UInt8) (k : Nat) : PrintM UInt8 :=
  match fmt[k]? with
  | none => throw .overread
  | some c => pure c

/-- `c1` and `c2`, read from the bytes behind `c0`; no byte behind a zero is read. -/
def lookahead (c0 : UInt8) (fmt : List UInt8) : PrintM (UInt8 × UInt8) := do
  let c1 ← if c0 ≠ 0 then byteAt fmt 0 else pure 0
  let c2 ← if c1 ≠ 0 then byteAt fmt 1 else pure 0
  pure (c1, c2)

/-! ## The loops -/

/-- The loop of the kernel's `printf`, from `fmt[i]` on. -/
def printfFrom (str : BitVec 64 → List UInt8) : List UInt8 → PrintM PUnit
  | [] => throw .overread
  | cx :: fmt =>
    if cx = 0 then pure ()
    else if cx ≠ percent then do
      putc cx
      printfFrom str fmt
    else
      match fmt with
      | [] => throw .overread
      | c0 :: fmt => do
        let (c1, c2) ← lookahead c0 fmt
        match conversion kernelPort str c0 c1 c2 with
        | some (act, k) => do
          act
          printfFrom str (fmt.drop k)
        | none =>
          if c0 = 0 then pure ()
          else do
            putc percent
            putc c0
            printfFrom str fmt
termination_by fmt => fmt.length
decreasing_by all_goals simp only [List.length_cons, List.length_drop]; omega

/-- The loop of the kernel's `vprintf`, from `fmt[i]` on.  It has no branch for a format that ends
behind a percent sign. -/
def vprintfFrom (str : BitVec 64 → List UInt8) : List UInt8 → PrintM PUnit
  | [] => throw .overread
  | cx :: fmt =>
    if cx = 0 then pure ()
    else if cx ≠ percent then do
      putc cx
      vprintfFrom str fmt
    else
      match fmt with
      | [] => throw .overread
      | c0 :: fmt => do
        let (c1, c2) ← lookahead c0 fmt
        match conversion kernelPort str c0 c1 c2 with
        | some (act, k) => do
          act
          vprintfFrom str (fmt.drop k)
        | none => do
          putc percent
          putc c0
          vprintfFrom str fmt
termination_by fmt => fmt.length
decreasing_by all_goals simp only [List.length_cons, List.length_drop]; omega

/-- The loop of the user's `vprintf`, from `fmt[i]` on; `directive` says that `state` is `'%'`. -/
def userVprintfFrom (str : BitVec 64 → List UInt8) (directive : Bool) : List UInt8 → PrintM PUnit
  | [] => throw .overread
  | c0 :: fmt =>
    if c0 = 0 then pure ()
    else if ¬ directive then
      if c0 = percent then userVprintfFrom str true fmt
      else do
        putc c0
        userVprintfFrom str false fmt
    else do
      let (c1, c2) ← lookahead c0 fmt
      match conversion userPort str c0 c1 c2 with
      | some (act, k) => do
        act
        userVprintfFrom str false (fmt.drop k)
      | none => do
        putc percent
        putc c0
        userVprintfFrom str false fmt
termination_by fmt => fmt.length
decreasing_by all_goals simp only [List.length_cons, List.length_drop]; omega

/-- A format that is ended by a zero. -/
def terminated (fmt : List UInt8) : List UInt8 := fmt ++ [0]

/-- A call: what is written and the arguments that are left, or why it does not return. -/
def call (loop : PrintM PUnit) (args : List (BitVec 64)) : Except Fault Printer :=
  (loop.run ⟨[], args⟩).map Prod.snd

/-- `printf(fmt, ...)` of the kernel. -/
def printf (str : BitVec 64 → List UInt8) (fmt : List UInt8) (args : List (BitVec 64)) :
    Except Fault Printer := call (printfFrom str (terminated fmt)) args

/-- `vprintf(fmt, ap)` of the kernel. -/
def vprintf (str : BitVec 64 → List UInt8) (fmt : List UInt8) (args : List (BitVec 64)) :
    Except Fault Printer := call (vprintfFrom str (terminated fmt)) args

/-- `vprintf(fd, fmt, ap)` of the user's library. -/
def userVprintf (str : BitVec 64 → List UInt8) (fmt : List UInt8) (args : List (BitVec 64)) :
    Except Fault Printer := call (userVprintfFrom str false (terminated fmt)) args

/-! ## Digits that are right -/

/-- A table of digits in which the digits of the bases in use are found again. -/
def Legible (table : List UInt8) : Prop :=
  ∀ d < 16, table.idxOf (table.getD d 0) = d ∧ table.getD d 0 ≠ minus

theorem legible_digits : Legible digits := by
  unfold Legible
  decide

theorem legible_userDigits : Legible userDigits := by
  unfold Legible
  decide

/-- What `printint` takes for the number that it is to print. -/
def given (xx : BitVec 64) (sign : Bool) : Int := if sign then xx.toInt else xx.toNat

/-- The text of a number whose magnitude has gone through a variable of `width` bits. -/
def written (table : List UInt8) (width base : Nat) (v : Int) : List UInt8 :=
  Numerals.spell (table.getD · 0) minus base (decide (v < 0)) (v.natAbs % 2 ^ width)

/-- The numeral of a number. -/
def numeral (table : List UInt8) (base : Nat) (v : Int) : List UInt8 :=
  Numerals.numeral (table.getD · 0) minus base v

theorem natAbs_given_lt (xx : BitVec 64) (sign : Bool) : (given xx sign).natAbs < 2 ^ 64 := by
  have := xx.isLt
  have := xx.toInt_lt
  have := xx.le_toInt
  rw [given]
  split <;> omega

section
variable {table : List UInt8} {width base : Nat} {p : Printer}

theorem putAll_run (text : List UInt8) : (putAll text).run p = .ok ((), { p with out := p.out ++ text }) := by
  induction text generalizing p with
  | nil =>
    rw [List.append_nil]
    rfl
  | cons c text ih =>
    have h : (putAll (c :: text)).run p = (putAll text).run { p with out := p.out ++ [c] } := rfl
    rw [h, ih, List.append_assoc]
    rfl

/-- The sign and the working variable of `printint`. -/
theorem working_variable (xx : BitVec 64) (sign : Bool) :
    (sign && xx.msb) = decide (given xx sign < 0) ∧
    ((if sign && xx.msb then -xx else xx).setWidth width).toNat = (given xx sign).natAbs % 2 ^ width := by
  have hlt := xx.isLt
  rw [given, BitVec.toNat_setWidth]
  cases sign with
  | false =>
    refine ⟨?_, ?_⟩
    · rw [Bool.false_and, if_neg Bool.false_ne_true, decide_eq_false]
      omega
    · rw [Bool.false_and, if_neg Bool.false_ne_true, if_neg Bool.false_ne_true, Int.natAbs_natCast]
  | true =>
    rw [Bool.true_and, if_pos rfl, BitVec.msb_eq_toInt]
    refine ⟨rfl, ?_⟩
    congr 1
    by_cases h : xx.toInt < 0
    · rw [decide_eq_true h, if_pos rfl, BitVec.toNat_neg]
      rw [BitVec.toInt_eq_toNat_cond] at h ⊢
      split at h <;> omega
    · rw [decide_eq_false h, if_neg Bool.false_ne_true]
      rw [BitVec.toInt_eq_toNat_cond] at h ⊢
      split at h <;> omega

/-- **`printint`** writes the digits of the number it is given, less what does not fit into its working
variable.  The digit buffer is large enough. -/
theorem printintWith_run (hbase : 10 ≤ base) (xx : BitVec 64) (sign : Bool) :
    (printintWith table width xx base sign).run p =
      .ok ((), { p with out := p.out ++ written table width base (given xx sign) }) := by
  obtain ⟨hsign, hx⟩ := @working_variable width xx sign
  have hb : 1 < base := Nat.lt_of_lt_of_le (by decide) hbase
  have hsmall : (given xx sign).natAbs % 2 ^ width < base ^ 20 := by
    calc (given xx sign).natAbs % 2 ^ width ≤ (given xx sign).natAbs := Nat.mod_le ..
      _ < 2 ^ 64 := natAbs_given_lt xx sign
      _ < 10 ^ 20 := by decide
      _ ≤ base ^ 20 := Nat.pow_le_pow_left hbase 20
  have hlength := Numerals.length_lowFirst_le hb (by decide) hsmall
  have hloop := Numerals.loop_eq hb (Nat.le_trans hlength (by decide : 20 ≤ bufSize))
  simp only [printintWith]
  rw [hx, hsign, hloop]
  have hroom : ¬ bufSize < ((Numerals.lowFirst base ((given xx sign).natAbs % 2 ^ width)).map
      (table.getD · 0) ++ if decide (given xx sign < 0) then [minus] else []).length := by
    rw [List.length_append, List.length_map, bufSize]
    split
    · rw [List.length_singleton]
      omega
    · rw [List.length_nil]
      omega
  simp only [if_neg hroom]
  rw [putAll_run, List.reverse_append, written, Numerals.spell]
  split <;> rfl

theorem readBack_numeral (htable : Legible table) (hbase : 10 ≤ base) (hbase' : base ≤ 16) (v : Int) :
    Numerals.readBack (fun c => table.idxOf c) minus base (numeral table base v) = v :=
  Numerals.readBack_numeral (Nat.lt_of_lt_of_le (by decide) hbase)
    (fun d hd => (htable d (Nat.lt_of_lt_of_le hd hbase')).1)
    (fun d hd => (htable d (Nat.lt_of_lt_of_le hd hbase')).2) v

/-- What is written is the numeral of `v` just if it was written for `v` and `v` fits. -/
theorem written_eq_numeral_iff (htable : Legible table) (hbase : 10 ≤ base) (hbase' : base ≤ 16)
    {u v : Int} (h : u = v ∨ u.natAbs < 2 ^ width) :
    written table width base u = numeral table base v ↔ u = v ∧ v.natAbs < 2 ^ width := by
  constructor
  · intro heq
    have hread := readBack_numeral htable hbase hbase' v
    rw [← heq, written, Numerals.readBack_spell (Nat.lt_of_lt_of_le (by decide) hbase)
      (fun d hd => (htable d (Nat.lt_of_lt_of_le hd hbase')).1)
      (fun d hd => (htable d (Nat.lt_of_lt_of_le hd hbase')).2)] at hread
    have hlt := Nat.mod_lt u.natAbs (Nat.two_pow_pos width)
    have habs : v.natAbs = u.natAbs % 2 ^ width := by
      rw [← hread]
      split <;> omega
    refine ⟨?_, habs ▸ hlt⟩
    obtain h | h := h
    · exact h
    · rw [Nat.mod_eq_of_lt h] at hread
      by_cases hneg : u < 0
      · rw [decide_eq_true hneg, if_pos rfl] at hread
        omega
      · rw [decide_eq_false hneg, if_neg Bool.false_ne_true] at hread
        omega
  · rintro ⟨rfl, hlt⟩
    rw [written, Nat.mod_eq_of_lt hlt]
    rfl

end

/-! ## Integer conversions -/

/-- The letter of an integer conversion. -/
inductive Letter
  | d
  | u
  | x
  deriving DecidableEq

/-- The length of an integer conversion: `%d`, `%ld` or `%lld`. -/
inductive Length
  | int
  | l
  | ll
  deriving DecidableEq

namespace Letter

def char : Letter → UInt8
  | d => 100
  | u => 117
  | x => 120

def base : Letter → Nat
  | d | u => 10
  | x => 16

def signed : Letter → Bool
  | d => true
  | u | x => false

theorem base_bounds (c : Letter) : 10 ≤ c.base ∧ c.base ≤ 16 := by
  cases c <;> decide

end Letter

/-- The characters of a conversion behind the percent sign. -/
def spelling (c : Letter) : Length → List UInt8
  | .int => [c.char]
  | .l => [108, c.char]
  | .ll => [108, 108, c.char]

/-- The argument of a conversion that is passed in the word `w`: its lower half or all of it, with or
without sign. -/
def argument (c : Letter) (n : Length) (w : BitVec 64) : Int :=
  if n = .int then
    if c.signed then (w.setWidth 32).toInt else (w.setWidth 32).toNat
  else given w c.signed

/-- What a conversion passes to `printint`. -/
def fetch (port : Port) (c : Letter) (n : Length) : PrintM (BitVec 64) :=
  if n = .int then if c.signed then vaArgInt else port.vaArgUnsigned else vaArgUint64

/-! ## Steps of the loops -/

section
variable {str : BitVec 64 → List UInt8} {fmt : List UInt8} {port : Port} {c0 : UInt8}

theorem lookahead_terminated (hfmt : 0 ∉ fmt) (hc0 : c0 ≠ 0) :
    lookahead c0 (terminated fmt) = pure (fmt.getD 0 0, fmt.getD 1 0) := by
  rw [lookahead, if_pos hc0]
  cases fmt with
  | nil => rfl
  | cons c1 fmt =>
    have hc1 : c1 ≠ 0 := fun h => hfmt (h ▸ List.mem_cons_self ..)
    show (do
      let c2 ← if c1 ≠ 0 then byteAt (c1 :: terminated fmt) 1 else pure 0
      pure (c1, c2) : PrintM (UInt8 × UInt8)) = _
    rw [if_pos hc1]
    cases fmt <;> rfl

/-- The action of an integer conversion. -/
def intAction (port : Port) (c : Letter) (n : Length) : PrintM PUnit :=
  fetch port c n >>= fun xx => printintWith port.table port.width xx c.base c.signed

/-- The characters of an integer conversion select its branch. -/
theorem conversion_spelling (c : Letter) (n : Length) :
    ∃ c0 skipped, spelling c n = c0 :: skipped ∧ c0 ≠ 0 ∧ 0 ∉ skipped ∧
      conversion port str c0 ((skipped ++ fmt).getD 0 0) ((skipped ++ fmt).getD 1 0) =
        some (intAction port c n, skipped.length) := by
  cases n with
  | int =>
    refine ⟨c.char, [], rfl, ?_, List.not_mem_nil, ?_⟩ <;> cases c <;> first | decide | rfl
  | l =>
    refine ⟨108, [c.char], rfl, by decide, ?_, ?_⟩ <;> cases c <;> first | decide | rfl
  | ll =>
    refine ⟨108, [108, c.char], rfl, by decide, ?_, ?_⟩ <;> cases c <;> first | decide | rfl

theorem some_of_ite {α : Type} {P : Prop} [Decidable P] {a b : α} {o : Option α}
    (h : (if P then some a else o) = some b) : P ∧ a = b ∨ o = some b := by
  split at h
  · next hP => exact .inl ⟨hP, Option.some.inj h⟩
  · exact .inr h

/-- The branches of a conversion. -/
theorem conversion_cases {c1 c2 : UInt8} {act : PrintM PUnit} {k : Nat}
    (h : conversion port str c0 c1 c2 = some (act, k)) :
    (∃ c n, act = intAction port c n ∧ k + 1 = (spelling c n).length ∧
      spelling c n = c0 :: [c1, c2].take k) ∨
    k = 0 ∧ c0 ≠ 0 ∧ (act = putc percent ∨
      (∃ text : BitVec 64 → List UInt8, act = vaArgUint64 >>= fun x => putAll (text x)) ∨
      ∃ ch : BitVec 64 → UInt8, act = vaArgUint32 >>= fun x => putc (ch x)) := by
  rw [conversion] at h
  obtain ⟨rfl, ⟨⟩⟩ | h := some_of_ite h
  · exact .inl ⟨.d, .int, rfl, rfl, rfl⟩
  obtain ⟨⟨rfl, rfl⟩, ⟨⟩⟩ | h := some_of_ite h
  · exact .inl ⟨.d, .l, rfl, rfl, rfl⟩
  obtain ⟨⟨rfl, rfl, rfl⟩, ⟨⟩⟩ | h := some_of_ite h
  · exact .inl ⟨.d, .ll, rfl, rfl, rfl⟩
  obtain ⟨rfl, ⟨⟩⟩ | h := some_of_ite h
  · exact .inl ⟨.u, .int, rfl, rfl, rfl⟩
  obtain ⟨⟨rfl, rfl⟩, ⟨⟩⟩ | h := some_of_ite h
  · exact .inl ⟨.u, .l, rfl, rfl, rfl⟩
  obtain ⟨⟨rfl, rfl, rfl⟩, ⟨⟩⟩ | h := some_of_ite h
  · exact .inl ⟨.u, .ll, rfl, rfl, rfl⟩
  obtain ⟨rfl, ⟨⟩⟩ | h := some_of_ite h
  · exact .inl ⟨.x, .int, rfl, rfl, rfl⟩
  obtain ⟨⟨rfl, rfl⟩, ⟨⟩⟩ | h := some_of_ite h
  · exact .inl ⟨.x, .l, rfl, rfl, rfl⟩
  obtain ⟨⟨rfl, rfl, rfl⟩, ⟨⟩⟩ | h := some_of_ite h
  · exact .inl ⟨.x, .ll, rfl, rfl, rfl⟩
  obtain ⟨rfl, ⟨⟩⟩ | h := some_of_ite h
  · exact .inr ⟨rfl, by decide, .inr (.inl ⟨_, rfl⟩)⟩
  obtain ⟨⟨rfl, -⟩, ⟨⟩⟩ | h := some_of_ite h
  · exact .inr ⟨rfl, by decide, .inr (.inr ⟨_, rfl⟩)⟩
  obtain ⟨rfl, ⟨⟩⟩ | h := some_of_ite h
  · exact .inr ⟨rfl, by decide, .inr (.inl ⟨_, rfl⟩)⟩
  obtain ⟨rfl, ⟨⟩⟩ | h := some_of_ite h
  · exact .inr ⟨rfl, by decide, .inl rfl⟩
  exact nomatch h

/-- What is moved over lies behind `c0` in the format and has no percent sign. -/
theorem conversion_skips {act : PrintM PUnit} {k : Nat}
    (h : conversion port str c0 (fmt.getD 0 0) (fmt.getD 1 0) = some (act, k)) :
    c0 ≠ 0 ∧ ∃ skipped rest, fmt = skipped ++ rest ∧ skipped.length = k ∧ percent ∉ skipped := by
  obtain ⟨c, n, -, hk, hspelling⟩ | ⟨rfl, hc0, -⟩ := conversion_cases h
  · cases n with
    | int =>
      obtain rfl : k = 0 := Nat.succ.inj hk
      obtain ⟨rfl, -⟩ := List.cons.inj hspelling
      exact ⟨by cases c <;> decide, [], fmt, rfl, rfl, List.not_mem_nil⟩
    | l =>
      obtain rfl : k = 1 := Nat.succ.inj hk
      obtain ⟨rfl, hskipped⟩ := List.cons.inj hspelling
      obtain ⟨hc1, -⟩ := List.cons.inj hskipped
      cases fmt with
      | nil => cases c <;> exact absurd hc1 (by decide)
      | cons c1 fmt =>
        obtain rfl : c.char = c1 := hc1
        exact ⟨by decide, [c.char], fmt, rfl, rfl, by cases c <;> decide⟩
    | ll =>
      obtain rfl : k = 2 := Nat.succ.inj hk
      obtain ⟨rfl, hskipped⟩ := List.cons.inj hspelling
      obtain ⟨hc1, hskipped⟩ := List.cons.inj hskipped
      obtain ⟨hc2, -⟩ := List.cons.inj hskipped
      cases fmt with
      | nil => exact absurd hc1 (by decide)
      | cons c1 fmt =>
        obtain rfl : 108 = c1 := hc1
        cases fmt with
        | nil => cases c <;> exact absurd hc2 (by decide)
        | cons c2 fmt =>
          obtain rfl : c.char = c2 := hc2
          exact ⟨by decide, [108, c.char], fmt, rfl, rfl, by cases c <;> decide⟩
  · exact ⟨hc0, [], fmt, rfl, rfl, List.not_mem_nil⟩

/-- **Induction on a format**: a character, a percent sign at the end, or a percent sign with what
follows it. -/
theorem format_induction {P : List UInt8 → Prop} (hnil : P [])
    (hplain : ∀ c fmt, c ≠ percent → P fmt → P (c :: fmt)) (hlast : P [percent])
    (hdirective : ∀ c0 fmt, (∀ skipped rest, fmt = skipped ++ rest → P rest) → P (percent :: c0 :: fmt))
    (fmt : List UInt8) : P fmt := by
  induction h : fmt.length using Nat.strong_induction_on generalizing fmt with
  | _ n ih =>
    subst h
    cases fmt with
    | nil => exact hnil
    | cons c fmt =>
      by_cases hc : c = percent
      · subst hc
        cases fmt with
        | nil => exact hlast
        | cons c0 fmt =>
          refine hdirective c0 fmt fun skipped rest hrest => ih _ ?_ rest rfl
          rw [hrest, List.length_cons, List.length_cons, List.length_append]
          omega
      · exact hplain c fmt hc (ih _ (Nat.lt_succ_self _) fmt rfl)

theorem drop_terminated {skipped rest : List UInt8} (k : Nat) (hk : skipped.length = k) :
    (terminated (skipped ++ rest)).drop k = terminated rest := by
  rw [terminated, List.append_assoc, ← hk, List.drop_left]
  rfl

theorem terminated_nil : terminated [] = [0] := rfl

theorem terminated_cons (c : UInt8) : terminated (c :: fmt) = c :: terminated fmt := rfl

theorem terminated_ne_nil : ∃ c l, terminated fmt = c :: l := by
  cases fmt with
  | nil => exact ⟨0, [], rfl⟩
  | cons c fmt => exact ⟨c, terminated fmt, rfl⟩

theorem printfFrom_nil : printfFrom str (terminated []) = pure () := by
  rw [terminated_nil, printfFrom, if_pos rfl]

theorem printfFrom_plain {c : UInt8} (hc : c ≠ 0) (hp : c ≠ percent) :
    printfFrom str (terminated (c :: fmt)) = putc c >>= fun _ => printfFrom str (terminated fmt) := by
  obtain ⟨c', l, hl⟩ := @terminated_ne_nil fmt
  rw [terminated_cons, hl, printfFrom, if_neg hc, if_pos hp]

theorem printfFrom_last : printfFrom str (terminated [percent]) = pure () := by
  rw [terminated_cons, terminated_nil, printfFrom, if_neg (by decide), if_neg (by decide)]
  rfl

theorem printfFrom_conversion (hc0 : c0 ≠ 0) (hfmt : 0 ∉ fmt) {act : PrintM PUnit} {k : Nat}
    (h : conversion kernelPort str c0 (fmt.getD 0 0) (fmt.getD 1 0) = some (act, k)) :
    printfFrom str (terminated (percent :: c0 :: fmt)) =
      act >>= fun _ => printfFrom str ((terminated fmt).drop k) := by
  rw [terminated_cons, terminated_cons, printfFrom, if_neg (by decide), if_neg (by decide),
    lookahead_terminated hfmt hc0, pure_bind]
  simp only [h]

theorem printfFrom_unknown (hc0 : c0 ≠ 0) (hfmt : 0 ∉ fmt)
    (h : conversion kernelPort str c0 (fmt.getD 0 0) (fmt.getD 1 0) = none) :
    printfFrom str (terminated (percent :: c0 :: fmt)) =
      putc percent >>= fun _ => putc c0 >>= fun _ => printfFrom str (terminated fmt) := by
  rw [terminated_cons, terminated_cons, printfFrom, if_neg (by decide), if_neg (by decide),
    lookahead_terminated hfmt hc0, pure_bind]
  simp only [h, if_neg hc0]

theorem vprintfFrom_nil : vprintfFrom str (terminated []) = pure () := by
  rw [terminated_nil, vprintfFrom, if_pos rfl]

theorem vprintfFrom_plain {c : UInt8} (hc : c ≠ 0) (hp : c ≠ percent) :
    vprintfFrom str (terminated (c :: fmt)) = putc c >>= fun _ => vprintfFrom str (terminated fmt) := by
  obtain ⟨c', l, hl⟩ := @terminated_ne_nil fmt
  rw [terminated_cons, hl, vprintfFrom, if_neg hc, if_pos hp]

/-- Behind a percent sign at the end of the format `vprintf` takes the zero for an unknown character,
and goes on behind it. -/
theorem vprintfFrom_last : vprintfFrom str (terminated [percent]) =
    putc percent >>= fun _ => putc 0 >>= fun _ => throw .overread := by
  rw [terminated_cons, terminated_nil, vprintfFrom, if_neg (by decide), if_neg (by decide)]
  show (putc percent >>= fun _ => putc 0 >>= fun _ => vprintfFrom str []) = _
  rw [vprintfFrom]

theorem vprintfFrom_conversion (hc0 : c0 ≠ 0) (hfmt : 0 ∉ fmt) {act : PrintM PUnit} {k : Nat}
    (h : conversion kernelPort str c0 (fmt.getD 0 0) (fmt.getD 1 0) = some (act, k)) :
    vprintfFrom str (terminated (percent :: c0 :: fmt)) =
      act >>= fun _ => vprintfFrom str ((terminated fmt).drop k) := by
  rw [terminated_cons, terminated_cons, vprintfFrom, if_neg (by decide), if_neg (by decide),
    lookahead_terminated hfmt hc0, pure_bind]
  simp only [h]

theorem vprintfFrom_unknown (hc0 : c0 ≠ 0) (hfmt : 0 ∉ fmt)
    (h : conversion kernelPort str c0 (fmt.getD 0 0) (fmt.getD 1 0) = none) :
    vprintfFrom str (terminated (percent :: c0 :: fmt)) =
      putc percent >>= fun _ => putc c0 >>= fun _ => vprintfFrom str (terminated fmt) := by
  rw [terminated_cons, terminated_cons, vprintfFrom, if_neg (by decide), if_neg (by decide),
    lookahead_terminated hfmt hc0, pure_bind]
  simp only [h]

theorem userVprintfFrom_nil (directive : Bool) :
    userVprintfFrom str directive (terminated []) = pure () := by
  rw [terminated_nil, userVprintfFrom, if_pos rfl]

theorem userVprintfFrom_plain {c : UInt8} (hc : c ≠ 0) (hp : c ≠ percent) :
    userVprintfFrom str false (terminated (c :: fmt)) =
      putc c >>= fun _ => userVprintfFrom str false (terminated fmt) := by
  rw [terminated_cons, userVprintfFrom, if_neg hc, if_pos Bool.false_ne_true, if_neg hp]

theorem userVprintfFrom_percent :
    userVprintfFrom str false (terminated (percent :: fmt)) =
      userVprintfFrom str true (terminated fmt) := by
  rw [terminated_cons, userVprintfFrom, if_neg (by decide), if_pos Bool.false_ne_true, if_pos rfl]

theorem userVprintfFrom_conversion (hc0 : c0 ≠ 0) (hfmt : 0 ∉ fmt) {act : PrintM PUnit} {k : Nat}
    (h : conversion userPort str c0 (fmt.getD 0 0) (fmt.getD 1 0) = some (act, k)) :
    userVprintfFrom str false (terminated (percent :: c0 :: fmt)) =
      act >>= fun _ => userVprintfFrom str false ((terminated fmt).drop k) := by
  rw [userVprintfFrom_percent, terminated_cons, userVprintfFrom, if_neg hc0, if_neg (not_not.2 rfl),
    lookahead_terminated hfmt hc0, pure_bind]
  simp only [h]

theorem userVprintfFrom_unknown (hc0 : c0 ≠ 0) (hfmt : 0 ∉ fmt)
    (h : conversion userPort str c0 (fmt.getD 0 0) (fmt.getD 1 0) = none) :
    userVprintfFrom str false (terminated (percent :: c0 :: fmt)) =
      putc percent >>= fun _ => putc c0 >>= fun _ => userVprintfFrom str false (terminated fmt) := by
  rw [userVprintfFrom_percent, terminated_cons, userVprintfFrom, if_neg hc0, if_neg (not_not.2 rfl),
    lookahead_terminated hfmt hc0, pure_bind]
  simp only [h]

end

end Printf

end Xv6pp
