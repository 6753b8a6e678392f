import Xv6pp.Console.Printf

/-!
# Formats and the three libraries

What the loops of `Printf` do with whole formats.

* `integer_conversions` says for which arguments an integer conversion prints the argument.  The kernel
  fetches the arguments of `%u` and `%x` as if they had a sign, and the user's library has a working
  variable of 32 bits.
* `vprintf_agrees_iff` says on which formats the two loops of the kernel agree: on those that do not
  end in the middle of a conversion.
-/

set_option autoImplicit false

namespace Xv6pp

namespace Printf

open Prog

/-! ## The libraries -/

/-- The functions that interpret a format. -/
inductive Library
  /-- `printf` of the kernel. -/
  | printf
  /-- `vprintf` of the kernel. -/
  | vprintf
  /-- `vprintf` of the user's library. -/
  | userVprintf
  deriving DecidableEq

namespace Library

def port : Library → Port
  | printf | vprintf => kernelPort
  | userVprintf => userPort

/-- The loop, from `fmt[i]` on, outside of a conversion. -/
def loop (str : BitVec 64 → List UInt8) : Library → List UInt8 → PrintM PUnit
  | printf => printfFrom str
  | vprintf => vprintfFrom str
  | userVprintf => userVprintfFrom str false

section
variable {str : BitVec 64 → List UInt8} {fmt : List UInt8} {c0 : UInt8}

theorem loop_nil (lib : Library) : lib.loop str (terminated []) = pure () := by
  cases lib with
  | printf => exact printfFrom_nil
  | vprintf => exact vprintfFrom_nil
  | userVprintf => exact userVprintfFrom_nil false

theorem loop_plain (lib : Library) {c : UInt8} (hc : c ≠ 0) (hp : c ≠ percent) :
    lib.loop str (terminated (c :: fmt)) = putc c >>= fun _ => lib.loop str (terminated fmt) := by
  cases lib with
  | printf => exact printfFrom_plain hc hp
  | vprintf => exact vprintfFrom_plain hc hp
  | userVprintf => exact userVprintfFrom_plain hc hp

theorem loop_conversion (lib : Library) (hfmt : 0 ∉ fmt) {act : PrintM PUnit} {skipped rest : List UInt8}
    (hc0 : c0 ≠ 0) (hskip : fmt = skipped ++ rest)
    (h : conversion lib.port str c0 (fmt.getD 0 0) (fmt.getD 1 0) = some (act, skipped.length)) :
    lib.loop str (terminated (percent :: c0 :: fmt)) =
      act >>= fun _ => lib.loop str (terminated rest) := by
  have hdrop : (terminated fmt).drop skipped.length = terminated rest := by
    rw [hskip]
    exact drop_terminated _ rfl
  rw [← hdrop]
  cases lib with
  | printf => exact printfFrom_conversion hc0 hfmt h
  | vprintf => exact vprintfFrom_conversion hc0 hfmt h
  | userVprintf => exact userVprintfFrom_conversion hc0 hfmt h

theorem loop_unknown (lib : Library) (hfmt : 0 ∉ fmt) (hc0 : c0 ≠ 0)
    (h : conversion lib.port str c0 (fmt.getD 0 0) (fmt.getD 1 0) = none) :
    lib.loop str (terminated (percent :: c0 :: fmt)) =
      putc percent >>= fun _ => putc c0 >>= fun _ => lib.loop str (terminated fmt) := by
  cases lib with
  | printf => exact printfFrom_unknown hc0 hfmt h
  | vprintf => exact vprintfFrom_unknown hc0 hfmt h
  | userVprintf => exact userVprintfFrom_unknown hc0 hfmt h

end

end Library

/-- What a call writes and leaves of its arguments, or why it does not return. -/
def Library.call (lib : Library) (str : BitVec 64 → List UInt8) (fmt : List UInt8)
    (args : List (BitVec 64)) : Except Fault Printer :=
  match lib with
  | .printf => Printf.printf str fmt args
  | .vprintf => Printf.vprintf str fmt args
  | .userVprintf => Printf.userVprintf str fmt args

theorem Library.call_eq (lib : Library) (str : BitVec 64 → List UInt8) (fmt : List UInt8)
    (args : List (BitVec 64)) :
    lib.call str fmt args = Printf.call (lib.loop str (terminated fmt)) args := by
  cases lib <;> rfl

/-! ## What cannot go wrong in a conversion -/

section
variable {p : Printer} {str : BitVec 64 → List UInt8} {lib : Library}

/-- The failure of a call with too few arguments. -/
def Short (e : Fault) : Prop := e = .noArgument

theorem wp_putc (c : UInt8) : wp (putc c) Short (fun _ _ => True) p := trivial

theorem wp_putAll (text : List UInt8) : wp (putAll text) Short (fun _ _ => True) p := by
  rw [wp, putAll_run]
  trivial

theorem wp_nextWord : wp nextWord Short (fun _ _ => True) p := by
  obtain ⟨out, args⟩ := p
  cases args with
  | nil => exact rfl
  | cons w ws => trivial

theorem wp_vaArgInt : wp vaArgInt Short (fun _ _ => True) p :=
  wp_seq wp_nextWord fun _ _ _ => trivial

theorem wp_vaArgUint32 : wp vaArgUint32 Short (fun _ _ => True) p :=
  wp_seq wp_nextWord fun _ _ _ => trivial

theorem wp_fetch (c : Letter) (n : Length) : wp (fetch lib.port c n) Short (fun _ _ => True) p := by
  rw [fetch]
  split
  · split
    · exact wp_vaArgInt
    · cases lib with
      | printf => exact wp_vaArgInt
      | vprintf => exact wp_vaArgInt
      | userVprintf => exact wp_vaArgUint32
  · exact wp_nextWord

theorem wp_intAction (c : Letter) (n : Length) :
    wp (intAction lib.port c n) Short (fun _ _ => True) p := by
  refine wp_seq (wp_fetch c n) fun xx p' _ => ?_
  rw [wp, printintWith_run c.base_bounds.1]
  trivial

theorem wp_conversion {c0 c1 c2 : UInt8} {act : PrintM PUnit} {k : Nat}
    (h : conversion lib.port str c0 c1 c2 = some (act, k)) : wp act Short (fun _ _ => True) p := by
  obtain ⟨c, n, rfl, -⟩ | ⟨-, -, rfl | ⟨text, rfl⟩ | ⟨ch, rfl⟩⟩ := conversion_cases h
  · exact wp_intAction c n
  · exact wp_putc percent
  · exact wp_seq wp_nextWord fun _ _ _ => wp_putAll _
  · exact wp_seq wp_vaArgUint32 fun _ _ _ => wp_putc _

end

/-! ## Formats that end in the middle of a conversion -/

/-- The number of percent signs at the end of a format. -/
def trailing (fmt : List UInt8) : Nat := (fmt.reverse.takeWhile (· = percent)).length

section
variable {c c0 : UInt8} {fmt : List UInt8}

theorem trailing_cons (hc : c ≠ percent) : trailing (c :: fmt) = trailing fmt := by
  rw [trailing, List.reverse_cons, List.takeWhile_append, List.takeWhile_cons_of_neg (by simpa using hc)]
  split
  · next h => rw [List.append_nil, List.length_reverse, trailing, h, List.length_reverse]
  · rfl

/-- A percent sign and what follows it do not change whether the number is even. -/
theorem trailing_percent : trailing (percent :: c0 :: fmt) % 2 = trailing fmt % 2 := by
  have hpair : [c0, percent].takeWhile (· = percent) = [c0, percent] ∧ c0 = percent ∨
      [c0, percent].takeWhile (· = percent) = [] := by
    by_cases h : c0 = percent
    · subst h
      exact .inl ⟨rfl, rfl⟩
    · exact .inr (List.takeWhile_cons_of_neg (by simpa using h))
  rw [trailing, List.reverse_cons, List.reverse_cons, List.append_assoc, List.takeWhile_append]
  show (if _ then fmt.reverse ++ [c0, percent].takeWhile (· = percent) else _).length % 2 = _
  split
  · next h =>
    rw [trailing, h]
    obtain ⟨hpair, -⟩ | hpair := hpair
    · rw [hpair, List.length_append]
      exact Nat.add_mod_right ..
    · rw [hpair, List.append_nil]
  · rfl

theorem trailing_skip {skipped : List UInt8} (h : percent ∉ skipped) :
    trailing (skipped ++ fmt) = trailing fmt := by
  induction skipped with
  | nil => rfl
  | cons c skipped ih =>
    rw [List.cons_append, trailing_cons (List.ne_of_not_mem_cons h).symm,
      ih (List.not_mem_of_not_mem_cons h)]

end

/-- The format ends behind a percent sign that begins a conversion. -/
def Incomplete (fmt : List UInt8) : Prop := trailing fmt % 2 = 1

section
variable {str : BitVec 64 → List UInt8} {fmt : List UInt8}

theorem conversion_percent (port : Port) (c1 c2 : UInt8) :
    conversion port str percent c1 c2 = some (putc percent, 0) := rfl

/-- **What can go wrong**: there are too few arguments, or `vprintf` goes on behind the zero of a format
that ends in the middle of a conversion; then it does not return. -/
theorem wp_loop {lib : Library} {p : Printer} (hfmt : 0 ∉ fmt) :
    wp (lib.loop str (terminated fmt))
      (fun e => e = .noArgument ∨ e = .overread ∧ lib = .vprintf ∧ Incomplete fmt)
      (fun _ _ => ¬ (lib = .vprintf ∧ Incomplete fmt)) p := by
  induction fmt using format_induction generalizing p with
  | hnil =>
    rw [Library.loop_nil]
    exact fun h => absurd h.2 Nat.zero_ne_one
  | hplain c fmt hc ih =>
    have hcons : Incomplete (c :: fmt) ↔ Incomplete fmt := by rw [Incomplete, trailing_cons hc, Incomplete]
    rw [Library.loop_plain lib (List.ne_of_not_mem_cons hfmt).symm hc, wp_bind, hcons]
    exact ih (List.not_mem_of_not_mem_cons hfmt)
  | hlast =>
    cases lib with
    | printf =>
      rw [Library.loop, printfFrom_last]
      exact fun h => nomatch h.1
    | vprintf =>
      rw [Library.loop, vprintfFrom_last]
      exact .inr ⟨rfl, rfl, rfl⟩
    | userVprintf =>
      rw [Library.loop, userVprintfFrom_percent, userVprintfFrom_nil]
      exact fun h => nomatch h.1
  | hdirective c0 fmt ih =>
    have hc0 : c0 ≠ 0 := fun h => hfmt (h ▸ List.mem_cons_of_mem _ (List.mem_cons_self ..))
    have hfmt' : 0 ∉ fmt := fun h => hfmt (List.mem_cons_of_mem _ (List.mem_cons_of_mem _ h))
    have hpercent : Incomplete (percent :: c0 :: fmt) ↔ Incomplete fmt := by
      rw [Incomplete, trailing_percent, Incomplete]
    rw [hpercent]
    cases h : conversion lib.port str c0 (fmt.getD 0 0) (fmt.getD 1 0) with
    | none =>
      rw [Library.loop_unknown lib hfmt' hc0 h, wp_bind]
      exact ih [] fmt rfl hfmt'
    | some r =>
      obtain ⟨act, k⟩ := r
      obtain ⟨-, skipped, rest, hrest, rfl, hskipped⟩ := conversion_skips h
      have hskip : Incomplete fmt ↔ Incomplete rest := by
        rw [Incomplete, hrest, trailing_skip hskipped, Incomplete]
      rw [Library.loop_conversion lib hfmt' hc0 hrest h, wp_bind, hskip]
      refine wp_mono (wp_conversion h) (fun _ p' _ => ?_) fun e he => .inl he
      exact ih skipped rest hrest fun h => hfmt' (hrest ▸ List.mem_append_right _ h)

/-- The two loops of the kernel are the same on a format that ends where it should. -/
theorem vprintfFrom_eq (hfmt : 0 ∉ fmt) (h : ¬ Incomplete fmt) :
    vprintfFrom str (terminated fmt) = printfFrom str (terminated fmt) := by
  induction fmt using format_induction with
  | hnil => rw [vprintfFrom_nil, printfFrom_nil]
  | hplain c fmt hc ih =>
    have hc0 : c ≠ 0 := (List.ne_of_not_mem_cons hfmt).symm
    rw [Incomplete, trailing_cons hc] at h
    rw [vprintfFrom_plain hc0 hc, printfFrom_plain hc0 hc, ih (List.not_mem_of_not_mem_cons hfmt) h]
  | hlast => exact absurd rfl h
  | hdirective c0 fmt ih =>
    have hc0 : c0 ≠ 0 := fun h => hfmt (h ▸ List.mem_cons_of_mem _ (List.mem_cons_self ..))
    have hfmt' : 0 ∉ fmt := fun h => hfmt (List.mem_cons_of_mem _ (List.mem_cons_of_mem _ h))
    rw [Incomplete, trailing_percent] at h
    cases hc : conversion kernelPort str c0 (fmt.getD 0 0) (fmt.getD 1 0) with
    | none => rw [vprintfFrom_unknown hc0 hfmt' hc, printfFrom_unknown hc0 hfmt' hc, ih [] fmt rfl hfmt' h]
    | some r =>
      obtain ⟨act, k⟩ := r
      obtain ⟨-, skipped, rest, hrest, hk, hskipped⟩ := conversion_skips hc
      have hrest' : 0 ∉ rest := fun h => hfmt' (hrest ▸ List.mem_append_right _ h)
      have hdrop : (terminated fmt).drop k = terminated rest := by
        rw [hrest]
        exact drop_terminated k hk
      rw [hrest, trailing_skip hskipped] at h
      rw [vprintfFrom_conversion hc0 hfmt' hc, printfFrom_conversion hc0 hfmt' hc, hdrop,
        ih skipped rest hrest hrest' h]

/-- **The kernel's `printf` and `vprintf`** write the same, take the same arguments and stay within the
format, just if the format does not end in the middle of a conversion. -/
theorem vprintf_agrees_iff {args : List (BitVec 64)} (hfmt : 0 ∉ fmt)
    (hargs : printf str fmt args ≠ .error .noArgument) :
    (∃ p, printf str fmt args = .ok p ∧ vprintf str fmt args = .ok p) ↔ trailing fmt % 2 = 0 := by
  constructor
  · rintro ⟨p, -, hp⟩
    by_contra hodd
    have h := @wp_loop str _ .vprintf ⟨[], args⟩ hfmt
    rw [vprintf, call] at hp
    cases hrun : (vprintfFrom str (terminated fmt)).run ⟨[], args⟩ with
    | error e =>
      rw [hrun] at hp
      cases hp
    | ok r => exact wp_ok h hrun ⟨rfl, Nat.mod_two_ne_zero.1 hodd⟩
  · intro heven
    have hcomplete : ¬ Incomplete fmt := fun h => absurd (heven.symm.trans h) (by decide)
    have hsame : vprintf str fmt args = printf str fmt args := by
      rw [vprintf, vprintfFrom_eq hfmt hcomplete, printf]
    rw [hsame]
    have h := @wp_loop str _ .printf ⟨[], args⟩ hfmt
    rw [printf, call] at hargs ⊢
    cases hrun : (printfFrom str (terminated fmt)).run ⟨[], args⟩ with
    | error e =>
      obtain rfl | ⟨-, hlib, -⟩ := wp_error h hrun
      · rw [hrun] at hargs
        exact absurd rfl hargs
      · cases hlib
    | ok r => exact ⟨r.2, rfl, rfl⟩

end

/-- The format `"%%"`. -/
theorem vprintf_agrees_percent :
    ∃ p, printf (fun _ => []) [percent, percent] [] = .ok p ∧
      vprintf (fun _ => []) [percent, percent] [] = .ok p := by
  have hprintf : printf (fun _ => []) [percent, percent] [] = .ok ⟨[percent], []⟩ := by
    rw [printf, @printfFrom_conversion _ [] _ (by decide) List.not_mem_nil _ _ (conversion_percent ..)]
    show call (putc percent >>= fun _ => printfFrom (fun _ => []) (terminated [])) [] = _
    rw [printfFrom_nil]
    rfl
  refine (vprintf_agrees_iff (by decide) ?_).2 (by decide)
  rw [hprintf]
  rintro ⟨⟩

/-- The format `"%"`: `printf` writes nothing, and `vprintf` reads on behind the zero. -/
theorem vprintf_overreads : 0 ∉ [percent] ∧ printf (fun _ => []) [percent] [] = .ok ⟨[], []⟩ ∧
    vprintf (fun _ => []) [percent] [] = .error .overread := by
  refine ⟨by decide, ?_, ?_⟩
  · rw [printf, printfFrom_last]
    rfl
  · rw [vprintf, vprintfFrom_last]
    rfl

/-! ## Integer conversions print their arguments -/

/-- At a conversion, wherever it is in a format, the loop takes the next argument and writes its
numeral. -/
def Prints (lib : Library) (c : Letter) (n : Length) (w : BitVec 64) : Prop :=
  ∀ (str : BitVec 64 → List UInt8) (fmt out : List UInt8) (ws : List (BitVec 64)), 0 ∉ fmt →
    (lib.loop str (terminated (percent :: spelling c n ++ fmt))).run ⟨out, w :: ws⟩ =
      (lib.loop str (terminated fmt)).run ⟨out ++ numeral lib.port.table c.base (argument c n w), ws⟩

/-- The arguments for which the conversions are right.  In the kernel: all but those of `%u` and `%x`
that have their highest bit set.  In the user's library: all of 32 bits, and the long ones whose
magnitude fits into 32 bits. -/
def Fits (lib : Library) (c : Letter) (n : Length) (w : BitVec 64) : Prop :=
  if lib = .userVprintf then n = .int ∨ (argument c n w).natAbs < 2 ^ 32
  else n ≠ .int ∨ c = .d ∨ (w.setWidth 32).toNat < 2 ^ 31

/-- What a conversion passes to `printint` for the word `w`. -/
def fetched (lib : Library) (c : Letter) (n : Length) (w : BitVec 64) : BitVec 64 :=
  if n = .int then
    if c.signed ∨ lib ≠ .userVprintf then (w.setWidth 32).signExtend 64 else (w.setWidth 32).setWidth 64
  else w

section
variable {lib : Library} {c : Letter} {n : Length} {w : BitVec 64}

theorem intAction_run {out : List UInt8} {ws : List (BitVec 64)} :
    (intAction lib.port c n).run ⟨out, w :: ws⟩ =
      .ok ((), ⟨out ++ written lib.port.table lib.port.width c.base (given (fetched lib c n w) c.signed),
        ws⟩) := by
  have hfetch : (fetch lib.port c n).run ⟨out, w :: ws⟩ = .ok (fetched lib c n w, ⟨out, ws⟩) := by
    cases n with
    | int => cases lib <;> cases c <;> rfl
    | l => rfl
    | ll => rfl
  rw [intAction, StateT.run_bind, hfetch]
  exact printintWith_run c.base_bounds.1 _ _

/-- A word whose lower half is taken with sign where it should not be. -/
theorem toNat_signExtend (x : BitVec 32) :
    ((x.signExtend 64).toNat = x.toNat ↔ x.toNat < 2 ^ 31) := by
  have hlt := x.isLt
  rw [BitVec.toNat_signExtend, BitVec.toNat_setWidth, Nat.mod_eq_of_lt (by omega), BitVec.msb_eq_decide]
  by_cases h : x.toNat < 2 ^ 31
  · rw [decide_eq_false (by omega), if_neg Bool.false_ne_true]
    exact ⟨fun _ => h, fun _ => rfl⟩
  · rw [decide_eq_true (by omega), if_pos rfl]
    omega

theorem natAbs_argument_lt (h : n = .int) : (argument c n w).natAbs < 2 ^ 32 := by
  have hlt := (w.setWidth 32).isLt
  have hlo := (w.setWidth 32).le_toInt
  have hhi := (w.setWidth 32).toInt_lt
  rw [argument, if_pos h]
  split <;> omega

/-- In a long conversion the word is passed as it is. -/
theorem given_fetched_long (h : n ≠ .int) : given (fetched lib c n w) c.signed = argument c n w := by
  rw [fetched, if_neg h, argument, if_neg h]

/-- In a short one the lower half is passed, with the sign that the library thinks it has. -/
theorem given_fetched_int (h : n = .int) : given (fetched lib c n w) c.signed = argument c n w ↔
    lib = .userVprintf ∨ c = .d ∨ (w.setWidth 32).toNat < 2 ^ 31 := by
  have hsext : ((w.setWidth 32).signExtend 64).toInt = (w.setWidth 32).toInt :=
    BitVec.toInt_signExtend_of_le (by decide)
  have hzext : ((w.setWidth 32).setWidth 64).toNat = (w.setWidth 32).toNat :=
    BitVec.toNat_setWidth_of_le (by decide)
  rw [fetched, argument, if_pos h, if_pos h]
  by_cases hd : c = .d
  · subst hd
    exact iff_of_true hsext (.inr (.inl rfl))
  · have hsigned : c.signed = false := by
      cases c with
      | d => exact absurd rfl hd
      | u => rfl
      | x => rfl
    rw [hsigned, given, if_neg Bool.false_ne_true, if_neg Bool.false_ne_true]
    by_cases hlib : lib = .userVprintf
    · rw [if_neg (by simp [hlib]), hzext]
      exact iff_of_true rfl (.inl hlib)
    · rw [if_pos (.inr hlib), Int.natCast_inj, toNat_signExtend]
      simp only [hlib, hd, false_or]

/-- The number passed is the argument and fits into the working variable just in the cases of
`Fits`. -/
theorem fits_iff : Fits lib c n w ↔
    given (fetched lib c n w) c.signed = argument c n w ∧
      (argument c n w).natAbs < 2 ^ lib.port.width := by
  have hkernel : lib ≠ .userVprintf → (argument c n w).natAbs < 2 ^ lib.port.width := by
    intro hlib
    have hwidth : lib.port.width = 64 := by cases lib <;> first | rfl | exact absurd rfl hlib
    rw [hwidth]
    by_cases hn : n = .int
    · exact Nat.lt_trans (natAbs_argument_lt hn) (by decide)
    · rw [argument, if_neg hn]
      exact natAbs_given_lt w c.signed
  rw [Fits]
  by_cases hn : n = .int
  · rw [given_fetched_int hn]
    split
    · next hlib =>
      subst hlib
      exact iff_of_true (.inl hn) ⟨.inl rfl, natAbs_argument_lt hn⟩
    · next hlib =>
      rw [and_iff_left (hkernel hlib)]
      simp only [hn, hlib, ne_eq, not_true_eq_false, false_or]
  · rw [given_fetched_long hn, eq_self, true_and]
    split
    · next hlib =>
      subst hlib
      simp only [hn, false_or]
      rfl
    · next hlib => exact iff_of_true (.inl hn) (hkernel hlib)

theorem legible (lib : Library) : Legible lib.port.table := by
  cases lib with
  | printf => exact legible_digits
  | vprintf => exact legible_digits
  | userVprintf => exact legible_userDigits

theorem prints_iff : Prints lib c n w ↔ Fits lib c n w := by
  -- what is written is the numeral, or there is a format with which one sees the difference
  have hstep : ∀ (str : BitVec 64 → List UInt8) (fmt out : List UInt8) (ws : List (BitVec 64)), 0 ∉ fmt →
      (lib.loop str (terminated (percent :: spelling c n ++ fmt))).run ⟨out, w :: ws⟩ =
        (lib.loop str (terminated fmt)).run ⟨out ++
          written lib.port.table lib.port.width c.base (given (fetched lib c n w) c.signed), ws⟩ := by
    intro str fmt out ws hfmt
    obtain ⟨c0, skipped, hspelling, hc0, hskipped, hconv⟩ :=
      @conversion_spelling str fmt lib.port c n
    have hfmt' : 0 ∉ skipped ++ fmt := fun h => (List.mem_append.1 h).elim hskipped hfmt
    rw [hspelling]
    show (lib.loop str (terminated (percent :: c0 :: (skipped ++ fmt)))).run _ = _
    rw [lib.loop_conversion hfmt' hc0 rfl hconv, StateT.run_bind, intAction_run]
    rfl
  have hbounds := c.base_bounds
  have hnumeral := @fits_iff lib c n w
  rw [← written_eq_numeral_iff (legible lib) hbounds.1 hbounds.2] at hnumeral
  · rw [hnumeral]
    constructor
    · intro h
      have hrun := h (fun _ => []) [] [] [] List.not_mem_nil
      rw [hstep _ _ _ _ List.not_mem_nil, lib.loop_nil] at hrun
      exact congrArg Printer.out (Prod.mk.inj (Except.ok.inj hrun)).2
    · intro h str fmt out ws hfmt
      rw [hstep _ _ _ _ hfmt, h]
  · by_cases hlib : lib = .userVprintf
    · by_cases hn : n = .int
      · exact .inl ((given_fetched_int hn).2 (.inl hlib))
      · exact .inl (given_fetched_long hn)
    · have hwidth : lib.port.width = 64 := by cases lib <;> first | rfl | exact absurd rfl hlib
      rw [hwidth]
      exact .inr (natAbs_given_lt _ _)

end

/-- **Integer conversions.**  The digit buffer is never overrun; a numeral is read back as the argument;
and a conversion writes the numeral of its argument just if the argument is as `Fits` says. -/
theorem integer_conversions (lib : Library) (c : Letter) (n : Length) (w : BitVec 64) :
    (∀ str fmt args, 0 ∉ fmt → lib.call str fmt args ≠ .error .overrun) ∧
    Numerals.readBack (fun d => lib.port.table.idxOf d) minus c.base
      (numeral lib.port.table c.base (argument c n w)) = argument c n w ∧
    (Prints lib c n w ↔ Fits lib c n w) := by
  have hbounds := c.base_bounds
  refine ⟨?_, readBack_numeral (legible lib) hbounds.1 hbounds.2 _, prints_iff⟩
  intro str fmt args hfmt hoverrun
  have h := @wp_loop str _ lib ⟨[], args⟩ hfmt
  rw [lib.call_eq, call] at hoverrun
  cases hrun : (lib.loop str (terminated fmt)).run ⟨[], args⟩ with
  | error e =>
    rw [hrun] at hoverrun
    obtain rfl : e = .overrun := Except.error.inj hoverrun
    obtain h | ⟨h, -⟩ := wp_error h hrun
    · cases h
    · cases h
  | ok r =>
    rw [hrun] at hoverrun
    cases hoverrun

/-- `%u` of the kernel with the argument 2^31, and `%lu` of the user's library with 2^32. -/
theorem conversions_go_wrong : ¬ Prints .printf .u .int 0x80000000 ∧
    ¬ Prints .vprintf .x .int 0x80000000 ∧ ¬ Prints .userVprintf .u .l 0x100000000 := by
  refine ⟨?_, ?_, ?_⟩ <;> rw [prints_iff] <;> unfold Fits <;> decide

end Printf

end Xv6pp
