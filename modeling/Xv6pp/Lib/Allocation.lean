import Mathlib.Logic.Function.Basic
import Mathlib.Order.Nat

/-!
# Units handed out by an allocator

An allocator hands out the units `lo, …, hi - 1` and marks the ones in use with a bit.  Its clients
keep the units they got in *slots*: `addr i` is the unit in the slot `i`, and `0` stands for none.
`Exact lo hi bit addr loose` says that the two agree: no unit is in two slots, and a unit is marked
exactly when it is in a slot, or below `lo`, or is the one `loose` unit that was just handed out and
is not in a slot yet.

A client moves through `Exact.alloc` and `Exact.attach` to take a unit and through `Exact.release` to
give one back.
-/

set_option autoImplicit false

namespace Allocation

variable {ι : Type}

/-- The marks and the slots agree. -/
structure Exact (lo hi : Nat) (bit : Nat → Bool) (addr : ι → Nat) (loose : Option Nat) : Prop where
  /-- Unit `0` is not handed out. -/
  pos : 0 < lo
  /-- No unit is in two slots. -/
  inj : ∀ {i j}, addr i ≠ 0 → addr i = addr j → i = j
  /-- The units in slots are units of the allocator. -/
  range : ∀ {i}, addr i ≠ 0 → lo ≤ addr i ∧ addr i < hi
  /-- So is the loose one, which is in no slot. -/
  fresh : ∀ {b}, loose = some b → lo ≤ b ∧ b < hi ∧ ∀ i, addr i ≠ b
  /-- The marks. -/
  used : ∀ {b}, b < hi → (bit b = true ↔ b < lo ∨ (∃ i, addr i = b ∧ b ≠ 0) ∨ loose = some b)

variable {lo hi : Nat} {bit bit' : Nat → Bool} {addr : ι → Nat} {loose : Option Nat}

theorem Exact.congr_bit (h : Exact lo hi bit addr loose) (hbit : ∀ b, b < hi → bit' b = bit b) :
    Exact lo hi bit' addr loose where
  pos := h.pos
  inj := h.inj
  range := h.range
  fresh := h.fresh
  used {b} hb := by rw [hbit b hb]; exact h.used hb

/-- An unmarked unit is in no slot. -/
theorem Exact.not_mem (h : Exact lo hi bit addr loose) {b : Nat} (hb : b < hi)
    (hbit : bit b = false) : lo ≤ b ∧ loose ≠ some b ∧ ∀ i, addr i ≠ b := by
  have hno : ¬ (b < lo ∨ (∃ i, addr i = b ∧ b ≠ 0) ∨ loose = some b) := fun hu => by
    rw [(h.used hb).2 hu] at hbit
    exact absurd hbit (by decide)
  rw [not_or, not_or] at hno
  have hlo : lo ≤ b := Nat.le_of_not_lt hno.1
  exact ⟨hlo, hno.2.2, fun i hib => hno.2.1 ⟨i, hib, (lt_of_lt_of_le h.pos hlo).ne'⟩⟩

/-- A unit in a slot is marked. -/
theorem Exact.bit_of_slot (h : Exact lo hi bit addr loose) {i : ι} (hne : addr i ≠ 0) :
    bit (addr i) = true :=
  (h.used (h.range hne).2).2 (.inr (.inl ⟨i, rfl, hne⟩))

/-- Mark an unmarked unit. -/
theorem Exact.alloc (h : Exact lo hi bit addr none) {b : Nat} (hb : b < hi) (hfree : bit b = false)
    (hbit : ∀ c, c < hi → bit' c = (decide (c = b) || bit c)) : Exact lo hi bit' addr (some b) where
  pos := h.pos
  inj := h.inj
  range := h.range
  fresh {c} hc := by
    obtain rfl := Option.some.inj hc
    exact ⟨(h.not_mem hb hfree).1, hb, (h.not_mem hb hfree).2.2⟩
  used {c} hc := by
    rw [hbit c hc, Bool.or_eq_true, decide_eq_true_eq, h.used hc]
    constructor
    · rintro (rfl | hlt | hslot | hno)
      · exact .inr (.inr rfl)
      · exact .inl hlt
      · exact .inr (.inl hslot)
      · exact absurd hno nofun
    · rintro (hlt | hslot | heq)
      · exact .inr (.inl hlt)
      · exact .inr (.inr (.inl hslot))
      · exact .inl (Option.some.inj heq).symm

/-- Take the units out of some of the slots and unmark them. -/
theorem Exact.release (h : Exact lo hi bit addr none) {S : ι → Prop} [DecidablePred S]
    (hbit : ∀ c, c < hi → (bit' c = true ↔ bit c = true ∧ ∀ i, S i → addr i = c → c = 0)) :
    Exact lo hi bit' (fun i => if S i then 0 else addr i) none := by
  have hne : ∀ {i}, (if S i then 0 else addr i) ≠ 0 → ¬ S i := fun hi hS => hi (if_pos hS)
  refine ⟨h.pos, fun {i j} hi hij => ?_, fun {i} hi => ?_, nofun, fun {c} hc => ?_⟩
  · have hiS := hne hi
    have hjS := hne (hij ▸ hi)
    rw [if_neg hiS] at hi hij
    rw [if_neg hjS] at hij
    exact h.inj hi hij
  · have hiS := hne hi
    rw [if_neg hiS] at hi ⊢
    exact h.range hi
  · rw [hbit c hc, h.used hc]
    constructor
    · rintro ⟨hlt | ⟨i, rfl, hi⟩ | hno, hkeep⟩
      · exact .inl hlt
      · have hiS : ¬ S i := fun hS => hi (hkeep i hS rfl)
        exact .inr (.inl ⟨i, if_neg hiS, hi⟩)
      · exact absurd hno nofun
    · rintro (hlt | ⟨i, hi, hc0⟩ | hno)
      · refine ⟨.inl hlt, fun i _ hi => ?_⟩
        by_contra hc0
        exact absurd (h.range (i := i) (hi ▸ hc0)).1 (Nat.not_le.2 (hi ▸ hlt))
      · have hiS : ¬ S i := hne (hi ▸ hc0)
        rw [if_neg hiS] at hi
        refine ⟨.inr (.inl ⟨i, hi, hc0⟩), fun j hj hjc => ?_⟩
        have hij := h.inj (hi ▸ hc0) (hi.trans hjc.symm)
        exact absurd (hij ▸ hj) hiS
      · exact absurd hno nofun

variable [DecidableEq ι]

/-- Put the loose unit into an empty slot. -/
theorem Exact.attach {b : Nat} (h : Exact lo hi bit addr (some b)) {i : ι} (hempty : addr i = 0) :
    Exact lo hi bit (Function.update addr i b) none := by
  obtain ⟨hlo, hhi, hnot⟩ := h.fresh rfl
  have hself : Function.update addr i b i = b := Function.update_self ..
  have hother : ∀ {j}, j ≠ i → Function.update addr i b j = addr j := fun hj =>
    Function.update_of_ne hj ..
  refine ⟨h.pos, fun {j k} hj hjk => ?_, fun {j} hj => ?_, nofun, fun {c} hc => ?_⟩
  · by_cases hji : j = i
    · subst hji
      by_cases hki : k = j
      · exact hki.symm
      · rw [hself, hother hki] at hjk
        exact absurd hjk.symm (hnot k)
    · rw [hother hji] at hj hjk
      by_cases hki : k = i
      · subst hki
        rw [hself] at hjk
        exact absurd hjk (hnot j)
      · rw [hother hki] at hjk
        exact h.inj hj hjk
  · by_cases hji : j = i
    · subst hji
      rw [hself]
      exact ⟨hlo, hhi⟩
    · rw [hother hji] at hj ⊢
      exact h.range hj
  · rw [h.used hc]
    constructor
    · rintro (hlt | ⟨j, rfl, hj⟩ | heq)
      · exact .inl hlt
      · have hji : j ≠ i := fun e => hj (e ▸ hempty)
        exact .inr (.inl ⟨j, hother hji, hj⟩)
      · obtain rfl := Option.some.inj heq
        exact .inr (.inl ⟨i, hself, (lt_of_lt_of_le h.pos hlo).ne'⟩)
    · rintro (hlt | ⟨j, hj, hc0⟩ | hno)
      · exact .inl hlt
      · by_cases hji : j = i
        · subst hji
          exact .inr (.inr (congrArg some (hself.symm.trans hj)))
        · rw [hother hji] at hj
          exact .inr (.inl ⟨j, hj, hc0⟩)
      · exact absurd hno nofun

end Allocation
