import Mathlib.Algebra.Ring.Int.Defs
import Mathlib.Algebra.Ring.Nat
import Mathlib.Data.Int.DivMod
import Mathlib.Logic.Function.Iterate

/-!
# The allocator of the user's library

`user/umalloc.c`: `malloc` and `free` over a circular list of free blocks.  A block is a header and the
units of memory behind it, a unit being as large as a header, 16 bytes.

An address is a number.  The memory is seen as the headers that could be read from it; a header
occupies the 16 bytes from its address on.  What `sbrk` answers is not for the allocator to decide: the
answers are a stream, and the calls are logged, as are the sizes that `morecore` records.
-/

set_option autoImplicit false

namespace Xv6pp

namespace Umalloc

/-! ## Memory -/

/-- A `Header`. -/
structure Header where
  ptr : Nat
  /-- An unsigned number of 32 bits. -/
  size : Nat

/-- The data of the allocator, and the calls of `sbrk`, each with its argument and the answer. -/
structure Heap where
  mem : Nat → Header
  /-- Zero until the first call of `malloc`. -/
  freep : Nat
  log : List (Int × Option Nat)
  /-- The arguments of the calls that got memory, and the sizes, in units, recorded in its header. -/
  recorded : List (Int × Nat)

/-- `(int) n`: the low 32 bits, with sign. -/
def toInt32 (n : Nat) : Int := (n : Int).bmod (2 ^ 32)

/-- `p->s.ptr = q`. -/
def setPtr (mem : Nat → Header) (p q : Nat) : Nat → Header :=
  Function.update mem p { mem p with ptr := q }

/-- `p->s.size = n`. -/
def setSize (mem : Nat → Header) (p n : Nat) : Nat → Header :=
  Function.update mem p { mem p with size := n }

/-- `sbrk(k)`: the next answer, an address or a failure. -/
def sbrk (answers : Nat → Option Nat) (h : Heap) (k : Int) : Option Nat × Heap :=
  (answers h.log.length, { h with log := h.log ++ [(k, answers h.log.length)] })

/-! ## `free` -/

/-- The loop of `free` stops at `p`: the block at `bp` belongs behind it. -/
def Stops (mem : Nat → Header) (bp p : Nat) : Prop :=
  p < bp ∧ bp < (mem p).ptr ∨ (mem p).ptr ≤ p ∧ (p < bp ∨ bp < (mem p).ptr)

instance (mem : Nat → Header) (bp p : Nat) : Decidable (Stops mem bp p) :=
  inferInstanceAs (Decidable (_ ∨ _))

/-- The loop of `free`, for so many rounds. -/
def search (mem : Nat → Header) (bp : Nat) : Nat → Nat → Option Nat
  | 0, _ => none
  | fuel + 1, p => if Stops mem bp p then some p else search mem bp fuel (mem p).ptr

/-- The block at `a` is followed by the one at `b`, in the list: they become one if they touch. -/
def glue (mem : Nat → Header) (a b : Nat) : Nat → Header :=
  if a + 16 * (mem a).size = b then
    let mem := setSize mem a (((mem a).size + (mem b).size) % 2 ^ 32)
    setPtr mem a (mem b).ptr
  else setPtr mem a b

/-- `free(ap)`; nothing if the loop has not stopped after `fuel` rounds. -/
def free (fuel : Nat) (h : Heap) (ap : Nat) : Option Heap :=
  let bp := ap - 16
  match search h.mem bp fuel h.freep with
  | none => none
  | some p =>
    let mem := glue h.mem bp (h.mem p).ptr
    let mem := glue mem p bp
    some { h with mem := mem, freep := p }

/-! ## `malloc` -/

/-- What `malloc` has come to. -/
inductive Outcome
  /-- It is still running. -/
  | running
  /-- It has returned null. -/
  | null
  /-- It has returned a pointer. -/
  | at (p : Nat)
  deriving DecidableEq

/-- `morecore(nu)`: the pointer that it returns, or nothing if `free` has not come to its end after
`fuel` rounds. -/
def morecore (answers : Nat → Option Nat) (fuel nu : Nat) (h : Heap) : Option Nat × Heap :=
  let nu := if nu < 4096 then 4096 else nu
  let r := sbrk answers h (toInt32 (nu * 16))
  match r.1 with
  | none => (some 0, r.2)
  | some hp =>
    let h := { r.2 with mem := setSize r.2.mem hp nu, recorded := r.2.recorded ++ [(toInt32 (nu * 16), nu)] }
    match free fuel h (hp + 16) with
    | none => (none, h)
    | some h => (some h.freep, h)

/-- The block at `p`, which is behind `prevp` in the list, is large enough: it leaves the list, or its
last units do. -/
def take (nunits prevp p : Nat) (h : Heap) : Outcome × Heap :=
  if (h.mem p).size = nunits then
    (.at (p + 16), { h with mem := setPtr h.mem prevp (h.mem p).ptr, freep := prevp })
  else
    let rest := (h.mem p).size - nunits
    let mem := setSize h.mem p rest
    (.at (p + 16 * rest + 16), { h with mem := setSize mem (p + 16 * rest) nunits, freep := prevp })

/-- The loop of `malloc`, for so many rounds. -/
def mallocFrom (answers : Nat → Option Nat) (nunits : Nat) : Nat → Nat → Nat → Heap → Outcome × Heap
  | 0, _, _, h => (.running, h)
  | fuel + 1, prevp, p, h =>
    if nunits ≤ (h.mem p).size then take nunits prevp p h
    else if p = h.freep then
      let r := morecore answers fuel nunits h
      match r.1 with
      | none => (.running, r.2)
      | some p =>
        if p = 0 then (.null, r.2) else mallocFrom answers nunits fuel p (r.2.mem p).ptr r.2
    else mallocFrom answers nunits fuel p (h.mem p).ptr h

/-- The units that a request needs, with its header. -/
def nunits (nbytes : Nat) : Nat := (nbytes + 16 - 1) / 16 + 1

/-- The first call sets the list up: `base` alone, with no memory. -/
def initialise (base : Nat) (h : Heap) : Heap :=
  if h.freep = 0 then { h with mem := setSize (setPtr h.mem base base) base 0, freep := base } else h

/-- `malloc(nbytes)`, with what `sbrk` answers, after `fuel` rounds. -/
def malloc (base : Nat) (answers : Nat → Option Nat) (fuel nbytes : Nat) (h : Heap) : Outcome × Heap :=
  let h := initialise base h
  mallocFrom answers (nunits nbytes) fuel h.freep (h.mem h.freep).ptr h

/-! ## What `sbrk` is asked for -/

/-- What `malloc` should ask `sbrk` for, in bytes. -/
def wanted (nbytes : Nat) : Int := 16 * max (nunits nbytes) 4096

/-- The arguments with which a call of `malloc` calls `sbrk`. -/
def sbrkArgs (base : Nat) (answers : Nat → Option Nat) (fuel nbytes : Nat) (h : Heap) : List Int :=
  ((malloc base answers fuel nbytes h).2.log.drop h.log.length).map Prod.fst

/-- The arguments of its calls that get memory, and the sizes that it records then. -/
def recordedSizes (base : Nat) (answers : Nat → Option Nat) (fuel nbytes : Nat) (h : Heap) : List (Int × Nat) :=
  (malloc base answers fuel nbytes h).2.recorded.drop h.recorded.length

/-- The block `n` places behind `freep`. -/
def nth (h : Heap) (n : Nat) : Nat := (fun p => (h.mem p).ptr)^[n] h.freep

/-- The list leads back to `freep` past blocks that are too small for the request. -/
def Exhausted (units : Nat) (h : Heap) : Prop :=
  ∃ n, nth h (n + 1) = h.freep ∧ ∀ j ≤ n, (h.mem (nth h (j + 1))).size < units

theorem nth_succ (h : Heap) (n : Nat) : nth h (n + 1) = (h.mem (nth h n)).ptr :=
  Function.iterate_succ_apply' ..

section
variable {answers : Nat → Option Nat} {units fuel prevp p : Nat} {h : Heap}

theorem free_log {ap : Nat} {h' : Heap} (hfree : free fuel h ap = some h') :
    h'.log = h.log ∧ h'.recorded = h.recorded := by
  simp only [free] at hfree
  cases hs : search h.mem (ap - 16) fuel h.freep with
  | none =>
    rw [hs] at hfree
    cases hfree
  | some q =>
    rw [hs] at hfree
    cases hfree
    exact ⟨rfl, rfl⟩

/-- `morecore` calls `sbrk` once. -/
theorem morecore_log : (morecore answers fuel units h).2.log =
    h.log ++ [(toInt32 (max units 4096 * 16), answers h.log.length)] := by
  have hmax : (if units < 4096 then 4096 else units) = max units 4096 := by
    split <;> omega
  simp only [morecore, sbrk]
  rw [hmax]
  cases answers h.log.length with
  | none => rfl
  | some hp =>
    simp only []
    split
    · rfl
    · next hfree => rw [(free_log hfree).1]

/-- It records the size for which it has asked. -/
theorem morecore_recorded : ∃ l, (morecore answers fuel units h).2.recorded = h.recorded ++ l ∧
    ∀ e ∈ l, e = (toInt32 (max units 4096 * 16), max units 4096) := by
  have hmax : (if units < 4096 then 4096 else units) = max units 4096 := by
    split <;> omega
  simp only [morecore, sbrk]
  rw [hmax]
  cases answers h.log.length with
  | none => exact ⟨[], (List.append_nil _).symm, List.forall_mem_nil _⟩
  | some hp =>
    refine ⟨[(toInt32 (max units 4096 * 16), max units 4096)], ?_, fun e he => List.mem_singleton.1 he⟩
    simp only []
    split
    · rfl
    · next hfree => rw [(free_log hfree).2]

/-- Every call of `sbrk` has the same argument. -/
theorem mallocFrom_log : ∃ l, (mallocFrom answers units fuel prevp p h).2.log = h.log ++ l ∧
    ∀ e ∈ l, e.1 = toInt32 (max units 4096 * 16) := by
  induction fuel generalizing prevp p h with
  | zero => exact ⟨[], (List.append_nil _).symm, List.forall_mem_nil _⟩
  | succ fuel ih =>
    rw [mallocFrom]
    split
    · refine ⟨[], ?_, List.forall_mem_nil _⟩
      rw [take, List.append_nil]
      split <;> rfl
    · split
      · have hone : ∀ e ∈ [(toInt32 (max units 4096 * 16), answers h.log.length)],
            e.1 = toInt32 (max units 4096 * 16) := by
          intro e he
          rw [List.mem_singleton.1 he]
        simp only []
        split
        · exact ⟨_, morecore_log, hone⟩
        · next q _ =>
          split
          · exact ⟨_, morecore_log, hone⟩
          · obtain ⟨l, hl, hargs⟩ := @ih q ((morecore answers fuel units h).2.mem q).ptr
              (morecore answers fuel units h).2
            rw [morecore_log, List.append_assoc] at hl
            exact ⟨_, hl, List.forall_mem_append.2 ⟨hone, hargs⟩⟩
      · exact ih

theorem mallocFrom_recorded : ∃ l, (mallocFrom answers units fuel prevp p h).2.recorded = h.recorded ++ l ∧
    ∀ e ∈ l, e = (toInt32 (max units 4096 * 16), max units 4096) := by
  induction fuel generalizing prevp p h with
  | zero => exact ⟨[], (List.append_nil _).symm, List.forall_mem_nil _⟩
  | succ fuel ih =>
    rw [mallocFrom]
    split
    · refine ⟨[], ?_, List.forall_mem_nil _⟩
      rw [take, List.append_nil]
      split <;> rfl
    · split
      · simp only []
        split
        · exact morecore_recorded
        · next q _ =>
          split
          · exact morecore_recorded
          · obtain ⟨l₁, hl₁, hsizes₁⟩ := @morecore_recorded answers units fuel h
            obtain ⟨l₂, hl₂, hsizes₂⟩ := @ih q ((morecore answers fuel units h).2.mem q).ptr
              (morecore answers fuel units h).2
            rw [hl₁, List.append_assoc] at hl₂
            exact ⟨_, hl₂, List.forall_mem_append.2 ⟨hsizes₁, hsizes₂⟩⟩
      · exact ih

/-- `sbrk` is not called before the list is exhausted. -/
theorem mallocFrom_log_of_not_exhausted (hex : ¬ Exhausted units h) {n : Nat}
    (hp : p = nth h (n + 1)) (hsmall : ∀ j < n, (h.mem (nth h (j + 1))).size < units) :
    (mallocFrom answers units fuel prevp p h).2.log = h.log ∧
      (mallocFrom answers units fuel prevp p h).2.recorded = h.recorded := by
  induction fuel generalizing prevp p n with
  | zero => exact ⟨rfl, rfl⟩
  | succ fuel ih =>
    rw [mallocFrom]
    split
    · rw [take]
      split <;> exact ⟨rfl, rfl⟩
    · next hfit =>
      have hsmall' : ∀ j < n + 1, (h.mem (nth h (j + 1))).size < units := by
        intro j hj
        obtain hj | rfl := Nat.lt_succ_iff_lt_or_eq.1 hj
        · exact hsmall j hj
        · exact hp ▸ Nat.lt_of_not_le hfit
      split
      · next hfreep =>
        exact absurd ⟨n, hp.symm.trans hfreep, fun j hj => hsmall' j (Nat.lt_succ_of_le hj)⟩ hex
      · exact ih (n := n + 1) (by rw [nth_succ, hp]) hsmall'

/-- An exhausted list makes `malloc` call `sbrk`. -/
theorem mallocFrom_of_exhausted (hanswers : answers = fun _ => none) {n d : Nat}
    (hn : nth h (n + d + 1) = h.freep) (hsmall : ∀ j ≤ n + d, (h.mem (nth h (j + 1))).size < units)
    (hp : p = nth h (n + 1)) :
    (mallocFrom answers units (d + 1) prevp p h).2.log =
      h.log ++ [(toInt32 (max units 4096 * 16), none)] := by
  have hfit : ∀ {p n}, p = nth h (n + 1) → (h.mem (nth h (n + 1))).size < units →
      ¬ units ≤ (h.mem p).size := by
    rintro p n rfl hlt
    exact Nat.not_le_of_lt hlt
  have hcall : ∀ {prevp p fuel}, ¬ units ≤ (h.mem p).size → p = h.freep →
      (mallocFrom answers units (fuel + 1) prevp p h).2.log =
        h.log ++ [(toInt32 (max units 4096 * 16), none)] := by
    intro prevp p fuel hfit hfreep
    have hlog := @morecore_log answers units fuel h
    have hnull : (morecore answers fuel units h).1 = some 0 := by
      simp only [morecore, sbrk, hanswers]
    rw [mallocFrom, if_neg hfit, if_pos hfreep]
    simp only [hnull, if_true]
    rw [hlog, hanswers]
  induction d generalizing n prevp p with
  | zero => exact hcall (hfit hp (hsmall n (Nat.le_refl n))) (hp.trans hn)
  | succ d ih =>
    have hnotFit := hfit hp (hsmall n (Nat.le_add_right ..))
    by_cases hfreep : p = h.freep
    · exact hcall hnotFit hfreep
    · rw [mallocFrom, if_neg hnotFit, if_neg hfreep]
      have hshift : n + 1 + d = n + (d + 1) := by omega
      refine ih (n := n + 1) (by rw [hshift]; exact hn) (by rw [hshift]; exact hsmall) ?_
      rw [nth_succ, hp]

end

theorem bmod_eq_iff_lt {n m : Nat} (hm : 0 < m) : (n : Int).bmod m = n ↔ n < (m + 1) / 2 := by
  rw [Int.bmod_eq_iff hm]
  have hdvd : (m : Int) ∣ n - n := by rw [Int.sub_self]; exact Int.dvd_zero _
  omega

/-- The conversion to `int` keeps the numbers below 2^31. -/
theorem toInt32_eq_iff {n : Nat} : toInt32 n = n ↔ n < 2 ^ 31 :=
  bmod_eq_iff_lt (Nat.two_pow_pos 32)

theorem initialise_log (base : Nat) (h : Heap) :
    (initialise base h).log = h.log ∧ (initialise base h).recorded = h.recorded := by
  rw [initialise]
  split <;> exact ⟨rfl, rfl⟩

/-- **What `malloc` asks `sbrk` for** is what it should ask for, and what it records is what it asked for, whatever
`sbrk` answers and whatever the heap is, just if the request is at most 2^31 - 32 bytes or the list is not
exhausted by it. -/
theorem malloc_sbrk_iff {base nbytes : Nat} {h : Heap} (_ : nbytes < 2 ^ 32) :
    (∀ answers fuel, (∀ k ∈ sbrkArgs base answers fuel nbytes h, 0 < k ∧ k = wanted nbytes) ∧
        ∀ e ∈ recordedSizes base answers fuel nbytes h, e.1 = 16 * e.2) ↔
      nbytes ≤ 2 ^ 31 - 32 ∨ ¬ Exhausted (nunits nbytes) (initialise base h) := by
  obtain ⟨hlog, hrecorded⟩ := initialise_log base h
  have hnth : ((initialise base h).mem (initialise base h).freep).ptr = nth (initialise base h) 1 := rfl
  have hwanted : wanted nbytes = (max (nunits nbytes) 4096 * 16 : Nat) := by
    rw [wanted]
    omega
  constructor
  · intro hright
    by_contra hwrong
    rw [not_or, not_not] at hwrong
    obtain ⟨hlarge, n, hn, hsmall⟩ := hwrong
    have hrun := @mallocFrom_of_exhausted (fun _ => none) (nunits nbytes) (initialise base h).freep _
      (initialise base h) rfl 0 n
      (by rwa [Nat.zero_add]) (by rwa [Nat.zero_add]) hnth
    have hmem := (hright (fun _ => none) (n + 1)).1 (toInt32 (max (nunits nbytes) 4096 * 16)) (by
      rw [sbrkArgs, malloc, hrun, hlog, List.drop_left, List.map_singleton]
      simp only [List.mem_singleton])
    rw [hwanted, toInt32_eq_iff, nunits] at hmem
    omega
  · intro h answers fuel
    rw [sbrkArgs, recordedSizes, malloc]
    obtain hsmall | hex := h
    · have hfits : max (nunits nbytes) 4096 * 16 < 2 ^ 31 := by
        rw [nunits]
        omega
      have hasked := toInt32_eq_iff.2 hfits
      obtain ⟨l, hl, hargs⟩ := @mallocFrom_log answers (nunits nbytes) fuel (initialise base h).freep
        (nth (initialise base h) 1) (initialise base h)
      obtain ⟨r, hr, hsizes⟩ := @mallocFrom_recorded answers (nunits nbytes) fuel (initialise base h).freep
        (nth (initialise base h) 1) (initialise base h)
      rw [hnth, hl, hlog, List.drop_left, hr, hrecorded, List.drop_left]
      refine ⟨fun k hk => ?_, fun e he => ?_⟩
      · obtain ⟨e, he, rfl⟩ := List.mem_map.1 hk
        rw [hargs e he, hasked, hwanted]
        omega
      · rw [hsizes e he, hasked]
        dsimp only
        omega
    · obtain ⟨hnone, hnone'⟩ := @mallocFrom_log_of_not_exhausted answers _ fuel (initialise base h).freep _ _ hex 0 hnth
        (fun j hj => absurd hj (Nat.not_lt_zero j))
      rw [hnone, hnone', hlog, hrecorded, List.drop_length, List.drop_length]
      exact ⟨List.forall_mem_nil _, List.forall_mem_nil _⟩

/-- A heap that has not been used. -/
def fresh : Heap := ⟨fun _ => ⟨0, 0⟩, 0, [], []⟩

/-- A request of 100 bytes in a fresh heap: the process gets 64 KiB, in 4096 units. -/
theorem malloc_sbrk_hundred : wanted 100 = 2 ^ 16 ∧
    recordedSizes 16 (fun _ => some 0x4000) 3 100 fresh = [(2 ^ 16, 4096)] ∧
    ∀ answers fuel, (∀ k ∈ sbrkArgs 16 answers fuel 100 fresh, 0 < k ∧ k = wanted 100) ∧
      ∀ e ∈ recordedSizes 16 answers fuel 100 fresh, e.1 = 16 * e.2 :=
  ⟨by decide, by decide +kernel, (malloc_sbrk_iff (by decide)).2 (.inl (by decide))⟩

/-- In a fresh heap, a request of 2^31 - 31 bytes makes the process smaller, and for one of 2^32 - 1 bytes
`sbrk` is asked for 16, while the size that is recorded is that of 4 GiB. -/
theorem malloc_sbrk_wrong :
    sbrkArgs 16 (fun _ => none) 1 (2 ^ 31 - 31) fresh = [-2 ^ 31] ∧
    sbrkArgs 16 (fun _ => none) 1 (2 ^ 32 - 1) fresh = [16] ∧ wanted (2 ^ 32 - 1) = 2 ^ 32 + 16 ∧
    recordedSizes 16 (fun _ => some 0x4000) 3 (2 ^ 32 - 1) fresh = [(16, 2 ^ 28 + 1)] := by
  decide +kernel

end Umalloc

end Xv6pp
