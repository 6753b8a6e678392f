import Mathlib.Data.List.Basic
import Mathlib.Data.Nat.Bits
import Mathlib.Tactic.Ring

/-!
# Fixed-size byte arrays and little-endian fields

A `Bytes n` is an array of `n` bytes.  Records that a program lays over such an array — a header,
a directory entry, an array of 32-bit words — are read with `Bytes.read` and overwritten with
`Bytes.write`, which move a list of bytes from or to an offset.  The two lemmas that every record
format needs are `read_write_same` (what was written is read back) and `read_write_disjoint` (a
write elsewhere is not seen); a format then only has to show that its own encoding and decoding of
lists of bytes are inverse to each other.

`leBytes` and `leNat` are the little-endian encoding of a natural number in a given number of
bytes, and `u32` and `u64` the fields of those widths.
-/

set_option autoImplicit false

/-- An array of `n` bytes. -/
abbrev Bytes (n : Nat) : Type := Fin n → UInt8

/-! ## Little-endian numbers -/

/-- The `k` low bytes of `v`, least significant first. -/
def leBytes : Nat → Nat → List UInt8
  | 0, _ => []
  | k + 1, v => UInt8.ofNat (v % 256) :: leBytes k (v / 256)

/-- The number a list of bytes denotes, least significant first. -/
def leNat : List UInt8 → Nat
  | [] => 0
  | x :: xs => x.toNat + 256 * leNat xs

@[simp] theorem length_leBytes (k v : Nat) : (leBytes k v).length = k := by
  induction k generalizing v with
  | zero => rfl
  | succ k ih => simp [leBytes, ih]

/-- Reading back a little-endian number gives it modulo the width of the field. -/
theorem leNat_leBytes (k v : Nat) : leNat (leBytes k v) = v % 256 ^ k := by
  induction k generalizing v with
  | zero => simp [leBytes, leNat, Nat.mod_one]
  | succ k ih =>
    have hb : (UInt8.ofNat (v % 256)).toNat = v % 256 := by simp
    rw [leBytes, leNat, ih, hb, pow_succ, mul_comm (256 ^ k), Nat.mod_mul]

theorem leNat_lt (l : List UInt8) : leNat l < 256 ^ l.length := by
  induction l with
  | nil => simp [leNat]
  | cons x xs ih =>
    have hx : x.toNat < 256 := x.toNat_lt
    rw [leNat, List.length_cons, pow_succ]
    omega

/-- The encoding of the number a list of bytes denotes is that list. -/
theorem leBytes_leNat (l : List UInt8) : leBytes l.length (leNat l) = l := by
  induction l with
  | nil => rfl
  | cons x xs ih =>
    have hx : x.toNat < 256 := x.toNat_lt
    have h1 : (x.toNat + 256 * leNat xs) % 256 = x.toNat := by omega
    have h2 : (x.toNat + 256 * leNat xs) / 256 = leNat xs := by omega
    rw [List.length_cons, leBytes, leNat, h1, h2, ih, UInt8.ofNat_toNat]

/-! ## Fields of a record -/

/-- The number in the `k` bytes of a record at offset `o`. -/
def leField (l : List UInt8) (o k : Nat) : Nat := leNat ((l.drop o).take k)

theorem leField_lt (l : List UInt8) (o k : Nat) : leField l o k < 256 ^ k := by
  refine lt_of_lt_of_le (leNat_lt _) (Nat.pow_le_pow_right (by decide) ?_)
  rw [List.length_take]
  exact Nat.min_le_left _ _

/-- A field of a record that begins with a number. -/
theorem leField_leBytes_append (k v : Nat) (l : List UInt8) :
    leField (leBytes k v ++ l) 0 k = v % 256 ^ k := by
  have htake : (leBytes k v ++ l).take k = leBytes k v := by
    rw [List.take_append_of_le_length (by simp), List.take_of_length_le (by simp)]
  rw [leField, List.drop_zero, htake, leNat_leBytes]

/-- A field that lies after the first part of a record. -/
theorem leField_append (l m : List UInt8) {o k : Nat} (h : l.length ≤ o) :
    leField (l ++ m) o k = leField m (o - l.length) k := by
  rw [leField, leField, List.drop_append, List.drop_eq_nil_of_le h, List.nil_append]

/-- A field of an array of numbers. -/
theorem leField_flatMap (k : Nat) (vs : List Nat) {i : Nat} (hi : i < vs.length) :
    leField (vs.flatMap (leBytes k)) (k * i) k = vs[i] % 256 ^ k := by
  induction vs generalizing i with
  | nil => exact absurd hi (Nat.not_lt_zero i)
  | cons v vs ih =>
    rw [List.flatMap_cons]
    cases i with
    | zero => exact leField_leBytes_append k v _
    | succ i =>
      have hlen : (leBytes k v).length ≤ k * (i + 1) := by
        rw [length_leBytes]
        exact Nat.le_mul_of_pos_right k (Nat.succ_pos i)
      have hsub : k * (i + 1) - (leBytes k v).length = k * i := by
        rw [length_leBytes, Nat.mul_succ, Nat.add_sub_cancel]
      rw [leField_append _ _ hlen, hsub, ih (Nat.lt_of_succ_lt_succ hi), List.getElem_cons_succ]

@[simp] theorem length_flatMap_leBytes (k : Nat) (vs : List Nat) :
    (vs.flatMap (leBytes k)).length = k * vs.length := by
  induction vs with
  | nil => rfl
  | cons v vs ih => simp [List.flatMap_cons, ih, Nat.mul_succ, Nat.add_comm]

namespace Bytes

variable {n : Nat}

/-- The byte at offset `o`, and `0` beyond the end of the array. -/
def get (b : Bytes n) (o : Nat) : UInt8 := if h : o < n then b ⟨o, h⟩ else 0

/-- The array of zeros that `memset` leaves. -/
def zero (n : Nat) : Bytes n := fun _ => 0

/-- The `k` bytes from offset `o` on. -/
def read (b : Bytes n) (o k : Nat) : List UInt8 := (List.range k).map fun i => b.get (o + i)

/-- Overwrite the bytes from offset `o` on with the list `l`. -/
def write (b : Bytes n) (o : Nat) (l : List UInt8) : Bytes n :=
  fun i => if o ≤ i.1 ∧ i.1 < o + l.length then l.getD (i.1 - o) 0 else b i

@[simp] theorem length_read (b : Bytes n) (o k : Nat) : (b.read o k).length = k := by
  simp [read]

theorem get_write {b : Bytes n} {o : Nat} {l : List UInt8} {p : Nat} (hp : p < n) :
    (b.write o l).get p = if o ≤ p ∧ p < o + l.length then l.getD (p - o) 0 else b.get p := by
  simp [get, write, hp]

/-- What was written is read back. -/
theorem read_write_same {b : Bytes n} {o : Nat} {l : List UInt8} (h : o + l.length ≤ n) :
    (b.write o l).read o l.length = l := by
  refine List.ext_getElem (by simp) fun i h1 h2 => ?_
  have hi : i < l.length := h2
  simp only [read, List.getElem_map, List.getElem_range]
  rw [get_write (by omega), if_pos (by omega)]
  simp [hi]

/-- A write to a disjoint range is not seen. -/
theorem read_write_disjoint {b : Bytes n} {o p k : Nat} {l : List UInt8}
    (h : p + k ≤ o ∨ o + l.length ≤ p) : (b.write o l).read p k = b.read p k := by
  refine List.map_congr_left fun i hi => ?_
  have hi : i < k := List.mem_range.1 hi
  by_cases hn : p + i < n
  · rw [get_write hn, if_neg (by omega)]
  · simp [get, hn]

/-! ## Fields of a fixed width -/

/-- The number in the `k` bytes at offset `o`. -/
def num (b : Bytes n) (k o : Nat) : Nat := leNat (b.read o k)

/-- Store a number in the `k` bytes at offset `o`. -/
def setNum (b : Bytes n) (k o v : Nat) : Bytes n := b.write o (leBytes k v)

/-- The 32-bit field at offset `o`. -/
def u32 (b : Bytes n) (o : Nat) : Nat := b.num 4 o

/-- The 64-bit field at offset `o`. -/
def u64 (b : Bytes n) (o : Nat) : Nat := b.num 8 o

/-- Store a 32-bit field at offset `o`. -/
def setU32 (b : Bytes n) (o v : Nat) : Bytes n := b.setNum 4 o v

/-- Store a 64-bit field at offset `o`. -/
def setU64 (b : Bytes n) (o v : Nat) : Bytes n := b.setNum 8 o v

theorem num_setNum_same {b : Bytes n} {k o v : Nat} (h : o + k ≤ n) :
    (b.setNum k o v).num k o = v % 256 ^ k := by
  have hr := read_write_same (b := b) (o := o) (l := leBytes k v) (by simpa using h)
  rw [length_leBytes] at hr
  rw [num, setNum, hr, leNat_leBytes]

theorem num_setNum_disjoint {b : Bytes n} {k j o p v : Nat} (h : p + j ≤ o ∨ o + k ≤ p) :
    (b.setNum k o v).num j p = b.num j p := by
  rw [num, setNum, read_write_disjoint (by simpa using h), num]

/-- Storing a field's own value changes nothing. -/
theorem setNum_num (b : Bytes n) (k o : Nat) : b.setNum k o (b.num k o) = b := by
  have hl : leBytes k (b.num k o) = b.read o k := by
    have := leBytes_leNat (b.read o k)
    rwa [length_read] at this
  funext i
  rw [setNum, hl, write]
  split
  · next hi =>
    rw [length_read] at hi
    have h1 : i.1 - o < k := by omega
    have h2 : o + (i.1 - o) = i.1 := by omega
    simp [read, h1, get, h2]
  · rfl

theorem u32_setU32_same {b : Bytes n} {o v : Nat} (h : o + 4 ≤ n) (hv : v < 2 ^ 32) :
    (b.setU32 o v).u32 o = v :=
  (num_setNum_same h).trans (Nat.mod_eq_of_lt hv)

theorem u64_setU64_same {b : Bytes n} {o v : Nat} (h : o + 8 ≤ n) (hv : v < 2 ^ 64) :
    (b.setU64 o v).u64 o = v :=
  (num_setNum_same h).trans (Nat.mod_eq_of_lt hv)

theorem u32_setU32_disjoint {b : Bytes n} {o p v : Nat} (h : p + 4 ≤ o ∨ o + 4 ≤ p) :
    (b.setU32 o v).u32 p = b.u32 p :=
  num_setNum_disjoint h

theorem u64_setU64_disjoint {b : Bytes n} {o p v : Nat} (h : p + 8 ≤ o ∨ o + 8 ≤ p) :
    (b.setU64 o v).u64 p = b.u64 p :=
  num_setNum_disjoint h

theorem setU32_u32 (b : Bytes n) (o : Nat) : b.setU32 o (b.u32 o) = b := b.setNum_num 4 o

theorem get_zero (o : Nat) : (zero n).get o = 0 := by
  simp [get, zero]

/-- Every field of the array of zeros is zero. -/
theorem num_zero (k o : Nat) : (zero n).num k o = 0 := by
  have hrep : (zero n).read o k = List.replicate k 0 := by
    refine List.ext_getElem (by simp) fun i h1 h2 => ?_
    simp [read, get_zero]
  rw [num, hrep]
  clear hrep
  induction k with
  | zero => rfl
  | succ k ih => rw [List.replicate_succ, leNat, ih]; rfl

end Bytes
