import Mathlib.Data.List.TakeWhile
import Mathlib.Data.Nat.Bitwise
import Xv6pp.Buffer.BufM

/-!
# The on-disk format of `kernel/fs.h`

The super block, the inodes in the inode blocks, the free bitmap, the addresses in an indirect
block and the entries of a directory.  Each format has a function that reads it from the bytes of a
block and one that writes it back, and the lemmas say that what was written is read back and that
nothing else in the block has changed.
-/

set_option autoImplicit false

namespace Xv6pp

/-! ## The super block -/

/-- `struct superblock`, without the magic number. -/
structure Superblock where
  /-- Size of the file system image in blocks. -/
  size : Nat
  /-- Number of data blocks. -/
  nblocks : Nat
  /-- Number of inodes. -/
  ninodes : Nat
  /-- Number of log blocks. -/
  nlog : Nat
  /-- The first log block. -/
  logstart : Nat
  /-- The first inode block. -/
  inodestart : Nat
  /-- The first block of the free map. -/
  bmapstart : Nat

namespace Superblock

/-- `IBLOCK`: the block containing an inode. -/
def iblock (sb : Superblock) (inum : Nat) : Nat := inum / IPB + sb.inodestart

/-- `BBLOCK`: the block of the free map containing the bit of a block. -/
def bblock (sb : Superblock) (b : Nat) : Nat := b / BPB + sb.bmapstart

/-- The first data block. -/
def datastart (sb : Superblock) : Nat := sb.size - sb.nblocks

/-- An inode number of the file system.  Inode 0 is not used: a directory entry with inode number 0
is free. -/
def IsInum (sb : Superblock) (inum : Nat) : Prop := 0 < inum ∧ inum < sb.ninodes

end Superblock

/-! ## Inodes -/

def T_DIR : Int := 1
def T_FILE : Int := 2
def T_DEVICE : Int := 3

/-- `struct dinode`, and the part of `struct inode` that is a copy of it. -/
@[ext] structure Dinode where
  /-- File type; zero when the inode is free. -/
  type : Int
  /-- Major device number. -/
  major : Int
  /-- Minor device number. -/
  minor : Int
  /-- Number of links to the inode in the file system. -/
  nlink : Int
  /-- Size of the file in bytes. -/
  size : Nat
  /-- Data block addresses; the last one is that of the indirect block. -/
  addrs : Fin (NDIRECT + 1) → Nat

namespace Dinode

/-- The inode of zeros that `memset` leaves, with a type. -/
def fresh (type : Int) : Dinode := ⟨type, 0, 0, 0, 0, fun _ => 0⟩

/-- The address of the indirect block. -/
def indirect (d : Dinode) : Nat := d.addrs (Fin.last NDIRECT)

/-- The bytes of an inode. -/
def bytes (d : Dinode) : List UInt8 :=
  leBytes 2 (toUnsigned 16 d.type) ++ (leBytes 2 (toUnsigned 16 d.major) ++
    (leBytes 2 (toUnsigned 16 d.minor) ++ (leBytes 2 (toUnsigned 16 d.nlink) ++
      (leBytes 4 d.size ++ (List.ofFn d.addrs).flatMap (leBytes 4)))))

/-- The inode in these bytes. -/
def ofBytes (l : List UInt8) : Dinode where
  type := toShort (leField l 0 2)
  major := toShort (leField l 2 2)
  minor := toShort (leField l 4 2)
  nlink := toShort (leField l 6 2)
  size := leField l 8 4
  addrs := fun i => leField l (12 + 4 * i) 4

/-- A number that a `short` can hold. -/
def IsShort (v : Int) : Prop := -2 ^ 15 ≤ v ∧ v < 2 ^ 15

instance (v : Int) : Decidable (IsShort v) := inferInstanceAs (Decidable (_ ∧ _))

/-- The values are within the ranges of their types. -/
structure Fits (d : Dinode) : Prop where
  type : IsShort d.type
  major : IsShort d.major
  minor : IsShort d.minor
  nlink : IsShort d.nlink
  size : d.size < 2 ^ 32
  addrs : ∀ i, d.addrs i < 2 ^ 32

theorem isShort_toShort {v : Nat} (h : v < 2 ^ 16) : IsShort (toShort v) := by
  rw [IsShort, toShort]
  split <;> omega

theorem toShort_toUnsigned {v : Int} (h : IsShort v) : toShort (toUnsigned 16 v % 256 ^ 2) = v := by
  rw [IsShort] at h
  rw [toShort, toUnsigned]
  split <;> omega

/-- A `short` after arithmetic on its value. -/
theorem isShort_wrap (v : Int) : IsShort (toShort (toUnsigned 16 v)) := by
  refine isShort_toShort ?_
  rw [toUnsigned]
  omega

@[simp] theorem length_bytes (d : Dinode) : d.bytes.length = 64 := by
  simp only [bytes, List.length_append, length_leBytes, length_flatMap_leBytes, List.length_ofFn]
  rfl

/-- Reading back the bytes of an inode. -/
theorem ofBytes_bytes {d : Dinode} (h : d.Fits) : ofBytes d.bytes = d := by
  have h0 : ∀ (l : List UInt8) (v : Int), IsShort v →
      toShort (leField (leBytes 2 (toUnsigned 16 v) ++ l) 0 2) = v := fun l v hv => by
    rw [leField_leBytes_append, toShort_toUnsigned hv]
  have h2 : ∀ (v : Nat) (l : List UInt8) (o k : Nat),
      leField (leBytes 2 v ++ l) (2 + o) k = leField l o k := fun v l o k => by
    rw [leField_append _ _ (by simp), length_leBytes, Nat.add_sub_cancel_left]
  have h4 : ∀ (v : Nat) (l : List UInt8) (o k : Nat),
      leField (leBytes 4 v ++ l) (4 + o) k = leField l o k := fun v l o k => by
    rw [leField_append _ _ (by simp), length_leBytes, Nat.add_sub_cancel_left]
  rw [ofBytes, bytes]
  ext1
  · exact h0 _ _ h.type
  · exact (congrArg toShort (h2 _ _ 0 2)).trans (h0 _ _ h.major)
  · refine (congrArg toShort (h2 _ _ (2 + 0) 2)).trans ?_
    exact (congrArg toShort (h2 _ _ 0 2)).trans (h0 _ _ h.minor)
  · refine (congrArg toShort (h2 _ _ (2 + (2 + 0)) 2)).trans ?_
    refine (congrArg toShort (h2 _ _ (2 + 0) 2)).trans ?_
    exact (congrArg toShort (h2 _ _ 0 2)).trans (h0 _ _ h.nlink)
  · refine (h2 _ _ (2 + (2 + (2 + 0))) 4).trans ((h2 _ _ (2 + (2 + 0)) 4).trans
      ((h2 _ _ (2 + 0) 4).trans ((h2 _ _ 0 4).trans ?_)))
    rw [leField_leBytes_append]
    exact Nat.mod_eq_of_lt h.size
  · funext i
    have hoff : 12 + 4 * (i : Nat) = 2 + (2 + (2 + (2 + (4 + 4 * i)))) := by omega
    have hi : (i : Nat) < (List.ofFn d.addrs).length := by rw [List.length_ofFn]; exact i.2
    show leField _ (12 + 4 * (i : Nat)) 4 = d.addrs i
    rw [hoff, h2, h2, h2, h2, h4, leField_flatMap 4 _ hi, List.getElem_ofFn]
    exact Nat.mod_eq_of_lt (h.addrs i)

theorem fits_ofBytes (l : List UInt8) : (ofBytes l).Fits where
  type := isShort_toShort (leField_lt l 0 2)
  major := isShort_toShort (leField_lt l 2 2)
  minor := isShort_toShort (leField_lt l 4 2)
  nlink := isShort_toShort (leField_lt l 6 2)
  size := leField_lt l 8 4
  addrs i := leField_lt l (12 + 4 * i) 4

end Dinode

/-- The inode at position `k` of an inode block. -/
def Block.dinode (b : Block) (k : Nat) : Dinode := .ofBytes (Bytes.read b (64 * k) 64)

/-- Overwrite the inode at position `k` of an inode block. -/
def Block.setDinode (b : Block) (k : Nat) (d : Dinode) : Block := Bytes.write b (64 * k) d.bytes

theorem Block.dinode_setDinode {b : Block} {k : Nat} {d : Dinode} (hk : k < IPB) (hd : d.Fits) :
    (b.setDinode k d).dinode k = d := by
  have hlen := d.length_bytes
  have hread : Bytes.read (b.setDinode k d) (64 * k) 64 = d.bytes := by
    have h := Bytes.read_write_same (b := b) (o := 64 * k) (l := d.bytes)
      (by simp only [IPB, BSIZE] at *; omega)
    rwa [hlen] at h
  rw [Block.dinode, hread, Dinode.ofBytes_bytes hd]

theorem Block.dinode_setDinode_of_ne {b : Block} {j k : Nat} {d : Dinode} (h : j ≠ k) :
    (b.setDinode k d).dinode j = b.dinode j := by
  have hlen := d.length_bytes
  rw [Block.dinode, Block.dinode, Block.setDinode, Bytes.read_write_disjoint (by omega)]

/-! ## The free bitmap -/

/-- The bit of block `i` of a bitmap block. -/
def Block.bit (b : Block) (i : Nat) : Bool := (Bytes.get b (i / 8)).toNat &&& 1 <<< (i % 8) != 0

/-- Set the bit of block `i`. -/
def Block.setBit (b : Block) (i : Nat) : Block :=
  Bytes.write b (i / 8) [UInt8.ofNat ((Bytes.get b (i / 8)).toNat ||| 1 <<< (i % 8))]

/-- Clear the bit of block `i`. -/
def Block.clearBit (b : Block) (i : Nat) : Block :=
  Bytes.write b (i / 8) [UInt8.ofNat ((Bytes.get b (i / 8)).toNat &&& (255 - 1 <<< (i % 8)))]

/-- The first free block of a bitmap block among its first `n`. -/
def Block.freeBit (b : Block) (n : Nat) : Option Nat := (List.range n).find? fun i => !b.bit i

theorem Block.bit_eq_testBit (b : Block) (i : Nat) :
    b.bit i = (Bytes.get b (i / 8)).toNat.testBit (i % 8) := by
  rw [Block.bit, Nat.shiftLeft_eq, one_mul, Nat.and_two_pow]
  cases (Bytes.get b (i / 8)).toNat.testBit (i % 8) with
  | false => simp
  | true => simp

/-- A change of one byte of a bitmap block changes the bits in it only. -/
theorem Block.bit_write {b : Block} {i j v : Nat} (hj : j < BPB) (hv : v < 256) :
    Block.bit (Bytes.write b (i / 8) [UInt8.ofNat v]) j =
      if j / 8 = i / 8 then v.testBit (j % 8) else b.bit j := by
  have hval : (UInt8.ofNat v).toNat = v := by
    rw [UInt8.toNat_ofNat']
    exact Nat.mod_eq_of_lt hv
  have hj' : j / 8 < BSIZE := by
    simp only [BPB, BSIZE] at *
    omega
  rw [Block.bit_eq_testBit, Bytes.get_write hj', List.length_singleton]
  split
  · next h =>
    have heq : j / 8 = i / 8 := by omega
    rw [if_pos heq, heq, Nat.sub_self]
    exact congrArg (Nat.testBit · (j % 8)) hval
  · next h =>
    rw [if_neg (by omega), Block.bit_eq_testBit]

theorem Block.bit_setBit {b : Block} {i j : Nat} (hj : j < BPB) :
    (b.setBit i).bit j = (decide (j = i) || b.bit j) := by
  have hx : (Bytes.get b (i / 8)).toNat < 2 ^ 8 := UInt8.toNat_lt _
  have hm : 1 <<< (i % 8) < 2 ^ 8 := by
    rw [Nat.shiftLeft_eq, one_mul]
    exact Nat.pow_lt_pow_right (by decide) (Nat.mod_lt _ (by decide))
  rw [Block.setBit, Block.bit_write hj (Nat.or_lt_two_pow hx hm), Block.bit_eq_testBit b j]
  split
  · next h =>
    rw [h, Nat.testBit_or, Nat.shiftLeft_eq, one_mul, Nat.testBit_two_pow, Bool.or_comm]
    congr 1
    exact decide_eq_decide.2 (by omega)
  · next h =>
    have hne : j ≠ i := fun e => h (by rw [e])
    rw [decide_eq_false hne, Bool.false_or]

theorem Block.bit_clearBit {b : Block} {i j : Nat} (hj : j < BPB) :
    (b.clearBit i).bit j = (decide (j ≠ i) && b.bit j) := by
  have hmask : ∀ k < 8, ∀ l < 8, (255 - 1 <<< k).testBit l = decide (l ≠ k) := by decide
  have hx : (Bytes.get b (i / 8)).toNat < 2 ^ 8 := UInt8.toNat_lt _
  rw [Block.clearBit, Block.bit_write hj (lt_of_le_of_lt Nat.and_le_left hx),
    Block.bit_eq_testBit b j]
  split
  · next h =>
    rw [h, Nat.testBit_and, hmask _ (Nat.mod_lt _ (by decide)) _ (Nat.mod_lt _ (by decide)),
      Bool.and_comm]
    congr 1
    exact decide_eq_decide.2 (by omega)
  · next h =>
    have hne : j ≠ i := fun e => h (by rw [e])
    rw [decide_eq_true hne, Bool.true_and]

theorem Block.freeBit_some {b : Block} {n i : Nat} (h : b.freeBit n = some i) :
    i < n ∧ b.bit i = false := by
  refine ⟨List.mem_range.1 (List.mem_of_find?_eq_some h), ?_⟩
  simpa using List.find?_some h

theorem Block.freeBit_none {b : Block} {n i : Nat} (h : b.freeBit n = none) (hi : i < n) :
    b.bit i = true := by
  simpa using List.find?_eq_none.1 h i (List.mem_range.2 hi)

/-! ## Indirect blocks -/

/-- Entry `j` of an indirect block. -/
def Block.entry (b : Block) (j : Nat) : Nat := Bytes.u32 b (4 * j)

/-- Overwrite entry `j` of an indirect block. -/
def Block.setEntry (b : Block) (j v : Nat) : Block := Bytes.setU32 b (4 * j) v

theorem Block.entry_setEntry {b : Block} {i j v : Nat} (hi : i < NINDIRECT) (hv : v < 2 ^ 32) :
    (b.setEntry i v).entry j = if j = i then v else b.entry j := by
  split
  · next h =>
    subst h
    exact Bytes.u32_setU32_same (by simp only [NINDIRECT, BSIZE] at *; omega) hv
  · next h => exact Bytes.u32_setU32_disjoint (by omega)

theorem Block.entry_zero (j : Nat) : Block.entry (Bytes.zero BSIZE) j = 0 := Bytes.num_zero 4 (4 * j)

/-! ## Directory entries -/

/-- The bytes of a string up to its NUL, or all of them. -/
def cstr (l : List UInt8) : List UInt8 := l.takeWhile (· != 0)

/-- `struct dirent`.  The name is the string in the `DIRSIZ` bytes of the array. -/
structure Dirent where
  inum : Nat
  name : List UInt8
  deriving DecidableEq

/-- `sizeof(struct dirent)`. -/
def sizeofDirent : Nat := 16

/-- The number of entries of a directory. -/
def Dinode.entries (d : Dinode) : Nat := (d.size + sizeofDirent - 1) / sizeofDirent

/-- `strncpy(de.name, name, DIRSIZ)`: the name cut or padded to the length of the array. -/
def strncpy (name : List UInt8) : List UInt8 :=
  let s := (cstr name).take DIRSIZ
  s ++ List.replicate (DIRSIZ - s.length) 0

/-- The bytes of a directory entry. -/
def Dirent.bytes (de : Dirent) : List UInt8 := leBytes 2 de.inum ++ strncpy de.name

/-- The directory entry in these bytes. -/
def Dirent.ofBytes (l : List UInt8) : Dirent where
  inum := leField l 0 2
  name := cstr ((l.drop 2).take DIRSIZ)

/-- A name as it can stand in a directory. -/
def IsName (name : List UInt8) : Prop := name.length ≤ DIRSIZ ∧ ∀ x ∈ name, x ≠ 0

@[simp] theorem length_strncpy (name : List UInt8) : (strncpy name).length = DIRSIZ := by
  have h : ((cstr name).take DIRSIZ).length ≤ DIRSIZ := List.length_take_le _ _
  rw [strncpy, List.length_append, List.length_replicate]
  omega

@[simp] theorem Dirent.length_bytes (de : Dirent) : de.bytes.length = sizeofDirent := by
  rw [Dirent.bytes, List.length_append, length_leBytes, length_strncpy]
  rfl

theorem cstr_append_zero {l : List UInt8} (h : ∀ x ∈ l, x ≠ 0) (n : Nat) :
    cstr (l ++ List.replicate n 0) = l := by
  induction l with
  | nil =>
    cases n with
    | zero => rfl
    | succ n => rfl
  | cons x l ih =>
    have hx : (x != 0) = true := bne_iff_ne.2 (h x List.mem_cons_self)
    rw [List.cons_append, cstr, List.takeWhile_cons, if_pos hx]
    exact congrArg (x :: ·) (ih fun y hy => h y (List.mem_cons_of_mem x hy))

theorem cstr_eq_self {l : List UInt8} (h : ∀ x ∈ l, x ≠ 0) : cstr l = l :=
  List.takeWhile_eq_self_iff.2 fun x hx => bne_iff_ne.2 (h x hx)

/-- Copying a name into the array and reading it back. -/
theorem cstr_strncpy {name : List UInt8} (h : IsName name) : cstr (strncpy name) = name := by
  rw [strncpy, cstr_eq_self h.2, List.take_of_length_le h.1]
  exact cstr_append_zero h.2 _

/-- Reading back the bytes of a directory entry. -/
theorem Dirent.ofBytes_bytes {de : Dirent} (hinum : de.inum < 2 ^ 16) (hname : IsName de.name) :
    ofBytes de.bytes = de := by
  have hdrop : (leBytes 2 de.inum ++ strncpy de.name).drop 2 = strncpy de.name := rfl
  have htake : (strncpy de.name).take DIRSIZ = strncpy de.name :=
    List.take_of_length_le (length_strncpy _).le
  have hmod : de.inum % 256 ^ 2 = de.inum := Nat.mod_eq_of_lt hinum
  rw [ofBytes, bytes, leField_leBytes_append, hdrop, htake, cstr_strncpy hname, hmod]

theorem Dirent.isName_ofBytes (l : List UInt8) : IsName (ofBytes l).name := by
  refine ⟨?_, fun x hx => ?_⟩
  · calc (cstr ((l.drop 2).take DIRSIZ)).length ≤ ((l.drop 2).take DIRSIZ).length :=
        (List.takeWhile_sublist _).length_le
      _ ≤ DIRSIZ := List.length_take_le _ _
  · have hx' : (x != 0) = true := List.mem_takeWhile_imp (p := (· != 0)) hx
    exact bne_iff_ne.1 hx'

/-- `strncmp` on two strings, of which the list has the bytes before the NUL. -/
def strncmp (p q : List UInt8) : Nat → Int
  | 0 => 0
  | n + 1 =>
    if p.headD 0 ≠ 0 ∧ p.headD 0 = q.headD 0 then strncmp p.tail q.tail n
    else (p.headD 0).toNat - (q.headD 0).toNat

/-- `namecmp`. -/
def namecmp (s t : List UInt8) : Int := strncmp s t DIRSIZ

theorem strncmp_eq_zero {n : Nat} {p q : List UInt8} (hp : p.length ≤ n) (hq : q.length ≤ n)
    (hp0 : ∀ x ∈ p, x ≠ 0) (hq0 : ∀ x ∈ q, x ≠ 0) : strncmp p q n = 0 ↔ p = q := by
  induction n generalizing p q with
  | zero =>
    rw [List.length_eq_zero_iff.1 (Nat.le_zero.1 hp), List.length_eq_zero_iff.1 (Nat.le_zero.1 hq)]
    exact iff_of_true rfl rfl
  | succ n ih =>
    cases p with
    | nil =>
      cases q with
      | nil => exact iff_of_true rfl rfl
      | cons y q =>
        have hy := hq0 y List.mem_cons_self
        have hy' : y.toNat ≠ 0 := fun e => hy (UInt8.toNat_inj.1 e)
        refine iff_of_false ?_ nofun
        simp only [strncmp, List.headD_nil, List.headD_cons, ne_eq, not_true, false_and, if_false]
        show ((0 : Nat) : Int) - y.toNat ≠ 0
        omega
    | cons x p =>
      have hx := hp0 x List.mem_cons_self
      rw [strncmp]
      split
      · next hxy =>
        cases q with
        | nil => exact absurd hxy.2 hx
        | cons y q =>
          obtain rfl : x = y := hxy.2
          rw [List.cons.injEq]
          refine (ih (Nat.le_of_succ_le_succ hp) (Nat.le_of_succ_le_succ hq)
            (fun z hz => hp0 z (List.mem_cons_of_mem x hz))
            fun z hz => hq0 z (List.mem_cons_of_mem x hz)).trans ?_
          exact ⟨fun h => ⟨rfl, h⟩, fun h => h.2⟩
      · next hxy =>
        have hne : x ≠ q.headD 0 := fun e => hxy ⟨hx, e⟩
        have hne' : x.toNat ≠ (q.headD 0).toNat := fun e => hne (UInt8.toNat_inj.1 e)
        refine iff_of_false ?_ ?_
        · rw [List.headD_cons]
          omega
        · rintro rfl
          exact hne rfl

/-- **Names are compared as strings.** -/
theorem namecmp_eq_zero {s t : List UInt8} (hs : IsName s) (ht : IsName t) :
    namecmp s t = 0 ↔ s = t :=
  strncmp_eq_zero hs.1 ht.1 hs.2 ht.2

end Xv6pp
