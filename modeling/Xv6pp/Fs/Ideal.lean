import Xv6pp.Fs.FileSystem
import Xv6pp.Lib.Wp
import Xv6pp.Log.Crash

/-!
# The file system over an ideal cache

What the programs of the file system do when the buffer cache behaves as they expect it to: a block
has one content, which a store changes and nothing else does.  `ideal` runs a program that way, and
the rules below give the precondition of each of the basic commands.  The effects of the functions
that write one block of metadata are stated here once, as the state in which they leave the file
system.
-/

set_option autoImplicit false

namespace Xv6pp

open Prog FileSystem

/-- The file system in memory and the content of the disk as the buffer cache shows it. -/
structure Fs where
  mem : FsMem
  dev : BufM.Device

namespace Fs

/-- The content of a block. -/
def data (s : Fs) (b : Nat) : Block := s.dev.data b

/-- The super block. -/
def sb (s : Fs) : Superblock := s.mem.sb

/-- The log. -/
def log (s : Fs) : Log := s.mem.log

/-- An in-core inode. -/
def inode (s : Fs) (ip : InodeId) : Inode := s.mem.inodes ip

/-- The inode on the disk. -/
def dinode (s : Fs) (i : Nat) : Dinode := (s.data (s.sb.iblock i)).dinode (i % IPB)

/-- The bit of a block in the free map. -/
def bit (s : Fs) (b : Nat) : Bool := (s.data (s.sb.bblock b)).bit (b % BPB)

/-- Overwrite a block. -/
def store (s : Fs) (b : Nat) (d : Block) : Fs :=
  { s with dev := { s.dev with data := Function.update s.dev.data b d } }

/-- Replace the log. -/
def setLog (s : Fs) (l : Log) : Fs := { s with mem := { s.mem with log := l } }

/-- Replace an in-core inode. -/
def setInode (s : Fs) (ip : InodeId) (i : Inode) : Fs :=
  { s with mem := { s.mem with inodes := Function.update s.mem.inodes ip i } }

section
variable (s : Fs) (b : Nat) (d : Block) (l : Log) (ip : InodeId) (i : Inode)

@[simp] theorem store_sb : (s.store b d).sb = s.sb := rfl
@[simp] theorem store_log : (s.store b d).log = s.log := rfl
@[simp] theorem store_inode : (s.store b d).inode = s.inode := rfl
@[simp] theorem setLog_sb : (s.setLog l).sb = s.sb := rfl
@[simp] theorem setLog_log : (s.setLog l).log = l := rfl
@[simp] theorem setLog_inode : (s.setLog l).inode = s.inode := rfl
@[simp] theorem setLog_data : (s.setLog l).data = s.data := rfl
@[simp] theorem setInode_sb : (s.setInode ip i).sb = s.sb := rfl
@[simp] theorem setInode_log : (s.setInode ip i).log = s.log := rfl
@[simp] theorem setInode_data : (s.setInode ip i).data = s.data := rfl

@[simp] theorem store_data_self : (s.store b d).data b = d := Function.update_self ..

theorem store_data_of_ne {c : Nat} (h : c ≠ b) : (s.store b d).data c = s.data c :=
  Function.update_of_ne h ..

@[simp] theorem setInode_inode_self : (s.setInode ip i).inode ip = i := Function.update_self ..

theorem setInode_inode : (s.setInode ip i).inode = Function.update s.inode ip i := rfl

theorem setInode_inode_of_ne {k : InodeId} (h : k ≠ ip) : (s.setInode ip i).inode k = s.inode k :=
  Function.update_of_ne h ..

end

end Fs

/-! ## Running programs -/

/-- Run a program over an ideal cache. -/
def ideal {α : Type} (m : FsM α) : StateT Fs (Except Panic) α := fun s =>
  match (m s.mem).exec s.dev with
  | .ok ((a, mem), dev) => .ok (a, ⟨mem, dev⟩)
  | .error e => .error e

section
variable {α β : Type} {E : Panic → Prop} {s : Fs}

@[simp] theorem wp_ideal_pure {Q : α → Fs → Prop} {a : α} :
    wp (ideal (pure a)) E Q s ↔ Q a s := Iff.rfl

@[simp] theorem wp_ideal_bind {m : FsM α} {f : α → FsM β} {Q : β → Fs → Prop} :
    wp (ideal (m >>= f)) E Q s ↔ wp (ideal m) E (fun a s' => wp (ideal (f a)) E Q s') s := by
  have hexec : ((m >>= f) s.mem).exec s.dev
      = ((m s.mem).exec s.dev).bind fun r => ((f r.1.1) r.1.2).exec r.2 :=
    BufM.exec_bind (m s.mem) (fun r => (f r.1) r.2) s.dev
  simp only [wp, ideal, StateT.run, hexec]
  cases (m s.mem).exec s.dev with
  | error e => rfl
  | ok r => rfl

@[simp] theorem wp_ideal_map {m : FsM α} {f : α → β} {Q : β → Fs → Prop} :
    wp (ideal (f <$> m)) E Q s ↔ wp (ideal m) E (fun a s' => Q (f a) s') s :=
  wp_ideal_bind (f := fun a => pure (f a))

theorem wp_ideal_ite {c : Prop} [Decidable c] {m m' : FsM α} {Q : α → Fs → Prop} :
    wp (ideal (if c then m else m')) E Q s ↔
      (c → wp (ideal m) E Q s) ∧ (¬ c → wp (ideal m') E Q s) := by
  split <;> simp [*]

@[simp] theorem wp_ideal_get {Q : FsMem → Fs → Prop} :
    wp (ideal get) E Q s ↔ Q s.mem s := Iff.rfl

@[simp] theorem wp_stop {e : Panic} {Q : α → Fs → Prop} : wp (ideal (stop e)) E Q s ↔ E e := Iff.rfl

@[simp] theorem wp_bread {b : Nat} {Q : Block → Fs → Prop} :
    wp (ideal (bread b)) E Q s ↔ Q (s.data b) s := Iff.rfl

@[simp] theorem wp_bstore {b : Nat} {d : Block} {Q : Unit → Fs → Prop} :
    wp (ideal (bstore b d)) E Q s ↔ Q () (s.store b d) := Iff.rfl

@[simp] theorem wp_brelse {b : Nat} {Q : Unit → Fs → Prop} :
    wp (ideal (brelse b)) E Q s ↔ Q () s := Iff.rfl

@[simp] theorem wp_superblock {Q : Superblock → Fs → Prop} :
    wp (ideal superblock) E Q s ↔ Q s.sb s := Iff.rfl

@[simp] theorem wp_inode {ip : InodeId} {Q : Inode → Fs → Prop} :
    wp (ideal (FileSystem.inode ip)) E Q s ↔ Q (s.inode ip) s := Iff.rfl

@[simp] theorem wp_updateInode {ip : InodeId} {f : Inode → Inode} {Q : Unit → Fs → Prop} :
    wp (ideal (updateInode ip f)) E Q s ↔ Q () (s.setInode ip (f (s.inode ip))) := Iff.rfl

@[simp] theorem wp_updateCopy {ip : InodeId} {f : Dinode → Dinode} {Q : Unit → Fs → Prop} :
    wp (ideal (updateCopy ip f)) E Q s ↔
      Q () (s.setInode ip { s.inode ip with copy := f (s.inode ip).copy }) := Iff.rfl

/-- Sequencing with a lemma about the first part. -/
theorem wp_ideal_seq {m : FsM α} {f : α → FsM β} {Q : α → Fs → Prop} {Q' : β → Fs → Prop}
    (h : wp (ideal m) E Q s) (hf : ∀ a s', Q a s' → wp (ideal (f a)) E Q' s') :
    wp (ideal (m >>= f)) E Q' s :=
  wp_ideal_bind.2 (wp_imp h hf)

end

/-! ## The layout of the disk -/

/-- The regions that the super block describes: the log, the inodes, the free map and the data
blocks come in this order. -/
structure Superblock.Layout (sb : Superblock) : Prop where
  /-- The inode blocks come after the log. -/
  log_le : sb.logstart + sb.nlog ≤ sb.inodestart
  /-- The free map comes after the inode blocks. -/
  inodes_le : sb.inodestart ≤ sb.bmapstart
  inodes : ∀ {i}, sb.IsInum i → sb.iblock i < sb.bmapstart
  /-- The data blocks come after the free map. -/
  bitmap : ∀ {b}, b < sb.size → sb.bblock b < sb.datastart
  /-- The boot block is not a data block. -/
  pos : 0 < sb.datastart
  /-- Block numbers are 32-bit numbers. -/
  word : sb.size < 2 ^ 32

namespace Superblock

variable {sb : Superblock}

instance (sb : Superblock) (i : Nat) : Decidable (sb.IsInum i) := inferInstanceAs (Decidable (_ ∧ _))

theorem datastart_le (sb : Superblock) : sb.datastart ≤ sb.size := Nat.sub_le ..

theorem bmapstart_le_bblock (sb : Superblock) (b : Nat) : sb.bmapstart ≤ sb.bblock b :=
  Nat.le_add_left ..

theorem Layout.size_pos (h : sb.Layout) : 0 < sb.size := lt_of_lt_of_le h.pos sb.datastart_le

theorem Layout.bmapstart_lt (h : sb.Layout) : sb.bmapstart < sb.datastart :=
  lt_of_le_of_lt (sb.bmapstart_le_bblock 0) (h.bitmap h.size_pos)

theorem Layout.iblock_ne_bblock (h : sb.Layout) {i : Nat} (hi : sb.IsInum i) (b : Nat) :
    sb.iblock i ≠ sb.bblock b :=
  (lt_of_lt_of_le (h.inodes hi) (sb.bmapstart_le_bblock b)).ne

theorem Layout.iblock_lt (h : sb.Layout) {i : Nat} (hi : sb.IsInum i) :
    sb.iblock i < sb.datastart :=
  (h.inodes hi).trans h.bmapstart_lt

/-- A block after the log area and within the disk, as every block is that the file system
writes. -/
def Home (sb : Superblock) (b : Nat) : Prop := sb.inodestart ≤ b ∧ b < sb.size

theorem Layout.home_iblock (h : sb.Layout) {i : Nat} (hi : sb.IsInum i) : sb.Home (sb.iblock i) :=
  ⟨Nat.le_add_left .., lt_of_lt_of_le (h.iblock_lt hi) sb.datastart_le⟩

theorem Layout.home_bblock (h : sb.Layout) {b : Nat} (hb : b < sb.size) : sb.Home (sb.bblock b) :=
  ⟨h.inodes_le.trans (sb.bmapstart_le_bblock b), lt_of_lt_of_le (h.bitmap hb) sb.datastart_le⟩

theorem Layout.home_data (h : sb.Layout) {b : Nat} (hb : sb.datastart ≤ b) (hlt : b < sb.size) :
    sb.Home b :=
  ⟨(h.inodes_le.trans h.bmapstart_lt.le).trans hb, hlt⟩

end Superblock

/-! ## Writing blocks in a transaction -/

/-- The log of a file system: it lies where the super block says, and its transaction can be
committed. -/
structure LogOk (sb : Superblock) (l : Log) : Prop where
  committable : l.Committable
  start : l.start = sb.logstart
  size : l.size = sb.nlog

/-- The panics of `log_write`. -/
structure LogStops (E : Panic → Prop) : Prop where
  tooBig : E .tooBigTransaction
  outside : E .logWriteOutsideOfTrans

section
variable {E : Panic → Prop} {s : Fs} {b : Nat}

theorem Log.logWrite_start {l l' : Log} {pinned : Bool} (h : l.logWrite b = .ok (l', pinned)) :
    l'.start = l.start ∧ l'.size = l.size := by
  rw [Log.logWrite_eq] at h
  split at h
  · cases h
  split at h
  · cases h
  split at h
  · cases h
    exact ⟨rfl, rfl⟩
  · cases h
    exact ⟨rfl, rfl⟩

theorem LogOk.logWrite {sb : Superblock} (hsb : sb.Layout) {l l' : Log} {pinned : Bool}
    (h : LogOk sb l) (hb : sb.Home b) (hw : l.logWrite b = .ok (l', pinned)) : LogOk sb l' := by
  obtain ⟨hstart, hsize⟩ := Log.logWrite_start hw
  refine ⟨h.committable.logWrite ?_ (hb.2.trans hsb.word) hw, hstart.trans h.start,
    hsize.trans h.size⟩
  rintro ⟨-, hlt⟩
  rw [h.start, h.size] at hlt
  exact absurd (hsb.log_le.trans hb.1) (Nat.not_le.2 hlt)

/-- **`log_write`** panics or leaves everything but the log alone. -/
theorem wp_logWrite (hE : LogStops E) (hsb : s.sb.Layout) (hl : LogOk s.sb s.log)
    (hb : s.sb.Home b) {Q : Unit → Fs → Prop} (h : ∀ l, LogOk s.sb l → Q () (s.setLog l)) :
    wp (ideal (logWrite b)) E Q s := by
  rw [FileSystem.logWrite]
  simp only [wp_ideal_bind, wp_ideal_get]
  cases hw : s.mem.log.logWrite b with
  | error e =>
    rw [Log.logWrite_eq] at hw
    split at hw
    · cases hw
      exact hE.tooBig
    split at hw
    · cases hw
      exact hE.outside
    split at hw
    · cases hw
    · cases hw
  | ok r =>
    obtain ⟨l, pinned⟩ := r
    have hQ := h l (hl.logWrite hsb hb hw)
    cases pinned with
    | true => exact hQ
    | false => exact hQ

/-- A block is changed, logged and released. -/
theorem wp_logged (hE : LogStops E) (hsb : s.sb.Layout) (hl : LogOk s.sb s.log)
    (hb : s.sb.Home b) {d : Block} {α : Type} {m : FsM α} {Q : α → Fs → Prop}
    (h : ∀ l, LogOk s.sb l → wp (ideal m) E Q ((s.store b d).setLog l)) :
    wp (ideal (do bstore b d; logWrite b; m)) E Q s := by
  simp only [wp_ideal_bind, wp_bstore]
  exact wp_logWrite (s := s.store b d) hE hsb hl hb h

/-- **`bzero`.** -/
theorem wp_bzero (hE : LogStops E) (hsb : s.sb.Layout) (hl : LogOk s.sb s.log)
    (hb : s.sb.Home b) :
    wp (ideal (bzero b)) E (fun _ s' => ∃ l, LogOk s.sb l ∧
      s' = (s.store b (Bytes.zero BSIZE)).setLog l) s := by
  rw [bzero, wp_ideal_bind, wp_bread]
  exact wp_logged hE hsb hl hb fun l hl' => ⟨l, hl', rfl⟩

end

end Xv6pp
