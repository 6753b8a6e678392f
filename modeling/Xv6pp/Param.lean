import Mathlib.Algebra.Ring.Int.Defs
import Mathlib.Algebra.Ring.Nat

/-!
# Kernel parameters and panics

The constants of `kernel/param.h`, `kernel/fs.h`, `kernel/riscv.h` and `kernel/memlayout.h`, and
the panics of the modelled code.  A panic halts the machine, so a modelled function that may panic returns an
`Except Panic`.
-/

set_option autoImplicit false

namespace Xv6pp

/-! ## `param.h` -/

/-- Maximum number of blocks any file-system operation writes. -/
def MAXOPBLOCKS : Nat := 10

/-- Maximum number of data blocks in the on-disk log. -/
def LOGSIZE : Nat := MAXOPBLOCKS * 3

/-- Size of the disk block cache. -/
def NBUF : Nat := MAXOPBLOCKS * 3

/-- Device number of the file system's root disk. -/
def ROOTDEV : Nat := 1

/-- Maximum number of processes. -/
def NPROC : Nat := 64

theorem NPROC_pos : 0 < NPROC := by decide

/-- Open files per process. -/
def NOFILE : Nat := 16

/-- Open files per system. -/
def NFILE : Nat := 100

/-- Maximum number of active inodes. -/
def NINODE : Nat := 50

theorem NINODE_pos : 0 < NINODE := by decide

/-- Maximum major device number. -/
def NDEV : Nat := 10

/-- Maximum number of arguments of `exec`. -/
def MAXARG : Nat := 32

/-- Maximum length of a path name. -/
def MAXPATH : Nat := 128

/-- Number of pages of a user stack. -/
def USERSTACK : Nat := 1

/-! ## `fs.h` -/

/-- Block size in bytes. -/
def BSIZE : Nat := 1024

/-- The inode number of the root directory. -/
def ROOTINO : Nat := 1

/-- The number of block addresses in an inode, less the indirect block. -/
def NDIRECT : Nat := 12

/-- The number of block addresses in an indirect block. -/
def NINDIRECT : Nat := BSIZE / 4

/-- The largest number of blocks of a file. -/
def MAXFILE : Nat := NDIRECT + NINDIRECT

/-- Inodes per block. -/
def IPB : Nat := BSIZE / 64

/-- Bitmap bits per block. -/
def BPB : Nat := BSIZE * 8

/-- The length of a name in a directory. -/
def DIRSIZ : Nat := 14

/-! ## `riscv.h` and `memlayout.h` -/

/-- Bytes per page. -/
def PGSIZE : Nat := 4096

/-- One beyond the highest virtual address. -/
def MAXVA : Nat := 2 ^ (9 + 9 + 9 + 12 - 1)

/-- Where the kernel is loaded. -/
def KERNBASE : Nat := 0x80000000

/-- The end of the physical memory that the kernel uses. -/
def PHYSTOP : Nat := KERNBASE + 128 * 1024 * 1024

/-- The page of the trap entry and exit code, at the highest address of every address space. -/
def TRAMPOLINE : Nat := MAXVA - PGSIZE

/-- The page of the saved user registers, below the trampoline. -/
def TRAPFRAME : Nat := TRAMPOLINE - PGSIZE

/-! ## C integers -/

/-- A 32-bit word as a C `int`. -/
def toInt (v : Nat) : Int := if v < 2 ^ 31 then v else v - 2 ^ 32

/-- A C integer converted to an unsigned type of the given width. -/
def toUnsigned (bits : Nat) (v : Int) : Nat := (v % 2 ^ bits).toNat

/-- A 16-bit word as a C `short`. -/
def toShort (v : Nat) : Int := if v < 2 ^ 15 then v else v - 2 ^ 16

/-! ## Panics -/

/-- The ways the modelled code can stop the machine.  The last three are not panics of the kernel:
`outOfBounds` stands for an access through a null pointer or beyond the end of an array, after which
the C++ program means nothing, `stackOverflow` for a recursion of `freewalk` deeper than a page
table, and `deadlock` for a process that waits for a lock which it holds itself. -/
inductive Panic
  | tooBigTransaction
  | logWriteOutsideOfTrans
  | committing
  | noBuffers
  | relseNotHolding
  | refcntUnderflow
  | freeUnaligned
  | freeOutOfRange
  | walk
  | nullPte
  | mappagesVaNotAligned
  | mappagesSizeNotAligned
  | mappagesSize
  | mappagesRemap
  | unmapNotAligned
  | unmapWalk
  | unmapNotMapped
  | unmapNotALeaf
  | copyPteShouldExist
  | copyPageNotPresent
  | freewalkLeaf
  | clear
  | loadsegAddress
  | initExiting
  | execInit
  | freeingFreeBlock
  | igetNoInodes
  | ilock
  | ilockNoType
  | iunlock
  | dirlinkRead
  | dirlookupNotDir
  | dirlookupRead
  | bmapOutOfRange
  | isdiremptyReadi
  | unlinkNlink
  | unlinkWritei
  | fileclose
  | filedup
  | fileread
  | filewrite
  | acquire
  | release
  | schedLock
  | schedLocks
  | schedRunning
  | freeDesc1
  | freeDesc2
  | virtioDiskIntrStatus
  | outOfBounds
  | stackOverflow
  | deadlock
  deriving DecidableEq, Repr

end Xv6pp
