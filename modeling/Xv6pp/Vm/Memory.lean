import Mathlib.Logic.Function.Basic
import Xv6pp.Lib.Bytes
import Xv6pp.Lib.Wp
import Xv6pp.Param

/-!
# Physical memory and the page allocator

The macros of `kernel/riscv.h` that page-table entries and addresses are computed with, and
`kernel/page_allocator.cpp`.  A page is named by its physical address.  `Memory` is the content of
all pages together with the allocator's free list; the programs of the virtual-memory system are
`VmM` programs over it, which may panic.

Other users of the allocator — pipes, the page tables of processes on other cores — may hold any
number of pages when `alloc` is called, so besides finding its list empty the allocator may also
find a call *denied*: `denied` is an arbitrary pattern that is consumed one bit a call.
-/

set_option autoImplicit false

namespace Xv6pp

/-! ## `riscv.h` -/

/-- `PGROUNDUP`, on 64-bit numbers. -/
def pgRoundUp (sz : Nat) : Nat := (sz + PGSIZE - 1) % 2 ^ 64 / PGSIZE * PGSIZE

/-- `PGROUNDDOWN`. -/
def pgRoundDown (a : Nat) : Nat := a / PGSIZE * PGSIZE

/-- Valid. -/
def PTE_V : Nat := 1 <<< 0
/-- Readable. -/
def PTE_R : Nat := 1 <<< 1
/-- Writable. -/
def PTE_W : Nat := 1 <<< 2
/-- Executable. -/
def PTE_X : Nat := 1 <<< 3
/-- The user can access it. -/
def PTE_U : Nat := 1 <<< 4

/-- `PA2PTE`: shift a physical address to the right place for a PTE. -/
def pa2pte (pa : Nat) : Nat := pa >>> 12 <<< 10

/-- `PTE2PA`. -/
def pte2pa (pte : Nat) : Nat := pte >>> 10 <<< 12 % 2 ^ 64

/-- `PTE_FLAGS`. -/
def pteFlags (pte : Nat) : Nat := pte &&& 0x3FF

/-- `PX`: the page-table index of a virtual address at a level. -/
def px (level va : Nat) : Nat := va >>> (12 + 9 * level) &&& 0x1FF

/-! ## Memory -/

/-- The linker symbols that the code refers to: the first address after the kernel, and the page of
the trampoline code, which the linker script aligns and places inside the kernel. -/
class KernelImage where
  /-- `end`. -/
  kernelEnd : Nat
  /-- `trampoline`. -/
  trampoline : Nat
  trampoline_aligned : trampoline % PGSIZE = 0
  trampoline_lt : trampoline < kernelEnd
  kernelEnd_le : kernelEnd ≤ PHYSTOP
  kernbase_le : KERNBASE ≤ trampoline

/-- A kernel of two pages. -/
@[reducible] def smallImage : KernelImage where
  kernelEnd := KERNBASE + 2 * PGSIZE
  trampoline := KERNBASE + PGSIZE
  trampoline_aligned := rfl
  trampoline_lt := by decide
  kernelEnd_le := by decide
  kernbase_le := by decide

/-- Physical memory and the state of the page allocator. -/
structure Memory where
  /-- The page at an address. -/
  mem : Nat → Bytes PGSIZE
  /-- The free list. -/
  freeList : List Nat
  /-- Which of the coming calls of `alloc` find no page because others hold them. -/
  denied : Nat → Bool

/-- A program of the virtual-memory system. -/
abbrev VmM (α : Type) : Type := StateT Memory (Except Panic) α

namespace Memory

/-- Overwrite a page. -/
def store (s : Memory) (p : Nat) (b : Bytes PGSIZE) : Memory :=
  { s with mem := Function.update s.mem p b }

/-- The `k`-th 64-bit word of a page. -/
def word (s : Memory) (p k : Nat) : Nat := (s.mem p).u64 (8 * k)

@[simp] theorem store_freeList (s : Memory) (p : Nat) (b : Bytes PGSIZE) :
    (s.store p b).freeList = s.freeList := rfl

@[simp] theorem store_mem_self (s : Memory) (p : Nat) (b : Bytes PGSIZE) :
    (s.store p b).mem p = b := Function.update_self _ _ _

theorem store_mem_of_ne (s : Memory) {p q : Nat} (b : Bytes PGSIZE) (h : q ≠ p) :
    (s.store p b).mem q = s.mem q := Function.update_of_ne h _ _

end Memory

/-- The 64-bit word at index `k` of the page `p`. -/
def loadWord (p k : Nat) : VmM Nat := do return (← get).word p k

/-- Store a 64-bit word at index `k` of the page `p`. -/
def storeWord (p k w : Nat) : VmM Unit :=
  modify fun s => s.store p ((s.mem p).setU64 (8 * k) w)

/-- `memset(p, 0, PGSIZE)`. -/
def memsetZero (p : Nat) : VmM Unit := modify fun s => s.store p (Bytes.zero PGSIZE)

/-! ## `page_allocator` -/

namespace PageAllocator

/-- `alloc`: take the first page of the free list. -/
def alloc : VmM (Option Nat) := do
  let s ← get
  let denied := fun n => s.denied (n + 1)
  if s.denied 0 then
    set { s with denied := denied }
    return none
  else
    match s.freeList with
    | [] =>
      set { s with denied := denied }
      return none
    | p :: rest =>
      set { s with freeList := rest, denied := denied }
      return some p

/-- `free`: put a page at the head of the free list.  The list is threaded through the pages
themselves: the first word of a free page is the address of the next one. -/
def free [KernelImage] (p : Nat) : VmM Unit := do
  if p % PGSIZE ≠ 0 then
    throw .freeUnaligned
  else if p < KernelImage.kernelEnd ∨ PHYSTOP ≤ p then
    throw .freeOutOfRange
  else do
    let s ← get
    storeWord p 0 (s.freeList.headD 0)
    modify fun s => { s with freeList := p :: s.freeList }

/-- The loop of the constructor, over `n` pages from `p` on. -/
def initFrom [KernelImage] : Nat → Nat → VmM Unit
  | 0, _ => pure ()
  | n + 1, p => do
    free p
    initFrom n (p + PGSIZE)

/-- The constructor frees every page between the kernel and the end of memory. -/
def init [KernelImage] : VmM Unit :=
  let p := pgRoundUp KernelImage.kernelEnd
  initFrom ((PHYSTOP - p) / PGSIZE) p

end PageAllocator

end Xv6pp
