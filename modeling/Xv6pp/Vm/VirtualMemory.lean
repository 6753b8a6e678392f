import Xv6pp.Vm.Memory

/-!
# `virtual_memory`: page tables

The functions of `kernel/virtual_memory.cpp` that work on user page tables, in the order of the
source.  A page table is named by the address of its root page and a page-table entry by its page
and index.  Where the source returns an `int` of `0` or `-1` the model returns an `Int`, where it
returns a pointer that may be null an `Option`, and where it returns a size the size.

Loops that step through an address range by `PGSIZE` recurse on the number of pages of the range.
-/

set_option autoImplicit false

namespace Xv6pp
namespace VirtualMemory

variable [KernelImage]

/-- Whether a page-table entry has one of the given flags. -/
def has (pte flags : Nat) : Bool := pte &&& flags != 0

/-- The loop of `walk`, from `level` down. -/
def walkFrom : Nat → Nat → Nat → Bool → VmM (Option (Nat × Nat))
  | 0, pagetable, va, _ => pure (some (pagetable, px 0 va))
  | level + 1, pagetable, va, alloc =>
    if pagetable + 8 * px (level + 1) va = 0 then
      throw .nullPte
    else do
      let pte ← loadWord pagetable (px (level + 1) va)
      if has pte PTE_V then
        walkFrom level (pte2pa pte) va alloc
      else if alloc then do
        match ← PageAllocator.alloc with
        | none => pure none
        | some child =>
          memsetZero child
          storeWord pagetable (px (level + 1) va) (pa2pte child ||| PTE_V)
          walkFrom level child va alloc
      else
        pure none

/-- `walk`: the page-table entry for the virtual address `va`, creating page-table pages when
`alloc` says so. -/
def walk (pagetable va : Nat) (alloc : Bool) : VmM (Option (Nat × Nat)) :=
  if MAXVA ≤ va then throw .walk else walkFrom 2 pagetable va alloc

/-- The loop of `mappages`, over `n` pages. -/
def mapFrom (pagetable perm : Nat) : Nat → Nat → Nat → VmM Int
  | 0, _, _ => pure 0
  | n + 1, a, pa => do
    match ← walk pagetable a true with
    | none => pure (-1)
    | some (p, k) =>
      if has (← loadWord p k) PTE_V then
        throw .mappagesRemap
      else do
        storeWord p k (pa2pte pa ||| perm ||| PTE_V)
        mapFrom pagetable perm n (a + PGSIZE) (pa + PGSIZE)

/-- `mappages`: map `size` bytes from the virtual address `va` to the physical address `pa`. -/
def mappages (pagetable va size pa perm : Nat) : VmM Int :=
  if va % PGSIZE ≠ 0 then throw .mappagesVaNotAligned
  else if size % PGSIZE ≠ 0 then throw .mappagesSizeNotAligned
  else if size = 0 then throw .mappagesSize
  else mapFrom pagetable perm (size / PGSIZE) va pa

/-- `create`: an empty user page table. -/
def create : VmM (Option Nat) := do
  match ← PageAllocator.alloc with
  | none => pure none
  | some pagetable =>
    memsetZero pagetable
    pure (some pagetable)

/-- The loop of `unmap`, over `n` pages. -/
def unmapFrom (pagetable : Nat) (doFree : Bool) : Nat → Nat → VmM Unit
  | 0, _ => pure ()
  | n + 1, a => do
    match ← walk pagetable a false with
    | none => throw .unmapWalk
    | some (p, k) =>
      let pte ← loadWord p k
      if !has pte PTE_V then throw .unmapNotMapped
      else if pteFlags pte = PTE_V then throw .unmapNotALeaf
      else do
        if doFree then PageAllocator.free (pte2pa pte)
        storeWord p k 0
        unmapFrom pagetable doFree n (a + PGSIZE)

/-- `unmap`: remove `npages` mappings from `va` on, and free the pages when `doFree` says so. -/
def unmap (pagetable va npages : Nat) (doFree : Bool) : VmM Unit :=
  if va % PGSIZE ≠ 0 then throw .unmapNotAligned
  else unmapFrom pagetable doFree (((va + npages * PGSIZE) % 2 ^ 64 - va) / PGSIZE) va

/-- An `int` passed where a 64-bit number is expected. -/
def intToU64 (n : Nat) : Nat :=
  if n % 2 ^ 32 < 2 ^ 31 then n % 2 ^ 32 else n % 2 ^ 32 + (2 ^ 64 - 2 ^ 32)

/-- `dealloc`: shrink a process from `oldsz` to `newsz` bytes. -/
def dealloc (pagetable oldsz newsz : Nat) : VmM Nat :=
  if oldsz ≤ newsz then pure oldsz
  else do
    if pgRoundUp newsz < pgRoundUp oldsz then
      let npages := intToU64 ((pgRoundUp oldsz - pgRoundUp newsz) / PGSIZE)
      unmap pagetable (pgRoundUp newsz) npages true
    pure newsz

/-- The loop of `alloc`, over `n` pages from `a` on; `oldsz` is where the first of them lay. -/
def allocFrom (pagetable oldsz newsz xperm : Nat) : Nat → Nat → VmM Nat
  | 0, _ => pure newsz
  | n + 1, a => do
    match ← PageAllocator.alloc with
    | none =>
      let _ ← dealloc pagetable a oldsz
      pure 0
    | some mem =>
      memsetZero mem
      if (← mappages pagetable a PGSIZE mem (PTE_R ||| PTE_U ||| xperm)) ≠ 0 then do
        PageAllocator.free mem
        let _ ← dealloc pagetable a oldsz
        pure 0
      else
        allocFrom pagetable oldsz newsz xperm n (a + PGSIZE)

/-- `alloc`: grow a process from `oldsz` to `newsz` bytes; `0` on failure. -/
def alloc (pagetable oldsz newsz xperm : Nat) : VmM Nat :=
  if newsz < oldsz then pure oldsz
  else allocFrom pagetable (pgRoundUp oldsz) newsz xperm
    ((newsz - pgRoundUp oldsz + PGSIZE - 1) / PGSIZE) (pgRoundUp oldsz)

/-- The loop of `copy`, over `n` pages from `i` on. -/
def copyFrom (old newpt : Nat) : Nat → Nat → VmM Int
  | 0, _ => pure 0
  | n + 1, i => do
    match ← walk old i false with
    | none => throw .copyPteShouldExist
    | some (p, k) =>
      let pte ← loadWord p k
      if !has pte PTE_V then throw .copyPageNotPresent
      else do
        match ← PageAllocator.alloc with
        | none =>
          unmap newpt 0 (i / PGSIZE) true
          pure (-1)
        | some mem =>
          modify fun s => s.store mem (s.mem (pte2pa pte))
          if (← mappages newpt i PGSIZE mem (pteFlags pte)) ≠ 0 then do
            PageAllocator.free mem
            unmap newpt 0 (i / PGSIZE) true
            pure (-1)
          else
            copyFrom old newpt n (i + PGSIZE)

/-- `copy`: copy `sz` bytes of user memory from one page table into another. -/
def copy (old newpt sz : Nat) : VmM Int := copyFrom old newpt ((sz + PGSIZE - 1) / PGSIZE) 0

/-- `freewalk`: free the pages of a page table, recursively.  `depth` bounds the recursion; page
tables have three levels. -/
def freewalk : Nat → Nat → VmM Unit
  | 0, _ => throw .stackOverflow
  | depth + 1, pagetable => do
    (List.range 512).forM fun i => do
      let pte ← loadWord pagetable i
      if has pte PTE_V && !has pte (PTE_R ||| PTE_W ||| PTE_X) then do
        freewalk depth (pte2pa pte)
        storeWord pagetable i 0
      else if has pte PTE_V then
        throw .freewalkLeaf
      else
        pure ()
    PageAllocator.free pagetable

/-- `free`: free `sz` bytes of user memory, then the page table. -/
def free (pagetable sz : Nat) : VmM Unit := do
  if 0 < sz then unmap pagetable 0 (pgRoundUp sz / PGSIZE) true
  freewalk 3 pagetable

/-- `clear`: make a page inaccessible to the user. -/
def clear (pagetable va : Nat) : VmM Unit := do
  match ← walk pagetable va false with
  | none => throw .clear
  | some (p, k) => storeWord p k ((← loadWord p k) &&& (2 ^ 64 - 1 - PTE_U))

/-- `walkaddr`: the physical address of a user page, `none` when there is none. -/
def walkaddr (pagetable va : Nat) : VmM (Option Nat) :=
  if MAXVA ≤ va then pure none
  else do
    match ← walk pagetable va false with
    | none => pure none
    | some (p, k) =>
      let pte ← loadWord p k
      if !has pte PTE_V then pure none
      else if !has pte PTE_U then pure none
      else if pte2pa pte = 0 then pure none
      else pure (some (pte2pa pte))

/-! ## Copying between kernel and user memory -/

/-- The loop of `copyout`; every round moves at least one byte, so `fuel = src.length` rounds are
enough. -/
def copyoutFrom (pagetable : Nat) : Nat → Nat → List UInt8 → VmM Int
  | 0, _, _ => pure 0
  | fuel + 1, dstva, src =>
    if src = [] then pure 0
    else if MAXVA ≤ pgRoundDown dstva then pure (-1)
    else do
      match ← walk pagetable (pgRoundDown dstva) false with
      | none => pure (-1)
      | some (p, k) =>
        let pte ← loadWord p k
        if !has pte PTE_V || !has pte PTE_U || !has pte PTE_W then pure (-1)
        else do
          let n := min (PGSIZE - (dstva - pgRoundDown dstva)) src.length
          modify fun s => s.store (pte2pa pte)
            ((s.mem (pte2pa pte)).write (dstva - pgRoundDown dstva) (src.take n))
          copyoutFrom pagetable fuel (pgRoundDown dstva + PGSIZE) (src.drop n)

/-- `copyout`: copy bytes to user memory. -/
def copyout (pagetable dstva : Nat) (src : List UInt8) : VmM Int :=
  copyoutFrom pagetable src.length dstva src

/-- The loop of `copyin`: the bytes it moves before it returns, and what it returns. -/
def copyinFrom (pagetable : Nat) : Nat → Nat → Nat → VmM (List UInt8 × Int)
  | 0, _, _ => pure ([], 0)
  | fuel + 1, srcva, len =>
    if len = 0 then pure ([], 0)
    else do
      match ← walkaddr pagetable (pgRoundDown srcva) with
      | none => pure ([], -1)
      | some pa =>
        let n := min (PGSIZE - (srcva - pgRoundDown srcva)) len
        let bytes := ((← get).mem pa).read (srcva - pgRoundDown srcva) n
        let (rest, r) ← copyinFrom pagetable fuel (pgRoundDown srcva + PGSIZE) (len - n)
        pure (bytes ++ rest, r)

/-- `copyin`: copy `len` bytes from user memory. -/
def copyin (pagetable srcva len : Nat) : VmM (List UInt8 × Int) :=
  copyinFrom pagetable len srcva len

/-- The loop of `copyinstr`: the bytes it moves before it returns, without the terminating zero, and
what it returns. -/
def copyinstrFrom (pagetable : Nat) : Nat → Nat → Nat → VmM (List UInt8 × Int)
  | 0, _, _ => pure ([], -1)
  | fuel + 1, srcva, max =>
    if max = 0 then pure ([], -1)
    else do
      match ← walkaddr pagetable (pgRoundDown srcva) with
      | none => pure ([], -1)
      | some pa =>
        let n := min (PGSIZE - (srcva - pgRoundDown srcva)) max
        let bytes := ((← get).mem pa).read (srcva - pgRoundDown srcva) n
        let str := bytes.takeWhile (· != 0)
        if str.length < n then pure (str, 0)
        else do
          let (rest, r) ← copyinstrFrom pagetable fuel (pgRoundDown srcva + PGSIZE) (max - n)
          pure (str ++ rest, r)

/-- `copyinstr`: copy a string of at most `max` bytes, with its terminating zero, from user
memory. -/
def copyinstr (pagetable srcva max : Nat) : VmM (List UInt8 × Int) :=
  copyinstrFrom pagetable max srcva max

end VirtualMemory
end Xv6pp
