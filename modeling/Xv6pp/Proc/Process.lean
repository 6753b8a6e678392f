import Xv6pp.Vm.VirtualMemory

/-!
# Processes

`kernel/process.cpp`, `kernel/process_manager.cpp` and the system calls of `kernel/sysproc.cpp` and
`sys_exec` of `kernel/sysfile.cpp`: the process table, and how processes are created, run other
programs, grow, exit and are waited for.

A process keeps the fields that these functions use; open files, the current directory
and the saved kernel context are left out.  Functions that only work on memory are `VmM` programs,
and `vm` runs such a program inside a `KernelM` program over the whole state.  The file system
appears in `exec` only, as the function that resolves a path and the bytes that `readi` delivers
from the file found there.
-/

set_option autoImplicit false

namespace Xv6pp

/-- `process_state`. -/
inductive ProcessState
  | unused | used | sleeping | runnable | running | zombie
  deriving DecidableEq, Repr

/-- The index of a process in the process table. -/
abbrev Pid : Type := Fin NPROC

/-- `process`. -/
structure Process where
  state : ProcessState
  /-- If set, has been killed. -/
  killed : Bool
  /-- Exit status to be returned to the parent's `wait`. -/
  xstate : Int
  /-- Process ID. -/
  pid : Int
  /-- Parent process. -/
  parent : Option Pid
  /-- Size of process memory in bytes. -/
  sz : Nat
  /-- User page table. -/
  pagetable : Option Nat
  /-- Data page for the trampoline. -/
  trapframe : Option Nat
  /-- The argument of the `wait` the process sleeps in; its channel is the process itself. -/
  waiting : Option Nat
  /-- Process name, up to the terminating zero. -/
  name : List UInt8

/-- The state of the process and memory subsystems. -/
structure Kernel where
  memory : Memory
  /-- `processes`. -/
  procs : Pid → Process
  /-- `next_pid`. -/
  nextPid : Int
  /-- `initprocess`. -/
  initprocess : Option Pid
  /-- Whether no process has been through `forkret` yet. -/
  first : Bool

/-- A program of the kernel. -/
abbrev KernelM (α : Type) : Type := StateT Kernel (Except Panic) α

/-- Run a program of the virtual-memory system. -/
def vm {α : Type} (m : VmM α) : KernelM α := fun k =>
  match m.run k.memory with
  | .ok (a, s) => .ok (a, { k with memory := s })
  | .error e => .error e

/-- Change the process `p`. -/
def updateProc (p : Pid) (f : Process → Process) : KernelM Unit :=
  modify fun k => { k with procs := Function.update k.procs p (f (k.procs p)) }

/-- The process `p`. -/
def proc (p : Pid) : KernelM Process := do return (← get).procs p

/-- A pointer that is not null, or a stop. -/
def deref {α : Type} (ptr : Option α) : KernelM α :=
  match ptr with
  | none => throw .outOfBounds
  | some a => pure a

open VirtualMemory

/-! ## `process_manager`: creating and freeing -/

namespace ProcessManager

variable [KernelImage]

/-- `create_pagetable`: a user page table with the trampoline and the trapframe only. -/
def createPagetable (trapframe : Nat) : VmM (Option Nat) := do
  match ← VirtualMemory.create with
  | none => pure none
  | some pagetable =>
    if (← mappages pagetable TRAMPOLINE PGSIZE KernelImage.trampoline (PTE_R ||| PTE_X)) < 0 then do
      VirtualMemory.free pagetable 0
      pure none
    else if (← mappages pagetable TRAPFRAME PGSIZE trapframe (PTE_R ||| PTE_W)) < 0 then do
      unmap pagetable TRAMPOLINE 1 false
      VirtualMemory.free pagetable 0
      pure none
    else
      pure (some pagetable)

/-- `free_pagetable`. -/
def freePagetable (pagetable sz : Nat) : VmM Unit := do
  unmap pagetable TRAMPOLINE 1 false
  unmap pagetable TRAPFRAME 1 false
  VirtualMemory.free pagetable sz

/-- The fields of a process that has been freed. -/
def cleared (p : Process) : Process :=
  { p with
    trapframe := none, pagetable := none, sz := 0, pid := 0, parent := none, killed := false,
    xstate := 0, state := .unused, waiting := none, name := [] }

/-- `process_manager::free`. -/
def free (p : Pid) : KernelM Unit := do
  let proc ← proc p
  if let some tf := proc.trapframe then vm (PageAllocator.free tf)
  if let some pagetable := proc.pagetable then vm (freePagetable pagetable proc.sz)
  updateProc p cleared

/-- `get_next_pid`. -/
def getNextPid : KernelM Int := do
  let pid := (← get).nextPid
  modify fun k => { k with nextPid := pid + 1 }
  pure pid

/-- `process_manager::alloc`: take the first unused process and give it a trapframe and a page
table. -/
def alloc : KernelM (Option Pid) := do
  let k ← get
  match (List.finRange NPROC).find? fun i => (k.procs i).state = .unused with
  | none => pure none
  | some p => do
    let pid ← getNextPid
    updateProc p fun q => { q with pid := pid, state := .used }
    match ← vm PageAllocator.alloc with
    | none =>
      free p
      pure none
    | some tf =>
      updateProc p fun q => { q with trapframe := some tf }
      match ← vm (createPagetable tf) with
      | none =>
        free p
        pure none
      | some pagetable =>
        updateProc p fun q => { q with pagetable := some pagetable }
        pure (some p)

/-- `initial_process`. -/
def initialProcess : KernelM Unit := do
  let p ← deref (← alloc)
  modify fun k => { k with initprocess := some p }
  updateProc p fun q => { q with state := .runnable }

/-- `wakeup`, called by `cur`, on the channel of the process `chan`. -/
def wakeup (cur : Pid) (chan : Option Pid) : KernelM Unit :=
  modify fun k => { k with
    procs := fun i =>
      if i ≠ cur ∧ (k.procs i).state = .sleeping ∧ chan = some i ∧ (k.procs i).waiting ≠ none then
        { k.procs i with state := .runnable }
      else k.procs i }

/-- `reparent`: pass the children of `p` to `init`, which is woken up if there is one. -/
def reparent (p : Pid) : KernelM Unit := do
  let k ← get
  if ∃ i, (k.procs i).parent = some p then
    set { k with
      procs := fun i =>
        if (k.procs i).parent = some p then { k.procs i with parent := k.initprocess }
        else k.procs i }
    wakeup p k.initprocess
  else pure ()

/-- One pass of the loop of `process_manager::wait`, called by `p`.  The answer is `none` when the
process goes to sleep. -/
def wait (p : Pid) (addr : Nat) : KernelM (Option Int) := do
  let k ← get
  updateProc p fun q => { q with waiting := none }
  match (List.finRange NPROC).find? fun i =>
      (k.procs i).parent = some p ∧ (k.procs i).state = .zombie with
  | some i =>
    let child := k.procs i
    let copied ←
      if addr = 0 then pure 0
      else do
        let pagetable ← deref (k.procs p).pagetable
        vm (copyout pagetable addr (leBytes 4 (toUnsigned 32 child.xstate)))
    if copied < 0 then pure (some (-1))
    else do
      free i
      pure (some child.pid)
  | none =>
    if (¬ ∃ i, (k.procs i).parent = some p) ∨ (k.procs p).killed then pure (some (-1))
    else do
      updateProc p fun q => { q with waiting := some addr, state := .sleeping }
      pure none

/-- `process_manager::kill`. -/
def kill (pid : Int) : KernelM Int := do
  let k ← get
  match (List.finRange NPROC).find? fun i => (k.procs i).pid = pid with
  | none => pure (-1)
  | some i =>
    updateProc i fun q =>
      { q with killed := true, state := if q.state = .sleeping then .runnable else q.state }
    pure 0

end ProcessManager

/-! ## `process` -/

namespace Process

variable [KernelImage]

/-- `process::free`. -/
def free (p : Pid) : KernelM Unit := do
  let proc ← proc p
  if let some tf := proc.trapframe then vm (PageAllocator.free tf)
  if let some pagetable := proc.pagetable then vm (VirtualMemory.free pagetable proc.sz)
  updateProc p ProcessManager.cleared

/-- `process::grow`. -/
def grow (p : Pid) (n : Int) : KernelM Int := do
  let self ← proc p
  let pagetable ← deref self.pagetable
  if 0 < n then do
    let newsz ← vm (VirtualMemory.alloc pagetable self.sz (toUnsigned 64 (self.sz + n)) PTE_W)
    if newsz = 0 then pure (-1)
    else do
      updateProc p fun q => { q with sz := newsz }
      pure 0
  else if n < 0 then do
    let newsz ← vm (dealloc pagetable self.sz (toUnsigned 64 (self.sz + n)))
    updateProc p fun q => { q with sz := newsz }
    pure 0
  else pure 0

/-- The offset of a register in the trapframe. -/
def offEpc : Nat := 24
def offSp : Nat := 48
def offA0 : Nat := 112
def offA1 : Nat := 120

/-- Store a register in a trapframe. -/
def setReg (tf off v : Nat) : VmM Unit := modify fun s => s.store tf ((s.mem tf).setU64 off v)

/-- `safestrcpy`: the string that ends up in an array of `n` bytes. -/
def safestrcpy (t : List UInt8) (n : Nat) : List UInt8 := (t.takeWhile (· != 0)).take (n - 1)

/-- `sizeof(name)`. -/
def sizeofName : Nat := 16

/-- `process::fork`. -/
def fork (p : Pid) : KernelM Int := do
  match ← ProcessManager.alloc with
  | none => pure (-1)
  | some np => do
    let self ← proc p
    let child ← proc np
    let old ← deref self.pagetable
    let new ← deref child.pagetable
    if (← vm (copy old new self.sz)) < 0 then do
      free np
      pure (-1)
    else do
      updateProc np fun q => { q with sz := self.sz }
      let tf ← deref self.trapframe
      let ntf ← deref child.trapframe
      vm (modify fun s => s.store ntf (s.mem tf))
      vm (setReg ntf offA0 0)
      updateProc np fun q => { q with name := safestrcpy self.name sizeofName }
      updateProc np fun q => { q with parent := some p }
      updateProc np fun q => { q with state := .runnable }
      pure child.pid

/-- `process::exit`. -/
def exit (p : Pid) (status : Int) : KernelM Unit := do
  let k ← get
  if k.initprocess = some p then throw .initExiting
  else do
    ProcessManager.reparent p
    let self ← proc p
    ProcessManager.wakeup p self.parent
    updateProc p fun q => { q with xstate := status, state := .zombie }

/-! ### `exec` -/

/-- An open file as `readi` delivers it: the bytes at an offset, at most as many as asked for. -/
structure Inode where
  readi : Nat → Nat → List UInt8
  length_le : ∀ off n, (readi off n).length ≤ n

def ELF_MAGIC : Nat := 0x464C457F
def ELF_PROG_LOAD : Nat := 1
/-- `sizeof(struct elfhdr)`. -/
def sizeofElfhdr : Nat := 64
/-- `sizeof(struct proghdr)`. -/
def sizeofProghdr : Nat := 56

/-- `flags2perm`. -/
def flags2perm (flags : Nat) : Nat :=
  (if flags &&& 1 ≠ 0 then PTE_X else 0) ||| (if flags &&& 2 ≠ 0 then PTE_W else 0)

/-- The loop of `loadseg`, over `n` pages from offset `i` on. -/
def loadsegFrom (pt va : Nat) (ip : Inode) (offset sz : Nat) : Nat → Nat → VmM Int
  | 0, _ => pure 0
  | n + 1, i => do
    match ← walkaddr pt ((va + i) % 2 ^ 64) with
    | none => throw .loadsegAddress
    | some pa =>
      let len := min PGSIZE (sz - i)
      let bytes := ip.readi ((offset + i) % 2 ^ 32) len
      modify fun s => s.store pa ((s.mem pa).write 0 bytes)
      if bytes.length ≠ len then pure (-1)
      else loadsegFrom pt va ip offset sz n (i + PGSIZE)

/-- `loadseg`: load `sz` bytes of the file at `offset` to the virtual address `va`.  Offset and
size are 32-bit numbers. -/
def loadseg (pt va : Nat) (ip : Inode) (offset sz : Nat) : VmM Int :=
  loadsegFrom pt va ip (offset % 2 ^ 32) (sz % 2 ^ 32) ((sz % 2 ^ 32 + PGSIZE - 1) / PGSIZE) 0

/-- Load one segment; `none` when `exec` has to give up.  The size of the image is returned in
either case. -/
def loadSegment (pt : Nat) (ip : Inode) (off newsz : Nat) : VmM (Bool × Nat) := do
  let ph := ip.readi off sizeofProghdr
  let vaddr := leField ph 16 8
  let memsz := leField ph 40 8
  let filesz := leField ph 32 8
  if ph.length ≠ sizeofProghdr then pure (false, newsz)
  else if leField ph 0 4 ≠ ELF_PROG_LOAD then pure (true, newsz)
  else if memsz < filesz then pure (false, newsz)
  else if (vaddr + memsz) % 2 ^ 64 < vaddr then pure (false, newsz)
  else if vaddr % PGSIZE ≠ 0 then pure (false, newsz)
  else do
    let sz1 ← VirtualMemory.alloc pt newsz ((vaddr + memsz) % 2 ^ 64) (flags2perm (leField ph 4 4))
    if sz1 = 0 then pure (false, newsz)
    else if (← loadseg pt vaddr ip (leField ph 8 8) filesz) < 0 then pure (false, sz1)
    else pure (true, sz1)

/-- The loop of `exec` over `n` program headers. -/
def loadSegments (pt : Nat) (ip : Inode) : Nat → Nat → Nat → VmM (Bool × Nat)
  | 0, _, newsz => pure (true, newsz)
  | n + 1, off, newsz => do
    match ← loadSegment pt ip off newsz with
    | (false, newsz) => pure (false, newsz)
    | (true, newsz) => loadSegments pt ip n ((off + sizeofProghdr) % 2 ^ 32) newsz

/-- Move the stack pointer down by `n` bytes and align it. -/
def stackDown (sp n : Nat) : Nat :=
  let sp := (sp + 2 ^ 64 - n) % 2 ^ 64
  sp - sp % 16

/-- Push the argument strings: the new stack pointer and the addresses of the strings. -/
def pushArgs (pt stackbase : Nat) :
    List (List UInt8) → Nat → List Nat → VmM (Option (Nat × List Nat))
  | [], sp, ustack => pure (some (sp, ustack))
  | arg :: argv, sp, ustack =>
    if MAXARG ≤ ustack.length then pure none
    else
      let sp := stackDown sp (arg.length + 1)
      if sp < stackbase then pure none
      else do
        if (← copyout pt sp (arg ++ [0])) < 0 then pure none
        else pushArgs pt stackbase argv sp (ustack ++ [sp])

/-- The part of `exec` that builds the stack: `none` when `exec` has to give up, with the size of
the image, and otherwise the stack pointer. -/
def buildStack (pt newsz : Nat) (argv : List (List UInt8)) : VmM (Option Nat × Nat) := do
  let newsz := pgRoundUp newsz
  let sz1 ← VirtualMemory.alloc pt newsz (newsz + (USERSTACK + 1) * PGSIZE) PTE_W
  if sz1 = 0 then pure (none, newsz)
  else do
    clear pt (sz1 - (USERSTACK + 1) * PGSIZE)
    let stackbase := sz1 - USERSTACK * PGSIZE
    match ← pushArgs pt stackbase argv sz1 [] with
    | none => pure (none, sz1)
    | some (sp, ustack) =>
      -- `ustack[argc] = 0` needs a place behind the last argument
      if MAXARG ≤ argv.length then throw .outOfBounds
      else
      let sp := stackDown sp ((argv.length + 1) * 8)
      if sp < stackbase then pure (none, sz1)
      else if (← copyout pt sp ((ustack ++ [0]).flatMap (leBytes 8))) < 0 then pure (none, sz1)
      else pure (some sp, sz1)

/-- `error`: give up the new image. -/
def execError (newpagetable newsz : Nat) : KernelM Int := do
  vm (ProcessManager.freePagetable newpagetable newsz)
  pure (-1)

/-- The part of a path after its last slash. -/
def lastName (path : List UInt8) : List UInt8 := (path.reverse.takeWhile (· != 47)).reverse

/-- `process::exec` of the process `p`, on the file that `namei` found at the path. -/
def exec (p : Pid) (path : List UInt8) (file : Option Inode) (argv : List (List UInt8)) :
    KernelM Int := do
  match file with
  | none => pure (-1)
  | some ip => do
    let elf := ip.readi 0 sizeofElfhdr
    if elf.length ≠ sizeofElfhdr then pure (-1)
    else if leField elf 0 4 ≠ ELF_MAGIC then pure (-1)
    else do
      let self ← proc p
      let tf ← deref self.trapframe
      match ← vm (ProcessManager.createPagetable tf) with
      | none => pure (-1)
      | some newpagetable => do
        let (ok, newsz) ←
          vm (loadSegments newpagetable ip (leField elf 56 2) (leField elf 32 8 % 2 ^ 32) 0)
        if !ok then execError newpagetable newsz
        else do
          match ← vm (buildStack newpagetable newsz argv) with
          | (none, newsz) => execError newpagetable newsz
          | (some sp, newsz) => do
            vm (setReg tf offA1 sp)
            updateProc p fun q => { q with name := safestrcpy (lastName path) sizeofName }
            let oldpagetable ← deref self.pagetable
            updateProc p fun q => { q with pagetable := some newpagetable, sz := newsz }
            vm (setReg tf offEpc (leField elf 24 8))
            vm (setReg tf offSp sp)
            vm (ProcessManager.freePagetable oldpagetable self.sz)
            pure argv.length

end Process

/-! ## System calls -/

namespace Syscall

variable [KernelImage]

/-- `fetchaddr`: a 64-bit word of user memory. -/
def fetchaddr (pagetable sz addr : Nat) : VmM (Option Nat) := do
  if sz ≤ addr ∨ sz < addr + 8 then pure none
  else do
    let (bytes, r) ← copyin pagetable addr 8
    if r ≠ 0 then pure none else pure (some (leNat bytes))

/-- `fetchstr`: a string in user memory of at most `max` bytes, with the bytes moved on failure. -/
def fetchstr (pagetable addr max : Nat) : VmM (List UInt8 × Bool) := do
  let (bytes, r) ← copyinstr pagetable addr max
  pure (bytes, decide (r = 0))

/-- The argument loop of `sys_exec`, with `n` places of `argv` left: whether it succeeded, and the
pages and strings it has so far. -/
def fetchArgs (pagetable sz uargv : Nat) :
    Nat → Nat → List (Nat × List UInt8) → VmM (Bool × List (Nat × List UInt8))
  | 0, _, args => pure (false, args)
  | n + 1, i, args => do
    match ← fetchaddr pagetable sz ((uargv + 8 * i) % 2 ^ 64) with
    | none => pure (false, args)
    | some 0 => pure (true, args)
    | some uarg => do
      match ← PageAllocator.alloc with
      | none => pure (false, args)
      | some page => do
        let (str, ok) ← fetchstr pagetable uarg PGSIZE
        modify fun s => s.store page ((s.mem page).write 0 (if ok then str ++ [0] else str))
        if !ok then pure (false, args ++ [(page, str)])
        else fetchArgs pagetable sz uargv n (i + 1) (args ++ [(page, str)])

/-- The destructors of `arg_guards`. -/
def freeArgs (args : List (Nat × List UInt8)) : VmM Unit :=
  args.reverse.forM fun arg => PageAllocator.free arg.1

/-- `sys_exec`, with `namei` and `readi` of the file system. -/
def exec (p : Pid) (upath uargv : Nat) (namei : List UInt8 → Option Process.Inode) :
    KernelM Int := do
  let self ← proc p
  let pagetable ← deref self.pagetable
  let (path, ok) ← vm (fetchstr pagetable upath MAXPATH)
  if !ok then pure (-1)
  else do
    let (ok, args) ← vm (fetchArgs pagetable self.sz uargv MAXARG 0 [])
    if !ok then do
      vm (freeArgs args)
      pure (-1)
    else do
      let ret ← Process.exec p path (namei path) (args.map Prod.snd)
      vm (freeArgs args)
      pure ret

/-- `sys_sbrk`, with the argument register. -/
def sbrk (p : Pid) (a0 : Nat) : KernelM Int := do
  let self ← proc p
  if (← Process.grow p (toInt (a0 % 2 ^ 32))) < 0 then pure (-1)
  else pure self.sz

end Syscall

/-- What the very first process does in `forkret`: run `/init`. -/
def ProcessManager.forkretFirst [KernelImage] (p : Pid) (file : Option Process.Inode) :
    KernelM Unit := do
  modify fun k => { k with first := false }
  let ret ← Process.exec p ("/init".toUTF8).toList file [("/init".toUTF8).toList]
  let self ← proc p
  let tf ← deref self.trapframe
  vm (Process.setReg tf Process.offA0 (toUnsigned 64 ret))
  if ret = -1 then throw .execInit else pure ()

end Xv6pp
