import Xv6pp.File.FileManager
import Xv6pp.Fs.FileSystem

/-!
# The system calls on files

`kernel/sysfile.cpp`, the parts of `process::exec` and `process::exit` that concern files, and
`file::close`, `read`, `write` and `stat`, on the whole state: the file system, the open files and the
current directories.  The guards of `kernel/inode_ref_guard.h`, `inode_lock_guard.h` and
`log_op_guard.h` are values of their own; a scope ends with the destructor of its guard (`scope`), so
the scopes of a function are nested as its guards are declared, and a `return` gives back, besides the
result, what has become of the guards of all scopes it leaves.

What the call does with the log, and the `iput`s of guards, are recorded in the order in which they
happen.  What a device or a pipe delivers and whether the user's memory can be accessed are arguments
of the calls, and so is the string at a user address, `none` if it cannot be fetched.
-/

set_option autoImplicit false

namespace Xv6pp

/-! ## State -/

/-- What is recorded of a system call. -/
inductive Event
  | beginOp
  | endOp
  /-- The `iput` of a guard. -/
  | iput (ip : InodeId)
  deriving DecidableEq

/-- The state that the system calls work on. -/
structure SysMem where
  fs : FsMem
  /-- Descriptors and open files. -/
  users : FileUsers
  /-- Current directories. -/
  cwd : Fin NPROC → Option InodeId
  /-- What the call has done so far. -/
  trace : List Event

/-- A program of the kernel. -/
abbrev SysM (α : Type) : Type := StateT SysMem BufM α

namespace Sysfile

/-- Run a function of the file system. -/
def fs {α : Type} (m : FsM α) : SysM α := fun s => do
  let (a, f) ← m.run s.fs
  pure (a, { s with fs := f })

/-- Run a function on the open files. -/
def files {α : Type} (g : FileUsers → Except Panic (α × FileUsers)) : SysM α := fun s =>
  match g s.users with
  | .ok (a, u) => pure (a, { s with users := u })
  | .error e => BufM.panic e

/-- Record an event. -/
def record (e : Event) : SysM Unit := modify fun s => { s with trace := s.trace ++ [e] }

/-- The current directory of the process `p`. -/
def cwd (p : Fin NPROC) : SysM InodeId := do
  match (← get).cwd p with
  | none => fs (FileSystem.stop .outOfBounds)
  | some ip => pure ip

/-- `set_cwd`. -/
def setCwd (p : Fin NPROC) (ip : Option InodeId) : SysM Unit :=
  modify fun s => { s with cwd := Function.update s.cwd p ip }

/-! ## `log_op_guard` -/

/-- `begin_op`.  The process runs alone, so it waits forever if it has to wait. -/
def beginOp : SysM Unit := do
  let s ← get
  match s.fs.log.beginOp with
  | none => fs (FileSystem.stop .deadlock)
  | some l =>
    set { s with fs := { s.fs with log := l } }
    record .beginOp

/-- The end of an operation, with the commit. -/
def finishOp : FsM Unit := do
  let m ← get
  match m.log.endOp with
  | .error e => FileSystem.stop e
  | .ok (l, false) => set { m with log := l }
  | .ok (l, true) => do
    let l ← FileSystem.buf l.commit
    set { m with log := l.endCommit }

/-- `end_op`. -/
def endOp : SysM Unit := do
  record .endOp
  fs finishOp

/-- The scope of a `log_op_guard`. -/
def logOp {α : Type} (body : SysM α) : SysM α := do
  beginOp
  let a ← body
  endOp
  pure a

/-! ## Guards for inodes -/

/-- The scope of a guard: the destructor runs at its end. -/
def scope {γ α : Type} (destroy : γ → SysM Unit) (g : γ) (body : γ → SysM (α × γ)) : SysM α := do
  let (a, g) ← body g
  destroy g
  pure a

/-- `inode_ref_guard`. -/
structure RefGuard where
  ip : Option InodeId

namespace RefGuard

/-- `reset`. -/
def reset (g : RefGuard) (ip : Option InodeId) : SysM RefGuard := do
  match g.ip with
  | none => pure ⟨ip⟩
  | some jp => do
    record (.iput jp)
    fs (FileSystem.iput jp)
    pure ⟨ip⟩

/-- `release`, without the pointer that it returns. -/
def release (_ : RefGuard) : RefGuard := ⟨none⟩

/-- The destructor. -/
def destroy (g : RefGuard) : SysM Unit := do
  let _ ← g.reset none

end RefGuard

/-- `inode_lock_guard`. -/
structure LockGuard where
  ip : Option InodeId
  locked : Bool

namespace LockGuard

/-- The constructor. -/
def make (ip : Option InodeId) : SysM LockGuard := do
  match ip with
  | none => pure ⟨none, false⟩
  | some jp => do
    fs (FileSystem.ilock jp)
    pure ⟨some jp, true⟩

/-- `unlock`. -/
def unlock (g : LockGuard) : SysM LockGuard := do
  match g.ip, g.locked with
  | some jp, true => do
    fs (FileSystem.iunlock jp)
    pure ⟨some jp, false⟩
  | ip, _ => pure ⟨ip, false⟩

/-- `reset`. -/
def reset (g : LockGuard) (ip : Option InodeId) : SysM LockGuard := do
  let _ ← g.unlock
  make ip

/-- `adopt`. -/
def adopt (g : LockGuard) (ip : Option InodeId) : SysM LockGuard := do
  let _ ← g.unlock
  pure ⟨ip, ip.isSome⟩

/-- `release`. -/
def release (_ : LockGuard) : LockGuard := ⟨none, false⟩

/-- The destructor. -/
def destroy (g : LockGuard) : SysM Unit := do
  let _ ← g.unlock

end LockGuard

/-- The scope of `inode_ref_guard g(ip)`. -/
def withRef {α : Type} (ip : Option InodeId) (body : RefGuard → SysM (α × RefGuard)) : SysM α :=
  scope RefGuard.destroy ⟨ip⟩ body

/-- The scope of `inode_lock_guard g(ip)`. -/
def withLock {α : Type} (ip : Option InodeId) (body : LockGuard → SysM (α × LockGuard)) : SysM α := do
  let g ← LockGuard.make ip
  scope LockGuard.destroy g body

/-! ## `file` -/

/-- The inode that the last reference to a file leaves to `file::close`. -/
def lastInode (f : FileId) (m : FileManager) : Option (Option InodeId) :=
  match m.dropRef f with
  | .ok (some ff, _) => if ff.type = .inode ∨ ff.type = .device then some ff.ip else none
  | _ => none

/-- `set_ofile(fd, nullptr)`, and `file::close` of the file. -/
def closeFd (p : Fin NPROC) (fd : Fin NOFILE) (f : FileId) : SysM Unit := do
  let last := lastInode f (← get).users.files
  files fun u => (u.closeFd p fd f).map fun u => ((), u)
  match last with
  | none => pure ()
  | some ip => logOp (withRef ip fun g => pure ((), g))

/-- The file `f`. -/
def file (f : FileId) : SysM File := do return (← get).users.files.files f

/-- `off += r`, if `r` is positive. -/
def advance (f : FileId) (r : Int) : SysM Unit :=
  files fun u => .ok ((), { u with
    files := u.files.setFile f fun x => { x with off := (x.off + r.toNat) % 2 ^ 32 } })

/-- `file::read`.  `dst` says what can be copied out; a pipe or a device gives the result `r`, and `k`
bytes leave the pipe. -/
def read (f : FileId) (n : Nat) (dst : Nat → List UInt8 → Bool) (r : Int) (k : Nat) : SysM Int := do
  let x ← file f
  if x.readable ∧ x.type = .inode then
    withLock x.ip fun g => do
      match x.ip with
      | none => fs (FileSystem.stop .outOfBounds)
      | some ip => do
        let (r, _) ← fs (FileSystem.readi ip dst x.off n)
        advance f r
        pure (r, g)
  else files fun u => u.read f r k

/-- `file::stat`; `copied` says whether the result can be copied out. -/
def stat (f : FileId) (copied : Bool) : SysM Int := do
  let x ← file f
  if x.type = .inode ∨ x.type = .device then
    withLock x.ip fun g => pure (if copied then 0 else -1, g)
  else pure (-1)

/-- The bytes that one operation may write. -/
def maxWrite : Nat := (MAXOPBLOCKS - 1 - 1 - 2) / 2 * BSIZE

/-- The loop of `file::write` over `n` bytes, of which `i` are written; every round but the last writes
at least one byte, so `fuel = n + 1` rounds are enough.  `src` is what copying in does. -/
def writeFrom (f : FileId) (src : Nat → Nat → List UInt8 × Bool) (n : Nat) : Nat → Nat → SysM Nat
  | 0, i => pure i
  | fuel + 1, i =>
    if i < n then do
      let n1 := min (n - i) maxWrite
      let x ← file f
      let r ← logOp <| withLock x.ip fun g => do
        match x.ip with
        | none => fs (FileSystem.stop .outOfBounds)
        | some ip => do
          let r ← fs (FileSystem.writei ip (fun tot m => src (i + tot) m) x.off n1)
          advance f r
          pure (r, g)
      if r ≠ n1 then pure i else writeFrom f src n fuel (i + n1)
    else pure i

/-- `file::write` of `n` bytes.  A pipe or a device gives the result `r` and takes `bytes`. -/
def write (f : FileId) (n : Int) (src : Nat → Nat → List UInt8 × Bool) (r : Int) (bytes : List UInt8) :
    SysM Int := do
  let x ← file f
  if x.writable ∧ x.type = .inode then do
    let i ← writeFrom f src n.toNat (n.toNat + 1) 0
    pure (if (i : Int) = n then n else -1)
  else files fun u => u.write f r bytes

/-! ## Links -/

/-- `ip->nlink += d`, on a `short`. -/
def addLinks (ip : InodeId) (d : Int) : FsM Unit :=
  FileSystem.updateCopy ip fun c => { c with nlink := toShort (toUnsigned 16 (c.nlink + d)) }

/-- `sys_link`. -/
def sysLink (p : Fin NPROC) (old new : Option (List UInt8)) : SysM Int := do
  match old, new with
  | some old, some new => logOp do
    let cur ← cwd p
    let found ← fs (FileSystem.namei cur old)
    withRef found fun ipRef => do
      match found with
      | none => pure (-1, ipRef)
      | some ip => withLock (some ip) fun ipLock => do
        if (← fs (FileSystem.inode ip)).copy.type = T_DIR then pure ((-1, ipRef), ipLock)
        else do
          fs (addLinks ip 1)
          fs (FileSystem.iupdate ip)
          let ipLock ← ipLock.unlock
          let parent ← fs (FileSystem.nameiparent cur new)
          withRef (parent.map Prod.fst) fun dpRef => do
            let linked ← match parent with
              | none => pure false
              | some (dp, name) => withLock (some dp) fun dpLock => do
                let r ← fs (FileSystem.dirlink dp name (← fs (FileSystem.inode ip)).inum)
                pure (decide (0 ≤ r), dpLock)
            if linked then pure (((0, ipRef), ipLock), dpRef)
            else do
              let ipLock ← ipLock.reset (some ip)
              fs (addLinks ip (-1))
              fs (FileSystem.iupdate ip)
              pure (((-1, ipRef), ipLock), dpRef)
  | _, _ => pure (-1)

/-- The loop of `isdirempty`, over at most `n` entries from offset `off` on. -/
def isdiremptyFrom (dp : InodeId) : Nat → Nat → FsM Bool
  | 0, _ => pure true
  | n + 1, off => do
    if off < (← FileSystem.inode dp).copy.size then do
      let (r, bytes) ← FileSystem.readKernel dp off sizeofDirent
      if r ≠ sizeofDirent then FileSystem.stop .isdiremptyReadi
      else if (Dirent.ofBytes bytes).inum ≠ 0 then pure false
      else isdiremptyFrom dp n (off + sizeofDirent)
    else pure true

/-- `isdirempty`. -/
def isdirempty (dp : InodeId) : FsM Bool := do
  isdiremptyFrom dp (← FileSystem.inode dp).copy.entries (2 * sizeofDirent)

/-- The names `.` and `..`. -/
def dot : List UInt8 := [46]
def dotdot : List UInt8 := [46, 46]

/-- `sys_unlink`. -/
def sysUnlink (p : Fin NPROC) (path : Option (List UInt8)) : SysM Int := do
  match path with
  | none => pure (-1)
  | some path => logOp do
    let cur ← cwd p
    let parent ← fs (FileSystem.nameiparent cur path)
    withRef (parent.map Prod.fst) fun dpRef => do
      match parent with
      | none => pure (-1, dpRef)
      | some (dp, name) => withLock (some dp) fun dpLock => do
        if namecmp name dot = 0 ∨ namecmp name dotdot = 0 then pure ((-1, dpRef), dpLock)
        else do
          let found ← fs (FileSystem.dirlookup dp name)
          withRef (found.map Prod.fst) fun ipRef => do
            match found with
            | none => pure (((-1, dpRef), dpLock), ipRef)
            | some (ip, off) => withLock (some ip) fun ipLock => do
              let i ← fs (FileSystem.inode ip)
              if i.copy.nlink < 1 then fs (FileSystem.stop .unlinkNlink)
              else do
                let full ← if i.copy.type = T_DIR then fs (Bool.not <$> isdirempty ip) else pure false
                if full then pure ((((-1, dpRef), dpLock), ipRef), ipLock)
                else do
                  let r ← fs (FileSystem.writeKernel dp (List.replicate sizeofDirent 0) off)
                  if r ≠ sizeofDirent then fs (FileSystem.stop .unlinkWritei)
                  else do
                    if i.copy.type = T_DIR then do
                      fs (addLinks dp (-1))
                      fs (FileSystem.iupdate dp)
                    let dpLock ← dpLock.unlock
                    let dpRef ← dpRef.reset none
                    fs (addLinks ip (-1))
                    fs (FileSystem.iupdate ip)
                    pure ((((0, dpRef), dpLock), ipRef), ipLock)

/-! ## Creating and opening -/

/-- The entries that `create` makes for the inode `ip` in the directory `dp`, up to the first failure:
whether all of them were made. -/
def createEntries (dp ip : InodeId) (name : List UInt8) (type : Int) : FsM Bool := do
  let inum := (← FileSystem.inode ip).inum
  if type = T_DIR then do
    if (← FileSystem.dirlink ip dot inum) < 0 then pure false
    else if (← FileSystem.dirlink ip dotdot (← FileSystem.inode dp).inum) < 0 then pure false
    else return decide (0 ≤ (← FileSystem.dirlink dp name inum))
  else return decide (0 ≤ (← FileSystem.dirlink dp name inum))

/-- `create`: the inode, with a reference to it and locked. -/
def create (p : Fin NPROC) (path : List UInt8) (type major minor : Int) : SysM (Option InodeId) := do
  let parent ← fs (FileSystem.nameiparent (← cwd p) path)
  withRef (parent.map Prod.fst) fun dpRef => do
    match parent with
    | none => pure (none, dpRef)
    | some (dp, name) => withLock (some dp) fun dpLock => do
      let found ← fs (FileSystem.dirlookup dp name)
      withRef (found.map Prod.fst) fun ipRef => do
        match found with
        | some (ip, _) => do
          let dpLock ← dpLock.unlock
          let dpRef ← dpRef.reset none
          withLock (some ip) fun ipLock => do
            let t := (← fs (FileSystem.inode ip)).copy.type
            if type = T_FILE ∧ (t = T_FILE ∨ t = T_DEVICE) then
              pure ((((some ip, dpRef), dpLock), ipRef.release), ipLock.release)
            else pure ((((none, dpRef), dpLock), ipRef), ipLock)
        | none => do
          let new ← fs (FileSystem.ialloc type)
          let ipRef ← ipRef.reset new
          match new with
          | none => pure (((none, dpRef), dpLock), ipRef)
          | some ip => withLock (some ip) fun ipLock => do
            fs (FileSystem.updateCopy ip fun c => { c with major := major, minor := minor, nlink := 1 })
            fs (FileSystem.iupdate ip)
            if (← fs (createEntries dp ip name type)) then do
              if type = T_DIR then do
                fs (addLinks dp 1)
                fs (FileSystem.iupdate dp)
              let dpLock ← dpLock.unlock
              let dpRef ← dpRef.reset none
              pure ((((some ip, dpRef), dpLock), ipRef.release), ipLock.release)
            else do
              -- something went wrong: de-allocate the inode
              fs (FileSystem.updateCopy ip fun c => { c with nlink := 0 })
              fs (FileSystem.iupdate ip)
              pure ((((none, dpRef), dpLock), ipRef), ipLock)

def O_TRUNC : Nat := 0x400

/-- The second part of `sys_open`, with the inode `ip` locked. -/
def openInode (p : Fin NPROC) (omode : Nat) (ip : InodeId) (ipRef : RefGuard) (ipLock : LockGuard) :
    SysM ((Int × RefGuard) × LockGuard) := do
  let c := (← fs (FileSystem.inode ip)).copy
  let fd ← files fun u => u.sysOpen p omode (some ⟨ip, c.type, c.major⟩)
  if fd < 0 then pure ((-1, ipRef), ipLock)
  else do
    if omode &&& O_TRUNC ≠ 0 ∧ c.type = T_FILE then fs (FileSystem.itrunc ip)
    let ipLock ← ipLock.unlock
    pure ((fd, ipRef.release), ipLock)

/-- `sys_open`. -/
def sysOpen (p : Fin NPROC) (path : Option (List UInt8)) (omode : Nat) : SysM Int := do
  match path with
  | none => pure (-1)
  | some path => logOp do
    withRef none fun ipRef => withLock none fun ipLock => do
      if omode &&& O_CREATE ≠ 0 then do
        let made ← create p path T_FILE 0 0
        let ipRef ← ipRef.reset made
        match made with
        | none => pure ((-1, ipRef), ipLock)
        | some ip => do
          let ipLock ← ipLock.adopt (some ip)
          openInode p omode ip ipRef ipLock
      else do
        let found ← fs (FileSystem.namei (← cwd p) path)
        let ipRef ← ipRef.reset found
        match found with
        | none => pure ((-1, ipRef), ipLock)
        | some ip => do
          let ipLock ← ipLock.reset (some ip)
          openInode p omode ip ipRef ipLock

/-- `sys_mkdir` and `sys_mknod`: make the inode and leave it. -/
def makeNode (p : Fin NPROC) (path : Option (List UInt8)) (type major minor : Int) : SysM Int :=
  logOp do
    match path with
    | none => pure (-1)
    | some path => do
      let made ← create p path type major minor
      withRef made fun ipRef => do
        match made with
        | none => pure (-1, ipRef)
        | some ip => withLock none fun ipLock => do
          let ipLock ← ipLock.adopt (some ip)
          pure ((0, ipRef), ipLock)

/-- `sys_mkdir`. -/
def sysMkdir (p : Fin NPROC) (path : Option (List UInt8)) : SysM Int := makeNode p path T_DIR 0 0

/-- `sys_mknod`; the numbers are passed on as `short`s. -/
def sysMknod (p : Fin NPROC) (path : Option (List UInt8)) (major minor : Int) : SysM Int :=
  makeNode p path T_DEVICE (toShort (toUnsigned 16 major)) (toShort (toUnsigned 16 minor))

/-- `sys_chdir`. -/
def sysChdir (p : Fin NPROC) (path : Option (List UInt8)) : SysM Int := logOp do
  match path with
  | none => pure (-1)
  | some path => do
    let found ← fs (FileSystem.namei (← cwd p) path)
    withRef found fun ipRef => do
      match found with
      | none => pure (-1, ipRef)
      | some ip => withLock (some ip) fun ipLock => do
        if (← fs (FileSystem.inode ip)).copy.type ≠ T_DIR then pure ((-1, ipRef), ipLock)
        else do
          let ipLock ← ipLock.unlock
          withRef ((← get).cwd p) fun cwdRef => do
            setCwd p ipRef.ip
            pure (((0, ipRef.release), ipLock), cwdRef)

/-! ## Descriptors -/

/-- Run `m` on the file of a descriptor. -/
def withFd (p : Fin NPROC) (fd : Int) (m : Fin NOFILE → FileId → SysM Int) : SysM Int := do
  match (← get).users.argfd p fd with
  | none => pure (-1)
  | some (fd, f) => m fd f

/-- `sys_close`. -/
def sysClose (p : Fin NPROC) (fd : Int) : SysM Int := withFd p fd fun fd f => do
  closeFd p fd f
  pure 0

/-! ## `exec` and `exit` -/

/-- What becomes of the memory of a process in `exec`: whether there is memory for the page table, for
the segment of a header and for the stack with the arguments. -/
structure ExecMemory where
  pagetable : Bool
  segment : Nat → Bool
  stack : Bool

/-- The loop of `loadseg`, over `n` pages from offset `i` on. -/
def loadsegFrom (ip : InodeId) (offset sz : Nat) : Nat → Nat → FsM Bool
  | 0, _ => pure true
  | n + 1, i => do
    let len := min PGSIZE (sz - i)
    let (r, _) ← FileSystem.readKernel ip ((offset + i) % 2 ^ 32) len
    if r ≠ len then pure false else loadsegFrom ip offset sz n (i + PGSIZE)

/-- `loadseg`; offset and size are 32-bit numbers. -/
def loadseg (ip : InodeId) (offset sz : Nat) : FsM Bool :=
  loadsegFrom ip (offset % 2 ^ 32) (sz % 2 ^ 32) ((sz % 2 ^ 32 + PGSIZE - 1) / PGSIZE) 0

/-- The loop of `exec` over `n` program headers, the first of which has the number `i`. -/
def loadFrom (ip : InodeId) (mem : ExecMemory) : Nat → Nat → Nat → FsM Bool
  | 0, _, _ => pure true
  | n + 1, i, off => do
    let (r, ph) ← FileSystem.readKernel ip off Process.sizeofProghdr
    let vaddr := leField ph 16 8
    let memsz := leField ph 40 8
    let filesz := leField ph 32 8
    let next := (off + Process.sizeofProghdr) % 2 ^ 32
    if r ≠ Process.sizeofProghdr then pure false
    else if leField ph 0 4 ≠ Process.ELF_PROG_LOAD then loadFrom ip mem n (i + 1) next
    else if memsz < filesz then pure false
    else if (vaddr + memsz) % 2 ^ 64 < vaddr then pure false
    else if vaddr % PGSIZE ≠ 0 then pure false
    else if !mem.segment i then pure false
    else do
      if (← loadseg ip (leField ph 8 8) filesz) then loadFrom ip mem n (i + 1) next else pure false

/-- The part of `exec` that reads the file. -/
def load (ip : InodeId) (mem : ExecMemory) : FsM Bool := do
  let (r, elf) ← FileSystem.readKernel ip 0 Process.sizeofElfhdr
  if r ≠ Process.sizeofElfhdr then pure false
  else if leField elf 0 4 ≠ Process.ELF_MAGIC then pure false
  else if !mem.pagetable then pure false
  else loadFrom ip mem (leField elf 56 2) 0 (leField elf 32 8 % 2 ^ 32)

/-- `process::exec`, on `argc` arguments. -/
def exec (p : Fin NPROC) (path : List UInt8) (mem : ExecMemory) (argc : Nat) : SysM Int := do
  let ok ← logOp do
    let found ← fs (FileSystem.namei (← cwd p) path)
    withRef found fun ipRef => do
      match found with
      | none => pure (false, ipRef)
      | some ip => withLock (some ip) fun ipLock => do
        let ok ← fs (load ip mem)
        pure ((ok, ipRef), ipLock)
  if ok ∧ mem.stack then pure argc else pure (-1)

/-- The loop of `exit` over the descriptors. -/
def exitFiles (p : Fin NPROC) : List (Fin NOFILE) → SysM Unit
  | [] => pure ()
  | fd :: fds => do
    match ((← get).users.procs p).ofile fd with
    | none => exitFiles p fds
    | some f => do
      closeFd p fd f
      exitFiles p fds

/-- `process::exit`, up to the scheduler. -/
def exit (p : Fin NPROC) : SysM Unit := do
  exitFiles p (List.finRange NOFILE)
  let cur := (← get).cwd p
  logOp (withRef cur fun g => pure ((), g))
  setCwd p none
  files fun u => .ok ((), u.setProc p fun x => { x with state := .zombie })

/-- The part of `fork` that concerns files, where `alloc` finds the unused process `np`. -/
def fork (p np : Fin NPROC) : SysM Unit := do
  files fun u => (u.fork p np).map fun u => ((), u)
  let cur ← cwd p
  let ip ← fs (FileSystem.idup cur)
  setCwd np (some ip)

end Sysfile

/-! ## System calls -/

/-- A system call, with its arguments and with what happens in it outside of the file system. -/
inductive SysCall
  | dup (fd : Int)
  | read (fd : Int) (n : Nat) (dst : Nat → List UInt8 → Bool) (r : Int) (k : Nat)
  | write (fd n : Int) (src : Nat → Nat → List UInt8 × Bool) (r : Int) (bytes : List UInt8)
  | close (fd : Int)
  | fstat (fd : Int) (copied : Bool)
  | link (old new : Option (List UInt8))
  | unlink (path : Option (List UInt8))
  | open (path : Option (List UInt8)) (omode : Nat)
  | mkdir (path : Option (List UInt8))
  | mknod (path : Option (List UInt8)) (major minor : Int)
  | chdir (path : Option (List UInt8))
  /-- `sys_exec`, when the path and the arguments have been fetched. -/
  | exec (path : List UInt8) (mem : Sysfile.ExecMemory) (argc : Nat)
  | pipe (copy₀ copy₁ : Bool)
  | exit

/-- The code of a system call of the process `p`; `exit` ends where it enters the scheduler. -/
def SysCall.prog (p : Fin NPROC) : SysCall → SysM Int
  | .dup fd => Sysfile.files fun u => u.sysDup p fd
  | .read fd n dst r k => Sysfile.withFd p fd fun _ f => Sysfile.read f n dst r k
  | .write fd n src r bytes => Sysfile.withFd p fd fun _ f => Sysfile.write f n src r bytes
  | .close fd => Sysfile.sysClose p fd
  | .fstat fd copied => Sysfile.withFd p fd fun _ f => Sysfile.stat f copied
  | .link old new => Sysfile.sysLink p old new
  | .unlink path => Sysfile.sysUnlink p path
  | .open path omode => Sysfile.sysOpen p path omode
  | .mkdir path => Sysfile.sysMkdir p path
  | .mknod path major minor => Sysfile.sysMknod p path major minor
  | .chdir path => Sysfile.sysChdir p path
  | .exec path mem argc => Sysfile.exec p path mem argc
  | .pipe copy₀ copy₁ => Sysfile.files fun u => u.sysPipe p copy₀ copy₁
  | .exit => do
    Sysfile.exit p
    pure 0

end Xv6pp
