import Xv6pp.Lib.Machine
import Xv6pp.File.Pipe
import Xv6pp.Fs.FileSystem
import Xv6pp.Proc.Process

/-!
# The table of open files

`kernel/file_manager.cpp`, `kernel/file.cpp` and the system calls of `kernel/sysfile.cpp` and
`kernel/process.cpp` that hand descriptors out and take them back.  The states are those at system-call
boundaries, so a system call is one step.  What the file system finds under a path, whether a copy to the
user works and how many bytes a `read` or `write` moves are arguments of the calls.
-/

set_option autoImplicit false

namespace Xv6pp

/-! ## Files and pipes -/

/-- `file::file_type`. -/
inductive FileType
  | none
  | pipe
  | inode
  | device
  deriving DecidableEq, Repr

/-- The place of a file in the table of open files. -/
abbrev FileId : Type := Fin NFILE

/-- The place of a pipe in the pool of pipes; each pipe consumes two files. -/
abbrev PipeId : Type := Fin (NFILE / 2)

/-- An open `file`. -/
structure File where
  type : FileType
  /-- Reference count, a 32-bit word. -/
  ref : Nat
  readable : Bool
  writable : Bool
  /-- The pipe of a file of type `FD_PIPE`. -/
  pp : Option PipeId
  /-- The inode of a file of type `FD_INODE` or `FD_DEVICE`. -/
  ip : Option InodeId
  /-- The offset of a file of type `FD_INODE`, a 32-bit word. -/
  off : Nat
  /-- The device number of a file of type `FD_DEVICE`. -/
  major : Int
  deriving DecidableEq

/-- The constructor of `file`. -/
def File.blank : File := ⟨.none, 0, false, false, none, none, 0, -1⟩

/-- The constructor of `pipe`; the buffer holds anything. -/
def Pipe.blank (data : Nat → UInt8) : Pipe := ⟨data, 0, 0, false, false⟩

/-- `pipe::close`, without the wakeup. -/
def Pipe.close (p : Pipe) (writable : Bool) : Pipe :=
  if writable then { p with writeopen := false } else { p with readopen := false }

/-- `file_manager`. -/
structure FileManager where
  files : FileId → File
  pipes : PipeId → Pipe

namespace FileManager

/-- Change a file. -/
def setFile (f : FileId) (g : File → File) (m : FileManager) : FileManager :=
  { m with files := Function.update m.files f (g (m.files f)) }

/-- Change a pipe. -/
def setPipe (k : PipeId) (g : Pipe → Pipe) (m : FileManager) : FileManager :=
  { m with pipes := Function.update m.pipes k (g (m.pipes k)) }

/-- `file_manager::alloc_file`. -/
def allocFile (m : FileManager) : Option (FileId × FileManager) :=
  match (List.finRange NFILE).find? fun f => (m.files f).ref = 0 with
  | some f => some (f, m.setFile f fun x => { x with ref := 1 })
  | none => none

/-- The part of `file::close` under `file_lock`; if the last reference went away, it also gives the copy of
the file made before. -/
def dropRef (f : FileId) (m : FileManager) : Except Panic (Option File × FileManager) :=
  if (m.files f).ref < 1 then .error .fileclose
  else if 0 < (m.files f).ref - 1 then
    .ok (none, m.setFile f fun x => { x with ref := x.ref - 1 })
  else .ok (some (m.files f), m.setFile f fun x => { x with ref := 0, type := .none })

/-- `file::close`, less the release of the inode. -/
def close (f : FileId) (m : FileManager) : Except Panic FileManager :=
  match m.dropRef f with
  | .error e => .error e
  | .ok (none, m') => .ok m'
  | .ok (some ff, m') =>
    match ff.type, ff.pp with
    | .pipe, some k => .ok (m'.setPipe k fun p => p.close ff.writable)
    | .pipe, none => .error .outOfBounds
    | _, _ => .ok m'

/-- `file::dup`. -/
def dup (f : FileId) (m : FileManager) : Except Panic FileManager :=
  if (m.files f).ref < 1 then .error .filedup
  else .ok (m.setFile f fun x => { x with ref := (x.ref + 1) % 2 ^ 32 })

/-- The end of a file of a new pipe. -/
def pipeEnd (k : PipeId) (writable : Bool) (x : File) : File :=
  { x with type := .pipe, readable := !writable, writable := writable, pp := some k }

/-- `file_manager::alloc_pipe`: the two files of a new pipe, the reading end first. -/
def allocPipe (m : FileManager) : Except Panic (Option (FileId × FileId) × FileManager) :=
  match m.allocFile with
  | none => .ok (none, m)
  | some (f₀, m₁) =>
    match m₁.allocFile with
    | none => (m₁.close f₀).map fun m => (none, m)
    | some (f₁, m₂) =>
      match (List.finRange (NFILE / 2)).find? fun k =>
          !(m₂.pipes k).readopen && !(m₂.pipes k).writeopen with
      | none => ((m₂.close f₁).bind fun m => m.close f₀).map fun m => (none, m)
      | some k =>
        .ok (some (f₀, f₁),
          ((m₂.setPipe k fun p => .opened p.data).setFile f₀ (pipeEnd k false)).setFile f₁
            (pipeEnd k true))

end FileManager

/-! ## Descriptors -/

/-- The fields of a process that matter here. -/
structure FileProc where
  state : ProcessState
  /-- Open files. -/
  ofile : Fin NOFILE → Option FileId

/-- The processes and their open files. -/
structure FileUsers where
  files : FileManager
  procs : Fin NPROC → FileProc

/-- An inode that `sys_open` has found or created. -/
structure Opened where
  ip : InodeId
  type : Int
  major : Int

/-- `fcntl.h`. -/
def O_RDONLY : Nat := 0x000
def O_WRONLY : Nat := 0x001
def O_RDWR : Nat := 0x002
def O_CREATE : Nat := 0x200

namespace FileUsers

/-- Change a process. -/
def setProc (p : Fin NPROC) (g : FileProc → FileProc) (s : FileUsers) : FileUsers :=
  { s with procs := Function.update s.procs p (g (s.procs p)) }

/-- `process::set_ofile`. -/
def setOfile (p : Fin NPROC) (fd : Fin NOFILE) (f : Option FileId) (s : FileUsers) : FileUsers :=
  s.setProc p fun x => { x with ofile := Function.update x.ofile fd f }

/-- Run a function of the file manager. -/
def lift (g : FileManager → Except Panic FileManager) (s : FileUsers) : Except Panic FileUsers :=
  (g s.files).map fun m => { s with files := m }

/-- `argfd`: the descriptor, if it is open, and its file. -/
def argfd (p : Fin NPROC) (fd : Int) (s : FileUsers) : Option (Fin NOFILE × FileId) :=
  if h : 0 ≤ fd ∧ fd < NOFILE then
    ((s.procs p).ofile ⟨fd.toNat, by omega⟩).map fun f => (⟨fd.toNat, by omega⟩, f)
  else none

/-- `fdalloc`. -/
def fdalloc (p : Fin NPROC) (f : FileId) (s : FileUsers) : Option (Fin NOFILE × FileUsers) :=
  ((List.finRange NOFILE).find? fun fd => (s.procs p).ofile fd = none).map fun fd =>
    (fd, s.setOfile p fd (some f))

/-- `sys_dup`. -/
def sysDup (p : Fin NPROC) (fd : Int) (s : FileUsers) : Except Panic (Int × FileUsers) :=
  match s.argfd p fd with
  | none => .ok (-1, s)
  | some (_, f) =>
    match s.fdalloc p f with
    | none => .ok (-1, s)
    | some (fd', s') => (s'.lift (·.dup f)).map fun s => ((fd' : Nat), s)

/-- Take a descriptor back and give up its file. -/
def closeFd (p : Fin NPROC) (fd : Fin NOFILE) (f : FileId) (s : FileUsers) : Except Panic FileUsers :=
  (s.setOfile p fd none).lift (·.close f)

/-- `sys_close`. -/
def sysClose (p : Fin NPROC) (fd : Int) (s : FileUsers) : Except Panic (Int × FileUsers) :=
  match s.argfd p fd with
  | none => .ok (-1, s)
  | some (fd', f) => (s.closeFd p fd' f).map fun s => (0, s)

/-- `file::read`, where the file, the device or the pipe gives the result `r` and `n` bytes leave the
pipe. -/
def read (f : FileId) (r : Int) (n : Nat) (s : FileUsers) : Except Panic (Int × FileUsers) :=
  let x := s.files.files f
  if x.readable = false then .ok (-1, s)
  else
    match x.type with
    | .pipe =>
      match x.pp with
      | some k => .ok (r, { s with
          files := s.files.setPipe k fun p => { p with nread := p.nread + UInt32.ofNat n } })
      | none => .error .outOfBounds
    | .device => if x.major < 0 ∨ (NDEV : Int) ≤ x.major then .ok (-1, s) else .ok (r, s)
    | .inode => .ok (r, { s with
        files := s.files.setFile f fun x => { x with off := (x.off + r.toNat) % 2 ^ 32 } })
    | .none => .error .fileread

/-- `file::write`, where the file, the device or the pipe gives the result `r` and takes these bytes. -/
def write (f : FileId) (r : Int) (bytes : List UInt8) (s : FileUsers) :
    Except Panic (Int × FileUsers) :=
  let x := s.files.files f
  if x.writable = false then .ok (-1, s)
  else
    match x.type with
    | .pipe =>
      match x.pp with
      | some k => .ok (r, { s with
          files := s.files.setPipe k fun p => bytes.foldl Pipe.put p })
      | none => .error .outOfBounds
    | .device =>
      if x.major < 0 ∨ (NDEV : Int) ≤ x.major then .ok (-1, s) else .ok (r, s)
    | .inode => .ok (r, { s with
        files := s.files.setFile f fun x => { x with off := (x.off + bytes.length) % 2 ^ 32 } })
    | .none => .error .filewrite

/-- `sys_read`. -/
def sysRead (p : Fin NPROC) (fd r : Int) (n : Nat) (s : FileUsers) :
    Except Panic (Int × FileUsers) :=
  match s.argfd p fd with
  | none => .ok (-1, s)
  | some (_, f) => s.read f r n

/-- `sys_write`. -/
def sysWrite (p : Fin NPROC) (fd r : Int) (bytes : List UInt8) (s : FileUsers) :
    Except Panic (Int × FileUsers) :=
  match s.argfd p fd with
  | none => .ok (-1, s)
  | some (_, f) => s.write f r bytes

/-- The file `sys_open` sets up. -/
def openedFile (omode : Nat) (i : Opened) (x : File) : File :=
  let y : File := if i.type = T_DEVICE then { x with type := .device, major := i.major }
    else { x with type := .inode, off := 0 }
  { y with
    ip := some i.ip
    readable := omode &&& O_WRONLY = 0
    writable := omode &&& O_WRONLY ≠ 0 ∨ omode &&& O_RDWR ≠ 0 }

/-- `sys_open`, where the path leads to the inode `found`. -/
def sysOpen (p : Fin NPROC) (omode : Nat) (found : Option Opened) (s : FileUsers) :
    Except Panic (Int × FileUsers) :=
  match found with
  | none => .ok (-1, s)
  | some i =>
    if omode &&& O_CREATE = 0 ∧ i.type = T_DIR ∧ omode ≠ O_RDONLY then .ok (-1, s)
    else if i.type = T_DEVICE ∧ (i.major < 0 ∨ (NDEV : Int) ≤ i.major) then .ok (-1, s)
    else
      match s.files.allocFile with
      | none => .ok (-1, s)
      | some (f, m) =>
        match fdalloc p f { s with files := m } with
        | none => (lift (·.close f) { s with files := m }).map fun s => (-1, s)
        | some (fd, s') =>
          .ok ((fd : Nat), { s' with files := s'.files.setFile f (openedFile omode i) })

/-- The ends of the two guards of `sys_pipe`, the one of the writing end first. -/
def closeEnds (rf wf : FileId) (s : FileUsers) : Except Panic (Int × FileUsers) :=
  (s.lift fun m => (m.close wf).bind fun m => m.close rf).map fun s => (-1, s)

/-- `sys_pipe`; `copy₀` and `copy₁` say whether the two descriptors can be copied to the user. -/
def sysPipe (p : Fin NPROC) (copy₀ copy₁ : Bool) (s : FileUsers) : Except Panic (Int × FileUsers) :=
  match s.files.allocPipe with
  | .error e => .error e
  | .ok (none, m) => .ok (-1, { s with files := m })
  | .ok (some (rf, wf), m) =>
    match fdalloc p rf { s with files := m } with
    | none => closeEnds rf wf { s with files := m }
    | some (fd₀, s₀) =>
      match fdalloc p wf s₀ with
      | none => closeEnds rf wf (s₀.setOfile p fd₀ none)
      | some (fd₁, s₁) =>
        if copy₀ = false ∨ copy₁ = false then
          closeEnds rf wf ((s₁.setOfile p fd₀ none).setOfile p fd₁ none)
        else .ok (0, s₁)

/-- The loop of `fork` over the descriptors of the parent. -/
def forkFiles (p np : Fin NPROC) : List (Fin NOFILE) → FileUsers → Except Panic FileUsers
  | [], s => .ok s
  | i :: is, s =>
    match (s.procs p).ofile i with
    | none => forkFiles p np is s
    | some f =>
      match s.lift (·.dup f) with
      | .error e => .error e
      | .ok s' => forkFiles p np is (s'.setOfile np i (some f))

/-- `fork`, where `alloc` finds the unused process `np`. -/
def fork (p np : Fin NPROC) (s : FileUsers) : Except Panic FileUsers :=
  (forkFiles p np (List.finRange NOFILE) (s.setProc np fun x => { x with state := .used })).map
    fun s => s.setProc np fun x => { x with state := .runnable }

/-- The loop of `exit` over the descriptors. -/
def exitFiles (p : Fin NPROC) : List (Fin NOFILE) → FileUsers → Except Panic FileUsers
  | [], s => .ok s
  | fd :: fds, s =>
    match (s.procs p).ofile fd with
    | none => exitFiles p fds s
    | some f =>
      match s.closeFd p fd f with
      | .error e => .error e
      | .ok s' => exitFiles p fds s'

/-- `exit`. -/
def exit (p : Fin NPROC) (s : FileUsers) : Except Panic FileUsers :=
  (exitFiles p (List.finRange NOFILE) s).map fun s => s.setProc p fun x => { x with state := .zombie }

end FileUsers

/-! ## Runs -/

/-- A system call. -/
inductive FileAct
  | open (p : Fin NPROC) (omode : Nat) (found : Option Opened)
  | pipe (p : Fin NPROC) (copy₀ copy₁ : Bool)
  | dup (p : Fin NPROC) (fd : Int)
  | close (p : Fin NPROC) (fd : Int)
  | read (p : Fin NPROC) (fd r : Int) (n : Nat)
  | write (p : Fin NPROC) (fd r : Int) (bytes : List UInt8)
  /-- `fork`, with the process that `alloc` finds. -/
  | fork (p np : Fin NPROC)
  | exit (p : Fin NPROC)
  /-- A `wait` reaps this process. -/
  | reap (np : Fin NPROC)

namespace FileUsers

/-- One system call of a live process. -/
def call (p : Fin NPROC) (s : FileUsers) (r : Except Panic FileUsers) :
    Option (Except Panic FileUsers) :=
  if (s.procs p).state = .runnable then some r else none

/-- One action. -/
def step (s : FileUsers) : FileAct → Option (Except Panic FileUsers)
  | .open p omode found => s.call p ((s.sysOpen p omode found).map Prod.snd)
  | .pipe p copy₀ copy₁ => s.call p ((s.sysPipe p copy₀ copy₁).map Prod.snd)
  | .dup p fd => s.call p ((s.sysDup p fd).map Prod.snd)
  | .close p fd => s.call p ((s.sysClose p fd).map Prod.snd)
  | .read p fd r n => s.call p ((s.sysRead p fd r n).map Prod.snd)
  | .write p fd r bytes => s.call p ((s.sysWrite p fd r bytes).map Prod.snd)
  | .fork p np => if (s.procs np).state = .unused then s.call p (s.fork p np) else none
  | .exit p => s.call p (s.exit p)
  | .reap np =>
    if (s.procs np).state = .zombie then
      some (.ok (s.setProc np fun x => { x with state := .unused }))
    else none

/-- The first process has been made. -/
def boot (data : PipeId → Nat → UInt8) : FileUsers where
  files := { files := fun _ => .blank, pipes := fun k => .blank (data k) }
  procs := fun p => ⟨if p.val = 0 then .runnable else .unused, fun _ => none⟩

end FileUsers

end Xv6pp
