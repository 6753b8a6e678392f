import Xv6pp.Fs.Layout
import Xv6pp.Log.FileSystemLog

/-!
# The file system of `kernel/file_system.cpp`

Block allocation, the table of in-core inodes, the contents of files, directories and path names.
The functions are the source's, as programs over the buffer cache that also have the state of the
file system (`FsMem`) at hand: the super block, the log and the in-core inodes.  An inode is named
by its place in the table, a null pointer is `none`, and everything is on one device.

A process that runs one of these functions runs alone, so a sleep lock is a flag; waiting for a lock
that is already held means waiting for oneself (`Panic.deadlock`).  Where the source copies to or
from a user address, the function takes what such a copy does as an argument.
-/

set_option autoImplicit false

namespace Xv6pp

/-- `struct inode`: an in-memory copy of an inode. -/
structure Inode where
  /-- Inode number. -/
  inum : Nat
  /-- Reference count. -/
  ref : Int
  /-- Whether the sleep lock is held. -/
  locked : Bool
  /-- Whether the inode has been read from disk. -/
  valid : Bool
  /-- Copy of the disk inode. -/
  copy : Dinode

/-- The place of an inode in the table of in-core inodes. -/
abbrev InodeId : Type := Fin NINODE

/-- The state of the file system in memory. -/
structure FsMem where
  /-- The super block. -/
  sb : Superblock
  /-- The log. -/
  log : Log
  /-- The in-core inodes. -/
  inodes : InodeId → Inode

/-- A program of the file system. -/
abbrev FsM (α : Type) : Type := StateT FsMem BufM α

namespace FileSystem

/-! ## Buffers and the log -/

/-- A buffer command. -/
def buf {α : Type} (p : BufM α) : FsM α := StateT.lift p

/-- Stop the machine. -/
def stop {α : Type} (e : Panic) : FsM α := StateT.lift (BufM.panic e)

/-- `buffer_guard bp(dev, b)`. -/
def bread (b : Nat) : FsM Block := buf (BufM.bread b)

/-- Overwrite the data of a buffer. -/
def bstore (b : Nat) (d : Block) : FsM Unit := buf (BufM.bstore b d)

/-- The end of a `buffer_guard`'s scope. -/
def brelse (b : Nat) : FsM Unit := buf (BufM.brelse b)

/-- `kernel.log.log_write(bp)`. -/
def logWrite (b : Nat) : FsM Unit := do
  let m ← get
  match m.log.logWrite b with
  | .error e => stop e
  | .ok (l, pinned) => do
    set { m with log := l }
    if pinned then buf (BufM.bpin b) else pure ()

/-- The super block. -/
def superblock : FsM Superblock := do return (← get).sb

/-- The in-core inode `ip`. -/
def inode (ip : InodeId) : FsM Inode := do return (← get).inodes ip

/-- Change the in-core inode `ip`. -/
def updateInode (ip : InodeId) (f : Inode → Inode) : FsM Unit :=
  modify fun m => { m with inodes := Function.update m.inodes ip (f (m.inodes ip)) }

/-- Change the copy of the disk inode. -/
def updateCopy (ip : InodeId) (f : Dinode → Dinode) : FsM Unit :=
  updateInode ip fun i => { i with copy := f i.copy }

/-- `ip->addrs[i] = addr`. -/
def setAddr (ip : InodeId) (i : Fin (NDIRECT + 1)) (addr : Nat) : FsM Unit :=
  updateCopy ip fun d => { d with addrs := Function.update d.addrs i addr }

/-! ## Blocks -/

/-- `file_system::bzero`. -/
def bzero (bno : Nat) : FsM Unit := do
  let _ ← bread bno
  bstore bno (Bytes.zero BSIZE)
  logWrite bno
  brelse bno

/-- The loop of `balloc` over `n` bitmap blocks, from the one of block `b` on. -/
def ballocFrom (sb : Superblock) : Nat → Nat → FsM Nat
  | 0, _ => pure 0
  | n + 1, b => do
    let bp ← bread (sb.bblock b)
    match bp.freeBit (min BPB (sb.size - b)) with
    | some bi =>
      bstore (sb.bblock b) (bp.setBit bi)
      logWrite (sb.bblock b)
      bzero (b + bi)
      brelse (sb.bblock b)
      pure (b + bi)
    | none =>
      brelse (sb.bblock b)
      ballocFrom sb n (b + BPB)

/-- `file_system::balloc`: a zeroed block, or 0 if there is none. -/
def balloc : FsM Nat := do
  let sb ← superblock
  ballocFrom sb ((sb.size + BPB - 1) / BPB) 0

/-- `file_system::bfree`. -/
def bfree (b : Nat) : FsM Unit := do
  let sb ← superblock
  let bp ← bread (sb.bblock b)
  if bp.bit (b % BPB) = false then stop .freeingFreeBlock
  else do
    bstore (sb.bblock b) (bp.clearBit (b % BPB))
    logWrite (sb.bblock b)
    brelse (sb.bblock b)

/-! ## In-core inodes -/

/-- `file_system::iget`. -/
def iget (inum : Nat) : FsM InodeId := do
  let m ← get
  match (List.finRange NINODE).find? fun k => 0 < (m.inodes k).ref ∧ (m.inodes k).inum = inum with
  | some ip =>
    updateInode ip fun i => { i with ref := i.ref + 1 }
    pure ip
  | none =>
    match (List.finRange NINODE).find? fun k => (m.inodes k).ref = 0 with
    | none => stop .igetNoInodes
    | some ip =>
      updateInode ip fun i => { i with inum := inum, ref := 1, valid := false }
      pure ip

/-- `file_system::idup`. -/
def idup (ip : InodeId) : FsM InodeId := do
  updateInode ip fun i => { i with ref := i.ref + 1 }
  pure ip

/-- The loop of `ialloc` over `n` inodes, from `inum` on. -/
def iallocFrom (sb : Superblock) (type : Int) : Nat → Nat → FsM (Option InodeId)
  | 0, _ => pure none
  | n + 1, inum => do
    let bp ← bread (sb.iblock inum)
    if (bp.dinode (inum % IPB)).type = 0 then do
      bstore (sb.iblock inum) (bp.setDinode (inum % IPB) (.fresh type))
      logWrite (sb.iblock inum)
      let ip ← iget inum
      brelse (sb.iblock inum)
      pure (some ip)
    else do
      brelse (sb.iblock inum)
      iallocFrom sb type n (inum + 1)

/-- `file_system::ialloc`. -/
def ialloc (type : Int) : FsM (Option InodeId) := do
  let sb ← superblock
  iallocFrom sb type (sb.ninodes - 1) 1

/-- `lock.acquire()` of an inode's sleep lock. -/
def acquire (ip : InodeId) : FsM Unit := do
  if (← inode ip).locked then stop .deadlock
  else updateInode ip fun i => { i with locked := true }

/-- `file_system::ilock`. -/
def ilock (ip : InodeId) : FsM Unit := do
  if (← inode ip).ref < 1 then stop .ilock
  else do
    acquire ip
    let i ← inode ip
    if i.valid then pure ()
    else do
      let sb ← superblock
      let bp ← bread (sb.iblock i.inum)
      let d := bp.dinode (i.inum % IPB)
      updateInode ip fun i => { i with copy := d, valid := true }
      if d.type = 0 then stop .ilockNoType else brelse (sb.iblock i.inum)

/-- `file_system::iunlock`. -/
def iunlock (ip : InodeId) : FsM Unit := do
  let i ← inode ip
  if !i.locked ∨ i.ref < 1 then stop .iunlock
  else updateInode ip fun i => { i with locked := false }

/-- `file_system::iupdate`. -/
def iupdate (ip : InodeId) : FsM Unit := do
  let i ← inode ip
  let sb ← superblock
  let bp ← bread (sb.iblock i.inum)
  bstore (sb.iblock i.inum) (bp.setDinode (i.inum % IPB) i.copy)
  logWrite (sb.iblock i.inum)
  brelse (sb.iblock i.inum)

/-- Free these blocks, except for those with address 0. -/
def bfreeAll : List Nat → FsM Unit
  | [] => pure ()
  | b :: bs => do
    if b ≠ 0 then bfree b else pure ()
    bfreeAll bs

/-- The first loop of `itrunc`, over these places of `addrs`. -/
def truncDirect (ip : InodeId) : List (Fin (NDIRECT + 1)) → FsM Unit
  | [] => pure ()
  | i :: is => do
    let b := (← inode ip).copy.addrs i
    if b ≠ 0 then do
      bfree b
      setAddr ip i 0
    else pure ()
    truncDirect ip is

/-- `file_system::itrunc`. -/
def itrunc (ip : InodeId) : FsM Unit := do
  truncDirect ip ((List.finRange NDIRECT).map Fin.castSucc)
  let b := (← inode ip).copy.indirect
  if b ≠ 0 then do
    let bp ← bread b
    bfreeAll ((List.range NINDIRECT).map bp.entry)
    brelse b
    bfree b
    setAddr ip (Fin.last NDIRECT) 0
  else pure ()
  updateCopy ip fun d => { d with size := 0 }
  iupdate ip

/-- `file_system::iput`. -/
def iput (ip : InodeId) : FsM Unit := do
  let i ← inode ip
  if i.ref = 1 ∧ i.valid ∧ i.copy.nlink = 0 then do
    -- inode has no links and no other references: truncate and free
    acquire ip
    itrunc ip
    updateCopy ip fun d => { d with type := 0 }
    iupdate ip
    updateInode ip fun i => { i with valid := false, locked := false }
  else pure ()
  updateInode ip fun i => { i with ref := i.ref - 1 }

/-- `file_system::iunlockput`. -/
def iunlockput (ip : InodeId) : FsM Unit := do
  iunlock ip
  iput ip

/-! ## The contents of files -/

/-- The second part of `bmap`: entry `bn` of the indirect block `addr`. -/
def bmapEntry (addr bn : Nat) : FsM Nat := do
  let bp ← bread addr
  if bp.entry bn = 0 then do
    let a ← balloc
    if a ≠ 0 then do
      bstore addr (bp.setEntry bn a)
      logWrite addr
    else pure ()
    brelse addr
    pure a
  else do
    brelse addr
    pure (bp.entry bn)

/-- The block at `ip->addrs[i]`, allocating one if necessary. -/
def bmapAddr (ip : InodeId) (i : Fin (NDIRECT + 1)) : FsM Nat := do
  let addr := (← inode ip).copy.addrs i
  if addr = 0 then do
    let addr ← balloc
    if addr = 0 then pure 0
    else do
      setAddr ip i addr
      pure addr
  else pure addr

/-- `file_system::bmap`. -/
def bmap (ip : InodeId) (bn : Nat) : FsM Nat :=
  if h : bn < NDIRECT then bmapAddr ip ⟨bn, Nat.lt_succ_of_lt h⟩
  else if bn - NDIRECT < NINDIRECT then do
    -- load indirect block, allocating if necessary
    let addr ← bmapAddr ip (Fin.last NDIRECT)
    if addr = 0 then pure 0 else bmapEntry addr (bn - NDIRECT)
  else stop .bmapOutOfRange

/-- The loop of `readi`: `n` bytes in all, of which `tot` are done. -/
def readFrom (ip : InodeId) (dst : Nat → List UInt8 → Bool) (n : Nat) :
    Nat → Nat → Nat → List UInt8 → FsM (Int × List UInt8)
  | 0, tot, _, bytes => pure (tot, bytes)
  | fuel + 1, tot, off, bytes =>
    if tot < n then do
      let addr ← bmap ip (off / BSIZE)
      if addr = 0 then pure (tot, bytes)
      else do
        let bp ← bread addr
        let m := min (n - tot) (BSIZE - off % BSIZE)
        let piece := Bytes.read bp (off % BSIZE) m
        brelse addr
        if dst tot piece then readFrom ip dst n fuel (tot + m) (off + m) (bytes ++ piece)
        else pure (-1, bytes)
    else pure (tot, bytes)

/-- `file_system::readi`: the result and the bytes delivered.  `dst tot piece` says whether the
bytes `piece` can be copied out to the destination, `tot` bytes after its beginning. -/
def readi (ip : InodeId) (dst : Nat → List UInt8 → Bool) (off n : Nat) :
    FsM (Int × List UInt8) := do
  let size := (← inode ip).copy.size
  if size < off ∨ (off + n) % 2 ^ 32 < off then pure (0, [])
  else
    let n := if size < off + n then size - off else n
    readFrom ip dst n n 0 off []

/-- `readi` to an address of the kernel. -/
def readKernel (ip : InodeId) (off n : Nat) : FsM (Int × List UInt8) :=
  readi ip (fun _ _ => true) off n

/-- The loop of `writei`: `n` bytes in all, of which `tot` are done. -/
def writeFrom (ip : InodeId) (src : Nat → Nat → List UInt8 × Bool) (n : Nat) :
    Nat → Nat → Nat → FsM (Nat × Nat)
  | 0, tot, off => pure (tot, off)
  | fuel + 1, tot, off =>
    if tot < n then do
      let addr ← bmap ip (off / BSIZE)
      if addr = 0 then pure (tot, off)
      else do
        let bp ← bread addr
        let m := min (n - tot) (BSIZE - off % BSIZE)
        bstore addr (Bytes.write bp (off % BSIZE) (src tot m).1)
        if (src tot m).2 then do
          logWrite addr
          brelse addr
          writeFrom ip src n fuel (tot + m) (off + m)
        else do
          -- what the copy did before it failed stays in the buffer
          brelse addr
          pure (tot, off)
    else pure (tot, off)

/-- `file_system::writei`.  `src tot m` is what copying in `m` bytes of the source, `tot` bytes
after its beginning, does: the bytes that arrive, and whether it succeeds. -/
def writei (ip : InodeId) (src : Nat → Nat → List UInt8 × Bool) (off n : Nat) : FsM Int := do
  let size := (← inode ip).copy.size
  if size < off ∨ (off + n) % 2 ^ 32 < off then pure (-1)
  else if MAXFILE * BSIZE < off + n then pure (-1)
  else do
    let (tot, off) ← writeFrom ip src n n 0 off
    -- write the inode back to disk even if the size didn't change, because the loop might have
    -- added a new block to `addrs`
    updateCopy ip fun d => { d with size := if d.size < off then off else d.size }
    iupdate ip
    pure tot

/-- `writei` from an address of the kernel. -/
def writeKernel (ip : InodeId) (bytes : List UInt8) (off : Nat) : FsM Int :=
  writei ip (fun tot m => ((bytes.drop tot).take m, true)) off bytes.length

/-! ## Directories -/

/-- The loop of `dirlookup`, over at most `n` entries from offset `off` on. -/
def dirlookupFrom (dp : InodeId) (name : List UInt8) : Nat → Nat → FsM (Option (InodeId × Nat))
  | 0, _ => pure none
  | n + 1, off => do
    if off < (← inode dp).copy.size then do
      let (r, bytes) ← readKernel dp off sizeofDirent
      if r ≠ sizeofDirent then stop .dirlookupRead
      else
        let de := Dirent.ofBytes bytes
        if de.inum = 0 then dirlookupFrom dp name n (off + sizeofDirent)
        else if namecmp name de.name = 0 then do
          let ip ← iget de.inum
          pure (some (ip, off))
        else dirlookupFrom dp name n (off + sizeofDirent)
    else pure none

/-- `file_system::dirlookup`: the inode and the offset of the entry. -/
def dirlookup (dp : InodeId) (name : List UInt8) : FsM (Option (InodeId × Nat)) := do
  let d := (← inode dp).copy
  if d.type ≠ T_DIR then stop .dirlookupNotDir
  else dirlookupFrom dp name d.entries 0

/-- The loop of `dirlink`: the offset of an empty entry, or the end of the directory. -/
def emptyFrom (dp : InodeId) : Nat → Nat → FsM Nat
  | 0, off => pure off
  | n + 1, off => do
    if off < (← inode dp).copy.size then do
      let (r, bytes) ← readKernel dp off sizeofDirent
      if r ≠ sizeofDirent then stop .dirlinkRead
      else if (Dirent.ofBytes bytes).inum = 0 then pure off
      else emptyFrom dp n (off + sizeofDirent)
    else pure off

/-- `file_system::dirlink`. -/
def dirlink (dp : InodeId) (name : List UInt8) (inum : Nat) : FsM Int := do
  match ← dirlookup dp name with
  | some (ip, _) =>
    iput ip
    pure (-1)
  | none => do
    let d := (← inode dp).copy
    let off ← emptyFrom dp d.entries 0
    let r ← writeKernel dp (Dirent.bytes ⟨inum, name⟩) off
    if r ≠ sizeofDirent then pure (-1) else pure 0

/-! ## Path names -/

/-- The character `/`. -/
def slash : UInt8 := 47

/-- `file_system::skipelem`: the next element of a path, and the rest of the path after it. -/
def skipelem (path : List UInt8) : Option (List UInt8 × List UInt8) :=
  match path.dropWhile (· == slash) with
  | [] => none
  | c :: cs =>
    let elem := (c :: cs).takeWhile (· != slash)
    let rest := (c :: cs).dropWhile (· != slash)
    some (elem.take DIRSIZ, rest.dropWhile (· == slash))

/-- The loop of `namex`, over at most `n` elements of the path. -/
def namexFrom (nameiparent : Bool) :
    Nat → InodeId → List UInt8 → FsM (Option (InodeId × List UInt8))
  | 0, _, _ => pure none
  | n + 1, ip, path =>
    match skipelem path with
    | none =>
      if nameiparent then do
        iput ip
        pure none
      else pure (some (ip, []))
    | some (name, rest) => do
      ilock ip
      if (← inode ip).copy.type ≠ T_DIR then do
        iunlockput ip
        pure none
      else if nameiparent ∧ rest = [] then do
        -- stop one level early
        iunlock ip
        pure (some (ip, name))
      else do
        match ← dirlookup ip name with
        | none =>
          iunlockput ip
          pure none
        | some (next, _) =>
          iunlockput ip
          namexFrom nameiparent n next rest

/-- `file_system::namex`, called by a process with the current directory `cwd`. -/
def namex (cwd : InodeId) (path : List UInt8) (nameiparent : Bool) :
    FsM (Option (InodeId × List UInt8)) := do
  let ip ← if path.head? = some slash then iget ROOTINO else idup cwd
  -- every element has at least one character
  namexFrom nameiparent (path.length + 1) ip path

/-- `file_system::namei`. -/
def namei (cwd : InodeId) (path : List UInt8) : FsM (Option InodeId) := do
  return (← namex cwd path false).map Prod.fst

/-- `file_system::nameiparent`: the directory, and the last element of the path. -/
def nameiparent (cwd : InodeId) (path : List UInt8) : FsM (Option (InodeId × List UInt8)) :=
  namex cwd path true

end FileSystem

end Xv6pp
