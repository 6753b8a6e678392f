import Xv6pp.Buffer.BufM

/-!
# The log of `kernel/file_system_log.cpp`

A transaction is the set of blocks whose numbers are in the in-memory `LogHeader`.  `commit` copies
their cached contents to the log area, writes the header, installs the blocks at their home
locations and erases the header again; `recoverFromLog` repeats the installation after a crash.
The routines here are the source's, in its order of reads, writes and releases, as programs over
the buffer cache; the three routines that only run under the log's spin lock (`logWrite`,
`beginOp`, `endOp`) are functions on the log itself.

On the disk the header is a `struct log_header` at the front of the log's first block: the count
`n` in the first four bytes and the block numbers after it.
-/

set_option autoImplicit false

namespace Xv6pp

open BufM

/-- `file_system_log::log_header`.  The array has `LOGSIZE` elements; the functions below stop with
`Panic.outOfBounds` at a store beyond it. -/
structure LogHeader where
  /-- The number of blocks in the transaction. -/
  n : Nat
  /-- Their block numbers. -/
  block : Nat → Nat

/-- The block numbers of the transaction. -/
def LogHeader.blocks (h : LogHeader) : List Nat := (List.range h.n).map h.block

/-- The header with one more block. -/
def LogHeader.push (h : LogHeader) (b : Nat) : LogHeader :=
  ⟨h.n + 1, Function.update h.block h.n b⟩

/-- The fields of `file_system_log`. -/
structure Log where
  /-- The first block of the log area. -/
  start : Nat
  /-- The number of blocks of the log area. -/
  size : Nat
  /-- How many file-system operations are executing. -/
  outstanding : Int
  /-- Whether `commit` is running. -/
  committing : Bool
  /-- The current transaction. -/
  header : LogHeader

namespace Log

/-! ## The on-disk header -/

/-- `lh->n`.  The code only uses it as a loop bound, where a negative count is the same as none. -/
def diskN (hb : Block) : Nat := (toInt (hb.u32 0)).toNat

/-- `lh->block[i]`. -/
def diskBlock (hb : Block) (i : Nat) : Nat := hb.u32 (4 + 4 * i)

/-- The header block with `hb->n` and `hb->block[0..n)` overwritten by the in-memory header. -/
def putHeader (h : LogHeader) (hb : Block) : Block :=
  (List.range h.n).foldl (fun hb i => hb.setU32 (4 + 4 * i) (h.block i)) (hb.setU32 0 h.n)

/-! ## Commit and recovery -/

/-- `file_system_log::write_log`: copy the modified blocks from the cache to the log. -/
def writeLog (l : Log) : BufM Unit :=
  (List.range l.header.n).forM fun tail => do
    let _to ← bread (l.start + tail + 1)
    let from' ← bread (l.header.block tail)
    bstore (l.start + tail + 1) from'
    bwrite (l.start + tail + 1)
    brelse (l.header.block tail)
    brelse (l.start + tail + 1)

/-- `file_system_log::write_head`: the write that commits, or erases, the transaction. -/
def writeHead (l : Log) : BufM Unit := do
  let buf ← bread l.start
  bstore l.start (putHeader l.header buf)
  bwrite l.start
  brelse l.start

/-- `file_system_log::install_trans`: copy the logged blocks to their home locations. -/
def installTrans (l : Log) (recovering : Bool) : BufM Unit :=
  (List.range l.header.n).forM fun tail => do
    let lbuf ← bread (l.start + tail + 1)
    let _dbuf ← bread (l.header.block tail)
    bstore (l.header.block tail) lbuf
    bwrite (l.header.block tail)
    if !recovering then
      bunpin (l.header.block tail)
    brelse (l.header.block tail)
    brelse (l.start + tail + 1)

/-- `file_system_log::read_head`. -/
def readHead (l : Log) : BufM Log := do
  let buf ← bread l.start
  -- the loop stores `header.block[i]` for every `i < n`, whatever `n` the disk holds
  if LOGSIZE < diskN buf then
    panic .outOfBounds
  else
    brelse l.start
    return { l with header := ⟨diskN buf, diskBlock buf⟩ }

/-- `header.n = 0`. -/
def clear (l : Log) : Log := { l with header := { l.header with n := 0 } }

/-- `file_system_log::recover_from_log`. -/
def recoverFromLog (l : Log) : BufM Log := do
  let l ← readHead l
  installTrans l true
  writeHead l.clear
  return l.clear

/-- `file_system_log::commit`. -/
def commit (l : Log) : BufM Log := do
  if 0 < l.header.n then
    writeLog l
    writeHead l
    installTrans l false
    writeHead l.clear
    return l.clear
  else
    return l

/-! ## The critical sections -/

/-- The index at which `log_write`'s search for `b` stops: the first `i < n` with
`header.block[i] == b`, or `n`. -/
def absorb (h : LogHeader) (b : Nat) : Nat := (List.range h.n).findIdx fun i => h.block i == b

/-- `file_system_log::log_write` under the log's lock.  The `Bool` says whether the buffer was
pinned. -/
def logWrite (l : Log) (b : Nat) : Except Panic (Log × Bool) :=
  if LOGSIZE ≤ l.header.n ∨ l.size - 1 ≤ l.header.n then
    .error .tooBigTransaction
  else if l.outstanding < 1 then
    .error .logWriteOutsideOfTrans
  else
    let i := absorb l.header b
    if LOGSIZE ≤ i then
      .error .outOfBounds
    else
      let block := Function.update l.header.block i b
      if i = l.header.n then
        .ok ({ l with header := ⟨l.header.n + 1, block⟩ }, true)
      else
        .ok ({ l with header := ⟨l.header.n, block⟩ }, false)

/-- One pass through the loop of `file_system_log::begin_op`: `none` when the caller goes to
sleep. -/
def beginOp (l : Log) : Option Log :=
  if l.committing then
    none
  else if (l.header.n : Int) + (l.outstanding + 1) * MAXOPBLOCKS > LOGSIZE then
    none
  else
    some { l with outstanding := l.outstanding + 1 }

/-- The first critical section of `file_system_log::end_op`.  The `Bool` is `do_commit`. -/
def endOp (l : Log) : Except Panic (Log × Bool) :=
  let l := { l with outstanding := l.outstanding - 1 }
  if l.committing then
    .error .committing
  else if l.outstanding = 0 then
    .ok ({ l with committing := true }, true)
  else
    .ok (l, false)

/-- The last critical section of `file_system_log::end_op`, after `commit` has returned. -/
def endCommit (l : Log) : Log := { l with committing := false }

/-! ## What the critical sections do -/

theorem mem_blocks {h : LogHeader} {b : Nat} : b ∈ h.blocks ↔ ∃ i < h.n, h.block i = b := by
  simp [LogHeader.blocks]

@[simp] theorem length_blocks (h : LogHeader) : h.blocks.length = h.n := by
  simp [LogHeader.blocks]

theorem absorb_le (h : LogHeader) (b : Nat) : absorb h b ≤ h.n := by
  have hle : (List.range h.n).findIdx (fun i => h.block i == b) ≤ (List.range h.n).length :=
    List.findIdx_le_length
  rwa [List.length_range] at hle

/-- The search stops inside the header at a block that is there. -/
theorem block_absorb {h : LogHeader} {b : Nat} (hlt : absorb h b < h.n) :
    h.block (absorb h b) = b := by
  have hlt' : (List.range h.n).findIdx (fun i => h.block i == b) < (List.range h.n).length := by
    rwa [List.length_range]
  simpa [absorb] using List.findIdx_getElem (w := hlt')

/-- The search stops at the end exactly when the block is not in the header. -/
theorem absorb_eq_iff {h : LogHeader} {b : Nat} : absorb h b = h.n ↔ b ∉ h.blocks := by
  have hlen : (List.range h.n).findIdx (fun i => h.block i == b) = (List.range h.n).length ↔
      ∀ i ∈ List.range h.n, (h.block i == b) = false := List.findIdx_eq_length
  rw [List.length_range] at hlen
  rw [absorb, hlen, mem_blocks]
  constructor
  · rintro hall ⟨i, hi, rfl⟩
    simpa using hall i (List.mem_range.2 hi)
  · intro hno i hi
    simpa using fun hib => hno ⟨i, List.mem_range.1 hi, hib⟩

theorem blocks_push (h : LogHeader) (b : Nat) :
    (h.push b).blocks = h.blocks ++ [b] := by
  rw [LogHeader.blocks, LogHeader.push, List.range_succ, List.map_append]
  simp only [List.map_cons, List.map_nil, Function.update_self, LogHeader.blocks]
  congr 1
  refine List.map_congr_left fun i hi => ?_
  exact Function.update_of_ne (List.mem_range.1 hi).ne _ _

/-- **`log_write`, case by case.**  It panics when the header is full — a test made before it looks
for the block — or when no operation is outstanding; otherwise it absorbs a block that is already
logged, and appends and pins one that is not. -/
theorem logWrite_eq (l : Log) (b : Nat) :
    l.logWrite b =
      if LOGSIZE ≤ l.header.n ∨ l.size - 1 ≤ l.header.n then .error .tooBigTransaction
      else if l.outstanding < 1 then .error .logWriteOutsideOfTrans
      else if b ∈ l.header.blocks then .ok (l, false)
      else .ok ({ l with header := l.header.push b }, true) := by
  rw [logWrite]
  split
  · rfl
  next hfull =>
  split
  · rfl
  have hle := absorb_le l.header b
  have hbound : ¬ LOGSIZE ≤ absorb l.header b := by omega
  simp only [if_neg hbound]
  by_cases hmem : b ∈ l.header.blocks
  · have hne : absorb l.header b ≠ l.header.n := fun h => absorb_eq_iff.1 h hmem
    have hself : Function.update l.header.block (absorb l.header b) b = l.header.block := by
      have hb := block_absorb (h := l.header) (b := b) (by omega)
      conv_lhs => rw [← hb]
      rw [hb]
      exact Function.update_eq_self_iff.2 hb.symm
    rw [if_neg hne, if_pos hmem, hself]
  · have heq : absorb l.header b = l.header.n := absorb_eq_iff.2 hmem
    rw [if_pos heq, if_neg hmem, heq]
    rfl

theorem beginOp_eq_some {l l' : Log} : l.beginOp = some l' ↔ l.committing = false ∧
    (l.header.n : Int) + (l.outstanding + 1) * MAXOPBLOCKS ≤ LOGSIZE ∧
    l' = { l with outstanding := l.outstanding + 1 } := by
  rw [beginOp]
  by_cases hc : l.committing = true
  · simp [hc]
  · rw [if_neg hc]
    by_cases hr : (l.header.n : Int) + (l.outstanding + 1) * MAXOPBLOCKS > LOGSIZE
    · simp [hr, not_le.2 hr]
    · simp [hr, not_lt.1 hr, hc, eq_comm]

end Log

end Xv6pp
