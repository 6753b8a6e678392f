import Xv6pp.Log.FileSystemLog
import Mathlib.Tactic.Ring

/-!
# Crash atomicity of the log

The disk is an array of blocks, and every `buffer_cache::write` is one atomic write of one block.
A crash in the middle of a program leaves the disk after a prefix of the writes the program issues;
the cache is lost, so recovery starts from what the disk holds.

`commit_crash_atomic` is the result: wherever `commit` is cut, and however often the recovery after
it is cut as well, one complete recovery leaves either all the blocks of the transaction as they
were or all of them new.  The proof is a simulation.  `Phase` names the three situations the disk
can be in — the header not yet written, the header written and the installation under way, the
header erased again — and `Sim` says what each of them means; every write of `commit` and of
`recoverFromLog` keeps the disk in some phase and never goes back to an earlier one.
-/

set_option autoImplicit false

namespace Xv6pp

open BufM

/-! ## Loops over the buffer cache -/

/-- The rule for a loop over `0, …, n - 1` whose every pass succeeds. -/
theorem BufM.exec_forM_range' {f : Nat → BufM Unit} (st : Nat → Device) (n s : Nat)
    (h : ∀ i, s ≤ i → i < s + n → (f i).exec (st i) = .ok ((), st (i + 1))) :
    ((List.range' s n).forM f).exec (st s) = .ok ((), st (s + n)) := by
  induction n generalizing s with
  | zero => rfl
  | succ n ih =>
    rw [List.range'_succ]
    show (f s >>= fun _ => (List.range' (s + 1) n).forM f).exec (st s) = _
    rw [exec_bind_ok (h s le_rfl (by omega)),
      ih (s + 1) fun i h1 h2 => h i (by omega) (by omega), Nat.add_right_comm, Nat.add_assoc]

/-- The writes of a loop that copies block `src t` to block `dst t` for each `t < n`. -/
def copies (dst src : Nat → Nat) (data : Nat → Block) (n : Nat) : List (Nat × Block) :=
  (List.range n).map fun t => (dst t, data (src t))

theorem mem_copies {dst src : Nat → Nat} {data : Nat → Block} {n : Nat} {w : Nat × Block} :
    w ∈ copies dst src data n ↔ ∃ t < n, w = (dst t, data (src t)) := by
  simp only [copies, List.mem_map, List.mem_range]
  exact ⟨fun ⟨t, ht, h⟩ => ⟨t, ht, h.symm⟩, fun ⟨t, ht, h⟩ => ⟨t, ht, h.symm⟩⟩

theorem copies_succ (dst src : Nat → Nat) (data : Nat → Block) (n : Nat) :
    copies dst src data (n + 1) = copies dst src data n ++ [(dst n, data (src n))] := by
  simp [copies, List.range_succ]

@[simp] theorem length_copies (dst src : Nat → Nat) (data : Nat → Block) (n : Nat) :
    (copies dst src data n).length = n := by simp [copies]

/-- A loop that copies blocks, none of them onto a block still to be copied, issues the copies of
the original contents. -/
theorem BufM.exec_copies {f : Nat → BufM Unit} {dst src : Nat → Nat} {n : Nat}
    (hf : ∀ t s, (f t).exec s = .ok ((), ⟨Function.update s.data (dst t) (s.data (src t)),
      s.issued ++ [(dst t, s.data (src t))]⟩))
    (hd : ∀ i j, i < n → j < n → dst i ≠ src j) (s : Device) :
    ((List.range n).forM f).exec s
      = .ok ((), ⟨Writes.perform (copies dst src s.data n) s.data,
        s.issued ++ copies dst src s.data n⟩) := by
  have hstep := exec_forM_range' (f := f)
    (fun i => ⟨Writes.perform (copies dst src s.data i) s.data,
      s.issued ++ copies dst src s.data i⟩) n 0 fun i _ hi => ?_
  · rw [List.range_eq_range']
    simpa [copies] using hstep
  · -- the block read in pass `i` has not been overwritten by the passes before
    have hsrc : Writes.perform (copies dst src s.data i) s.data (src i) = s.data (src i) := by
      refine Writes.perform_of_not_mem fun w hw => ?_
      obtain ⟨t, ht, rfl⟩ := mem_copies.1 hw
      exact hd t i (by omega) (by omega)
    rw [hf, copies_succ, Writes.perform_append]
    simp only [hsrc, List.append_assoc]
    rfl

namespace Log

/-! ## The header block -/

/-- `lh->n` as the C `int` it is. -/
def headerCount (hb : Block) : Int := toInt (hb.u32 0)

theorem diskN_eq (hb : Block) : diskN hb = (headerCount hb).toNat := rfl

theorem u32_zero_foldl (h : LogHeader) (hb : Block) (m : Nat) :
    ((List.range m).foldl (fun hb i => hb.setU32 (4 + 4 * i) (h.block i)) hb).u32 0
      = hb.u32 0 := by
  induction m with
  | zero => rfl
  | succ m ih =>
    rw [List.range_succ, List.foldl_append, List.foldl_cons, List.foldl_nil,
      Bytes.u32_setU32_disjoint (Or.inl (by omega)), ih]

theorem headerCount_putHeader {h : LogHeader} (hn : h.n ≤ LOGSIZE) (hb : Block) :
    headerCount (putHeader h hb) = h.n := by
  have hlt : h.n < 2 ^ 31 := lt_of_le_of_lt hn (by decide)
  rw [headerCount, putHeader, u32_zero_foldl,
    Bytes.u32_setU32_same (by decide) (by omega), toInt, if_pos hlt]

theorem diskN_putHeader {h : LogHeader} (hn : h.n ≤ LOGSIZE) (hb : Block) :
    diskN (putHeader h hb) = h.n := by
  rw [diskN_eq, headerCount_putHeader hn, Int.toNat_natCast]

theorem diskBlock_foldl {h : LogHeader} {m i : Nat} (hi : i < m) (hm : m ≤ LOGSIZE)
    (h32 : h.block i < 2 ^ 32) (hb : Block) :
    diskBlock ((List.range m).foldl (fun hb i => hb.setU32 (4 + 4 * i) (h.block i)) hb) i
      = h.block i := by
  induction m with
  | zero => omega
  | succ m ih =>
    have hbs : 4 + 4 * m + 4 ≤ BSIZE := by
      have h1 : LOGSIZE = 30 := rfl
      have h2 : BSIZE = 1024 := rfl
      omega
    rw [List.range_succ, List.foldl_append, List.foldl_cons, List.foldl_nil, diskBlock]
    by_cases him : i = m
    · subst him
      exact Bytes.u32_setU32_same hbs h32
    · rw [Bytes.u32_setU32_disjoint (Or.inl (by omega))]
      exact ih (by omega) (by omega)

theorem diskBlock_putHeader {h : LogHeader} {i : Nat} (hi : i < h.n) (hn : h.n ≤ LOGSIZE)
    (h32 : h.block i < 2 ^ 32) (hb : Block) : diskBlock (putHeader h hb) i = h.block i :=
  diskBlock_foldl hi hn h32 _

theorem putHeader_zero (block : Nat → Nat) (hb : Block) :
    putHeader ⟨0, block⟩ hb = hb.setU32 0 0 := rfl

theorem headerCount_erased (hb : Block) : headerCount (hb.setU32 0 0) = 0 := by
  rw [headerCount, Bytes.u32_setU32_same (by decide) (by decide)]
  rfl

/-- Erasing an erased header changes nothing. -/
theorem erase_erase (hb : Block) : (hb.setU32 0 0).setU32 0 0 = hb.setU32 0 0 := by
  have h := Bytes.setU32_u32 (hb.setU32 0 0) 0
  rwa [Bytes.u32_setU32_same (by decide) (by decide)] at h

/-! ## What the routines write -/

variable {l : Log}

/-- Block `b` lies in the log area of the superblock's layout. -/
def InArea (l : Log) (b : Nat) : Prop := l.start ≤ b ∧ b < l.start + l.size

instance (l : Log) (b : Nat) : Decidable (l.InArea b) := inferInstanceAs (Decidable (_ ∧ _))

/-- What `log_write` guarantees of the header that `commit` finds: it fits both into the array and,
with the header block, into the log area, and its blocks are distinct and outside the log area. -/
structure Committable (l : Log) : Prop where
  /-- The array of block numbers is not exceeded. -/
  le_logsize : l.header.n ≤ LOGSIZE
  /-- Neither is the log area. -/
  lt_size : l.header.n < l.size
  /-- No block is logged twice. -/
  inj : ∀ i j, i < l.header.n → j < l.header.n → l.header.block i = l.header.block j → i = j
  /-- No logged block lies in the log area. -/
  home : ∀ i, i < l.header.n → ¬ l.InArea (l.header.block i)
  /-- Block numbers are 32-bit. -/
  word : ∀ i, i < l.header.n → l.header.block i < 2 ^ 32

theorem Committable.ne_slot (hc : l.Committable) {i j : Nat} (hi : i < l.header.n)
    (hj : j < l.header.n) : l.header.block i ≠ l.start + j + 1 := by
  have h1 := hc.home i hi
  have h2 := hc.lt_size
  simp only [InArea, not_and, not_lt] at h1
  omega

theorem Committable.ne_start (hc : l.Committable) {i : Nat} (hi : i < l.header.n) :
    l.header.block i ≠ l.start := by
  have h1 := hc.home i hi
  have h2 := hc.lt_size
  simp only [InArea, not_and, not_lt] at h1
  omega

/-- An empty transaction is committable. -/
theorem committable_of_n_eq_zero (hn : l.header.n = 0) (hsize : 0 < l.size) : l.Committable where
  le_logsize := by rw [hn]; exact Nat.zero_le _
  lt_size := by rw [hn]; exact hsize
  inj i j hi := by omega
  home i hi := by omega
  word i hi := by omega

/-- **`log_write` keeps the header committable**: this is where the two bounds of `Committable` come
from. -/
theorem Committable.logWrite (hc : l.Committable) {b : Nat} {pinned : Bool} {l' : Log}
    (hb : ¬ l.InArea b) (hw : b < 2 ^ 32) (h : l.logWrite b = .ok (l', pinned)) :
    l'.Committable := by
  rw [logWrite_eq] at h
  split at h
  · cases h
  next hfull =>
  split at h
  · cases h
  split at h
  · cases h
    exact hc
  next hmem =>
  cases h
  have hold : ∀ i, i < l.header.n → (l.header.push b).block i = l.header.block i :=
    fun i hi => Function.update_of_ne hi.ne _ _
  have hnew : (l.header.push b).block l.header.n = b := Function.update_self ..
  have hne : ∀ i, i < l.header.n → l.header.block i ≠ b :=
    fun i hi h => hmem (mem_blocks.2 ⟨i, hi, h⟩)
  have hcase : ∀ {i}, i < l.header.n + 1 → i < l.header.n ∨ i = l.header.n := by omega
  refine ⟨?_, ?_, ?_, ?_, ?_⟩
  · show l.header.n + 1 ≤ LOGSIZE; omega
  · show l.header.n + 1 < l.size; omega
  · intro i j hi hj hij
    rcases hcase hi with hi | rfl <;> rcases hcase hj with hj | rfl
    · exact hc.inj i j hi hj (by rwa [hold i hi, hold j hj] at hij)
    · exact absurd (by rwa [hold i hi, hnew] at hij) (hne i hi)
    · exact absurd (by rw [hold j hj, hnew] at hij; exact hij.symm) (hne j hj)
    · rfl
  · intro i hi
    rcases hcase hi with hi | rfl
    · show ¬ l.InArea ((l.header.push b).block i)
      rw [hold i hi]; exact hc.home i hi
    · show ¬ l.InArea ((l.header.push b).block l.header.n)
      rw [hnew]; exact hb
  · intro i hi
    rcases hcase hi with hi | rfl
    · show (l.header.push b).block i < _
      rw [hold i hi]; exact hc.word i hi
    · show (l.header.push b).block l.header.n < _
      rw [hnew]; exact hw

/-- The writes of `write_log`. -/
def logCopies (l : Log) (data : Nat → Block) : List (Nat × Block) :=
  copies (fun t => l.start + t + 1) l.header.block data l.header.n

/-- The writes of `install_trans`. -/
def homeCopies (l : Log) (data : Nat → Block) : List (Nat × Block) :=
  copies l.header.block (fun t => l.start + t + 1) data l.header.n

theorem exec_writeLog (hc : l.Committable) (s : Device) :
    (writeLog l).exec s = .ok ((), ⟨Writes.perform (l.logCopies s.data) s.data,
      s.issued ++ l.logCopies s.data⟩) := by
  refine exec_copies (fun t s => ?_) (fun i j hi hj => (hc.ne_slot hj hi).symm) s
  simp [exec_bind, Except.bind]

theorem exec_installTrans (hc : l.Committable) (recovering : Bool) (s : Device) :
    (installTrans l recovering).exec s = .ok ((), ⟨Writes.perform (l.homeCopies s.data) s.data,
      s.issued ++ l.homeCopies s.data⟩) := by
  refine exec_copies (fun t s => ?_) (fun i j hi hj => hc.ne_slot hi hj) s
  cases recovering <;> simp [exec_bind, Except.bind]

theorem exec_writeHead (l : Log) (s : Device) :
    (writeHead l).exec s = .ok ((), ⟨Function.update s.data l.start
        (putHeader l.header (s.data l.start)),
      s.issued ++ [(l.start, putHeader l.header (s.data l.start))]⟩) := by
  simp [writeHead, exec_bind, Except.bind]

/-- The writes a program issues, run over a cache that holds `data`. -/
def issuedBy {α : Type} (p : BufM α) (data : Nat → Block) : List (Nat × Block) :=
  match p.exec ⟨data, []⟩ with
  | .ok (_, s) => s.issued
  | .error _ => []

/-- The header block `commit` writes first. -/
def headBlock (l : Log) (data : Nat → Block) : Block := putHeader l.header (data l.start)

/-- The home writes of `commit`: by the time they are issued the log holds the cached contents. -/
def finalCopies (l : Log) (data : Nat → Block) : List (Nat × Block) :=
  copies l.header.block l.header.block data l.header.n

theorem logCopies_slot (data : Nat → Block) {t : Nat} (ht : t < l.header.n) :
    Writes.perform (l.logCopies data) data (l.start + t + 1) = data (l.header.block t) :=
  Writes.perform_range_map (fun t => l.start + t + 1) ht (fun i j _ _ h => by
    simpa using h) data

theorem logCopies_start (l : Log) (data d : Nat → Block) :
    Writes.perform (l.logCopies data) d l.start = d l.start := by
  refine Writes.perform_of_not_mem fun w hw => ?_
  obtain ⟨t, -, rfl⟩ := mem_copies.1 hw
  show l.start + t + 1 ≠ l.start
  omega

theorem homeCopies_congr {data data' : Nat → Block}
    (h : ∀ t < l.header.n, data (l.start + t + 1) = data' (l.header.block t)) :
    l.homeCopies data = l.finalCopies data' := by
  refine List.map_congr_left fun t ht => ?_
  rw [h t (List.mem_range.1 ht)]

/-- **The writes of `commit`, in order**: the log blocks, the header, the home blocks and the erased
header. -/
theorem issuedBy_commit (hc : l.Committable) (hn : 0 < l.header.n) (data : Nat → Block) :
    issuedBy (commit l) data = l.logCopies data ++ (l.start, l.headBlock data)
      :: (l.finalCopies data ++ [(l.start, (l.headBlock data).setU32 0 0)]) := by
  have hhome : l.homeCopies (Function.update (Writes.perform (l.logCopies data) data) l.start
      (l.headBlock data)) = l.finalCopies data := by
    refine homeCopies_congr fun t ht => ?_
    rw [Function.update_of_ne (by omega), logCopies_slot data ht]
  have hstart : Writes.perform (l.finalCopies data)
      (Function.update (Writes.perform (l.logCopies data) data) l.start (l.headBlock data)) l.start
        = l.headBlock data := by
    rw [Writes.perform_of_not_mem, Function.update_self]
    intro w hw
    obtain ⟨t, ht, rfl⟩ := mem_copies.1 hw
    exact hc.ne_start ht
  have hhead : putHeader l.header (Writes.perform (l.logCopies data) data l.start)
      = l.headBlock data := by rw [logCopies_start, headBlock]
  rw [issuedBy, commit, if_pos hn, exec_bind_ok (exec_writeLog hc _),
    exec_bind_ok (exec_writeHead l _), exec_bind_ok (exec_installTrans hc false _),
    exec_bind_ok (exec_writeHead l.clear _)]
  simp only [exec_pure]
  rw [hhead, hhome]
  simp only [clear, putHeader_zero, hstart, List.nil_append, List.append_assoc,
    List.singleton_append]
  rfl

theorem issuedBy_commit_nil (hn : l.header.n = 0) (data : Nat → Block) :
    issuedBy (commit l) data = [] := by
  rw [issuedBy, commit, if_neg (by omega)]
  rfl

/-- The log as recovery reads it from the disk `d`. -/
def reload (l : Log) (d : Nat → Block) : Log :=
  { l with header := ⟨diskN (d l.start), diskBlock (d l.start)⟩ }

/-- **The writes of `recover_from_log`**: the home blocks and the erased header. -/
theorem issuedBy_recover {d : Nat → Block} (hc : (l.reload d).Committable) :
    issuedBy (recoverFromLog l) d
      = (l.reload d).homeCopies d ++ [(l.start, (d l.start).setU32 0 0)] := by
  have hstart : Writes.perform ((l.reload d).homeCopies d) d l.start = d l.start := by
    refine Writes.perform_of_not_mem fun w hw => ?_
    obtain ⟨t, ht, rfl⟩ := mem_copies.1 hw
    exact hc.ne_start ht
  have hread : (readHead l).exec ⟨d, []⟩ = .ok (l.reload d, ⟨d, []⟩) := by
    have hle : ¬ LOGSIZE < diskN (d l.start) := not_lt.2 hc.le_logsize
    simp [readHead, exec_bind, Except.bind, hle, reload]
  rw [issuedBy, recoverFromLog, exec_bind_ok hread, exec_bind_ok (exec_installTrans hc true _),
    exec_bind_ok (exec_writeHead _ _)]
  simp only [exec_pure]
  show [] ++ (l.reload d).homeCopies d ++ [(l.start, putHeader ⟨0, _⟩ _)] = _
  rw [putHeader_zero, List.nil_append]
  show _ ++ [(l.start, (Writes.perform ((l.reload d).homeCopies d) d l.start).setU32 0 0)] = _
  rw [hstart]

/-! ## Crashes -/

/-- The disk after a crash during `commit`, when `k` of its writes had reached the disk. -/
def crashCommit (l : Log) (data disk : Nat → Block) (k : Nat) : Nat → Block :=
  Writes.perform ((issuedBy (commit l) data).take k) disk

/-- The disk after the machine restarted from `d` and crashed again during recovery, when `k` of
its writes had reached the disk. -/
def crashRecover (l : Log) (d : Nat → Block) (k : Nat) : Nat → Block :=
  Writes.perform ((issuedBy (recoverFromLog l) d).take k) d

/-- The disk after a complete recovery from `d`. -/
def recover (l : Log) (d : Nat → Block) : Nat → Block :=
  Writes.perform (issuedBy (recoverFromLog l) d) d

/-- The contents of the disk once the transaction has happened: the cached contents of the logged
blocks, and the old contents elsewhere. -/
def newContents (l : Log) (data disk : Nat → Block) : Nat → Block :=
  fun b => if b ∈ l.header.blocks then data b else disk b

/-- The three situations a disk can be in between the beginning of a commit and the end of the last
recovery. -/
inductive Phase
  /-- The header has not been written. -/
  | before
  /-- The header is on the disk; some of the home blocks are installed. -/
  | committed
  /-- The home blocks are installed and the header is erased. -/
  | after
  deriving DecidableEq

/-- What the disk `d` looks like in each phase of the transaction of `l`, whose cached contents are
`data` and which started from `disk`. -/
def Sim (l : Log) (data disk : Nat → Block) : Phase → (Nat → Block) → Prop
  | .before, d => headerCount (d l.start) = 0 ∧ ∀ b, ¬ l.InArea b → d b = disk b
  | .committed, d => diskN (d l.start) = l.header.n ∧
      (∀ i < l.header.n, diskBlock (d l.start) i = l.header.block i) ∧
      (∀ i < l.header.n, d (l.start + i + 1) = data (l.header.block i)) ∧
      ∀ b, ¬ l.InArea b → b ∉ l.header.blocks → d b = disk b
  | .after, d => headerCount (d l.start) = 0 ∧
      ∀ b, ¬ l.InArea b → d b = l.newContents data disk b

theorem inArea_start (hc : l.Committable) : l.InArea l.start := by
  have := hc.lt_size
  exact ⟨le_rfl, by omega⟩

theorem ne_start_of_not_inArea (hc : l.Committable) {b : Nat} (hb : ¬ l.InArea b) :
    b ≠ l.start := by
  rintro rfl
  exact hb (inArea_start hc)

theorem inArea_slot (hc : l.Committable) {i : Nat} (hi : i < l.header.n) :
    l.InArea (l.start + i + 1) := by
  have := hc.lt_size
  exact ⟨by omega, by omega⟩

/-- A disk with an erased header makes recovery reload an empty transaction. -/
theorem committable_reload_zero (hc : l.Committable) {d : Nat → Block}
    (h0 : headerCount (d l.start) = 0) : (l.reload d).Committable := by
  have hn : (l.reload d).header.n = 0 := by
    show diskN (d l.start) = 0
    rw [diskN_eq, h0]; rfl
  exact committable_of_n_eq_zero hn (Nat.zero_lt_of_lt hc.lt_size)

/-- Recovery of a disk with an erased header only erases the header again. -/
theorem issuedBy_recover_zero (hc : l.Committable) {d : Nat → Block}
    (h0 : headerCount (d l.start) = 0) :
    issuedBy (recoverFromLog l) d = [(l.start, (d l.start).setU32 0 0)] := by
  have hn : (l.reload d).header.n = 0 := by
    show diskN (d l.start) = 0
    rw [diskN_eq, h0]; rfl
  rw [issuedBy_recover (committable_reload_zero hc h0), homeCopies, hn]
  rfl

/-- Erasing an erased header is invisible: outside the log area nothing changes, and the header
stays erased. -/
theorem crashRecover_zero (hc : l.Committable) {d : Nat → Block}
    (h0 : headerCount (d l.start) = 0) (k : Nat) :
    headerCount (crashRecover l d k l.start) = 0 ∧
      ∀ b, ¬ l.InArea b → crashRecover l d k b = d b := by
  rw [crashRecover, issuedBy_recover_zero hc h0]
  rcases k with _ | k
  · exact ⟨h0, fun b _ => rfl⟩
  · simp only [List.take_succ_cons, List.take_nil, Writes.perform_cons, Writes.perform_nil]
    refine ⟨by rw [Function.update_self]; exact headerCount_erased _, fun b hb => ?_⟩
    exact Function.update_of_ne (ne_start_of_not_inArea hc hb) _ _

/-- After the header has been written, recovery reloads the transaction of `l`. -/
theorem Sim.reload_committable (hc : l.Committable) {data disk d : Nat → Block}
    (h : Sim l data disk .committed d) : (l.reload d).Committable := by
  obtain ⟨hn, hb, -, -⟩ := h
  have hn' : (l.reload d).header.n = l.header.n := hn
  have hb' : ∀ i, i < l.header.n → (l.reload d).header.block i = l.header.block i := hb
  refine ⟨hn' ▸ hc.le_logsize, hn' ▸ hc.lt_size, ?_, ?_, ?_⟩
  · intro i j hi hj
    rw [hn'] at hi hj
    rw [hb' i hi, hb' j hj]
    exact hc.inj i j hi hj
  · intro i hi
    rw [hn'] at hi
    rw [hb' i hi]
    exact hc.home i hi
  · intro i hi
    rw [hn'] at hi
    rw [hb' i hi]
    exact hc.word i hi

/-- After the header has been written, recovery repeats the home writes of `commit`. -/
theorem Sim.issuedBy_recover (hc : l.Committable) {data disk d : Nat → Block}
    (h : Sim l data disk .committed d) :
    issuedBy (recoverFromLog l) d
      = l.finalCopies data ++ [(l.start, (d l.start).setU32 0 0)] := by
  rw [Log.issuedBy_recover (Sim.reload_committable hc h)]
  obtain ⟨hn, hb, hs, -⟩ := h
  have hhome : (l.reload d).homeCopies d = l.finalCopies data := by
    rw [homeCopies, show (l.reload d).header.n = l.header.n from hn]
    refine List.map_congr_left fun t ht => ?_
    have ht := List.mem_range.1 ht
    exact Prod.ext (hb t ht) (hs t ht)
  rw [hhome]

/-- Home writes keep the disk in the committed phase. -/
theorem Sim.perform_home (hc : l.Committable) {data disk d : Nat → Block}
    (h : Sim l data disk .committed d) {ws : List (Nat × Block)}
    (hws : ∀ w ∈ ws, w ∈ l.finalCopies data) : Sim l data disk .committed (Writes.perform ws d) := by
  have hloc : ∀ w ∈ ws, ∃ i < l.header.n, l.header.block i = w.1 := by
    intro w hw
    obtain ⟨t, ht, rfl⟩ := mem_copies.1 (hws w hw)
    exact ⟨t, ht, rfl⟩
  have hstart : Writes.perform ws d l.start = d l.start := by
    refine Writes.perform_of_not_mem fun w hw => ?_
    obtain ⟨i, hi, hiw⟩ := hloc w hw
    exact hiw ▸ hc.ne_start hi
  obtain ⟨hn, hb, hs, ho⟩ := h
  refine ⟨by rw [hstart]; exact hn, by rw [hstart]; exact hb, fun i hi => ?_, fun b hb1 hb2 => ?_⟩
  · rw [Writes.perform_of_not_mem, hs i hi]
    intro w hw
    obtain ⟨j, hj, hjw⟩ := hloc w hw
    exact hjw ▸ hc.ne_slot hj hi
  · rw [Writes.perform_of_not_mem, ho b hb1 hb2]
    intro w hw hwb
    exact hb2 (mem_blocks.2 (hwb ▸ hloc w hw))

/-- All home writes and the erased header end the transaction. -/
theorem Sim.erase (hc : l.Committable) {data disk d : Nat → Block}
    (h : Sim l data disk .committed d) (hb : Block) :
    Sim l data disk .after
      (Function.update (Writes.perform (l.finalCopies data) d) l.start (hb.setU32 0 0)) := by
  refine ⟨by rw [Function.update_self]; exact headerCount_erased _, fun b hb => ?_⟩
  rw [Function.update_of_ne (ne_start_of_not_inArea hc hb), newContents]
  split
  · next hmem =>
    obtain ⟨i, hi, rfl⟩ := mem_blocks.1 hmem
    exact Writes.perform_range_map l.header.block hi hc.inj d
  · next hmem =>
    exact (Sim.perform_home hc h fun w hw => hw).2.2.2 b hb hmem

/-- Cutting the home writes and the erasing of the header anywhere. -/
theorem Sim.perform_take (hc : l.Committable) {data disk d : Nat → Block}
    (h : Sim l data disk .committed d) (hb : Block) (k : Nat) :
    Sim l data disk .committed (Writes.perform
        ((l.finalCopies data ++ [(l.start, hb.setU32 0 0)]).take k) d) ∧ k ≤ l.header.n ∨
      Sim l data disk .after (Writes.perform
        ((l.finalCopies data ++ [(l.start, hb.setU32 0 0)]).take k) d) := by
  have hlen : (l.finalCopies data).length = l.header.n := length_copies ..
  rcases Nat.lt_or_ge l.header.n k with hk | hk
  · right
    rw [List.take_of_length_le (by simp [hlen]; omega), Writes.perform_append]
    exact Sim.erase hc h hb
  · left
    rw [List.take_append_of_le_length (by omega)]
    exact ⟨Sim.perform_home hc h fun w hw => List.mem_of_mem_take hw, hk⟩

/-- **One interrupted recovery.**  The disk stays in its phase, or goes from `committed` to
`after`. -/
theorem Sim.crashRecover (hc : l.Committable) {data disk d : Nat → Block} {ph : Phase}
    (h : Sim l data disk ph d) (k : Nat) :
    ∃ ph', Sim l data disk ph' (crashRecover l d k) ∧ (ph = .before ↔ ph' = .before) := by
  cases ph with
  | before =>
    obtain ⟨h0, hb⟩ := crashRecover_zero hc h.1 k
    exact ⟨.before, ⟨h0, fun b hb' => (hb b hb').trans (h.2 b hb')⟩, Iff.rfl⟩
  | committed =>
    rw [Log.crashRecover, Sim.issuedBy_recover hc h]
    rcases Sim.perform_take hc h _ k with ⟨h', -⟩ | h'
    · exact ⟨.committed, h', by simp⟩
    · exact ⟨.after, h', by simp⟩
  | after =>
    obtain ⟨h0, hb⟩ := crashRecover_zero hc h.1 k
    exact ⟨.after, ⟨h0, fun b hb' => (hb b hb').trans (h.2 b hb')⟩, Iff.rfl⟩

/-- Any number of interrupted recoveries. -/
theorem Sim.crashes (hc : l.Committable) {data disk : Nat → Block} (ks : List Nat) :
    ∀ {d : Nat → Block} {ph : Phase}, Sim l data disk ph d →
      ∃ ph', Sim l data disk ph' (ks.foldl (Log.crashRecover l) d) ∧
        (ph = .before ↔ ph' = .before) := by
  induction ks with
  | nil => exact fun {d ph} h => ⟨ph, h, Iff.rfl⟩
  | cons k ks ih =>
    intro d ph h
    obtain ⟨ph1, h1, e1⟩ := Sim.crashRecover hc h k
    obtain ⟨ph2, h2, e2⟩ := ih h1
    exact ⟨ph2, h2, e1.trans e2⟩

/-- **A complete recovery** ends in `before` or `after`, never in between, and leaves a header that
makes a further recovery write back what is there. -/
theorem Sim.recover (hc : l.Committable) {data disk d : Nat → Block} {ph : Phase}
    (h : Sim l data disk ph d) :
    Sim l data disk (if ph = .before then .before else .after) (recover l d) ∧
      Log.recover l (Log.recover l d) = Log.recover l d := by
  have herased : ∃ hb : Block, Log.recover l d l.start = hb.setU32 0 0 := by
    refine ⟨d l.start, ?_⟩
    cases ph with
    | before =>
      rw [Log.recover, issuedBy_recover_zero hc h.1]
      exact Function.update_self ..
    | committed =>
      rw [Log.recover, Sim.issuedBy_recover hc h, Writes.perform_append]
      exact Function.update_self ..
    | after =>
      rw [Log.recover, issuedBy_recover_zero hc h.1]
      exact Function.update_self ..
  refine ⟨?_, ?_⟩
  · have htake : Log.recover l d
        = Log.crashRecover l d (issuedBy (recoverFromLog l) d).length := by
      rw [Log.crashRecover, List.take_length, Log.recover]
    cases ph with
    | before =>
      obtain ⟨h0, hb⟩ := crashRecover_zero hc h.1 (issuedBy (recoverFromLog l) d).length
      rw [htake]
      exact ⟨h0, fun b hb' => (hb b hb').trans (h.2 b hb')⟩
    | committed =>
      rw [Log.recover, Sim.issuedBy_recover hc h, Writes.perform_append]
      exact Sim.erase hc h _
    | after =>
      obtain ⟨h0, hb⟩ := crashRecover_zero hc h.1 (issuedBy (recoverFromLog l) d).length
      rw [htake]
      exact ⟨h0, fun b hb' => (hb b hb').trans (h.2 b hb')⟩
  · obtain ⟨hb, he⟩ := herased
    have h0 : headerCount (Log.recover l d l.start) = 0 := by rw [he]; exact headerCount_erased _
    rw [Log.recover, issuedBy_recover_zero hc h0, he, erase_erase, Writes.perform_cons,
      Writes.perform_nil, ← he, Function.update_eq_self]

/-- **A crash during `commit`** leaves the disk in some phase, and past `before` exactly when the
first `write_head` had reached it. -/
theorem Sim.crashCommit (data : Nat → Block) (hc : l.Committable) {disk : Nat → Block}
    (h0 : headerCount (disk l.start) = 0) (k : Nat) :
    ∃ ph, Sim l data disk ph (crashCommit l data disk k) ∧
      (ph ≠ .before ↔ 0 < l.header.n ∧ l.header.n + 1 ≤ k) := by
  have hlog : ∀ ws : List (Nat × Block), (∀ w ∈ ws, w ∈ l.logCopies data) →
      ∀ b, ¬ l.InArea b → Writes.perform ws disk b = disk b := by
    intro ws hws b hb
    refine Writes.perform_of_not_mem fun w hw => ?_
    obtain ⟨t, ht, rfl⟩ := mem_copies.1 (hws w hw)
    exact fun h => hb (h ▸ inArea_slot hc ht)
  rcases Nat.eq_zero_or_pos l.header.n with hn | hn
  · rw [Log.crashCommit, issuedBy_commit_nil hn, List.take_nil]
    exact ⟨.before, ⟨h0, fun b _ => rfl⟩, by simp; omega⟩
  have hlen : (l.logCopies data).length = l.header.n := length_copies ..
  rw [Log.crashCommit, issuedBy_commit hc hn]
  rcases Nat.lt_or_ge l.header.n k with hk | hk
  · -- the header has been written: the disk has reached the committed phase
    obtain ⟨j, rfl⟩ : ∃ j, k = l.header.n + (j + 1) := ⟨k - l.header.n - 1, by omega⟩
    rw [List.take_append, List.take_of_length_le (by omega), hlen, Nat.add_sub_cancel_left,
      List.take_succ_cons, Writes.perform_append, Writes.perform_cons]
    have hcommitted : Sim l data disk .committed
        (Function.update (Writes.perform (l.logCopies data) disk) l.start (l.headBlock data)) := by
      refine ⟨?_, fun i hi => ?_, fun i hi => ?_, fun b hb _ => ?_⟩
      · rw [Function.update_self, headBlock, diskN_putHeader hc.le_logsize]
      · rw [Function.update_self, headBlock, diskBlock_putHeader hi hc.le_logsize (hc.word i hi)]
      · rw [Function.update_of_ne (by omega)]
        exact Writes.perform_range_map (fun t => l.start + t + 1) hi
          (fun i j _ _ h => by simpa using h) disk
      · rw [Function.update_of_ne (ne_start_of_not_inArea hc hb)]
        exact hlog _ (fun w hw => hw) b hb
    rcases Sim.perform_take hc hcommitted (l.headBlock data) j with ⟨h, -⟩ | h
    · exact ⟨.committed, h, by simp; omega⟩
    · exact ⟨.after, h, by simp; omega⟩
  · -- only log blocks have been written
    rw [List.take_append_of_le_length (by omega)]
    have hmem : ∀ w ∈ (l.logCopies data).take k, w ∈ l.logCopies data :=
      fun w hw => List.mem_of_mem_take hw
    refine ⟨.before, ⟨?_, hlog _ hmem⟩, by simp; omega⟩
    rw [Writes.perform_of_not_mem, h0]
    intro w hw
    obtain ⟨t, -, rfl⟩ := mem_copies.1 (hmem w hw)
    show l.start + t + 1 ≠ l.start
    omega

end Log

open Log in
/-- **Crash atomicity.**  Whatever `commit` was cut after (`k` writes) and however many recoveries
after that were cut (`ks`), a complete recovery leaves every block outside the log area as it was
before the transaction, or every one of them as it is after it; it is the latter whenever the first
`write_head` had reached the disk; and it leaves an erased header, so that recovering once more
changes nothing. -/
theorem commit_crash_atomic (l : Log) (hc : l.Committable) (data disk : Nat → Block)
    (h0 : headerCount (disk l.start) = 0) (k : Nat) (ks : List Nat) :
    let final := recover l (ks.foldl (crashRecover l) (crashCommit l data disk k))
    ((∀ b, ¬ l.InArea b → final b = disk b) ∨
      (∀ b, ¬ l.InArea b → final b = l.newContents data disk b)) ∧
    (0 < l.header.n → l.header.n + 1 ≤ k →
      ∀ b, ¬ l.InArea b → final b = l.newContents data disk b) ∧
    headerCount (final l.start) = 0 ∧
    recover l final = final := by
  intro final
  obtain ⟨ph, hph, hk⟩ := Sim.crashCommit data hc h0 k
  obtain ⟨ph', hph', hpp⟩ := Sim.crashes hc ks hph
  obtain ⟨hfin, hidem⟩ := Sim.recover hc hph'
  by_cases hb : ph' = .before
  · rw [if_pos hb] at hfin
    refine ⟨Or.inl hfin.2, fun hn hk' => ?_, hfin.1, hidem⟩
    exact absurd (hpp.2 hb) (hk.2 ⟨hn, hk'⟩)
  · rw [if_neg hb] at hfin
    exact ⟨Or.inr hfin.2, fun _ _ => hfin.2, hfin.1, hidem⟩

/-- A transaction of the two blocks 45 and 46 in the log area `mkfs` lays out. -/
def pairLog : Log := ⟨2, LOGSIZE, 0, true, ⟨2, fun i => 45 + i⟩⟩

theorem pairLog_committable : pairLog.Committable where
  le_logsize := by decide
  lt_size := by decide
  inj i j _ _ h := Nat.add_left_cancel h
  home i _ := by
    show ¬ (2 ≤ 45 + i ∧ 45 + i < 2 + 30)
    omega
  word i hi := by
    have hi : i < 2 := hi
    show 45 + i < 2 ^ 32
    omega

open Log in
/-- Cut after the header and one of the two home writes, and once more at the beginning of the
recovery: both blocks end up new. -/
theorem commit_crash_atomic_pair :
    pairLog.Committable ∧ headerCount (Bytes.zero BSIZE) = 0 ∧
    let final := recover pairLog (crashRecover pairLog
      (crashCommit pairLog (fun _ _ => 1) (fun _ => Bytes.zero BSIZE) 4) 0)
    final 45 = (fun _ => 1) ∧ final 46 = (fun _ => 1) ∧ headerCount (final 2) = 0 := by
  have h0 : headerCount (Bytes.zero BSIZE) = 0 := by decide
  have h := commit_crash_atomic pairLog pairLog_committable (fun _ _ => 1)
    (fun _ => Bytes.zero BSIZE) h0 4 [0]
  exact ⟨pairLog_committable, h0, h.2.1 (by decide) (by decide) 45 (by decide),
    h.2.1 (by decide) (by decide) 46 (by decide), h.2.2.1⟩

end Xv6pp
