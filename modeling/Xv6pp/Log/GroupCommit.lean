import Xv6pp.Log.FileSystemLog
import Xv6pp.Lib.Machine
import Mathlib.Data.Fintype.Card

/-!
# Group commit

Any number of processes use the log at the same time.  Each goes through `begin_op`, some number of
`log_write`s and `end_op`; the process whose `end_op` finds no other operation outstanding runs
`commit`, without holding the log's lock, and the blocks of all the operations that ended since the
last commit go to the disk together.

`LogUsers` is the state of this system: the log, and for each process its program counter.  A step is
one critical section under the log's lock, or one pass through a loop of `commit`, taken by one
process; the processes interleave in any order, and a process sleeping in `begin_op` may wake up at
any time, for a reason or for none.  Three fields are history: what each running operation has
logged, what the operations that ended since the last commit had logged, and the headers committed
so far, each with the operations it was meant to commit.  No step looks at them.
-/

set_option autoImplicit false

namespace Xv6pp

/-- Where a process is in its use of the log. -/
inductive LogPc
  /-- Outside any operation. -/
  | idle
  /-- In `begin_op`, about to test whether it may go on. -/
  | beginning
  /-- In `begin_op`, sleeping. -/
  | asleep
  /-- Between `begin_op` and `end_op`. -/
  | inOp
  /-- In `commit`, about to test `header.n > 0`. -/
  | commitStart
  /-- In `write_log`, about to copy block `tail`. -/
  | writeLog (tail : Nat)
  /-- About to write the header. -/
  | writeHead
  /-- In `install_trans`, about to install block `tail`. -/
  | install (tail : Nat)
  /-- About to set `header.n = 0`. -/
  | clear
  /-- About to write the erased header. -/
  | writeErased
  /-- `commit` has returned; about to reset `committing`. -/
  | endCommit
  deriving DecidableEq

/-- The three kinds of program points the invariant distinguishes. -/
inductive LogPc.Kind
  /-- Not in an operation. -/
  | outside
  /-- In an operation. -/
  | op
  /-- Between the two critical sections of an `end_op` that commits. -/
  | commit
  deriving DecidableEq

/-- The kind of a program point. -/
def LogPc.kind : LogPc → Kind
  | .idle | .beginning | .asleep => .outside
  | .inOp => .op
  | .commitStart | .writeLog _ | .writeHead | .install _ | .clear | .writeErased
  | .endCommit => .commit

/-- What a process can do. -/
inductive LogAct (ι : Type)
  /-- Call `begin_op`. -/
  | enter (p : ι)
  /-- One pass through the loop of `begin_op`. -/
  | test (p : ι)
  /-- Wake up in `begin_op`. -/
  | wake (p : ι)
  /-- `log_write` of a buffer of block `b`. -/
  | logWrite (p : ι) (b : Nat)
  /-- The first critical section of `end_op`. -/
  | endOp (p : ι)
  /-- The test of `commit`. -/
  | checkEmpty (p : ι)
  /-- One pass through the loop of `write_log`. -/
  | writeLog (p : ι)
  /-- The `write_head` that commits. -/
  | writeHead (p : ι)
  /-- One pass through the loop of `install_trans`. -/
  | install (p : ι)
  /-- `header.n = 0`. -/
  | clear (p : ι)
  /-- The `write_head` that erases. -/
  | writeErased (p : ι)
  /-- The last critical section of `end_op`. -/
  | endCommit (p : ι)

/-- The log and the processes using it. -/
structure LogUsers (ι : Type) where
  /-- The log. -/
  log : Log
  /-- Where each process is. -/
  pc : ι → LogPc
  /-- The blocks that the running operation of each process has logged. -/
  wrote : ι → List Nat
  /-- The blocks of each operation that has ended since the last commit. -/
  ended : List (List Nat)
  /-- The headers committed, each with the operations that had ended by then. -/
  commits : List (List Nat × List (List Nat))

namespace LogUsers

variable {ι : Type} [DecidableEq ι]

/-- Process `p` goes on to `c`. -/
def goto (s : LogUsers ι) (p : ι) (c : LogPc) : LogUsers ι := { s with pc := Function.update s.pc p c }

/-- The system after boot: nobody uses the log, which recovery has left empty. -/
def init (start size : Nat) (block : Nat → Nat) : LogUsers ι where
  log := ⟨start, size, 0, false, ⟨0, block⟩⟩
  pc _ := .idle
  wrote _ := []
  ended := []
  commits := []

/-- One step. -/
def step (s : LogUsers ι) : LogAct ι → Option (Except Panic (LogUsers ι))
  | .enter p => if s.pc p = .idle then some (.ok (s.goto p .beginning)) else none
  | .test p =>
    if s.pc p = .beginning then
      match s.log.beginOp with
      | none => some (.ok (s.goto p .asleep))
      | some l => some (.ok { s.goto p .inOp with log := l, wrote := Function.update s.wrote p [] })
    else none
  | .wake p => if s.pc p = .asleep then some (.ok (s.goto p .beginning)) else none
  | .logWrite p b =>
    if s.pc p = .inOp then
      match s.log.logWrite b with
      | .error e => some (.error e)
      | .ok (l, _) =>
        some (.ok { s with log := l, wrote := Function.update s.wrote p (b :: s.wrote p) })
    else none
  | .endOp p =>
    if s.pc p = .inOp then
      match s.log.endOp with
      | .error e => some (.error e)
      | .ok (l, doCommit) =>
        some (.ok { s.goto p (if doCommit then .commitStart else .idle) with
          log := l, ended := s.wrote p :: s.ended })
    else none
  | .checkEmpty p =>
    if s.pc p = .commitStart then
      some (.ok (s.goto p (if 0 < s.log.header.n then .writeLog 0 else .endCommit)))
    else none
  | .writeLog p =>
    match s.pc p with
    | .writeLog tail =>
      some (.ok (s.goto p (if tail < s.log.header.n then .writeLog (tail + 1) else .writeHead)))
    | _ => none
  | .writeHead p =>
    if s.pc p = .writeHead then
      some (.ok { s.goto p (.install 0) with
        ended := [], commits := (s.log.header.blocks, s.ended) :: s.commits })
    else none
  | .install p =>
    match s.pc p with
    | .install tail =>
      some (.ok (s.goto p (if tail < s.log.header.n then .install (tail + 1) else .clear)))
    | _ => none
  | .clear p =>
    if s.pc p = .clear then some (.ok { s.goto p .writeErased with log := s.log.clear }) else none
  | .writeErased p => if s.pc p = .writeErased then some (.ok (s.goto p .endCommit)) else none
  | .endCommit p =>
    if s.pc p = .endCommit then some (.ok { s.goto p .idle with log := s.log.endCommit }) else none

/-- A run of the system. -/
abbrev Runs : LogUsers ι → List (LogAct ι) → LogUsers ι → Prop := Machine.Run step

/-! ## The invariant -/

/-- The processes that are in an operation. -/
def ops [Fintype ι] (s : LogUsers ι) : Finset ι := Finset.univ.filter fun p => (s.pc p).kind = .op

/-- A process has committed its header but not yet erased it. -/
def LogPc.installing : LogPc → Prop
  | .install _ | .clear => True
  | _ => False

/-- Who is doing what: `outstanding` counts the operations, `committing` is set exactly while one
process commits, and nobody is in an operation then. -/
structure Control [Fintype ι] (s : LogUsers ι) : Prop where
  /-- `outstanding` counts the operations. -/
  outstanding : s.log.outstanding = (s.ops.card : Int)
  /-- `committing` is set exactly while a process commits. -/
  committing : s.log.committing = true ↔ ∃ p, (s.pc p).kind = .commit
  /-- Nobody is in an operation while a process commits. -/
  quiet : s.log.committing = true → ∀ p, (s.pc p).kind ≠ .op
  /-- At most one process commits. -/
  single : ∀ p q, (s.pc p).kind = .commit → (s.pc q).kind = .commit → p = q

/-- What operations have logged is in the header until it is committed. -/
structure Logged (s : LogUsers ι) : Prop where
  /-- The blocks of a running operation are in the header. -/
  wrote : ∀ p, s.pc p = .inOp → ∀ b ∈ s.wrote p, b ∈ s.log.header.blocks
  /-- So are those of an operation waiting for its commit. -/
  ended : ∀ op ∈ s.ended, ∀ b ∈ op, b ∈ s.log.header.blocks
  /-- Once the header is on the disk no operation waits any longer. -/
  flushed : ∀ p, LogPc.installing (s.pc p) → s.ended = []
  /-- Every committed header holds the blocks of the operations it was meant to commit. -/
  commits : ∀ c ∈ s.commits, ∀ op ∈ c.2, ∀ b ∈ op, b ∈ c.1

/-! ### Moves that change no kind -/

theorem goto_pc (s : LogUsers ι) (p q : ι) (c : LogPc) :
    (s.goto p c).pc q = if q = p then c else s.pc q := by
  simp [goto, Function.update_apply]

theorem goto_kind {s : LogUsers ι} {p : ι} {c : LogPc} (h : (s.pc p).kind = c.kind) (q : ι) :
    ((s.goto p c).pc q).kind = (s.pc q).kind := by
  rw [goto_pc]
  split
  · next hq => rw [hq, h]
  · rfl

omit [DecidableEq ι] in
/-- The control invariant only depends on the kinds and on two fields of the log. -/
theorem Control.congr [Fintype ι] {s s' : LogUsers ι} (h : Control s)
    (hk : ∀ q, (s'.pc q).kind = (s.pc q).kind) (ho : s'.log.outstanding = s.log.outstanding)
    (hc : s'.log.committing = s.log.committing) : Control s' := by
  have hops : s'.ops = s.ops := by
    simp only [ops, hk]
  refine ⟨?_, ?_, ?_, ?_⟩
  · rw [ho, hops, h.outstanding]
  · simp only [hc, hk]; exact h.committing
  · simp only [hc, hk]; exact h.quiet
  · simp only [hk]; exact h.single

theorem Control.goto [Fintype ι] {s : LogUsers ι} (h : Control s) {p : ι} {c : LogPc}
    (hk : (s.pc p).kind = c.kind) : Control (s.goto p c) :=
  h.congr (goto_kind hk) rfl rfl

/-! ### Beginning and ending an operation -/

section

variable [Fintype ι]

theorem ops_goto_op {s : LogUsers ι} {p : ι} (hp : (s.pc p).kind ≠ .op) :
    (s.goto p .inOp).ops = insert p s.ops ∧ p ∉ s.ops := by
  refine ⟨?_, by simp [ops, hp]⟩
  ext q
  simp only [ops, Finset.mem_filter, Finset.mem_univ, true_and, Finset.mem_insert, goto_pc]
  by_cases hq : q = p
  · simp [hq, LogPc.kind]
  · simp [hq]

theorem ops_goto_of_ne {s : LogUsers ι} {p : ι} {c : LogPc} (hc : c.kind ≠ .op) :
    (s.goto p c).ops = s.ops.erase p := by
  ext q
  simp only [ops, Finset.mem_filter, Finset.mem_univ, true_and, Finset.mem_erase, goto_pc]
  by_cases hq : q = p
  · simp [hq, hc]
  · simp [hq]

omit [DecidableEq ι] in
theorem mem_ops {s : LogUsers ι} {p : ι} (hp : s.pc p = .inOp) : p ∈ s.ops :=
  Finset.mem_filter.2 ⟨Finset.mem_univ p, by rw [hp]; rfl⟩

omit [DecidableEq ι] in
/-- The control invariant of a system in which nobody commits. -/
theorem Control.of_not_committing {s : LogUsers ι} (ho : s.log.outstanding = (s.ops.card : Int))
    (hc : s.log.committing = false) (hk : ∀ q, (s.pc q).kind ≠ .commit) : Control s where
  outstanding := ho
  committing := by
    rw [hc]
    exact ⟨nofun, fun ⟨q, hq⟩ => absurd hq (hk q)⟩
  quiet hf := by
    rw [hf] at hc
    cases hc
  single q _ hq := absurd hq (hk q)

omit [DecidableEq ι] in
theorem Control.no_commit {s : LogUsers ι} (h : Control s) (hc : s.log.committing = false) (q : ι) :
    (s.pc q).kind ≠ .commit := by
  intro hq
  rw [h.committing.2 ⟨q, hq⟩] at hc
  cases hc

omit [Fintype ι] in
/-- Moving to a point outside `commit` makes nobody commit. -/
theorem goto_no_commit {s : LogUsers ι} (hk : ∀ q, (s.pc q).kind ≠ .commit) {p : ι} {c : LogPc}
    (hc : c.kind ≠ .commit) (q : ι) : ((s.goto p c).pc q).kind ≠ .commit := by
  rw [goto_pc]
  split
  · exact hc
  · exact hk q

theorem Control.begin {s : LogUsers ι} (h : Control s) {p : ι} (hp : s.pc p = .beginning)
    (hc : s.log.committing = false) :
    Control { s.goto p .inOp with
      log := { s.log with outstanding := s.log.outstanding + 1 },
      wrote := Function.update s.wrote p [] } := by
  obtain ⟨hops, hnot⟩ := ops_goto_op (s := s) (p := p) (by rw [hp]; decide)
  refine Control.of_not_committing ?_ hc (goto_no_commit (h.no_commit hc) (by decide))
  show s.log.outstanding + 1 = ((s.goto p .inOp).ops.card : Int)
  rw [hops, Finset.card_insert_of_notMem hnot, h.outstanding]
  push_cast
  rfl

/-- **The first critical section of `end_op`** never finds `committing` set. -/
theorem Control.endOp {s : LogUsers ι} (h : Control s) {p : ι} (hp : s.pc p = .inOp) :
    ∃ l doCommit, s.log.endOp = .ok (l, doCommit) ∧ l.header = s.log.header ∧
      Control { s.goto p (if doCommit then .commitStart else .idle) with
        log := l, ended := s.wrote p :: s.ended } := by
  have hnc : s.log.committing = false := by
    rcases Bool.eq_false_or_eq_true s.log.committing with hc | hc
    · exact absurd (by rw [hp]; rfl) (h.quiet hc p)
    · exact hc
  have hno := h.no_commit hnc
  have hcard : ((s.ops.erase p).card : Int) = s.log.outstanding - 1 := by
    rw [Finset.card_erase_of_mem (mem_ops hp), h.outstanding]
    have := Finset.card_pos.2 ⟨p, mem_ops hp⟩
    omega
  by_cases h0 : s.log.outstanding - 1 = 0
  · -- the last operation: this process commits
    refine ⟨{ s.log with outstanding := s.log.outstanding - 1, committing := true }, true, ?_,
      rfl, ?_⟩
    · simp [Log.endOp, hnc, h0]
    have hops : (s.goto p .commitStart).ops = s.ops.erase p := ops_goto_of_ne (by decide)
    refine ⟨?_, ?_, ?_, ?_⟩
    · show s.log.outstanding - 1 = ((s.goto p .commitStart).ops.card : Int)
      rw [hops, hcard]
    · exact ⟨fun _ => ⟨p, by show ((s.goto p .commitStart).pc p).kind = _; rw [goto_pc, if_pos rfl]; rfl⟩,
        fun _ => rfl⟩
    · intro _ q hq
      have hempty : s.ops.erase p = ∅ := by
        rw [← Finset.card_eq_zero]
        omega
      have hmem : q ∈ (s.goto p .commitStart).ops := by
        simpa [ops] using hq
      rw [hops, hempty] at hmem
      simp at hmem
    · have hself : ∀ q, ((s.goto p .commitStart).pc q).kind = .commit → q = p := by
        intro q hq
        rw [goto_pc] at hq
        split at hq
        · next h => exact h
        · exact absurd hq (hno q)
      exact fun q r hq hr => (hself q hq).trans (hself r hr).symm
  · refine ⟨{ s.log with outstanding := s.log.outstanding - 1 }, false, ?_, rfl, ?_⟩
    · simp [Log.endOp, hnc, h0]
    have hops : (s.goto p .idle).ops = s.ops.erase p := ops_goto_of_ne (by decide)
    refine Control.of_not_committing ?_ hnc (goto_no_commit hno (by decide))
    show s.log.outstanding - 1 = ((s.goto p .idle).ops.card : Int)
    rw [hops, hcard]

/-- The last critical section of `end_op` ends the only commit. -/
theorem Control.endCommit {s : LogUsers ι} (h : Control s) {p : ι} (hp : s.pc p = .endCommit) :
    Control { s.goto p .idle with log := s.log.endCommit } := by
  have hcp : (s.pc p).kind = .commit := by rw [hp]; rfl
  have hops : (s.goto p .idle).ops = s.ops := by
    rw [ops_goto_of_ne (by decide), Finset.erase_eq_of_notMem (by simp [ops, hcp])]
  have hkind : ∀ q, ((s.goto p .idle).pc q).kind ≠ .commit := by
    intro q hq
    rw [goto_pc] at hq
    split at hq
    · cases hq
    · next hne => exact hne (h.single q p hq hcp)
  refine Control.of_not_committing ?_ rfl hkind
  show s.log.outstanding = ((s.goto p .idle).ops.card : Int)
  rw [hops, h.outstanding]

end

/-! ### What has been logged -/

/-- A move that neither begins an operation nor starts the installation keeps `Logged`. -/
theorem Logged.goto {s : LogUsers ι} (h : Logged s) {p : ι} {c : LogPc} (hop : c ≠ .inOp)
    (hin : LogPc.installing c → LogPc.installing (s.pc p)) : Logged (s.goto p c) where
  wrote q hq := by
    rw [goto_pc] at hq
    split at hq
    · exact absurd hq hop
    · exact h.wrote q hq
  ended := h.ended
  flushed q hq := by
    rw [goto_pc] at hq
    split at hq
    · exact h.flushed p (hin hq)
    · exact h.flushed q hq
  commits := h.commits

theorem Logged.begin {s : LogUsers ι} (h : Logged s) {p : ι} {l : Log}
    (hl : l.header = s.log.header) :
    Logged { s.goto p .inOp with log := l, wrote := Function.update s.wrote p [] } where
  wrote q hq b hb := by
    show b ∈ l.header.blocks
    have hb : b ∈ Function.update s.wrote p [] q := hb
    rw [hl]
    by_cases hqp : q = p
    · subst hqp
      rw [Function.update_self] at hb
      cases hb
    · rw [Function.update_of_ne hqp] at hb
      have hq : (s.goto p .inOp).pc q = .inOp := hq
      rw [goto_pc, if_neg hqp] at hq
      exact h.wrote q hq b hb
  ended op hop b hb := by
    show b ∈ l.header.blocks
    rw [hl]
    exact h.ended op hop b hb
  flushed q hq := by
    have hq : LogPc.installing ((s.goto p .inOp).pc q) := hq
    rw [goto_pc] at hq
    split at hq
    · exact hq.elim
    · exact h.flushed q hq
  commits := h.commits

theorem Logged.logWrite {s : LogUsers ι} (h : Logged s) {p : ι} {b : Nat} {l : Log} {pinned : Bool}
    (hw : s.log.logWrite b = .ok (l, pinned)) :
    Logged { s with log := l, wrote := Function.update s.wrote p (b :: s.wrote p) } := by
  have hsub : b ∈ l.header.blocks ∧ ∀ c ∈ s.log.header.blocks, c ∈ l.header.blocks := by
    rw [Log.logWrite_eq] at hw
    split at hw
    · cases hw
    split at hw
    · cases hw
    split at hw
    · next hmem => cases hw; exact ⟨hmem, fun c hc => hc⟩
    · cases hw
      simp only [Log.blocks_push]
      exact ⟨by simp, fun c hc => List.mem_append_left _ hc⟩
  refine ⟨fun q hq c hc => ?_, fun op hop c hc => hsub.2 c (h.ended op hop c hc), h.flushed,
    h.commits⟩
  have hc : c ∈ Function.update s.wrote p (b :: s.wrote p) q := hc
  by_cases hqp : q = p
  · subst hqp
    rw [Function.update_self] at hc
    rcases List.mem_cons.1 hc with rfl | hc
    · exact hsub.1
    · exact hsub.2 c (h.wrote q hq c hc)
  · rw [Function.update_of_ne hqp] at hc
    exact hsub.2 c (h.wrote q hq c hc)

omit [DecidableEq ι] in
theorem installing_kind {s : LogUsers ι} {q : ι} (h : LogPc.installing (s.pc q)) :
    (s.pc q).kind = .commit := by
  cases hq : s.pc q <;> rw [hq] at h <;> first | exact h.elim | rfl

theorem Logged.endOp [Fintype ι] {s : LogUsers ι} (hc : Control s) (h : Logged s) {p : ι}
    (hp : s.pc p = .inOp) {l : Log} (hl : l.header = s.log.header) {c : LogPc} (hop : c ≠ .inOp)
    (hin : ¬ LogPc.installing c) :
    Logged { s.goto p c with log := l, ended := s.wrote p :: s.ended } where
  wrote q hq b hb := by
    show b ∈ l.header.blocks
    rw [hl]
    exact (h.goto (p := p) hop fun hi => (hin hi).elim).wrote q hq b hb
  ended op hmem b hb := by
    show b ∈ l.header.blocks
    rw [hl]
    rcases List.mem_cons.1 hmem with rfl | hmem
    · exact h.wrote p hp b hb
    · exact h.ended op hmem b hb
  flushed q hq := by
    -- nobody is installing while `p` is in an operation
    have hq : LogPc.installing ((s.goto p c).pc q) := hq
    rw [goto_pc] at hq
    split at hq
    · exact absurd hq hin
    · have hcq := hc.committing.2 ⟨q, installing_kind hq⟩
      exact absurd (by rw [hp]; rfl) (hc.quiet hcq p)
  commits := h.commits

/-- The write of the header commits every operation that has ended. -/
theorem Logged.writeHead {s : LogUsers ι} (h : Logged s) {p : ι} :
    Logged { s.goto p (.install 0) with
      ended := [], commits := (s.log.header.blocks, s.ended) :: s.commits } where
  wrote q hq b hb := by
    have hq : (s.goto p (.install 0)).pc q = .inOp := hq
    rw [goto_pc] at hq
    split at hq
    · cases hq
    · exact h.wrote q hq b hb
  ended op hop := by cases hop
  flushed _ _ := rfl
  commits c hc := by
    rcases List.mem_cons.1 hc with rfl | hc
    · exact h.ended
    · exact h.commits c hc

/-- Erasing the header loses nothing: no operation is running, and none waits for its commit. -/
theorem Logged.clear [Fintype ι] {s : LogUsers ι} (hc : Control s) (h : Logged s) {p : ι}
    (hp : s.pc p = .clear) : Logged { s.goto p .writeErased with log := s.log.clear } where
  wrote q hq := by
    have hq : (s.goto p .writeErased).pc q = .inOp := hq
    rw [goto_pc] at hq
    split at hq
    · cases hq
    · have hcp := hc.committing.2 ⟨p, by rw [hp]; rfl⟩
      exact absurd (by rw [hq]; rfl) (hc.quiet hcp q)
  ended op hop := by
    have hop : op ∈ s.ended := hop
    rw [h.flushed p (by rw [hp]; exact trivial)] at hop
    cases hop
  flushed _ _ := h.flushed p (by rw [hp]; exact trivial)
  commits := h.commits

/-! ### The invariant holds in every run -/

section

variable [Fintype ι]

theorem inv_step {s s' : LogUsers ι} {a : LogAct ι} (h : Control s ∧ Logged s)
    (hs : step s a = some (.ok s')) : Control s' ∧ Logged s' := by
  obtain ⟨hc, hl⟩ := h
  cases a with
  | enter p =>
    simp only [LogUsers.step] at hs
    split at hs
    · next hp => cases hs; exact ⟨hc.goto (by rw [hp]; rfl), hl.goto (by simp) False.elim⟩
    · cases hs
  | test p =>
    simp only [LogUsers.step] at hs
    split at hs
    · next hp =>
      split at hs
      · cases hs
        exact ⟨hc.goto (by rw [hp]; rfl), hl.goto (by simp) False.elim⟩
      · next l hb =>
        cases hs
        obtain ⟨hcom, -, rfl⟩ := Log.beginOp_eq_some.1 hb
        exact ⟨hc.begin hp hcom, hl.begin rfl⟩
    · cases hs
  | wake p =>
    simp only [LogUsers.step] at hs
    split at hs
    · next hp => cases hs; exact ⟨hc.goto (by rw [hp]; rfl), hl.goto (by simp) False.elim⟩
    · cases hs
  | logWrite p b =>
    simp only [LogUsers.step] at hs
    split at hs
    · next hp =>
      split at hs
      · cases hs
      · next l pinned hw =>
        cases hs
        refine ⟨hc.congr (fun _ => rfl) ?_ ?_, hl.logWrite hw⟩ <;>
        · rw [Log.logWrite_eq] at hw
          split at hw
          · cases hw
          split at hw
          · cases hw
          split at hw <;> cases hw <;> rfl
    · cases hs
  | endOp p =>
    simp only [LogUsers.step] at hs
    split at hs
    · next hp =>
      obtain ⟨l, doCommit, he, hh, hc'⟩ := hc.endOp hp
      rw [he] at hs
      cases hs
      refine ⟨hc', hl.endOp hc hp hh ?_ ?_⟩ <;> cases doCommit <;> simp [LogPc.installing]
    · cases hs
  | checkEmpty p =>
    simp only [LogUsers.step] at hs
    split at hs
    · next hp =>
      cases hs
      split
      · exact ⟨hc.goto (by rw [hp]; rfl), hl.goto (by simp) False.elim⟩
      · exact ⟨hc.goto (by rw [hp]; rfl), hl.goto (by simp) False.elim⟩
    · cases hs
  | writeLog p =>
    simp only [LogUsers.step] at hs
    split at hs
    · next tail hp =>
      cases hs
      split
      · exact ⟨hc.goto (by rw [hp]; rfl), hl.goto (by simp) False.elim⟩
      · exact ⟨hc.goto (by rw [hp]; rfl), hl.goto (by simp) False.elim⟩
    · cases hs
  | writeHead p =>
    simp only [LogUsers.step] at hs
    split at hs
    · next hp =>
      cases hs
      exact ⟨(hc.goto (p := p) (c := .install 0) (by rw [hp]; rfl)).congr (fun _ => rfl) rfl rfl,
        hl.writeHead⟩
    · cases hs
  | install p =>
    simp only [LogUsers.step] at hs
    split at hs
    · next tail hp =>
      cases hs
      have hin : LogPc.installing (s.pc p) := by rw [hp]; exact trivial
      split
      · exact ⟨hc.goto (by rw [hp]; rfl), hl.goto (by simp) fun _ => hin⟩
      · exact ⟨hc.goto (by rw [hp]; rfl), hl.goto (by simp) fun _ => hin⟩
    · cases hs
  | clear p =>
    simp only [LogUsers.step] at hs
    split at hs
    · next hp =>
      cases hs
      exact ⟨(hc.goto (p := p) (c := .writeErased) (by rw [hp]; rfl)).congr (fun _ => rfl) rfl rfl,
        hl.clear hc hp⟩
    · cases hs
  | writeErased p =>
    simp only [LogUsers.step] at hs
    split at hs
    · next hp => cases hs; exact ⟨hc.goto (by rw [hp]; rfl), hl.goto (by simp) False.elim⟩
    · cases hs
  | endCommit p =>
    simp only [LogUsers.step] at hs
    split at hs
    · next hp =>
      cases hs
      exact ⟨hc.endCommit hp, ⟨(hl.goto (p := p) (c := .idle) (by simp) False.elim).wrote,
        hl.ended, (hl.goto (p := p) (c := .idle) (by simp) False.elim).flushed, hl.commits⟩⟩
    · cases hs

omit [DecidableEq ι] in
theorem inv_init (start size : Nat) (block : Nat → Nat) :
    Control (init start size block : LogUsers ι) ∧ Logged (init start size block : LogUsers ι) := by
  refine ⟨Control.of_not_committing ?_ rfl fun _ => nofun, ⟨?_, ?_, ?_, ?_⟩⟩
  · simp [LogUsers.init, ops, LogPc.kind]
  · intro p _ b hb; cases hb
  · intro op hop; cases hop
  · intro p hp; exact hp.elim
  · intro c hc; cases hc

theorem inv_runs {start size : Nat} {block : Nat → Nat} {as : List (LogAct ι)} {s : LogUsers ι}
    (h : Runs (LogUsers.init start size block) as s) : Control s ∧ Logged s :=
  h.invariant (P := fun s => Control s ∧ Logged s) (inv_init start size block)
    fun _ _ _ => inv_step

omit [DecidableEq ι] in
/-- While `committing` is set no operation is outstanding. -/
theorem Control.outstanding_eq_zero {s : LogUsers ι} (h : Control s)
    (hc : s.log.committing = true) : s.log.outstanding = 0 := by
  have hempty : s.ops = ∅ := by
    rw [ops, Finset.filter_eq_empty_iff]
    exact fun p _ => h.quiet hc p
  rw [h.outstanding, hempty]
  rfl

omit [DecidableEq ι] in
/-- An operation in progress is counted. -/
theorem Control.outstanding_pos {s : LogUsers ι} (h : Control s) {p : ι} (hp : s.pc p = .inOp) :
    1 ≤ s.log.outstanding := by
  have := Finset.card_pos.2 ⟨p, mem_ops hp⟩
  rw [h.outstanding]
  omega

/-- Callers that bracket their `log_write`s can only meet the panic about the log's size. -/
theorem Control.step_error {s : LogUsers ι} (h : Control s) {a : LogAct ι} {e : Panic}
    (hs : step s a = some (.error e)) : e = .tooBigTransaction := by
  cases a with
  | logWrite p b =>
    simp only [LogUsers.step] at hs
    split at hs
    · next hp =>
      have hout := h.outstanding_pos hp
      rw [Log.logWrite_eq, if_neg (by omega : ¬ s.log.outstanding < 1)] at hs
      by_cases hfull : LOGSIZE ≤ s.log.header.n ∨ s.log.size - 1 ≤ s.log.header.n
      · rw [if_pos hfull] at hs
        cases hs
        rfl
      · rw [if_neg hfull] at hs
        by_cases hmem : b ∈ s.log.header.blocks
        · rw [if_pos hmem] at hs; cases hs
        · rw [if_neg hmem] at hs; cases hs
    · cases hs
  | endOp p =>
    simp only [LogUsers.step] at hs
    split at hs
    · next hp =>
      obtain ⟨l, doCommit, he, -, -⟩ := h.endOp hp
      rw [he] at hs
      cases hs
    · cases hs
  | test p =>
    simp only [LogUsers.step] at hs
    split at hs
    · split at hs <;> cases hs
    · cases hs
  | writeLog p => simp only [LogUsers.step] at hs; split at hs <;> cases hs
  | install p => simp only [LogUsers.step] at hs; split at hs <;> cases hs
  | enter p | wake p | checkEmpty p | writeHead p | clear p | writeErased p | endCommit p =>
    simp only [LogUsers.step] at hs
    split at hs <;> cases hs

end

end LogUsers

open LogUsers in
/-- **Group commit keeps operations whole.**  In every state the system can reach: a process runs
`commit` only while no operation is outstanding and `committing` is set, and at most one does;
while `committing` is set `begin_op` admits nobody and no `log_write` succeeds; the panics about
bracketing cannot happen; the blocks of a running operation, and of one that waits for its commit,
are in the header; and every header committed so far holds all blocks of every operation that had
ended by then. -/
theorem group_commit_whole {ι : Type} [DecidableEq ι] [Fintype ι] {start size : Nat}
    {block : Nat → Nat} {as : List (LogAct ι)} {s : LogUsers ι}
    (h : Runs (LogUsers.init start size block) as s) :
    (∀ p, (s.pc p).kind = .commit → s.log.outstanding = 0 ∧ s.log.committing = true) ∧
    (∀ p q, (s.pc p).kind = .commit → (s.pc q).kind = .commit → p = q) ∧
    (s.log.committing = true → s.log.beginOp = none ∧ ∀ b, ∃ e, s.log.logWrite b = .error e) ∧
    (∀ a, step s a ≠ some (.error .committing) ∧
      step s a ≠ some (.error .logWriteOutsideOfTrans)) ∧
    (∀ p, s.pc p = .inOp → ∀ b ∈ s.wrote p, b ∈ s.log.header.blocks) ∧
    (∀ op ∈ s.ended, ∀ b ∈ op, b ∈ s.log.header.blocks) ∧
    (∀ c ∈ s.commits, ∀ op ∈ c.2, ∀ b ∈ op, b ∈ c.1) := by
  obtain ⟨hc, hl⟩ := inv_runs h
  refine ⟨fun p hp => ?_, hc.single, fun hcom => ⟨?_, fun b => ?_⟩, fun a => ⟨?_, ?_⟩, hl.wrote,
    hl.ended, hl.commits⟩
  · have hcom := hc.committing.2 ⟨p, hp⟩
    exact ⟨hc.outstanding_eq_zero hcom, hcom⟩
  · rw [Log.beginOp, if_pos hcom]
  · have hout := hc.outstanding_eq_zero hcom
    rw [Log.logWrite_eq]
    split
    · exact ⟨_, rfl⟩
    · rw [if_pos (by omega)]
      exact ⟨_, rfl⟩
  · exact fun he => absurd (hc.step_error he) (by decide)
  · exact fun he => absurd (hc.step_error he) (by decide)

open LogUsers in
/-- Two processes share a transaction: both log a block, the second to end commits both. -/
theorem group_commit_whole_two :
    ∃ s : LogUsers (Fin 2),
      Runs (LogUsers.init 2 LOGSIZE id)
        [.enter 0, .test 0, .enter 1, .test 1, .logWrite 0 50, .logWrite 1 51, .endOp 0, .endOp 1,
          .checkEmpty 1, .writeLog 1, .writeLog 1, .writeLog 1, .writeHead 1] s ∧
      s.commits = [([50, 51], [[51], [50]])] ∧ s.log.outstanding = 0 ∧
      ∀ c ∈ s.commits, ∀ op ∈ c.2, ∀ b ∈ op, b ∈ c.1 := by
  have hrun : ∃ s : LogUsers (Fin 2),
      Runs (LogUsers.init 2 LOGSIZE id)
        [.enter 0, .test 0, .enter 1, .test 1, .logWrite 0 50, .logWrite 1 51, .endOp 0, .endOp 1,
          .checkEmpty 1, .writeLog 1, .writeLog 1, .writeLog 1, .writeHead 1] s ∧
      s.commits = [([50, 51], [[51], [50]])] ∧ s.log.outstanding = 0 :=
    ⟨_, Machine.run_of_exec rfl, rfl, rfl⟩
  obtain ⟨s, hs, hcommits, hout⟩ := hrun
  exact ⟨s, hs, hcommits, hout, (group_commit_whole hs).2.2.2.2.2.2⟩

end Xv6pp
