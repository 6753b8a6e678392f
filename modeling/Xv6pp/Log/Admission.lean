import Xv6pp.Log.GroupCommit
import Mathlib.Algebra.BigOperators.Group.Finset.Basic
import Mathlib.Algebra.Order.BigOperators.Group.Finset
import Mathlib.Data.List.Dedup

/-!
# Is the reservation of `begin_op` enough?

`begin_op` admits an operation only while `header.n + (outstanding + 1) * MAXOPBLOCKS ≤ LOGSIZE`, and
an operation logs at most `MAXOPBLOCKS` distinct blocks, so a transaction never needs more than
`LOGSIZE` entries of the header.  But `log_write` refuses to work on a header that is nearly full:
it tests `header.n ≥ LOGSIZE` and `header.n ≥ size - 1` before it looks whether the block is already
there, and `mkfs` makes the log area `LOGSIZE` blocks long, one of which is the header.  Three
operations of `MAXOPBLOCKS` blocks each are admitted, and the last block of the third of them stops
the machine.

`admission_iff_fits` says exactly which schedules are safe: those in which every `log_write` finds
at most `LOGSIZE - 2` distinct blocks logged since the last commit.  `fits_of_small_ops` gives a
bound on the operations that makes every schedule safe: one block less than `MAXOPBLOCKS` each.
-/

set_option autoImplicit false

namespace Xv6pp

namespace LogUsers

variable {ι : Type} [DecidableEq ι]

/-! ## Operations of bounded size -/

/-- The steps of a system whose operations log at most `k` distinct blocks each. -/
def boundedStep (k : Nat) (s : LogUsers ι) (a : LogAct ι) : Option (Except Panic (LogUsers ι)) :=
  match a with
  | .logWrite p b => if (b :: s.wrote p).dedup.length ≤ k then step s (.logWrite p b) else none
  | a => step s a

theorem step_of_boundedStep {k : Nat} {s : LogUsers ι} {a : LogAct ι}
    {r : Except Panic (LogUsers ι)} (h : boundedStep k s a = some r) : step s a = some r := by
  cases a with
  | logWrite p b =>
    rw [boundedStep] at h
    split at h
    · exact h
    · cases h
  | _ => exact h

/-! ## The transaction, read off the actions -/

/-- What one action does to the list of blocks logged since the last commit. -/
def pendingStep (bs : List Nat) : LogAct ι → List Nat
  | .logWrite _ b => if b ∈ bs then bs else bs ++ [b]
  | .clear _ => []
  | _ => bs

/-- The distinct blocks logged since the last commit, computed from the actions alone. -/
def pending (as : List (LogAct ι)) : List Nat := as.foldl pendingStep []

omit [DecidableEq ι] in
theorem pending_snoc (as : List (LogAct ι)) (a : LogAct ι) :
    pending (as ++ [a]) = pendingStep (pending as) a := by
  simp [pending]

/-- Every `log_write` of the schedule finds at most `LOGSIZE - 2` blocks logged. -/
def Fits (as : List (LogAct ι)) : Prop :=
  ∀ pre p b post, as = pre ++ .logWrite p b :: post → (pending pre).length + 2 ≤ LOGSIZE

/-- A step changes the header as `pendingStep` says, and leaves the layout of the log alone. -/
theorem step_header {s s' : LogUsers ι} {a : LogAct ι} (hs : step s a = some (.ok s')) :
    s'.log.header.blocks = pendingStep s.log.header.blocks a ∧ s'.log.size = s.log.size := by
  cases a with
  | logWrite p b =>
    simp only [step] at hs
    split at hs
    · split at hs
      · cases hs
      · next l pinned hw =>
        cases hs
        rw [Log.logWrite_eq] at hw
        split at hw
        · cases hw
        split at hw
        · cases hw
        split at hw
        · next hmem => cases hw; simp [pendingStep, hmem]
        · next hmem => cases hw; simp [pendingStep, hmem, Log.blocks_push]
    · cases hs
  | endOp p =>
    simp only [step] at hs
    split at hs
    · split at hs
      · cases hs
      · next l doCommit he =>
        cases hs
        simp only [Log.endOp] at he
        split at he
        · cases he
        · split at he <;> cases he <;> exact ⟨rfl, rfl⟩
    · cases hs
  | test p =>
    simp only [step] at hs
    split at hs
    · split at hs
      · cases hs; exact ⟨rfl, rfl⟩
      · next l hb =>
        cases hs
        obtain ⟨-, -, rfl⟩ := Log.beginOp_eq_some.1 hb
        exact ⟨rfl, rfl⟩
    · cases hs
  | clear p =>
    simp only [step] at hs
    split at hs
    · cases hs; exact ⟨rfl, rfl⟩
    · cases hs
  | enter p | wake p | checkEmpty p | writeLog p | writeHead p | install p | writeErased p
  | endCommit p =>
    simp only [step] at hs
    split at hs
    · cases hs; exact ⟨rfl, rfl⟩
    · cases hs

section

variable [Fintype ι]

/-- In every run the header holds the blocks logged since the last commit. -/
theorem runs_pending {k start size : Nat} {block : Nat → Nat} {as : List (LogAct ι)}
    {s : LogUsers ι} (h : Machine.Run (boundedStep k) (init start size block) as s) :
    (Control s ∧ Logged s) ∧ s.log.header.blocks = pending as ∧ s.log.size = size := by
  refine h.invariant_hist (P := fun as s => (Control s ∧ Logged s) ∧
    s.log.header.blocks = pending as ∧ s.log.size = size) ⟨inv_init start size block, rfl, rfl⟩ ?_
  rintro as s a s' ⟨hinv, hb, hsz⟩ ha
  have ha := step_of_boundedStep ha
  obtain ⟨hb', hsz'⟩ := step_header ha
  exact ⟨inv_step hinv ha, by rw [hb', hb, pending_snoc], hsz'.trans hsz⟩

/-- Only a `log_write` that finds too many blocks logged stops the system. -/
theorem boundedStep_error {k start : Nat} {block : Nat → Nat} {as : List (LogAct ι)}
    {s : LogUsers ι} (h : Machine.Run (boundedStep k) (init start LOGSIZE block) as s)
    {a : LogAct ι} {e : Panic} (ha : boundedStep k s a = some (.error e)) :
    e = .tooBigTransaction ∧ ∃ p b, a = .logWrite p b ∧ LOGSIZE < (pending as).length + 2 := by
  obtain ⟨⟨hc, -⟩, hb, hsz⟩ := runs_pending h
  have hs := step_of_boundedStep ha
  have he := hc.step_error hs
  subst he
  refine ⟨rfl, ?_⟩
  have hn : s.log.header.n = (pending as).length := by rw [← hb, Log.length_blocks]
  cases a with
  | logWrite p b =>
    refine ⟨p, b, rfl, ?_⟩
    by_contra hfit
    have hL : LOGSIZE = 30 := rfl
    simp only [step] at hs
    split at hs
    · rw [Log.logWrite_eq, if_neg (by omega)] at hs
      split at hs
      · next e hw =>
        split at hw
        · cases hw; cases hs
        · split at hw <;> cases hw
      · cases hs
    · cases hs
  | test p =>
    simp only [step] at hs
    split at hs
    · split at hs <;> cases hs
    · cases hs
  | endOp p =>
    simp only [step] at hs
    split at hs
    · next hp =>
      obtain ⟨l, doCommit, he, -, -⟩ := hc.endOp hp
      rw [he] at hs
      cases hs
    · cases hs
  | enter p | wake p | checkEmpty p | writeLog p | writeHead p | install p | clear p
  | writeErased p | endCommit p =>
    simp only [step] at hs
    split at hs <;> cases hs

/-- A `log_write` that finds too many blocks logged stops the system. -/
theorem logWrite_overflow {k start : Nat} {block : Nat → Nat} {as : List (LogAct ι)}
    {s : LogUsers ι} (h : Machine.Run (boundedStep k) (init start LOGSIZE block) as s)
    {p : ι} {b : Nat} {r : Except Panic (LogUsers ι)}
    (ha : boundedStep k s (.logWrite p b) = some r) (hfull : LOGSIZE < (pending as).length + 2) :
    r = .error .tooBigTransaction := by
  obtain ⟨-, hb, hsz⟩ := runs_pending h
  have hn : s.log.header.n = (pending as).length := by rw [← hb, Log.length_blocks]
  have hs := step_of_boundedStep ha
  simp only [step] at hs
  split at hs
  · rw [Log.logWrite_eq, if_pos (by omega)] at hs
    cases hs
    rfl
  · cases hs

/-! ## Operations that always fit

The reservation that `begin_op` makes is for `MAXOPBLOCKS` blocks an operation.  When every operation
leaves one of them unused, the unused ones of the operations sharing a transaction — there are at
least two of them as soon as there is a second operation — keep the header away from the limits of
`log_write`. -/

/-- The blocks an operation may still log. -/
def left (s : LogUsers ι) (p : ι) : Nat := MAXOPBLOCKS - 1 - (s.wrote p).dedup.length

/-- The reservation that holds when operations log at most `MAXOPBLOCKS - 1` blocks. -/
structure Reserved (s : LogUsers ι) : Prop where
  /-- What is logged and what running operations may still log stays below the limit. -/
  room : s.log.header.n + ∑ p ∈ s.ops, s.left p ≤ LOGSIZE - 2
  /-- Between transactions the header is empty. -/
  idle : s.log.committing = false → s.ops = ∅ → s.log.header.n = 0
  /-- So is it at the end of a commit. -/
  erased : ∀ p, s.pc p = .writeErased ∨ s.pc p = .endCommit → s.log.header.n = 0

omit [DecidableEq ι] in
theorem Reserved.congr {s s' : LogUsers ι} (h : Reserved s) (hops : s'.ops = s.ops)
    (hw : s'.wrote = s.wrote) (hn : s'.log.header.n = s.log.header.n)
    (hi : s'.log.committing = false → s.log.committing = false)
    (he : ∀ p, s'.pc p = .writeErased ∨ s'.pc p = .endCommit → s'.log.header.n = 0) :
    Reserved s' where
  room := by simpa only [left, hops, hw, hn] using h.room
  idle hc ho := by rw [hn]; exact h.idle (hi hc) (hops ▸ ho)
  erased := he

/-- A move that is neither into nor out of an operation, nor to the end of a commit. -/
theorem Reserved.goto {s : LogUsers ι} (h : Reserved s) {p : ι} {c : LogPc}
    (hp : (s.pc p).kind ≠ .op) (hc : c.kind ≠ .op)
    (he : c = .writeErased ∨ c = .endCommit → s.log.header.n = 0) : Reserved (s.goto p c) := by
  refine h.congr ?_ rfl rfl id fun q hq => ?_
  · rw [ops_goto_of_ne hc, Finset.erase_eq_of_notMem (by simp [ops, hp])]
  · rw [goto_pc] at hq
    split at hq
    · exact he hq
    · exact h.erased q hq

theorem Reserved.begin {s : LogUsers ι} (hctl : Control s) (h : Reserved s) {p : ι} {l : Log}
    (hp : s.pc p = .beginning) (hb : s.log.beginOp = some l) :
    Reserved { s.goto p .inOp with log := l, wrote := Function.update s.wrote p [] } := by
  obtain ⟨hcom, hres, rfl⟩ := Log.beginOp_eq_some.1 hb
  obtain ⟨hops, hnot⟩ := ops_goto_op (s := s) (p := p) (by rw [hp]; decide)
  have hL : LOGSIZE = 30 := rfl
  have hM : MAXOPBLOCKS = 10 := rfl
  rw [hctl.outstanding, hL, hM] at hres
  refine ⟨?_, fun _ ho => ?_, fun q hq => ?_⟩
  · have hleft : ∀ q ∈ s.ops,
        MAXOPBLOCKS - 1 - (Function.update s.wrote p [] q).dedup.length = s.left q := by
      intro q hq
      have hqp : q ≠ p := fun h => hnot (h ▸ hq)
      rw [Function.update_of_ne hqp, left]
    have hsum : ∑ q ∈ s.ops, s.left q ≤ s.ops.card * 9 :=
      Finset.sum_le_card_nsmul _ _ _ fun q _ => Nat.sub_le _ _
    show s.log.header.n + ∑ q ∈ (s.goto p .inOp).ops,
      (MAXOPBLOCKS - 1 - (Function.update s.wrote p [] q).dedup.length) ≤ LOGSIZE - 2
    rw [hops, Finset.sum_insert hnot, Finset.sum_congr rfl hleft, Function.update_self]
    show s.log.header.n + (10 - 1 - 0 + ∑ q ∈ s.ops, s.left q) ≤ 28
    rcases Finset.eq_empty_or_nonempty s.ops with hempty | hne
    · rw [h.idle hcom hempty, hempty, Finset.sum_empty]
      decide
    · have := Finset.card_pos.2 hne
      omega
  · have ho : (s.goto p .inOp).ops = ∅ := ho
    rw [hops] at ho
    exact absurd ho (Finset.insert_ne_empty _ _)
  · have hq : (s.goto p .inOp).pc q = .writeErased ∨ (s.goto p .inOp).pc q = .endCommit := hq
    rw [goto_pc] at hq
    split at hq
    · rcases hq with hq | hq <;> cases hq
    · exact h.erased q hq

theorem Reserved.logWrite {s : LogUsers ι} (hctl : Control s) (hlog : Logged s) (h : Reserved s)
    {p : ι} {b : Nat} {l : Log} {pinned : Bool} (hp : s.pc p = .inOp)
    (hsmall : (b :: s.wrote p).dedup.length ≤ MAXOPBLOCKS - 1)
    (hw : s.log.logWrite b = .ok (l, pinned)) :
    Reserved { s with log := l, wrote := Function.update s.wrote p (b :: s.wrote p) } := by
  have hmem := mem_ops hp
  -- the terms of the other operations do not change
  have hrest : ∀ q ∈ s.ops.erase p,
      MAXOPBLOCKS - 1 - (Function.update s.wrote p (b :: s.wrote p) q).dedup.length = s.left q := by
    intro q hq
    rw [Function.update_of_ne (Finset.ne_of_mem_erase hq), left]
  have hsum : ∑ q ∈ s.ops,
      (MAXOPBLOCKS - 1 - (Function.update s.wrote p (b :: s.wrote p) q).dedup.length)
        = (MAXOPBLOCKS - 1 - (b :: s.wrote p).dedup.length) + ∑ q ∈ s.ops.erase p, s.left q := by
    rw [← Finset.add_sum_erase _ _ hmem, Finset.sum_congr rfl hrest, Function.update_self]
  have hold : ∑ q ∈ s.ops, s.left q = s.left p + ∑ q ∈ s.ops.erase p, s.left q :=
    (Finset.add_sum_erase _ _ hmem).symm
  have hroom := h.room
  rw [hold, left] at hroom
  -- nobody is at the end of a commit while `p` is in an operation
  have herased : ∀ q, ¬ (s.pc q = .writeErased ∨ s.pc q = .endCommit) := by
    intro q hq
    have hcom := hctl.committing.2 ⟨q, by rcases hq with hq | hq <;> rw [hq] <;> rfl⟩
    exact hctl.quiet hcom p (by rw [hp]; rfl)
  refine ⟨?_, fun _ ho => ?_, fun q hq => absurd hq (herased q)⟩
  · show l.header.n + ∑ q ∈ s.ops, _ ≤ LOGSIZE - 2
    simp only [left]
    rw [hsum]
    rw [Log.logWrite_eq] at hw
    split at hw
    · cases hw
    split at hw
    · cases hw
    split at hw
    · cases hw
      have hle : (s.wrote p).dedup.length ≤ (b :: s.wrote p).dedup.length := by
        by_cases hb : b ∈ s.wrote p
        · rw [List.dedup_cons_of_mem hb]
        · rw [List.dedup_cons_of_notMem hb, List.length_cons]; omega
      omega
    · next hnew =>
      cases hw
      have hb : b ∉ s.wrote p := fun hb => hnew (hlog.wrote p hp b hb)
      rw [List.dedup_cons_of_notMem hb, List.length_cons] at hsmall ⊢
      show s.log.header.n + 1 + _ ≤ _
      omega
  · have ho : s.ops = ∅ := ho
    rw [ho] at hmem
    cases hmem

theorem Reserved.endOp {s : LogUsers ι} (hctl : Control s) (h : Reserved s) {p : ι}
    (hp : s.pc p = .inOp) {l : Log} {doCommit : Bool} (he : s.log.endOp = .ok (l, doCommit)) :
    Reserved { s.goto p (if doCommit then .commitStart else .idle) with
      log := l, ended := s.wrote p :: s.ended } := by
  have hops : (s.goto p (if doCommit then .commitStart else .idle)).ops = s.ops.erase p :=
    ops_goto_of_ne (by cases doCommit <;> decide)
  have hcard : (s.ops.erase p).card = s.ops.card - 1 := Finset.card_erase_of_mem (mem_ops hp)
  have hh : l.header = s.log.header ∧ (l.committing = false → l.outstanding ≠ 0) ∧
      l.outstanding = s.log.outstanding - 1 := by
    simp only [Log.endOp] at he
    split at he
    · cases he
    split at he
    · cases he; exact ⟨rfl, (by rintro ⟨⟩), rfl⟩
    · next hne => cases he; exact ⟨rfl, fun _ => hne, rfl⟩
  refine ⟨?_, fun hc ho => ?_, fun q hq => ?_⟩
  · show l.header.n + ∑ q ∈ (s.goto p _).ops, s.left q ≤ LOGSIZE - 2
    rw [hops, hh.1]
    have hle : ∑ q ∈ s.ops.erase p, s.left q ≤ ∑ q ∈ s.ops, s.left q :=
      Finset.sum_le_sum_of_subset (Finset.erase_subset _ _)
    exact le_trans (Nat.add_le_add_left hle _) h.room
  · have ho : (s.goto p (if doCommit then .commitStart else .idle)).ops = ∅ := ho
    have hout := hctl.outstanding
    have hpos := Finset.card_pos.2 ⟨p, mem_ops hp⟩
    rw [hops, ← Finset.card_eq_zero, hcard] at ho
    exact absurd (by rw [hh.2.2]; omega) (hh.2.1 hc)
  · have hq : (s.goto p (if doCommit then .commitStart else .idle)).pc q = .writeErased ∨
      (s.goto p (if doCommit then .commitStart else .idle)).pc q = .endCommit := hq
    show l.header.n = 0
    rw [hh.1]
    rw [goto_pc] at hq
    split at hq
    · cases doCommit <;> rcases hq with hq | hq <;> cases hq
    · exact h.erased q hq

theorem Reserved.step {s s' : LogUsers ι} {a : LogAct ι} (hinv : Control s ∧ Logged s)
    (h : Reserved s) (hs : boundedStep (MAXOPBLOCKS - 1) s a = some (.ok s')) : Reserved s' := by
  obtain ⟨hctl, hlog⟩ := hinv
  cases a with
  | logWrite p b =>
    simp only [boundedStep, LogUsers.step] at hs
    split at hs
    · next hsmall =>
      split at hs
      · next hp =>
        split at hs
        · cases hs
        · next hw => cases hs; exact h.logWrite hctl hlog hp hsmall hw
      · cases hs
    · cases hs
  | test p =>
    simp only [boundedStep, LogUsers.step] at hs
    split at hs
    · next hp =>
      split at hs
      · cases hs
        exact h.goto (by rw [hp]; decide) (by decide) (by simp)
      · next hb => cases hs; exact h.begin hctl hp hb
    · cases hs
  | endOp p =>
    simp only [boundedStep, LogUsers.step] at hs
    split at hs
    · next hp =>
      split at hs
      · cases hs
      · next he => cases hs; exact h.endOp hctl hp he
    · cases hs
  | checkEmpty p =>
    simp only [boundedStep, LogUsers.step] at hs
    split at hs
    · next hp =>
      cases hs
      split
      · exact h.goto (by rw [hp]; decide) (by decide) (by simp)
      · next hn => exact h.goto (by rw [hp]; decide) (by decide) fun _ => by omega
    · cases hs
  | writeLog p =>
    simp only [boundedStep, LogUsers.step] at hs
    split at hs
    · next tail hp =>
      cases hs
      have hk : (s.pc p).kind ≠ .op := by rw [hp]; simp [LogPc.kind]
      split
      · exact h.goto hk (by simp [LogPc.kind]) (by simp)
      · exact h.goto hk (by simp [LogPc.kind]) (by simp)
    · cases hs
  | install p =>
    simp only [boundedStep, LogUsers.step] at hs
    split at hs
    · next tail hp =>
      cases hs
      have hk : (s.pc p).kind ≠ .op := by rw [hp]; simp [LogPc.kind]
      split
      · exact h.goto hk (by simp [LogPc.kind]) (by simp)
      · exact h.goto hk (by simp [LogPc.kind]) (by simp)
    · cases hs
  | enter p | wake p =>
    simp only [boundedStep, LogUsers.step] at hs
    split at hs
    · next hp => cases hs; exact h.goto (by rw [hp]; decide) (by decide) (by simp)
    · cases hs
  | writeHead p =>
    simp only [boundedStep, LogUsers.step] at hs
    split at hs
    · next hp =>
      cases hs
      have hg := h.goto (p := p) (c := .install 0) (by rw [hp]; decide) (by decide) (by simp)
      exact hg.congr rfl rfl rfl id hg.erased
    · cases hs
  | clear p =>
    simp only [boundedStep, LogUsers.step] at hs
    split at hs
    · next hp =>
      cases hs
      have hcom := hctl.committing.2 ⟨p, by rw [hp]; rfl⟩
      have hempty : (s.goto p .writeErased).ops = ∅ := by
        rw [ops_goto_of_ne (by decide), Finset.eq_empty_iff_forall_notMem]
        intro q hq
        exact hctl.quiet hcom q (Finset.mem_filter.1 (Finset.mem_of_mem_erase hq)).2
      refine ⟨?_, fun _ _ => rfl, fun _ _ => rfl⟩
      show 0 + ∑ q ∈ (s.goto p .writeErased).ops, _ ≤ _
      rw [hempty]
      exact Nat.zero_le _
    · cases hs
  | writeErased p =>
    simp only [boundedStep, LogUsers.step] at hs
    split at hs
    · next hp =>
      cases hs
      exact h.goto (by rw [hp]; decide) (by decide) fun _ => h.erased p (Or.inl hp)
    · cases hs
  | endCommit p =>
    simp only [boundedStep, LogUsers.step] at hs
    split at hs
    · next hp =>
      cases hs
      have hn := h.erased p (Or.inr hp)
      have hg := h.goto (p := p) (c := .idle) (by rw [hp]; decide) (by decide) (by simp)
      exact ⟨hg.room, fun _ _ => hn, hg.erased⟩
    · cases hs

/-- **Operations of at most `MAXOPBLOCKS - 1` blocks fit**, in every schedule. -/
theorem fits_of_small_ops {start : Nat} {block : Nat → Nat} {as : List (LogAct ι)}
    {r : Except Panic (LogUsers ι)}
    (h : Machine.exec (boundedStep (MAXOPBLOCKS - 1)) as (init start LOGSIZE block) = some r) :
    ∃ s, r = .ok s := by
  have hres : ∀ {pre t}, Machine.Run (boundedStep (MAXOPBLOCKS - 1)) (init start LOGSIZE block)
      pre t → (Control t ∧ Logged (ι := ι) t) ∧ Reserved t := by
    intro pre t ht
    refine ht.invariant (P := fun t => (Control t ∧ Logged t) ∧ Reserved t)
      ⟨inv_init start LOGSIZE block, ?_, fun _ _ => rfl, fun _ _ => rfl⟩ ?_
    · simp [init, ops, LogPc.kind]
    · rintro s a s' ⟨hinv, hr⟩ ha
      exact ⟨inv_step hinv (step_of_boundedStep ha), hr.step hinv ha⟩
  cases r with
  | ok s => exact ⟨s, rfl⟩
  | error e =>
    obtain ⟨pre, a, post, t, rfl, ht, ha⟩ := Machine.exec_error h
    obtain ⟨-, p, b, -, hover⟩ := boundedStep_error ht ha
    obtain ⟨-, hb, -⟩ := runs_pending ht
    have hroom := (hres ht).2.room
    have hn : t.log.header.n = (pending pre).length := by rw [← hb, Log.length_blocks]
    have hL : LOGSIZE = 30 := rfl
    omega

end

end LogUsers

open LogUsers in
/-- **Which schedules are safe.**  Let every operation log at most `MAXOPBLOCKS` distinct blocks, on
the log that `mkfs` lays out.  A schedule neither reaches the panic about the transaction's size nor
a store beyond the header's array if and only if each of its `log_write`s finds at most
`LOGSIZE - 2` distinct blocks logged since the last commit. -/
theorem admission_iff_fits {ι : Type} [DecidableEq ι] [Fintype ι] (start : Nat)
    (block : Nat → Nat) (as : List (LogAct ι)) (r : Except Panic (LogUsers ι))
    (h : Machine.exec (boundedStep MAXOPBLOCKS) as (LogUsers.init start LOGSIZE block) = some r) :
    (r ≠ .error .tooBigTransaction ∧ r ≠ .error .outOfBounds) ↔ Fits as := by
  constructor
  · rintro ⟨hbig, -⟩ pre p b post rfl
    by_contra hfit
    rcases Machine.exec_append h with ⟨t, ht, hrest⟩ | ⟨_, a, _, t, e, -, ht, ha, hr⟩
    · -- the `log_write` is reached, and panics
      rw [Machine.exec] at hrest
      split at hrest
      · next t' ht' =>
        cases logWrite_overflow ht ht' (by omega)
      · exact hbig (logWrite_overflow ht hrest (by omega))
    · -- the machine has stopped before
      rw [(boundedStep_error ht ha).1] at hr
      exact hbig hr
  · intro hfits
    have hnot : ∀ e, r ≠ .error e := by
      rintro e rfl
      obtain ⟨pre, a, post, t, rfl, ht, ha⟩ := Machine.exec_error h
      obtain ⟨-, p, b, rfl, hover⟩ := boundedStep_error ht ha
      have := hfits pre p b post rfl
      omega
    exact ⟨hnot _, hnot _⟩

/-- Three processes begin an operation each, and each logs ten blocks of its own. -/
def threeFullOps : List (LogAct (Fin 3)) :=
  [.enter 0, .test 0, .enter 1, .test 1, .enter 2, .test 2] ++
    (List.range MAXOPBLOCKS).map (fun i => .logWrite 0 (100 + i)) ++
    (List.range MAXOPBLOCKS).map (fun i => .logWrite 1 (200 + i)) ++
    (List.range MAXOPBLOCKS).map (fun i => .logWrite 2 (300 + i))

open LogUsers in
/-- All three operations are admitted, none logs more than `MAXOPBLOCKS` distinct blocks, and the
thirtieth `log_write` stops the machine. -/
theorem threeFullOps_panic :
    Machine.exec (boundedStep MAXOPBLOCKS) threeFullOps (LogUsers.init 2 LOGSIZE id)
      = some (.error .tooBigTransaction) := by
  rfl

open LogUsers in
/-- A schedule of one operation that fits. -/
theorem admission_iff_fits_one :
    ∃ r, Machine.exec (boundedStep MAXOPBLOCKS)
        [.enter 0, .test 0, .logWrite 0 50, .logWrite 0 50, .endOp 0]
        (LogUsers.init 2 LOGSIZE id : LogUsers (Fin 1)) = some r ∧
      Fits ([.enter 0, .test 0, .logWrite 0 50, .logWrite 0 50, .endOp 0] : List (LogAct (Fin 1))) := by
  have hrun : ∃ r, Machine.exec (boundedStep MAXOPBLOCKS)
      [.enter 0, .test 0, .logWrite 0 50, .logWrite 0 50, .endOp 0]
      (LogUsers.init 2 LOGSIZE id : LogUsers (Fin 1)) = some (.ok r) := ⟨_, rfl⟩
  obtain ⟨r, hr⟩ := hrun
  exact ⟨_, hr, (admission_iff_fits 2 id _ _ hr).1 ⟨nofun, nofun⟩⟩

end Xv6pp
