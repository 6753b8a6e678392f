import Xv6pp.Proc.ProcessTree
import Mathlib.Data.Fintype.Card

/-!
# Every process that exits is reaped once

The books of `exit` and `wait` against the process table.
-/

set_option autoImplicit false

namespace Xv6pp

namespace WaitState

variable {ι : Type} {init p q : ι} {s s' : WaitState ι}

/-! ## The books -/

/-- The books agree with the table. -/
structure Books (s : WaitState ι) : Prop where
  /-- Process IDs are handed out in order. -/
  fresh : ∀ i, (s.tasks i).state ≠ .unused → (s.tasks i).pid < s.nextPid
  /-- No two processes share one. -/
  distinct : ∀ i j, (s.tasks i).state ≠ .unused → (s.tasks j).state ≠ .unused →
    (s.tasks i).pid = (s.tasks j).pid → i = j
  /-- A zombie has called `exit` and was not reaped. -/
  exited : ∀ z, (s.tasks z).state = .zombie → ((s.tasks z).pid, (s.tasks z).xstate) ∈ s.exits ∧
    (s.tasks z).pid ∉ s.reaps.map Reap.pid
  /-- The other processes have not. -/
  alive : ∀ i, (s.tasks i).state ≠ .unused → (s.tasks i).state ≠ .zombie →
    ∀ e ∈ s.exits, e.1 ≠ (s.tasks i).pid
  /-- The process IDs in the books were handed out. -/
  old : ∀ e ∈ s.exits, e.1 < s.nextPid
  /-- A process that has called `exit` is a zombie until it is reaped. -/
  kept : ∀ e ∈ s.exits, (∃ z, (s.tasks z).state = .zombie ∧ (s.tasks z).pid = e.1 ∧
    (s.tasks z).xstate = e.2) ∨ e.1 ∈ s.reaps.map Reap.pid
  /-- A process exits once. -/
  nodup : (s.exits.map Prod.fst).Nodup
  /-- A process is reaped once. -/
  once : (s.reaps.map Reap.pid).Nodup
  /-- What `wait` does with a child that has exited. -/
  reap : ∀ r ∈ s.reaps, r.parent = some r.caller ∧ r.result = r.pid ∧
    ∃ st, (r.pid, st) ∈ s.exits ∧ r.copied = if r.addr ≠ 0 then some st else none

/-- A step that hands out no process ID, ends no process and reaps none. -/
structure Keeps (s s' : WaitState ι) : Prop where
  nextPid : s'.nextPid = s.nextPid
  exits : s'.exits = s.exits
  reaps : s'.reaps = s.reaps
  pid : ∀ i, (s'.tasks i).pid = (s.tasks i).pid
  xstate : ∀ i, (s'.tasks i).xstate = (s.tasks i).xstate
  unused : ∀ i, (s'.tasks i).state = .unused ↔ (s.tasks i).state = .unused
  zombie : ∀ i, (s'.tasks i).state = .zombie ↔ (s.tasks i).state = .zombie

theorem Books.keeps (h : Books s) (hk : Keeps s s') : Books s' := by
  obtain ⟨h1, h2, h3, h4, h5, h6, h7⟩ := hk
  refine ⟨?_, ?_, ?_, ?_, ?_, ?_, ?_, ?_, ?_⟩
  · simpa only [ne_eq, h1, h4, h6] using h.fresh
  · simpa only [ne_eq, h4, h6] using h.distinct
  · simpa only [h2, h3, h4, h5, h7] using h.exited
  · simpa only [ne_eq, h2, h4, h6, h7] using h.alive
  · simpa only [h1, h2] using h.old
  · simpa only [h2, h3, h4, h5, h7] using h.kept
  · simpa only [h2] using h.nodup
  · simpa only [h3] using h.once
  · simpa only [h2, h3] using h.reap

/-- The process ID of a process that is alive was not reaped. -/
theorem Books.not_reaped (h : Books s) (hu : (s.tasks p).state ≠ .unused)
    (hz : (s.tasks p).state ≠ .zombie) : (s.tasks p).pid ∉ s.reaps.map Reap.pid := by
  intro hmem
  obtain ⟨r, hr, hpid⟩ := List.mem_map.1 hmem
  obtain ⟨-, -, st, hst, -⟩ := h.reap r hr
  exact h.alive p hu hz _ hst hpid

/-- A process changes its state among those of a live process. -/
theorem keeps_setTask [DecidableEq ι] {f : Task ι → Task ι} (hpid : (f (s.tasks p)).pid = (s.tasks p).pid)
    (hx : (f (s.tasks p)).xstate = (s.tasks p).xstate)
    (hst : (f (s.tasks p)).state = (s.tasks p).state ∨ (f (s.tasks p)).state ≠ .unused ∧
      (f (s.tasks p)).state ≠ .zombie ∧ (s.tasks p).state ≠ .unused ∧ (s.tasks p).state ≠ .zombie)
    (htasks : s'.tasks = Function.update s.tasks p (f (s.tasks p)))
    (hnext : s'.nextPid = s.nextPid) (hexits : s'.exits = s.exits) (hreaps : s'.reaps = s.reaps) :
    Keeps s s' := by
  have hp : s'.tasks p = f (s.tasks p) := by rw [htasks, Function.update_self]
  have hne : ∀ i ≠ p, s'.tasks i = s.tasks i := by
    intro i hi
    rw [htasks, Function.update_of_ne hi]
  refine ⟨hnext, hexits, hreaps, ?_, ?_, ?_, ?_⟩
  all_goals intro i; by_cases hi : i = p
  all_goals first | rw [hi, hp] | rw [hne i hi]
  · exact hpid
  · exact hx
  · rcases hst with hst | ⟨h1, -, h2, -⟩
    · rw [hst]
    · exact iff_of_false h1 h2
  · rcases hst with hst | ⟨-, h1, -, h2⟩
    · rw [hst]
    · exact iff_of_false h1 h2

/-- What one step does to the processes and the books. -/
inductive Turn [DecidableEq ι] (s s' : WaitState ι) : Prop
  /-- Nothing that the books record. -/
  | keeps (h : Keeps s s')
  /-- `alloc` takes an unused process. -/
  | alloc (np : ι) (hunused : (s.tasks np).state = .unused)
      (htasks : s'.tasks = Function.update s.tasks np
        { s.tasks np with pid := s.nextPid, state := .used })
      (hnext : s'.nextPid = s.nextPid + 1) (hexits : s'.exits = s.exits) (hreaps : s'.reaps = s.reaps)
  /-- A `fork` that fails gives it back. -/
  | drop (np : ι) (hused : (s.tasks np).state = .used)
      (htasks : s'.tasks = Function.update s.tasks np (freed (s.tasks np)))
      (hnext : s'.nextPid = s.nextPid) (hexits : s'.exits = s.exits) (hreaps : s'.reaps = s.reaps)
  /-- A process ends. -/
  | exit (p : ι) (st : Int) (hrun : (s.tasks p).state = .running)
      (htasks : s'.tasks = Function.update s.tasks p
        { s.tasks p with xstate := st, state := .zombie })
      (hnext : s'.nextPid = s.nextPid) (hexits : s'.exits = s.exits ++ [((s.tasks p).pid, st)])
      (hreaps : s'.reaps = s.reaps)
  /-- A child is reaped. -/
  | reap (p q : ι) (addr : Nat) (hparent : (s.tasks q).parent = some p)
      (hzombie : (s.tasks q).state = .zombie)
      (htasks : s'.tasks = Function.update s.tasks q (freed (s.tasks q)))
      (hnext : s'.nextPid = s.nextPid) (hexits : s'.exits = s.exits)
      (hreaps : s'.reaps = s.reaps ++ [⟨p, (s.tasks q).parent, (s.tasks q).pid, (s.tasks q).pid, addr,
        if addr ≠ 0 then some (s.tasks q).xstate else none⟩])

section

variable [DecidableEq ι] {procs : List ι}

omit [DecidableEq ι] in
theorem keeps_of_tasks (htasks : s'.tasks = s.tasks) (hnext : s'.nextPid = s.nextPid)
    (hexits : s'.exits = s.exits) (hreaps : s'.reaps = s.reaps) : Keeps s s' := by
  refine ⟨hnext, hexits, hreaps, ?_, ?_, ?_, ?_⟩ <;> simp [htasks]

/-- `wakeup` changes nothing that the books record. -/
theorem keeps_wake (c : Option ι) (pc : WaitPc ι) : Keeps s ((s.wake p c q).goto p pc) := by
  rw [wake]
  split
  · next hc =>
    exact keeps_setTask (p := q) (f := fun t => { t with state := .runnable }) rfl rfl
      (.inr (by simp [hc.2.1])) rfl rfl rfl rfl
  · exact keeps_of_tasks rfl rfl rfl rfl

theorem turn_advance {ok : Bool} (h : Sound init s) (hrun : (s.tasks p).state = .running)
    (hs : s.advance procs init p ok (s.pc p) = some s') : Turn s s' := by
  cases hpc : s.pc p with
  | idle =>
    rw [hpc] at hs
    cases hs
  | forkCopy np =>
    have hused := (h.newborn p np none (by rw [hpc]; rfl)).1
    simp only [hpc, advance] at hs
    split at hs <;> cases hs
    · exact .keeps (keeps_of_tasks rfl rfl rfl rfl)
    · exact .drop np hused rfl rfl rfl rfl
  | forkParent np =>
    simp only [hpc, advance] at hs
    split at hs <;> cases hs
    exact .keeps (keeps_setTask (p := np) (f := fun t => { t with parent := some p }) rfl rfl
      (.inl rfl) rfl rfl rfl rfl)
  | forkRunnable np =>
    have hused := (h.newborn p np (some p) (by rw [hpc]; rfl)).1
    simp only [hpc, advance] at hs
    split at hs <;> cases hs
    exact .keeps (keeps_setTask (p := np) (f := fun t => { t with state := .runnable }) rfl rfl
      (.inr (by simp [hused])) rfl rfl rfl rfl)
  | exitEnter st =>
    simp only [hpc, advance] at hs
    split at hs <;> cases hs
    exact .keeps (keeps_of_tasks rfl rfl rfl rfl)
  | exitReparent st l =>
    rw [hpc] at hs
    cases l with
    | nil =>
      cases hs
      exact .keeps (keeps_of_tasks rfl rfl rfl rfl)
    | cons q l =>
      simp only [advance] at hs
      split at hs <;> cases hs
      · exact .keeps (keeps_setTask (p := q) (f := fun t => { t with parent := some init }) rfl rfl
          (.inl rfl) rfl rfl rfl rfl)
      · exact .keeps (keeps_of_tasks rfl rfl rfl rfl)
  | exitWakeInit st l w =>
    rw [hpc] at hs
    cases w with
    | nil =>
      cases hs
      exact .keeps (keeps_of_tasks rfl rfl rfl rfl)
    | cons q w =>
      simp only [advance] at hs
      split at hs <;> cases hs
      exact .keeps (keeps_wake _ _)
  | exitWake st w =>
    rw [hpc] at hs
    cases w with
    | nil =>
      cases hs
      exact .keeps (keeps_of_tasks rfl rfl rfl rfl)
    | cons q w =>
      simp only [advance] at hs
      split at hs <;> cases hs
      exact .keeps (keeps_wake _ _)
  | exitZombie st =>
    simp only [hpc, advance] at hs
    split at hs <;> cases hs
    exact .exit p st hrun rfl rfl rfl rfl
  | dead =>
    rw [hpc] at hs
    cases hs
  | waitEnter addr =>
    simp only [hpc, advance] at hs
    split at hs <;> cases hs
    exact .keeps (keeps_setTask (p := p) (f := fun t => { t with chan := none }) rfl rfl
      (.inl rfl) rfl rfl rfl rfl)
  | waitScan addr l b =>
    rw [hpc] at hs
    cases l with
    | nil =>
      simp only [advance] at hs
      split at hs <;> cases hs <;> exact .keeps (keeps_of_tasks rfl rfl rfl rfl)
    | cons q l =>
      simp only [advance] at hs
      split at hs
      · next hq =>
        split at hs
        · cases hs
          rw [waitChild]
          split
          · next hz =>
            split
            · exact .keeps (keeps_of_tasks rfl rfl rfl rfl)
            · exact .reap p q addr hq hz rfl rfl rfl rfl
          · exact .keeps (keeps_of_tasks rfl rfl rfl rfl)
        · cases hs
      · cases hs
        exact .keeps (keeps_of_tasks rfl rfl rfl rfl)
  | waitSleep addr =>
    simp only [hpc, advance] at hs
    split at hs <;> cases hs
    exact .keeps (keeps_of_tasks rfl rfl rfl rfl)
  | waitCommit addr =>
    simp only [hpc, advance] at hs
    cases hs
    exact .keeps (keeps_setTask (p := p)
      (f := fun t => { t with chan := some (.proc p), state := .sleeping }) rfl rfl
      (.inr (by simp [hrun])) rfl rfl rfl rfl)

theorem turn_step {a : WaitAct ι} (h : Sound init s) (hs : s.step procs init a = some (.ok s')) :
    Turn s s' := by
  cases a with
  | run p =>
    simp only [WaitState.step] at hs
    split at hs <;> cases hs
    next hc =>
    exact .keeps (keeps_setTask (p := p) (f := fun t => { t with state := .running }) rfl rfl
      (.inr (by simp [hc.2])) rfl rfl rfl rfl)
  | yield p =>
    simp only [WaitState.step] at hs
    split at hs
    · next hc =>
      cases hs
      exact .keeps (keeps_setTask (p := p) (f := fun t => { t with state := .runnable }) rfl rfl
        (.inr (by simp [hc.1])) rfl rfl rfl rfl)
    · split at hs <;> cases hs
      exact .keeps (keeps_of_tasks rfl rfl rfl rfl)
  | sleepOther p =>
    simp only [WaitState.step] at hs
    split at hs <;> cases hs
    next hc =>
    exact .keeps (keeps_setTask (p := p)
      (f := fun t => { t with state := .sleeping, chan := some .other }) rfl rfl
      (.inr (by simp [hc.1])) rfl rfl rfl rfl)
  | wakeOther p =>
    simp only [WaitState.step] at hs
    split at hs <;> cases hs
    next hc =>
    exact .keeps (keeps_setTask (p := p) (f := fun t => { t with state := .runnable }) rfl rfl
      (.inr (by simp [hc.2.1])) rfl rfl rfl rfl)
  | kill p =>
    simp only [WaitState.step] at hs
    split at hs <;> cases hs
    refine .keeps (keeps_setTask (p := p) (f := fun t =>
      { t with killed := true, state := if t.state = .sleeping then .runnable else t.state }) rfl rfl
      ?_ rfl rfl rfl rfl)
    by_cases hst : (s.tasks p).state = .sleeping <;> simp [hst]
  | fork p np =>
    simp only [WaitState.step] at hs
    split at hs
    · split at hs <;> cases hs
      next hu => exact .alloc np hu.2 rfl rfl rfl rfl
    · cases hs
  | exit p st =>
    simp only [WaitState.step] at hs
    split at hs
    · split at hs <;> cases hs
      exact .keeps (keeps_of_tasks rfl rfl rfl rfl)
    · cases hs
  | wait p addr =>
    simp only [WaitState.step] at hs
    split at hs <;> cases hs
    exact .keeps (keeps_of_tasks rfl rfl rfl rfl)
  | step p ok =>
    simp only [WaitState.step] at hs
    split at hs
    · next hrun =>
      obtain ⟨s₁, hs, hs₁⟩ := Option.map_eq_some_iff.1 hs
      cases hs₁
      exact turn_advance h hrun hs
    · cases hs

theorem Books.alloc {np : ι} (h : Books s) (hunused : (s.tasks np).state = .unused)
    (htasks : s'.tasks = Function.update s.tasks np
      { s.tasks np with pid := s.nextPid, state := .used })
    (hnext : s'.nextPid = s.nextPid + 1) (hexits : s'.exits = s.exits)
    (hreaps : s'.reaps = s.reaps) : Books s' := by
  have hnp : s'.tasks np = { s.tasks np with pid := s.nextPid, state := .used } := by
    rw [htasks, Function.update_self]
  have hne : ∀ i ≠ np, s'.tasks i = s.tasks i := by
    intro i hi
    rw [htasks, Function.update_of_ne hi]
  have hzombie : ∀ z, (s'.tasks z).state = .zombie → s'.tasks z = s.tasks z := by
    intro z hz
    refine hne z ?_
    rintro rfl
    rw [hnp] at hz
    cases hz
  refine ⟨fun i hi => ?_, fun i j hi hj hij => ?_, fun z hz => ?_, fun i hu hz e he => ?_,
    fun e he => ?_, fun e he => ?_, ?_, ?_, ?_⟩
  · by_cases hin : i = np
    · rw [hin, hnp, hnext]
      exact Int.lt_succ _
    · rw [hne i hin] at hi ⊢
      have hlt := h.fresh i hi
      omega
  · by_cases hin : i = np
    · by_cases hjn : j = np
      · rw [hin, hjn]
      · rw [hne j hjn] at hj hij
        rw [hin, hnp] at hij
        exact absurd hij.symm (h.fresh j hj).ne
    · rw [hne i hin] at hi hij
      by_cases hjn : j = np
      · rw [hjn, hnp] at hij
        exact absurd hij (h.fresh i hi).ne
      · rw [hne j hjn] at hj hij
        exact h.distinct i j hi hj hij
  · have heq := hzombie z hz
    rw [heq] at hz ⊢
    rw [hexits, hreaps]
    exact h.exited z hz
  · rw [hexits] at he
    by_cases hin : i = np
    · rw [hin, hnp]
      exact (h.old e he).ne
    · rw [hne i hin] at hu hz ⊢
      exact h.alive i hu hz e he
  · rw [hexits] at he
    have hlt := h.old e he
    omega
  · rw [hexits] at he
    rw [hreaps]
    rcases h.kept e he with ⟨z, hz, hpid, hx⟩ | hmem
    · have hzn : z ≠ np := by
        rintro rfl
        rw [hunused] at hz
        cases hz
      exact .inl ⟨z, by rw [hne z hzn]; exact ⟨hz, hpid, hx⟩⟩
    · exact .inr hmem
  · rw [hexits]
    exact h.nodup
  · rw [hreaps]
    exact h.once
  · rw [hexits, hreaps]
    exact h.reap

theorem Books.drop {np : ι} (h : Books s) (hused : (s.tasks np).state = .used)
    (htasks : s'.tasks = Function.update s.tasks np (freed (s.tasks np)))
    (hnext : s'.nextPid = s.nextPid) (hexits : s'.exits = s.exits)
    (hreaps : s'.reaps = s.reaps) : Books s' := by
  have hnp : (s'.tasks np).state = .unused := by
    rw [htasks, Function.update_self]
    rfl
  have hne : ∀ i, (s'.tasks i).state ≠ .unused → s'.tasks i = s.tasks i := by
    intro i hi
    rw [htasks, Function.update_of_ne]
    rintro rfl
    exact hi hnp
  have hzombie : ∀ z, (s'.tasks z).state = .zombie → s'.tasks z = s.tasks z := by
    intro z hz
    exact hne z (by rw [hz]; simp)
  refine ⟨fun i hi => ?_, fun i j hi hj hij => ?_, fun z hz => ?_, fun i hu hz e he => ?_,
    fun e he => ?_, fun e he => ?_, ?_, ?_, ?_⟩
  · have heq := hne i hi
    rw [heq] at hi ⊢
    rw [hnext]
    exact h.fresh i hi
  · rw [hne i hi, hne j hj] at hij
    rw [hne i hi] at hi
    rw [hne j hj] at hj
    exact h.distinct i j hi hj hij
  · have heq := hzombie z hz
    rw [heq] at hz ⊢
    rw [hexits, hreaps]
    exact h.exited z hz
  · rw [hexits] at he
    have heq := hne i hu
    rw [heq] at hu hz ⊢
    exact h.alive i hu hz e he
  · rw [hexits] at he
    rw [hnext]
    exact h.old e he
  · rw [hexits] at he
    rw [hreaps]
    rcases h.kept e he with ⟨z, hz, hpid, hx⟩ | hmem
    · have hzn : z ≠ np := by
        rintro rfl
        rw [hused] at hz
        cases hz
      exact .inl ⟨z, by rw [htasks, Function.update_of_ne hzn]; exact ⟨hz, hpid, hx⟩⟩
    · exact .inr hmem
  · rw [hexits]
    exact h.nodup
  · rw [hreaps]
    exact h.once
  · rw [hexits, hreaps]
    exact h.reap

theorem Books.exit {st : Int} (h : Books s) (hrun : (s.tasks p).state = .running)
    (htasks : s'.tasks = Function.update s.tasks p { s.tasks p with xstate := st, state := .zombie })
    (hnext : s'.nextPid = s.nextPid) (hexits : s'.exits = s.exits ++ [((s.tasks p).pid, st)])
    (hreaps : s'.reaps = s.reaps) : Books s' := by
  have hp : s'.tasks p = { s.tasks p with xstate := st, state := .zombie } := by
    rw [htasks, Function.update_self]
  have hne : ∀ i ≠ p, s'.tasks i = s.tasks i := by
    intro i hi
    rw [htasks, Function.update_of_ne hi]
  have hu : (s.tasks p).state ≠ .unused := by simp [hrun]
  have hz : (s.tasks p).state ≠ .zombie := by simp [hrun]
  have hpid : ∀ i, (s'.tasks i).pid = (s.tasks i).pid := by
    intro i
    by_cases hi : i = p
    · rw [hi, hp]
    · rw [hne i hi]
  have hused : ∀ i, (s'.tasks i).state ≠ .unused → (s.tasks i).state ≠ .unused := by
    intro i hi
    by_cases hip : i = p
    · rw [hip]
      exact hu
    · rwa [hne i hip] at hi
  refine ⟨fun i hi => ?_, fun i j hi hj hij => ?_, fun z hzz => ?_, fun i hiu hiz e he => ?_,
    fun e he => ?_, fun e he => ?_, ?_, ?_, fun r hr => ?_⟩
  · rw [hpid, hnext]
    exact h.fresh i (hused i hi)
  · rw [hpid, hpid] at hij
    exact h.distinct i j (hused i hi) (hused j hj) hij
  · rw [hexits, hreaps]
    by_cases hzp : z = p
    · rw [hzp, hp]
      exact ⟨by simp, h.not_reaped hu hz⟩
    · rw [hne z hzp] at hzz ⊢
      obtain ⟨hmem, hno⟩ := h.exited z hzz
      exact ⟨List.mem_append_left _ hmem, hno⟩
  · have hip : i ≠ p := by
      rintro rfl
      rw [hp] at hiz
      exact hiz rfl
    rw [hne i hip] at hiu hiz ⊢
    rw [hexits] at he
    rcases List.mem_append.1 he with he | he
    · exact h.alive i hiu hiz e he
    · cases List.mem_singleton.1 he
      exact fun hpi => hip (h.distinct i p hiu hu hpi.symm)
  · rw [hexits] at he
    rw [hnext]
    rcases List.mem_append.1 he with he | he
    · exact h.old e he
    · cases List.mem_singleton.1 he
      exact h.fresh p hu
  · rw [hexits] at he
    rw [hreaps]
    rcases List.mem_append.1 he with he | he
    · rcases h.kept e he with ⟨z, hzz, hzpid, hx⟩ | hmem
      · have hzp : z ≠ p := by
          rintro rfl
          exact hz hzz
        exact .inl ⟨z, by rw [hne z hzp]; exact ⟨hzz, hzpid, hx⟩⟩
      · exact .inr hmem
    · cases List.mem_singleton.1 he
      exact .inl ⟨p, by rw [hp]; exact ⟨rfl, rfl, rfl⟩⟩
  · rw [hexits, List.map_append, List.nodup_append]
    refine ⟨h.nodup, by simp, ?_⟩
    intro x hx y hy
    obtain ⟨e, he, rfl⟩ := List.mem_map.1 hx
    cases List.mem_singleton.1 hy
    exact h.alive p hu hz e he
  · rw [hreaps]
    exact h.once
  · rw [hreaps] at hr
    obtain ⟨h1, h2, st', hst, h3⟩ := h.reap r hr
    refine ⟨h1, h2, st', ?_, h3⟩
    rw [hexits]
    exact List.mem_append_left _ hst

theorem Books.reaped {addr : Nat} (h : Books s) (hparent : (s.tasks q).parent = some p)
    (hzombie : (s.tasks q).state = .zombie)
    (htasks : s'.tasks = Function.update s.tasks q (freed (s.tasks q)))
    (hnext : s'.nextPid = s.nextPid) (hexits : s'.exits = s.exits)
    (hreaps : s'.reaps = s.reaps ++ [⟨p, (s.tasks q).parent, (s.tasks q).pid, (s.tasks q).pid, addr,
      if addr ≠ 0 then some (s.tasks q).xstate else none⟩]) : Books s' := by
  have hq : (s'.tasks q).state = .unused := by
    rw [htasks, Function.update_self]
    rfl
  have hiq : ∀ i, (s'.tasks i).state ≠ .unused → i ≠ q := by
    rintro i hi rfl
    exact hi hq
  have hne : ∀ i, (s'.tasks i).state ≠ .unused → s'.tasks i = s.tasks i := by
    intro i hi
    rw [htasks, Function.update_of_ne (hiq i hi)]
  have hqu : (s.tasks q).state ≠ .unused := by simp [hzombie]
  obtain ⟨hexit, hno⟩ := h.exited q hzombie
  refine ⟨fun i hi => ?_, fun i j hi hj hij => ?_, fun z hz => ?_, fun i hu hz e he => ?_,
    fun e he => ?_, fun e he => ?_, ?_, ?_, fun r hr => ?_⟩
  · have heq := hne i hi
    rw [heq] at hi ⊢
    rw [hnext]
    exact h.fresh i hi
  · rw [hne i hi, hne j hj] at hij
    rw [hne i hi] at hi
    rw [hne j hj] at hj
    exact h.distinct i j hi hj hij
  · have hzu : (s'.tasks z).state ≠ .unused := by simp [hz]
    have hzq := hiq z hzu
    have heq := hne z hzu
    rw [heq] at hz hzu ⊢
    obtain ⟨h1, h2⟩ := h.exited z hz
    rw [hexits, hreaps, List.map_append]
    refine ⟨h1, fun hmem => ?_⟩
    rcases List.mem_append.1 hmem with hmem | hmem
    · exact h2 hmem
    · exact hzq (h.distinct z q hzu hqu (List.mem_singleton.1 hmem))
  · rw [hexits] at he
    have heq := hne i hu
    rw [heq] at hu hz ⊢
    exact h.alive i hu hz e he
  · rw [hexits] at he
    rw [hnext]
    exact h.old e he
  · rw [hexits] at he
    rw [hreaps, List.map_append]
    rcases h.kept e he with ⟨z, hz, hpid, hx⟩ | hmem
    · by_cases hzq : z = q
      · subst hzq
        exact .inr (List.mem_append_right _ (by simp [hpid]))
      · exact .inl ⟨z, by rw [htasks, Function.update_of_ne hzq]; exact ⟨hz, hpid, hx⟩⟩
    · exact .inr (List.mem_append_left _ hmem)
  · rw [hexits]
    exact h.nodup
  · rw [hreaps, List.map_append, List.nodup_append]
    refine ⟨h.once, by simp, ?_⟩
    rintro x hx y hy rfl
    rw [List.mem_singleton.1 hy] at hx
    exact hno hx
  · rw [hexits]
    rw [hreaps] at hr
    rcases List.mem_append.1 hr with hr | hr
    · exact h.reap r hr
    · cases List.mem_singleton.1 hr
      exact ⟨hparent, rfl, _, hexit, rfl⟩

theorem Books.turn (h : Books s) (ht : Turn s s') : Books s' := by
  cases ht with
  | keeps hk => exact h.keeps hk
  | alloc np h1 h2 h3 h4 h5 => exact h.alloc h1 h2 h3 h4 h5
  | drop np h1 h2 h3 h4 h5 => exact h.drop h1 h2 h3 h4 h5
  | exit p st h1 h2 h3 h4 h5 => exact h.exit h1 h2 h3 h4 h5
  | reap p q addr h1 h2 h3 h4 h5 h6 => exact h.reaped h1 h2 h3 h4 h5 h6

theorem books_boot (init : ι) : Books (boot init) := by
  have hz : ∀ i, ((boot init).tasks i).state ≠ .zombie := by
    intro i
    by_cases hi : i = init <;> simp [boot, hi]
  have hu : ∀ i, ((boot init).tasks i).state ≠ .unused → i = init := by
    intro i hi
    by_contra hne
    simp [boot, hne] at hi
  refine ⟨fun i hi => ?_, fun i j hi hj _ => ?_, fun z h => absurd h (hz z), by simp [boot],
    by simp [boot], by simp [boot], by simp [boot], by simp [boot], by simp [boot]⟩
  · rw [hu i hi]
    simp [boot]
  · rw [hu i hi, hu j hj]

/-! ## A zombie can be reaped -/

/-- Who holds the lock of a process between two steps. -/
def Held (s : WaitState ι) : Prop :=
  ∀ i, s.held i = true →
    s.pc i = .dead ∨ (∃ addr, s.pc i = .waitCommit addr) ∨ ∃ f, s.pc f = .forkCopy i

/-- A process goes on. -/
theorem Held.move {c : WaitPc ι} (h : Held s) (hpc : s'.pc = Function.update s.pc p c)
    (hheld : ∀ i, s'.held i = true →
      s.held i = true ∧ s.pc p ≠ .forkCopy i ∧
        (i = p → s.pc p ≠ .dead ∧ ∀ addr, s.pc p ≠ .waitCommit addr) ∨
      i = p ∧ (c = .dead ∨ ∃ addr, c = .waitCommit addr) ∨ c = .forkCopy i) : Held s' := by
  have hp : s'.pc p = c := by rw [hpc, Function.update_self]
  have hne : ∀ i ≠ p, s'.pc i = s.pc i := by
    intro i hi
    rw [hpc, Function.update_of_ne hi]
  intro i hi
  rcases hheld i hi with ⟨hi', hfork, hself⟩ | ⟨rfl, hd | ⟨addr, hw⟩⟩ | hf
  · rcases h i hi' with hd | ⟨addr, hw⟩ | ⟨f, hf⟩
    · refine .inl ?_
      rw [hne i, hd]
      rintro rfl
      exact (hself rfl).1 hd
    · refine .inr (.inl ⟨addr, ?_⟩)
      rw [hne i, hw]
      rintro rfl
      exact (hself rfl).2 addr hw
    · refine .inr (.inr ⟨f, ?_⟩)
      rw [hne f, hf]
      rintro rfl
      exact hfork hf
  · exact .inl (hp.trans hd)
  · exact .inr (.inl ⟨addr, hp.trans hw⟩)
  · exact .inr (.inr ⟨p, hp.trans hf⟩)

/-- A process that holds no such lock goes on. -/
theorem Held.go {pc' : WaitPc ι} (h : Held s) (hheld : s'.held = s.held)
    (hpc : s'.pc = Function.update s.pc p pc')
    (hp : s.pc p ≠ .dead ∧ (∀ addr, s.pc p ≠ .waitCommit addr) ∧ ∀ i, s.pc p ≠ .forkCopy i) :
    Held s' := by
  refine h.move hpc fun i hi => .inl ⟨?_, hp.2.2 i, fun _ => ⟨hp.1, hp.2.1⟩⟩
  rwa [hheld] at hi

omit [DecidableEq ι] in
theorem Held.same (h : Held s) (hheld : s'.held = s.held) (hpc : s'.pc = s.pc) : Held s' := by
  intro i hi
  rw [hpc]
  rw [hheld] at hi
  exact h i hi

theorem Held.advance {ok : Bool} (h : Held s)
    (hs : s.advance procs init p ok (s.pc p) = some s') : Held s' := by
  cases hpc : s.pc p with
  | idle =>
    rw [hpc] at hs
    cases hs
  | forkCopy np =>
    have hfree : ∀ i, (s.setHeld np false).held i = true → s.held i = true ∧ i ≠ np := by
      intro i hi
      have hin : i ≠ np := by
        rintro rfl
        simp [setHeld] at hi
      exact ⟨by simpa [setHeld, hin] using hi, hin⟩
    simp only [hpc, WaitState.advance] at hs
    split at hs <;> cases hs
    all_goals
      refine h.move rfl fun i hi => ?_
      obtain ⟨hi', hin⟩ := hfree i hi
      exact .inl ⟨hi', by simp [hpc, Ne.symm hin], by simp [hpc]⟩
  | forkParent np =>
    simp only [hpc, WaitState.advance] at hs
    split at hs <;> cases hs
    exact h.go rfl rfl (by simp [hpc])
  | forkRunnable np =>
    simp only [hpc, WaitState.advance] at hs
    split at hs <;> cases hs
    exact h.go rfl rfl (by simp [hpc])
  | exitEnter st =>
    simp only [hpc, WaitState.advance] at hs
    split at hs <;> cases hs
    exact h.go rfl rfl (by simp [hpc])
  | exitReparent st l =>
    rw [hpc] at hs
    cases l with
    | nil =>
      cases hs
      exact h.go rfl rfl (by simp [hpc])
    | cons q l =>
      simp only [WaitState.advance] at hs
      split at hs <;> cases hs <;> exact h.go rfl rfl (by simp [hpc])
  | exitWakeInit st l w =>
    rw [hpc] at hs
    cases w with
    | nil =>
      cases hs
      exact h.go rfl rfl (by simp [hpc])
    | cons q w =>
      obtain ⟨hwpc, -, hwheld, -⟩ := wake_frame (s := s) (p := p) (q := q) (some init)
      simp only [WaitState.advance] at hs
      split at hs <;> cases hs
      exact (h.same hwheld hwpc).go rfl rfl (by simp [hwpc, hpc])
  | exitWake st w =>
    rw [hpc] at hs
    cases w with
    | nil =>
      cases hs
      exact h.go rfl rfl (by simp [hpc])
    | cons q w =>
      obtain ⟨hwpc, -, hwheld, -⟩ := wake_frame (s := s) (p := p) (q := q) (s.tasks p).parent
      simp only [WaitState.advance] at hs
      split at hs <;> cases hs
      exact (h.same hwheld hwpc).go rfl rfl (by simp [hwpc, hpc])
  | exitZombie st =>
    simp only [hpc, WaitState.advance] at hs
    split at hs <;> cases hs
    refine h.move (c := .dead) rfl fun i hi => ?_
    by_cases hip : i = p
    · exact .inr (.inl ⟨hip, .inl rfl⟩)
    · exact .inl ⟨by simpa [setHeld, setTask, goto, hip] using hi, by simp [hpc], by simp [hip]⟩
  | dead =>
    rw [hpc] at hs
    cases hs
  | waitEnter addr =>
    simp only [hpc, WaitState.advance] at hs
    split at hs <;> cases hs
    exact h.go rfl rfl (by simp [hpc])
  | waitScan addr l b =>
    rw [hpc] at hs
    cases l with
    | nil =>
      simp only [WaitState.advance] at hs
      split at hs <;> cases hs <;> exact h.go rfl rfl (by simp [hpc])
    | cons q l =>
      simp only [WaitState.advance] at hs
      split at hs
      · split at hs
        · cases hs
          rw [waitChild]
          split
          · split <;> exact h.go rfl rfl (by simp [hpc])
          · exact h.go rfl rfl (by simp [hpc])
        · cases hs
      · cases hs
        exact h.go rfl rfl (by simp [hpc])
  | waitSleep addr =>
    simp only [hpc, WaitState.advance] at hs
    split at hs <;> cases hs
    refine h.move (c := .waitCommit addr) rfl fun i hi => ?_
    by_cases hip : i = p
    · exact .inr (.inl ⟨hip, .inr ⟨addr, rfl⟩⟩)
    · exact .inl ⟨by simpa [setHeld, setTask, goto, hip] using hi, by simp [hpc], by simp [hip]⟩
  | waitCommit addr =>
    simp only [hpc, WaitState.advance] at hs
    cases hs
    refine h.move rfl fun i hi => ?_
    have hip : i ≠ p := by
      rintro rfl
      simp [setHeld, setTask, goto] at hi
    exact .inl ⟨by simpa [setHeld, setTask, goto, hip] using hi, by simp [hpc], by simp [hip]⟩

theorem Held.step {a : WaitAct ι} (h : Held s) (hsound : Sound init s)
    (hs : s.step procs init a = some (.ok s')) : Held s' := by
  cases a with
  | run p =>
    simp only [WaitState.step] at hs
    split at hs <;> cases hs
    exact h.same rfl rfl
  | yield p =>
    simp only [WaitState.step] at hs
    split at hs
    · cases hs
      exact h.same rfl rfl
    · split at hs <;> cases hs
      intro i hi
      refine h i ?_
      by_cases hip : i = p
      · simp [setHeld, hip] at hi
      · simpa [setHeld, hip] using hi
  | sleepOther p =>
    simp only [WaitState.step] at hs
    split at hs <;> cases hs
    exact h.same rfl rfl
  | wakeOther p =>
    simp only [WaitState.step] at hs
    split at hs <;> cases hs
    exact h.same rfl rfl
  | kill p =>
    simp only [WaitState.step] at hs
    split at hs <;> cases hs
    exact h.same rfl rfl
  | fork p np =>
    simp only [WaitState.step] at hs
    split at hs
    · next hc =>
      split at hs <;> cases hs
      next hu =>
      have hplace : ∀ i, s.pc np ≠ .forkCopy i := by
        intro i hi
        have hfits := hsound.fits np
        simp [hi, hu.2] at hfits
      have hreset : Held (s.goto np .idle) := by
        refine h.move rfl fun i hi => .inl ⟨hi, hplace i, ?_⟩
        rintro rfl
        exact absurd (hu.1.symm.trans hi) (by simp)
      have hnp : p ≠ np := by
        rintro rfl
        rw [hc.1] at hu
        cases hu.2
      have hpcp : (s.goto np .idle).pc p = .idle := (Function.update_of_ne hnp ..).trans hc.2
      refine hreset.move (p := p) (c := .forkCopy np) rfl fun i hi => ?_
      by_cases hin : i = np
      · exact .inr (.inr (by rw [hin]))
      · exact .inl ⟨by simpa [setHeld, setTask, goto, hin] using hi, by simp [hpcp],
          by simp [hpcp]⟩
    · cases hs
  | exit p st =>
    simp only [WaitState.step] at hs
    split at hs
    · next hc =>
      split at hs <;> cases hs
      exact h.go rfl rfl (by simp [hc.2])
    · cases hs
  | wait p addr =>
    simp only [WaitState.step] at hs
    split at hs <;> cases hs
    next hc => exact h.go rfl rfl (by simp [hc.2])
  | step p ok =>
    simp only [WaitState.step] at hs
    split at hs
    · obtain ⟨s₁, hs, hs₁⟩ := Option.map_eq_some_iff.1 hs
      cases hs₁
      exact h.advance hs
    · cases hs

omit [DecidableEq ι] in
theorem held_boot [DecidableEq ι] (init : ι) : Held (boot init) := by
  intro i hi
  cases hi

/-- The scan of the process `p` goes on the same after some steps of others. -/
structure Aside (p : ι) (s s' : WaitState ι) : Prop where
  pc : s'.pc p = s.pc p
  task : s'.tasks p = s.tasks p
  parent : ∀ i, (s'.tasks i).parent = (s.tasks i).parent
  pid : ∀ i, (s'.tasks i).pid = (s.tasks i).pid
  zombie : ∀ i, (s'.tasks i).state = .zombie ↔ (s.tasks i).state = .zombie

variable (procs) in
/-- The lock of a child becomes free. -/
theorem child_unlocked (h : Sound init s) (hheld : Held s) (hq : (s.tasks q).parent = some p) :
    ∃ bs s', Machine.Run (WaitState.step procs init) s bs s' ∧ s'.held q = false ∧ Aside p s s' := by
  have hqp : q ≠ p := by
    rintro rfl
    exact h.irrefl q hq
  cases hlock : s.held q with
  | false => exact ⟨[], s, .nil, hlock, rfl, rfl, fun _ => rfl, fun _ => rfl, fun _ => Iff.rfl⟩
  | true =>
    rcases hheld q hlock with hd | ⟨addr, hw⟩ | ⟨f, hf⟩
    · -- the scheduler switches away from the zombie
      have hst : ¬ ((s.tasks q).state = .running ∧ preemptible (s.pc q) = true) := by
        simp [hd, preemptible]
      refine ⟨[.yield q], s.setHeld q false, (Machine.Run.nil (s := s)).snoc ?_,
        Function.update_self .., rfl, rfl, fun _ => rfl, fun _ => rfl, fun _ => Iff.rfl⟩
      simp only [WaitState.step]
      rw [if_neg hst, if_pos hd]
    · -- the child goes to sleep
      have hrun : (s.tasks q).state = .running := by simpa [hw] using h.fits q
      have hstep : s.step procs init (.step q true) = some (.ok (((s.setTask q fun t =>
          { t with chan := some (.proc q), state := .sleeping }).setHeld q false).goto q
            (.waitEnter addr))) := by
        simp only [WaitState.step]
        rw [if_pos hrun, hw]
        rfl
      refine ⟨_, _, Machine.Run.nil.snoc hstep, ?_, ?_, ?_, ?_, ?_, ?_⟩
      · simp [setHeld, goto]
      · simp [goto, Ne.symm hqp, setHeld, setTask]
      · simp [goto, Ne.symm hqp, setHeld, setTask]
      · intro i
        by_cases hi : i = q <;> simp [goto, setHeld, setTask, hi]
      · intro i
        by_cases hi : i = q <;> simp [goto, setHeld, setTask, hi]
      · intro i
        by_cases hi : i = q <;> simp [goto, setHeld, setTask, hi, hrun]
    · obtain ⟨-, hparent⟩ := h.newborn f q none (by rw [hf]; rfl)
      rw [hq] at hparent
      cases hparent

/-- A run in which the process `p` reaps the process with this process ID. -/
def CanReap (procs : List ι) (init p : ι) (pid : Int) (s : WaitState ι) : Prop :=
  ∃ bs s', Machine.Run (WaitState.step procs init) s bs s' ∧
    ∃ r ∈ s'.reaps, r.caller = p ∧ r.pid = pid

omit [DecidableEq ι] in
theorem CanReap.of_run [DecidableEq ι] {procs : List ι} {pid : Int} {bs : List (WaitAct ι)}
    (h : Machine.Run (WaitState.step procs init) s bs s') (h' : CanReap procs init p pid s') :
    CanReap procs init p pid s := by
  obtain ⟨cs, t, ht, hr⟩ := h'
  exact ⟨bs ++ cs, t, h.append ht, hr⟩

/-- The processes at the beginning of another `wait` of `p`. -/
structure Waiting (p z : ι) (s : WaitState ι) : Prop where
  lock : s.waitLock = none
  pc : s.pc p = .idle
  run : (s.tasks p).state = .running
  parent : (s.tasks z).parent = some p
  zombie : (s.tasks z).state = .zombie

/-- The zombie `z` can be reaped, or another one can be reaped before the next `wait` of `p`. -/
def Progress (procs : List ι) (init p z : ι) (s : WaitState ι) : Prop :=
  CanReap procs init p (s.tasks z).pid s ∨
    ∃ bs s' q, Machine.Run (WaitState.step procs init) s bs s' ∧ Waiting p z s' ∧
      (s'.tasks z).pid = (s.tasks z).pid ∧ (s.tasks q).state = .zombie ∧
      (s'.tasks q).state ≠ .zombie ∧
      ∀ i, (s'.tasks i).state = .zombie → (s.tasks i).state = .zombie

theorem Progress.of_run {z : ι} {bs : List (WaitAct ι)}
    (h : Machine.Run (WaitState.step procs init) s bs s')
    (hpid : (s'.tasks z).pid = (s.tasks z).pid)
    (hzombie : ∀ i, (s'.tasks i).state = .zombie ↔ (s.tasks i).state = .zombie)
    (h' : Progress procs init p z s') : Progress procs init p z s := by
  rcases h' with hreap | ⟨cs, t, q, ht, hwait, hpid', hq, hq', hsub⟩
  · rw [hpid] at hreap
    exact .inl (hreap.of_run h)
  · exact .inr ⟨_, t, q, h.append ht, hwait, hpid'.trans hpid, (hzombie q).1 hq, hq',
      fun i hi => (hzombie i).1 (hsub i hi)⟩

/-- What holds along a run. -/
theorem run_sound {bs : List (WaitAct ι)} (hall : ∀ i, i ∈ procs) (h : Sound init s) (hheld : Held s)
    (hrun : Machine.Run (WaitState.step procs init) s bs s') : Sound init s' ∧ Held s' :=
  hrun.invariant (P := fun s => Sound init s ∧ Held s) ⟨h, hheld⟩
    fun _ _ _ hs hstep => ⟨hs.1.step hall hstep, hs.2.step hs.1 hstep⟩

/-- The scan reaps a zombie whose lock is free. -/
theorem reap_progress {z : ι} {l : List ι} {b : Bool} (h : Sound init s)
    (hpc : s.pc p = .waitScan 0 (q :: l) b) (hz : (s.tasks z).parent = some p)
    (hzz : (s.tasks z).state = .zombie) (hq : (s.tasks q).parent = some p)
    (hqz : (s.tasks q).state = .zombie) (hfree : s.held q = false) :
    Progress procs init p z s := by
  have hrun : (s.tasks p).state = .running := by simpa [hpc] using h.fits p
  have hqp : p ≠ q := by
    rintro rfl
    exact h.irrefl p hq
  have hstep : s.step procs init (.step p true) =
      some (.ok (waitReturn p { s.setTask q freed with
        reaps := s.reaps ++ [⟨p, (s.tasks q).parent, (s.tasks q).pid, (s.tasks q).pid, 0, none⟩] })) := by
    simp only [WaitState.step]
    rw [if_pos hrun, hpc]
    simp [WaitState.advance, waitChild, hq, hqz, hfree]
  have hrun1 := Machine.Run.nil.snoc hstep
  by_cases hzq : z = q
  · refine .inl ⟨_, _, hrun1, _, List.mem_append_right _ (List.mem_singleton_self _), rfl, ?_⟩
    rw [hzq]
  · have htask : ∀ i ≠ q, (waitReturn p { s.setTask q freed with
        reaps := s.reaps ++ [⟨p, (s.tasks q).parent, (s.tasks q).pid, (s.tasks q).pid, 0, none⟩] }).tasks i
          = s.tasks i := fun i hi => Function.update_of_ne hi ..
    have hfreed : (waitReturn p { s.setTask q freed with
        reaps := s.reaps ++ [⟨p, (s.tasks q).parent, (s.tasks q).pid, (s.tasks q).pid, 0, none⟩] }).tasks q
          = freed (s.tasks q) := Function.update_self ..
    refine .inr ⟨_, _, q, hrun1, ⟨rfl, Function.update_self .., ?_, ?_, ?_⟩, ?_, hqz, ?_, ?_⟩
    · rw [htask p hqp]
      exact hrun
    · rw [htask z hzq]
      exact hz
    · rw [htask z hzq]
      exact hzz
    · rw [htask z hzq]
    · rw [hfreed]
      simp [freed]
    · intro i hi
      by_cases hiq : i = q
      · rw [hiq]
        exact hqz
      · rwa [htask i hiq] at hi

/-- A scan with a zombie before it reaps this one or another one. -/
theorem scan_progress {z : ι} (hall : ∀ i, i ∈ procs) {l : List ι} :
    ∀ {s : WaitState ι} {b : Bool}, Sound init s → Held s → s.pc p = .waitScan 0 l b →
      (s.tasks z).parent = some p → (s.tasks z).state = .zombie → Progress procs init p z s := by
  induction l with
  | nil =>
    intro s b h _ hpc hz hzz
    exact absurd (h.scanned p [] (by rw [hpc]; rfl) z hz hzz) (by simp)
  | cons q l ih =>
    -- the scan goes on behind `q`
    have hskip : ∀ {s : WaitState ι} {b : Bool}, Sound init s → Held s →
        (s.tasks z).parent = some p → (s.tasks z).state = .zombie →
        s.step procs init (.step p true) = some (.ok (s.goto p (.waitScan 0 l b))) →
        Progress procs init p z s := by
      intro s b h hheld hz hzz hstep
      exact .of_run (Machine.Run.nil.snoc hstep) rfl (fun _ => Iff.rfl)
        (ih (h.step hall hstep) (hheld.step h hstep) (Function.update_self ..) hz hzz)
    intro s b h hheld hpc hz hzz
    have hrun : (s.tasks p).state = .running := by simpa [hpc] using h.fits p
    by_cases hq : (s.tasks q).parent = some p
    · obtain ⟨bs, s₁, hrun₁, hfree, haside⟩ := child_unlocked procs h hheld hq
      obtain ⟨h₁, hheld₁⟩ := run_sound hall h hheld hrun₁
      have hpc₁ := haside.pc.trans hpc
      have hz₁ := (haside.parent z).trans hz
      have hzz₁ := (haside.zombie z).2 hzz
      have hq₁ := (haside.parent q).trans hq
      refine .of_run hrun₁ (haside.pid z) haside.zombie ?_
      by_cases hqz : (s₁.tasks q).state = .zombie
      · exact reap_progress h₁ hpc₁ hz₁ hzz₁ hq₁ hqz hfree
      · refine hskip (b := true) h₁ hheld₁ hz₁ hzz₁ ?_
        simp only [WaitState.step]
        rw [haside.task, if_pos hrun, hpc₁]
        simp [WaitState.advance, waitChild, hq₁, hqz, hfree]
    · refine hskip (b := b) h hheld hz hzz ?_
      simp only [WaitState.step]
      rw [if_pos hrun, hpc]
      simp [WaitState.advance, hq]

variable (procs init) in
/-- A call of `wait` gets to its scan. -/
theorem wait_enters {z : ι} (hw : Waiting p z s) :
    ∃ bs s', Machine.Run (WaitState.step procs init) s bs s' ∧ s'.pc p = .waitScan 0 procs false ∧
      ∀ i, (s'.tasks i).state = (s.tasks i).state ∧ (s'.tasks i).parent = (s.tasks i).parent ∧
        (s'.tasks i).pid = (s.tasks i).pid := by
  have hcall : s.step procs init (.wait p 0) = some (.ok (s.goto p (.waitEnter 0))) := by
    simp [WaitState.step, hw.run, hw.pc]
  have henter : (s.goto p (.waitEnter 0)).step procs init (.step p true) =
      some (.ok { ((s.goto p (.waitEnter 0)).setTask p fun t => { t with chan := none }).goto p
        (.waitScan 0 procs false) with waitLock := some p }) := by
    simp [WaitState.step, goto, hw.run, hw.lock, WaitState.advance]
  refine ⟨_, _, (Machine.Run.nil.snoc hcall).snoc henter, Function.update_self .., fun i => ?_⟩
  by_cases hi : i = p <;> simp [goto, setTask, hi]

/-- **A zombie child can be reaped** by a process that is not in the kernel. -/
theorem canReap [Fintype ι] {z : ι} (hall : ∀ i, i ∈ procs) :
    ∀ {n : Nat} {s : WaitState ι}, (Finset.univ.filter fun i => (s.tasks i).state = .zombie).card ≤ n →
      Sound init s → Held s → Waiting p z s → CanReap procs init p (s.tasks z).pid s := by
  intro n
  induction n with
  | zero =>
    intro s hn _ _ hw
    have hmem : z ∈ Finset.univ.filter fun i => (s.tasks i).state = .zombie := by simp [hw.zombie]
    rw [Finset.card_eq_zero.1 (Nat.le_zero.1 hn)] at hmem
    simp at hmem
  | succ n ih =>
    intro s hn h hheld hw
    obtain ⟨bs, s₁, hrun, hpc, hsame⟩ := wait_enters init procs hw
    obtain ⟨h', hheld'⟩ := run_sound hall h hheld hrun
    have hprogress : Progress procs init p z s := by
      refine .of_run hrun (hsame z).2.2 (fun i => by rw [(hsame i).1]) ?_
      refine scan_progress hall h' hheld' hpc ?_ ?_
      · rw [(hsame z).2.1]
        exact hw.parent
      · rw [(hsame z).1]
        exact hw.zombie
    rcases hprogress with hreap | ⟨bs, t, q, ht, hwt, hpid, hq, hq', hsub⟩
    · exact hreap
    · obtain ⟨h₁, hheld₁⟩ := run_sound hall h hheld ht
      rw [← hpid]
      refine (ih (Nat.le_of_lt_succ ?_) h₁ hheld₁ hwt).of_run ht
      refine (Finset.card_lt_card ?_).trans_le hn
      rw [Finset.ssubset_iff_of_subset]
      · exact ⟨q, by simp [hq], by simp [hq']⟩
      · intro i hi
        simp only [Finset.mem_filter, Finset.mem_univ, true_and] at hi ⊢
        exact hsub i hi

end

end WaitState

/-- **`exit` and `wait` agree**: while nobody holds `wait_lock`, a zombie has a live parent that does not
sleep in `wait`; a process that has exited is a zombie until its parent reaps it, once, and gets its process
ID and its status; and a `wait` that cannot copy the status leaves the zombie to be reaped later. -/
theorem exit_wait_agreement {N : Nat} {init : Fin N} {as : List (WaitAct (Fin N))}
    {s : WaitState (Fin N)}
    (h : Machine.Run (WaitState.step (List.finRange N) init) (WaitState.boot init) as s) :
    (s.waitLock = none →
      (∀ z, (s.tasks z).state = .zombie → ∃ p, (s.tasks z).parent = some p ∧
        (s.tasks p).state ≠ .unused ∧ (s.tasks p).state ≠ .zombie) ∧
      ∀ p z, (s.tasks p).state = .sleeping → (s.tasks p).chan = some (.proc p) →
        (s.tasks z).parent = some p → (s.tasks z).state ≠ .zombie) ∧
    (∀ e ∈ s.exits, (∃ z, (s.tasks z).state = .zombie ∧ (s.tasks z).pid = e.1 ∧
      (s.tasks z).xstate = e.2) ∨ ∃ r ∈ s.reaps, r.pid = e.1) ∧
    (s.exits.map Prod.fst).Nodup ∧ (s.reaps.map Reap.pid).Nodup ∧
    (∀ r ∈ s.reaps, r.parent = some r.caller ∧ r.result = r.pid ∧
      ∃ st, (r.pid, st) ∈ s.exits ∧ r.copied = if r.addr ≠ 0 then some st else none) ∧
    ∀ p z addr todo havekids s', s.pc p = .waitScan addr (z :: todo) havekids →
      (s.tasks z).parent = some p → (s.tasks z).state = .zombie → addr ≠ 0 →
      s.step (List.finRange N) init (.step p false) = some (.ok s') →
      s'.tasks = s.tasks ∧ s'.reaps = s.reaps ∧ s'.pc p = .idle ∧
        WaitState.CanReap (List.finRange N) init p (s.tasks z).pid s' := by
  have hall : ∀ i, i ∈ List.finRange N := List.mem_finRange
  obtain ⟨⟨hsound, hheld⟩, hbooks⟩ := h.invariant
    (P := fun s => (WaitState.Sound init s ∧ WaitState.Held s) ∧ WaitState.Books s)
    ⟨⟨WaitState.sound_boot init, WaitState.held_boot init⟩, WaitState.books_boot init⟩
    fun _ _ _ hs hstep => ⟨⟨hs.1.1.step hall hstep, hs.1.2.step hs.1.1 hstep⟩,
      hs.2.turn (WaitState.turn_step hs.1.1 hstep)⟩
  refine ⟨fun hfree => ⟨fun z hz => ?_, fun p z hp hc hz hzz => ?_⟩, fun e he => ?_, hbooks.nodup,
    hbooks.once, hbooks.reap, fun p z addr todo b s' hpc hz hzz haddr hstep => ?_⟩
  · have hne : z ≠ init := by
      rintro rfl
      exact hsound.live.ne_zombie hz
    obtain ⟨p, hp⟩ := Option.ne_none_iff_exists'.1 (hsound.child z (.inr hz) hne)
    have hlive := hsound.parent z p hp
    exact ⟨p, hp, hlive.ne_unused, hlive.ne_zombie⟩
  · obtain ⟨-, e, l, he, -⟩ := hsound.zombie z p hzz hz (.inr ⟨hp, hc⟩)
    have hlock := hsound.wait e (WaitState.holdsWait_of_toWakeInit he)
    rw [hfree] at hlock
    cases hlock
  · rcases hbooks.kept e he with hz | hmem
    · exact .inl hz
    · exact .inr (List.mem_map.1 hmem)
  · have hrun : (s.tasks p).state = .running := by simpa [hpc] using hsound.fits p
    have hreturn : s' = s.waitReturn p := by
      simp only [WaitState.step] at hstep
      rw [if_pos hrun, hpc] at hstep
      simp only [WaitState.advance, WaitState.waitChild, hz, hzz, if_true] at hstep
      split at hstep
      · rw [if_pos ⟨haddr, trivial⟩] at hstep
        cases hstep
        rfl
      · cases hstep
    have hs' : WaitState.Sound init s' ∧ WaitState.Held s' :=
      ⟨hsound.step hall hstep, hheld.step hsound hstep⟩
    subst hreturn
    refine ⟨rfl, rfl, Function.update_self .., ?_⟩
    exact WaitState.canReap hall le_rfl hs'.1 hs'.2 ⟨rfl, Function.update_self .., hrun, hz, hzz⟩

/-- The first process forks, sleeps in `wait`, is woken up by the `exit` of its child, cannot copy the
status, and waits again. -/
def waitTwice : List (WaitAct (Fin 2)) :=
  [.run 0, .fork 0 1, .step 0 true, .step 0 true, .step 0 true, .wait 0 64, .step 0 true, .step 0 true,
    .step 0 true, .step 0 true, .step 0 true, .step 0 true, .run 1, .exit 1 7, .step 1 true,
    .step 1 true, .step 1 true, .step 1 true, .step 1 true, .step 1 true, .step 1 true, .step 1 true,
    .yield 1, .run 0, .step 0 true, .step 0 true, .step 0 false, .wait 0 64, .step 0 true, .step 0 true,
    .step 0 true]

/-- The child of `waitTwice` is reaped, once. -/
theorem exit_wait_agreement_twice : ∃ s : WaitState (Fin 2),
    Machine.Run (WaitState.step (List.finRange 2) 0) (WaitState.boot 0) waitTwice s ∧
    s.exits = [(2, 7)] ∧ s.reaps.map Reap.copied = [some 7] ∧ (s.reaps.map Reap.pid).Nodup := by
  have hrun : ∃ s : WaitState (Fin 2),
      Machine.Run (WaitState.step (List.finRange 2) 0) (WaitState.boot 0) waitTwice s ∧
      s.exits = [(2, 7)] ∧ s.reaps.map Reap.copied = [some 7] :=
    ⟨_, Machine.run_of_exec rfl, rfl, rfl⟩
  obtain ⟨s, hs, hexits, hreaps⟩ := hrun
  exact ⟨s, hs, hexits, hreaps, (exit_wait_agreement hs).2.2.2.1⟩

end Xv6pp
