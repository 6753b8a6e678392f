import Xv6pp.Proc.ExitWait

/-!
# Parents, children and who is woken up

A process that sleeps in `wait` has looked at all its children while it held `wait_lock`, and a process that
ends holds `wait_lock` from the reparenting of its own children to the assignment of `ZOMBIE`.  So the
parent of a zombie is awake, except for the short time in which `reparent` has handed a zombie to the first
process and has not woken it up yet.
-/

set_option autoImplicit false

namespace Xv6pp

namespace WaitState

variable {ι : Type}

/-! ## What a place says -/

/-- Does a process hold `wait_lock` at this place? -/
@[simp] def holdsWait : WaitPc ι → Bool
  | .exitReparent .. | .exitWakeInit .. | .exitWake .. | .exitZombie _ | .waitScan .. | .waitSleep _ => true
  | _ => false

/-- Is a process past the test of `exit` at this place? -/
@[simp] def ending : WaitPc ι → Bool
  | .exitEnter _ | .exitReparent .. | .exitWakeInit .. | .exitWake .. | .exitZombie _ | .dead => true
  | _ => false

/-- The new process of an unfinished `fork`, and its parent at this place. -/
@[simp] def newborn (p : ι) : WaitPc ι → Option (ι × Option ι)
  | .forkCopy np | .forkParent np => some (np, none)
  | .forkRunnable np => some (np, some p)
  | _ => none

/-- The processes among which `reparent` has still to look for children. -/
@[simp] def toReparent : WaitPc ι → Option (List ι)
  | .exitReparent _ todo | .exitWakeInit _ todo _ => some todo
  | .exitWake .. | .exitZombie _ => some []
  | _ => none

/-- The processes among which `wait` has still to look for zombies. -/
@[simp] def toScan : WaitPc ι → Option (List ι)
  | .waitScan _ todo _ => some todo
  | .waitSleep _ => some []
  | _ => none

/-- The processes `wakeup(parent)` has still to look at. -/
@[simp] def toWake : WaitPc ι → Option (List ι)
  | .exitWake _ w => some w
  | .exitZombie _ => some []
  | _ => none

/-- The processes `wakeup(initprocess)` has still to look at. -/
@[simp] def toWakeInit : WaitPc ι → Option (List ι)
  | .exitWakeInit _ _ w => some w
  | _ => none

/-- A process that was made `RUNNABLE` and has not ended. -/
def Started (t : Task ι) : Prop := t.state = .sleeping ∨ t.state = .runnable ∨ t.state = .running

/-- What a place says about the state of the process. -/
@[simp] def Fits (i : ι) (t : Task ι) : WaitPc ι → Prop
  | .idle => t.state ≠ .zombie ∧ (t.state = .sleeping → t.chan = some .other)
  | .dead => t.state = .zombie ∨ t.state = .unused
  | .waitEnter _ => t.state = .runnable ∨ t.state = .running ∨
      t.state = .sleeping ∧ t.chan = some (.proc i)
  | .forkParent _ | .forkRunnable _ | .exitEnter _ => t.state = .runnable ∨ t.state = .running
  | _ => t.state = .running

/-- The process sleeps in `wait`, or is going to without another look at the table. -/
def Settled (i : ι) (t : Task ι) (pc : WaitPc ι) : Prop :=
  (∃ addr, pc = .waitSleep addr ∨ pc = .waitCommit addr) ∨
    t.state = .sleeping ∧ t.chan = some (.proc i)

/-- What holds in every reachable state. -/
structure Sound (init : ι) (s : WaitState ι) : Prop where
  /-- `wait_lock` is held where a place says so. -/
  wait : ∀ p, holdsWait (s.pc p) = true → s.waitLock = some p
  /-- Places and states agree. -/
  fits : ∀ p, Fits p (s.tasks p) (s.pc p)
  /-- A process going to sleep in `wait` holds its own lock. -/
  commit : ∀ p addr, s.pc p = .waitCommit addr → s.held p = true
  /-- A parent lives. -/
  parent : ∀ i q, (s.tasks i).parent = some q → Started (s.tasks q)
  /-- A process that is not in use has no parent. -/
  unused : ∀ i, (s.tasks i).state = .unused → (s.tasks i).parent = none
  /-- A process has a parent from the time it is `RUNNABLE`. -/
  child : ∀ i, Started (s.tasks i) ∨ (s.tasks i).state = .zombie → i ≠ init →
    (s.tasks i).parent ≠ none
  /-- No process is its own parent. -/
  irrefl : ∀ i, (s.tasks i).parent ≠ some i
  /-- The first process has no parent. -/
  orphan : (s.tasks init).parent = none
  /-- The first process lives. -/
  live : Started (s.tasks init)
  /-- The first process does not exit. -/
  ending : ∀ p, ending (s.pc p) = true → p ≠ init
  /-- The new process of an unfinished `fork` is `USED`. -/
  newborn : ∀ p np q, newborn p (s.pc p) = some (np, q) →
    (s.tasks np).state = .used ∧ (s.tasks np).parent = q
  /-- Two calls of `fork` make two processes. -/
  once : ∀ p p' np q q', WaitState.newborn p (s.pc p) = some (np, q) →
    WaitState.newborn p' (s.pc p') = some (np, q') → p = p'
  /-- `reparent` has passed no child by. -/
  children : ∀ p l, toReparent (s.pc p) = some l → ∀ i, (s.tasks i).parent = some p → i ∈ l
  /-- `wait` has passed no zombie by. -/
  scanned : ∀ p l, toScan (s.pc p) = some l → ∀ z, (s.tasks z).parent = some p →
    (s.tasks z).state = .zombie → z ∈ l
  /-- `wakeup(parent)` has passed no sleeping parent by. -/
  woken : ∀ e l p, toWake (s.pc e) = some l → (s.tasks e).parent = some p →
    Settled p (s.tasks p) (s.pc p) → p ∈ l
  /-- The parent of a zombie is awake, or about to be woken up by `reparent`. -/
  zombie : ∀ z p, (s.tasks z).state = .zombie → (s.tasks z).parent = some p →
    Settled p (s.tasks p) (s.pc p) → p = init ∧ ∃ e l, toWakeInit (s.pc e) = some l ∧ init ∈ l

variable {init p : ι} {s s' : WaitState ι}

theorem started_of_running {t : Task ι} (h : t.state = .running) : Started t := .inr (.inr h)

theorem Started.ne_unused {t : Task ι} (h : Started t) : t.state ≠ .unused := by
  rcases h with h | h | h <;> simp [h]

theorem Started.ne_used {t : Task ι} (h : Started t) : t.state ≠ .used := by
  rcases h with h | h | h <;> simp [h]

theorem Started.ne_zombie {t : Task ι} (h : Started t) : t.state ≠ .zombie := by
  rcases h with h | h | h <;> simp [h]

/-- A process that holds `wait_lock` and does not go to sleep is awake. -/
theorem not_settled_of_running {t : Task ι} {pc : WaitPc ι} (hrun : t.state = .running)
    (hpc : ∀ addr, pc ≠ .waitSleep addr ∧ pc ≠ .waitCommit addr) : ¬ Settled p t pc := by
  rintro (⟨addr, h | h⟩ | ⟨h, -⟩)
  · exact (hpc addr).1 h
  · exact (hpc addr).2 h
  · rw [hrun] at h
    cases h

theorem holdsWait_of_toWake {pc : WaitPc ι} {l : List ι} (h : toWake pc = some l) :
    holdsWait pc = true := by
  cases pc <;> simp [toWake, holdsWait] at *

theorem holdsWait_of_toScan {pc : WaitPc ι} {l : List ι} (h : toScan pc = some l) :
    holdsWait pc = true := by
  cases pc <;> simp [toScan, holdsWait] at *

theorem holdsWait_of_toWakeInit {pc : WaitPc ι} {l : List ι} (h : toWakeInit pc = some l) :
    holdsWait pc = true := by
  cases pc <;> simp [toWakeInit, holdsWait] at *

theorem ending_of_toReparent {pc : WaitPc ι} {l : List ι} (h : toReparent pc = some l) :
    WaitState.ending pc = true := by
  cases pc <;> simp [toReparent, WaitState.ending] at *

theorem newborn_parent {pc : WaitPc ι} {i np r : ι} (h : WaitState.newborn i pc = some (np, some r)) :
    i = r := by
  cases pc <;> simp_all

theorem not_settled_of_toWake {t : Task ι} {pc : WaitPc ι} {l : List ι} (h : toWake pc = some l)
    (hfits : Fits p t pc) : ¬ Settled p t pc := by
  cases pc with
  | exitWake st w => exact not_settled_of_running hfits (by simp)
  | exitZombie st => exact not_settled_of_running hfits (by simp)
  | _ => cases h

/-- Two processes do not hold `wait_lock` at once. -/
theorem Sound.exclusive {q : ι} (h : Sound init s) (hp : holdsWait (s.pc p) = true)
    (hq : holdsWait (s.pc q) = true) : p = q :=
  Option.some.inj ((h.wait p hp).symm.trans (h.wait q hq))

/-- A new process does not run yet. -/
theorem Sound.newborn_idle {np : ι} {q : Option ι} (h : Sound init s)
    (hnp : WaitState.newborn p (s.pc p) = some (np, q)) : s.pc np = .idle := by
  have hfits := h.fits np
  have hused := (h.newborn p np q hnp).1
  cases hpc : s.pc np <;> simp [Fits, hpc, hused] at hfits ⊢

/-- The first process is not new. -/
theorem Sound.newborn_ne_init {np : ι} {q : Option ι} (h : Sound init s)
    (hnp : WaitState.newborn p (s.pc p) = some (np, q)) : np ≠ init := by
  rintro rfl
  exact h.live.ne_used (h.newborn p np q hnp).1

theorem Sound.newborn_ne {np : ι} {q : Option ι} (h : Sound init s)
    (hnp : WaitState.newborn p (s.pc p) = some (np, q)) : np ≠ p := by
  rintro rfl
  rw [h.newborn_idle hnp] at hnp
  cases hnp

/-- A zombie is at its last place. -/
theorem Sound.dead (h : Sound init s) (hz : (s.tasks p).state = .zombie) : s.pc p = .dead := by
  have hfits := h.fits p
  cases hpc : s.pc p <;> simp [hpc, hz] at hfits ⊢

/-- **One process changes** its place and its state, and stays what it was: not in use, new, live or a
zombie. -/
theorem Sound.own (h : Sound init s) (hpc : ∀ i ≠ p, s'.pc i = s.pc i)
    (htask : ∀ i ≠ p, s'.tasks i = s.tasks i)
    (hparent : (s'.tasks p).parent = (s.tasks p).parent)
    (hstate : (s'.tasks p).state = (s.tasks p).state ∨ Started (s.tasks p) ∧ Started (s'.tasks p))
    (hwait : ∀ i ≠ p, s.waitLock = some i → s'.waitLock = some i)
    (hwait' : holdsWait (s'.pc p) = true → s'.waitLock = some p)
    (hfits : Fits p (s'.tasks p) (s'.pc p))
    (hheld : ∀ i ≠ p, ∀ addr, s.pc i = .waitCommit addr → s.held i = true → s'.held i = true)
    (hcommit : ∀ addr, s'.pc p = .waitCommit addr → s'.held p = true)
    (hending : WaitState.ending (s'.pc p) = true → p ≠ init)
    (hnewborn : ∀ np q, WaitState.newborn p (s'.pc p) = some (np, q) →
      WaitState.newborn p (s.pc p) = some (np, q))
    (hchildren : ∀ l, toReparent (s'.pc p) = some l → ∀ i, (s.tasks i).parent = some p → i ∈ l)
    (hscanned : ∀ l, toScan (s'.pc p) = some l → ∀ z, (s.tasks z).parent = some p →
      (s.tasks z).state = .zombie → z ∈ l)
    (hwoken : ∀ l q, toWake (s'.pc p) = some l → (s.tasks p).parent = some q →
      Settled q (s.tasks q) (s.pc q) → q ∈ l)
    (hsettled : Settled p (s'.tasks p) (s'.pc p) → Settled p (s.tasks p) (s.pc p) ∨
      holdsWait (s.pc p) = true ∧
        ∀ z, (s.tasks z).parent = some p → (s.tasks z).state ≠ .zombie)
    (hinit : ∀ l, toWakeInit (s.pc p) = some l → init ∈ l →
      Settled init (s.tasks init) (s.pc init) →
        ∃ l', toWakeInit (s'.pc p) = some l' ∧ init ∈ l') : Sound init s' := by
  have hparents : ∀ i, (s'.tasks i).parent = (s.tasks i).parent := by
    intro i
    by_cases hi : i = p
    · rw [hi, hparent]
    · rw [htask i hi]
  have hstarted : ∀ i, Started (s'.tasks i) ↔ Started (s.tasks i) := by
    intro i
    by_cases hi : i = p
    · subst hi
      rcases hstate with hst | ⟨h1, h2⟩
      · simp only [Started, hst]
      · exact ⟨fun _ => h1, fun _ => h2⟩
    · rw [htask i hi]
  have hsame : ∀ i st, st = .unused ∨ st = .used ∨ st = .zombie →
      ((s'.tasks i).state = st ↔ (s.tasks i).state = st) := by
    intro i st hst
    by_cases hi : i = p
    · subst hi
      rcases hstate with h0 | ⟨h1, h2⟩
      · rw [h0]
      · rcases hst with rfl | rfl | rfl
        · exact iff_of_false h2.ne_unused h1.ne_unused
        · exact iff_of_false h2.ne_used h1.ne_used
        · exact iff_of_false h2.ne_zombie h1.ne_zombie
    · rw [htask i hi]
  have hsettle : ∀ i, Settled i (s'.tasks i) (s'.pc i) → Settled i (s.tasks i) (s.pc i) ∨
      i = p ∧ holdsWait (s.pc p) = true ∧
        ∀ z, (s.tasks z).parent = some p → (s.tasks z).state ≠ .zombie := by
    intro i hi
    by_cases hip : i = p
    · subst hip
      rcases hsettled hi with h' | h'
      · exact .inl h'
      · exact .inr ⟨rfl, h'⟩
    · rw [htask i hip, hpc i hip] at hi
      exact .inl hi
  refine ⟨fun i hi => ?_, fun i => ?_, fun i addr hi => ?_, fun i q hi => ?_, fun i hi => ?_,
    fun i hi hne => ?_, fun i => ?_, ?_, ?_, fun i hi => ?_, fun i np q hi => ?_, fun i i' np q q' hi hi' => ?_,
    fun i l hi j hj => ?_, fun i l hi z hz hzz => ?_, fun e l q he hq hset => ?_,
    fun z q hz hq hset => ?_⟩
  · by_cases hip : i = p
    · rw [hip] at hi ⊢
      exact hwait' hi
    · rw [hpc i hip] at hi
      exact hwait i hip (h.wait i hi)
  · by_cases hip : i = p
    · rw [hip]
      exact hfits
    · rw [hpc i hip, htask i hip]
      exact h.fits i
  · by_cases hip : i = p
    · rw [hip] at hi ⊢
      exact hcommit addr hi
    · rw [hpc i hip] at hi
      exact hheld i hip addr hi (h.commit i addr hi)
  · rw [hparents] at hi
    exact (hstarted q).2 (h.parent i q hi)
  · rw [hparents]
    exact h.unused i ((hsame i _ (.inl rfl)).1 hi)
  · rw [hparents]
    rw [hstarted, hsame i _ (.inr (.inr rfl))] at hi
    exact h.child i hi hne
  · rw [hparents]
    exact h.irrefl i
  · rw [hparents]
    exact h.orphan
  · exact (hstarted init).2 h.live
  · by_cases hip : i = p
    · rw [hip] at hi ⊢
      exact hending hi
    · rw [hpc i hip] at hi
      exact h.ending i hi
  · have hold : WaitState.newborn i (s.pc i) = some (np, q) := by
      by_cases hip : i = p
      · rw [hip] at hi ⊢
        exact hnewborn np q hi
      · rwa [hpc i hip] at hi
    rw [hparents, hsame np _ (.inr (.inl rfl))]
    exact h.newborn i np q hold
  · have hold : ∀ j r, WaitState.newborn j (s'.pc j) = some (np, r) →
        WaitState.newborn j (s.pc j) = some (np, r) := by
      intro j r hj
      by_cases hjp : j = p
      · rw [hjp] at hj ⊢
        exact hnewborn np r hj
      · rwa [hpc j hjp] at hj
    exact h.once i i' np q q' (hold i q hi) (hold i' q' hi')
  · rw [hparents] at hj
    by_cases hip : i = p
    · rw [hip] at hi hj
      exact hchildren l hi j hj
    · rw [hpc i hip] at hi
      exact h.children i l hi j hj
  · rw [hparents] at hz
    rw [hsame z _ (.inr (.inr rfl))] at hzz
    by_cases hip : i = p
    · rw [hip] at hi hz
      exact hscanned l hi z hz hzz
    · rw [hpc i hip] at hi
      exact h.scanned i l hi z hz hzz
  · rw [hparents] at hq
    by_cases hep : e = p
    · subst hep
      rcases hsettle q hset with hset' | ⟨rfl, -, -⟩
      · exact hwoken l q he hq hset'
      · exact absurd hset (not_settled_of_toWake he hfits)
    · rw [hpc e hep] at he
      rcases hsettle q hset with hset' | ⟨rfl, hlock, -⟩
      · exact h.woken e l q he hq hset'
      · exact absurd (h.exclusive (holdsWait_of_toWake he) hlock) hep
  · rw [hparents] at hq
    rw [hsame z _ (.inr (.inr rfl))] at hz
    rcases hsettle q hset with hset' | ⟨rfl, -, hno⟩
    · obtain ⟨rfl, e, l, he, hmem⟩ := h.zombie z q hz hq hset'
      refine ⟨rfl, ?_⟩
      by_cases hep : e = p
      · subst hep
        obtain ⟨l', hl', hmem'⟩ := hinit l he hmem hset'
        exact ⟨e, l', hl', hmem'⟩
      · exact ⟨e, l, by rw [hpc e hep, he], hmem⟩
    · exact absurd hz (hno z hq)

/-- **One process moves and changes another one**, which is new, goes away or gets another parent. -/
theorem Sound.other [DecidableEq ι] {n : ι} {t : Task ι} {c : WaitPc ι} (h : Sound init s)
    (hnp : n ≠ p) (hn : n ≠ init) (hpcs : s'.pc = Function.update s.pc p c)
    (htasks : s'.tasks = Function.update s.tasks n t)
    (hwait : ∀ i ≠ p, s.waitLock = some i → s'.waitLock = some i)
    (hheld : ∀ i ≠ p, ∀ addr, s.pc i = .waitCommit addr → s.held i = true → s'.held i = true)
    (hothers : ∀ i ≠ p, ∀ q, WaitState.newborn i (s.pc i) ≠ some (n, q))
    (hfits' : Fits n t (s.pc n))
    (hparent : ∀ q, t.parent = some q → q ≠ n ∧ (q = p ∨ q = init) ∧ Started (s.tasks q))
    (hstarted : Started (s.tasks n) → Started t)
    (hunused : t.state = .unused → t.parent = none)
    (hchild : Started t ∨ t.state = .zombie → t.parent ≠ none)
    (hwake' : toWake (s.pc n) = none)
    (hsettled' : Settled n t (s.pc n) → Settled n (s.tasks n) (s.pc n))
    (hinit : toWakeInit (s.pc p) = none)
    -- where the process goes on
    (hwait' : holdsWait c = true → s'.waitLock = some p) (hfits : Fits p (s.tasks p) c)
    (hcommit : ∀ addr, c ≠ .waitCommit addr)
    (hending : WaitState.ending c = true → p ≠ init)
    (hnewborn : ∀ np q, WaitState.newborn p c = some (np, q) →
      np = n ∧ t.state = .used ∧ t.parent = q)
    (hchildren : ∀ l, toReparent c = some l → ∀ i, (s'.tasks i).parent = some p → i ∈ l)
    (hscan : toScan c = none) (hwake : toWake c = none)
    (hsettled : ¬ Settled p (s.tasks p) c)
    (hzombie : t.state = .zombie → holdsWait (s.pc p) = true ∧
      t.parent = some init ∧ p ≠ init ∧ ∃ l, toWakeInit c = some l ∧ init ∈ l) :
    Sound init s' := by
  have hpc : ∀ i ≠ p, s'.pc i = s.pc i := by
    intro i hi
    rw [hpcs, Function.update_of_ne hi]
  have htask : ∀ i ≠ n, s'.tasks i = s.tasks i := by
    intro i hi
    rw [htasks, Function.update_of_ne hi]
  obtain rfl : c = s'.pc p := by rw [hpcs, Function.update_self]
  obtain rfl : t = s'.tasks n := by rw [htasks, Function.update_self]
  have hp : s'.tasks p = s.tasks p := htask p hnp.symm
  have hsettle : ∀ i, Settled i (s'.tasks i) (s'.pc i) → Settled i (s.tasks i) (s.pc i) := by
    intro i hi
    by_cases hip : i = p
    · subst hip
      rw [hp] at hi
      exact absurd hi hsettled
    · rw [hpc i hip] at hi
      by_cases hin : i = n
      · subst hin
        exact hsettled' hi
      · rwa [htask i hin] at hi
  have hborn : ∀ i np q, WaitState.newborn i (s'.pc i) = some (np, q) →
      i = p ∧ np = n ∨ i ≠ p ∧ np ≠ n ∧ WaitState.newborn i (s.pc i) = some (np, q) := by
    intro i np q hi
    by_cases hip : i = p
    · rw [hip] at hi
      exact .inl ⟨hip, (hnewborn np q hi).1⟩
    · rw [hpc i hip] at hi
      refine .inr ⟨hip, ?_, hi⟩
      rintro rfl
      exact hothers i hip q hi
  refine ⟨fun i hi => ?_, fun i => ?_, fun i addr hi => ?_, fun i q hi => ?_, fun i hi => ?_,
    fun i hi hne => ?_, fun i => ?_, ?_, ?_, fun i hi => ?_, fun i np q hi => ?_, fun i i' np q q' hi hi' => ?_,
    fun i l hi j hj => ?_, fun i l hi z hz hzz => ?_, fun e l q he hq hset => ?_,
    fun z q hz hq hset => ?_⟩
  · by_cases hip : i = p
    · rw [hip] at hi ⊢
      exact hwait' hi
    · rw [hpc i hip] at hi
      exact hwait i hip (h.wait i hi)
  · by_cases hip : i = p
    · rw [hip, hp]
      exact hfits
    · rw [hpc i hip]
      by_cases hin : i = n
      · rw [hin]
        exact hfits'
      · rw [htask i hin]
        exact h.fits i
  · by_cases hip : i = p
    · rw [hip] at hi
      exact absurd hi (hcommit addr)
    · rw [hpc i hip] at hi
      exact hheld i hip addr hi (h.commit i addr hi)
  · have hq : Started (s.tasks q) := by
      by_cases hin : i = n
      · rw [hin] at hi
        exact (hparent q hi).2.2
      · rw [htask i hin] at hi
        exact h.parent i q hi
    by_cases hqn : q = n
    · rw [hqn] at hq ⊢
      exact hstarted hq
    · rwa [htask q hqn]
  · by_cases hin : i = n
    · rw [hin] at hi ⊢
      exact hunused hi
    · rw [htask i hin] at hi ⊢
      exact h.unused i hi
  · by_cases hin : i = n
    · rw [hin] at hi ⊢
      exact hchild hi
    · rw [htask i hin] at hi ⊢
      exact h.child i hi hne
  · by_cases hin : i = n
    · rw [hin]
      exact fun hi => (hparent n hi).1 rfl
    · rw [htask i hin]
      exact h.irrefl i
  · rw [htask init hn.symm]
    exact h.orphan
  · rw [htask init hn.symm]
    exact h.live
  · by_cases hip : i = p
    · rw [hip] at hi ⊢
      exact hending hi
    · rw [hpc i hip] at hi
      exact h.ending i hi
  · rcases hborn i np q hi with ⟨rfl, rfl⟩ | ⟨-, hne, hi'⟩
    · exact (hnewborn np q hi).2
    · rw [htask np hne]
      exact h.newborn i np q hi'
  · rcases hborn i np q hi with ⟨rfl, rfl⟩ | ⟨hip, hne, h1⟩
    · rcases hborn i' np q' hi' with ⟨rfl, -⟩ | ⟨-, hne, -⟩
      · rfl
      · exact absurd rfl hne
    · rcases hborn i' np q' hi' with ⟨-, hnp'⟩ | ⟨-, -, h2⟩
      · exact absurd hnp' hne
      · exact h.once i i' np q q' h1 h2
  · by_cases hip : i = p
    · rw [hip] at hi hj
      exact hchildren l hi j hj
    · rw [hpc i hip] at hi
      by_cases hjn : j = n
      · rw [hjn] at hj
        rcases (hparent i hj).2.1 with rfl | rfl
        · exact absurd rfl hip
        · exact absurd rfl (h.ending i (ending_of_toReparent hi))
      · rw [htask j hjn] at hj
        exact h.children i l hi j hj
  · by_cases hip : i = p
    · rw [hip, hscan] at hi
      cases hi
    · rw [hpc i hip] at hi
      by_cases hzn : z = n
      · rw [hzn] at hz hzz
        obtain ⟨hlock, hpar, -, -⟩ := hzombie hzz
        exact absurd (h.exclusive (holdsWait_of_toScan hi) hlock) hip
      · rw [htask z hzn] at hz hzz
        exact h.scanned i l hi z hz hzz
  · have hset' := hsettle q hset
    by_cases hep : e = p
    · rw [hep, hwake] at he
      cases he
    · rw [hpc e hep] at he
      by_cases hen : e = n
      · rw [hen, hwake'] at he
        cases he
      · rw [htask e hen] at hq
        exact h.woken e l q he hq hset'
  · have hset' := hsettle q hset
    by_cases hzn : z = n
    · rw [hzn] at hz hq
      obtain ⟨-, hpar, -, l, hl, hmem⟩ := hzombie hz
      rw [hpar] at hq
      cases hq
      exact ⟨rfl, p, l, hl, hmem⟩
    · rw [htask z hzn] at hz hq
      obtain ⟨rfl, e, l, he, hmem⟩ := h.zombie z q hz hq hset'
      have hep : e ≠ p := by
        rintro rfl
        rw [hinit] at he
        cases he
      exact ⟨rfl, e, l, by rw [hpc e hep, he], hmem⟩

/-! ## Steps of one process -/

section

variable [DecidableEq ι] {procs : List ι} {q : ι} {addr : Nat} {st : Int}

/-- A process changes its state and stays where it is. -/
theorem Sound.task (h : Sound init s) (f : Task ι → Task ι)
    (hparent : (f (s.tasks p)).parent = (s.tasks p).parent)
    (hstate : (f (s.tasks p)).state = (s.tasks p).state ∨
      Started (s.tasks p) ∧ Started (f (s.tasks p)))
    (hfits : Fits p (f (s.tasks p)) (s.pc p))
    (hsettled : (f (s.tasks p)).state = .sleeping → (f (s.tasks p)).chan = some (.proc p) →
      Settled p (s.tasks p) (s.pc p)) : Sound init (s.setTask p f) := by
  have htask : (s.setTask p f).tasks p = f (s.tasks p) := Function.update_self ..
  refine h.own (p := p) (fun i _ => rfl) (fun i hi => Function.update_of_ne hi ..) ?_ ?_
    (fun i _ hi => hi) (h.wait p) ?_ (fun i _ _ _ hi => hi) (fun addr => h.commit p addr)
    (h.ending p) (fun np q hnp => hnp) (h.children p) (h.scanned p) (fun l q => h.woken p l q) ?_
    (fun l hl hmem _ => ⟨l, hl, hmem⟩)
  · rw [htask, hparent]
  · rw [htask]
    exact hstate
  · rw [htask]
    exact hfits
  · rw [htask]
    rintro (hpc | ⟨h1, h2⟩)
    · exact .inl (.inl hpc)
    · exact .inl (hsettled h1 h2)

/-- A process goes on at another place. -/
theorem Sound.go {c : WaitPc ι} (h : Sound init s) (htasks : s'.tasks = s.tasks)
    (hpc : s'.pc = Function.update s.pc p c)
    (hwait : ∀ i ≠ p, s.waitLock = some i → s'.waitLock = some i)
    (hwait' : holdsWait c = true → s'.waitLock = some p) (hfits : Fits p (s.tasks p) c)
    (hheld : ∀ i ≠ p, ∀ addr, s.pc i = .waitCommit addr → s.held i = true → s'.held i = true)
    (hcommit : ∀ addr, c = .waitCommit addr → s'.held p = true)
    (hending : WaitState.ending c = true → p ≠ init)
    (hnewborn : ∀ np q, WaitState.newborn p c = some (np, q) →
      WaitState.newborn p (s.pc p) = some (np, q))
    (hchildren : ∀ l, toReparent c = some l → ∀ i, (s.tasks i).parent = some p → i ∈ l)
    (hscanned : ∀ l, toScan c = some l → ∀ z, (s.tasks z).parent = some p →
      (s.tasks z).state = .zombie → z ∈ l)
    (hwoken : ∀ l q, toWake c = some l → (s.tasks p).parent = some q →
      Settled q (s.tasks q) (s.pc q) → q ∈ l)
    (hsettled : (∃ addr, c = .waitSleep addr ∨ c = .waitCommit addr) →
      Settled p (s.tasks p) (s.pc p) ∨ holdsWait (s.pc p) = true ∧
        ∀ z, (s.tasks z).parent = some p → (s.tasks z).state ≠ .zombie)
    (hinit : ∀ l, toWakeInit (s.pc p) = some l → init ∈ l →
      Settled init (s.tasks init) (s.pc init) → ∃ l', toWakeInit c = some l' ∧ init ∈ l') :
    Sound init s' := by
  have hpcp : s'.pc p = c := by rw [hpc, Function.update_self]
  refine h.own (p := p) (fun i hi => ?_) (fun i _ => by rw [htasks]) (by rw [htasks])
    (.inl (by rw [htasks])) hwait ?_ ?_ hheld ?_ ?_ ?_ ?_ ?_ ?_ ?_ ?_
  · rw [hpc, Function.update_of_ne hi]
  · rw [hpcp]
    exact hwait'
  · rw [htasks, hpcp]
    exact hfits
  · rw [hpcp]
    exact hcommit
  · rw [hpcp]
    exact hending
  · rw [hpcp]
    exact hnewborn
  · rw [hpcp]
    exact hchildren
  · rw [hpcp]
    exact hscanned
  · rw [hpcp]
    exact hwoken
  · rw [htasks, hpcp]
    rintro (hset | hset)
    · exact hsettled hset
    · exact .inl (.inr hset)
  · rw [hpcp]
    exact hinit

theorem Sound.run (h : Sound init s) (hs : s.step procs init (.run p) = some (.ok s')) :
    Sound init s' := by
  simp only [WaitState.step] at hs
  split at hs
  · next hc =>
    cases hs
    have hfits := h.fits p
    refine h.task _ rfl (.inr ⟨.inr (.inl hc.2), .inr (.inr rfl)⟩) ?_ (by simp)
    cases hpc : s.pc p <;> simp_all [Fits]
  · cases hs

theorem Sound.yield (h : Sound init s) (hs : s.step procs init (.yield p) = some (.ok s')) :
    Sound init s' := by
  simp only [WaitState.step] at hs
  split at hs
  · next hc =>
    cases hs
    refine h.task _ rfl (.inr ⟨started_of_running hc.1, .inr (.inl rfl)⟩) ?_ (by simp)
    cases hpc : s.pc p <;> simp_all [Fits, preemptible]
  · split at hs
    · next hc =>
      cases hs
      refine h.go (p := p) (c := .dead) rfl ?_ (fun i _ hi => hi) ?_ ?_ ?_ ?_ ?_ ?_ ?_ ?_ ?_ ?_ ?_
      · rw [← hc, Function.update_eq_self]
        rfl
      · simp [holdsWait]
      · simpa [hc] using h.fits p
      · intro i hi addr _ hheld
        exact (Function.update_of_ne hi ..).trans hheld
      · simp
      · intro _
        exact h.ending p (by rw [hc]; rfl)
      all_goals simp [hc]
    · cases hs

theorem Sound.sleepOther (h : Sound init s)
    (hs : s.step procs init (.sleepOther p) = some (.ok s')) : Sound init s' := by
  simp only [WaitState.step] at hs
  split at hs
  · next hc =>
    cases hs
    refine h.task _ rfl (.inr ⟨started_of_running hc.1, .inl rfl⟩) ?_ (by simp)
    simp [hc.2, Fits]
  · cases hs

/-- Waking a process up. -/
theorem Sound.wakeUp (h : Sound init s) (hst : (s.tasks p).state = .sleeping) :
    Sound init (s.setTask p fun t => { t with state := .runnable }) := by
  have hfits := h.fits p
  refine h.task _ rfl (.inr ⟨.inl hst, .inr (.inl rfl)⟩) ?_ (by simp)
  cases hpc : s.pc p <;> simp_all [Fits]

theorem Sound.wakeOther (h : Sound init s)
    (hs : s.step procs init (.wakeOther p) = some (.ok s')) : Sound init s' := by
  simp only [WaitState.step] at hs
  split at hs
  · next hc =>
    cases hs
    exact h.wakeUp hc.2.1
  · cases hs

theorem Sound.kill (h : Sound init s) (hs : s.step procs init (.kill p) = some (.ok s')) :
    Sound init s' := by
  have hkill : Sound init (s.setTask p fun t => { t with killed := true }) := by
    refine h.task _ rfl (.inl rfl) ?_ fun h1 h2 => .inr ⟨h1, h2⟩
    have hfits := h.fits p
    cases hpc : s.pc p <;> simpa [Fits, hpc] using hfits
  simp only [WaitState.step] at hs
  split at hs
  · cases hs
    by_cases hst : (s.tasks p).state = .sleeping
    · have hst' : ((s.setTask p fun t => { t with killed := true }).tasks p).state = .sleeping := by
        simpa [setTask] using hst
      simpa [setTask, hst] using hkill.wakeUp hst'
    · simpa [setTask, hst] using hkill
  · cases hs

theorem Sound.exitCall (h : Sound init s)
    (hs : s.step procs init (.exit p st) = some (.ok s')) : Sound init s' := by
  simp only [WaitState.step] at hs
  split at hs
  · next hc =>
    split at hs
    · cases hs
    · next hne =>
      cases hs
      have hpc := hc.2
      refine h.go (p := p) (c := .exitEnter st) rfl rfl (fun i _ hi => hi) ?_ (.inr hc.1) (fun i _ _ _ hi => hi)
        ?_ (fun _ => hne) ?_ ?_ ?_ ?_ ?_ ?_
      all_goals simp [hpc]
  · cases hs

theorem Sound.waitCall (h : Sound init s)
    (hs : s.step procs init (.wait p addr) = some (.ok s')) : Sound init s' := by
  simp only [WaitState.step] at hs
  split at hs
  · next hc =>
    cases hs
    have hpc := hc.2
    refine h.go (p := p) (c := .waitEnter addr) rfl rfl (fun i _ hi => hi) ?_
      (.inr (.inl hc.1)) (fun i _ _ _ hi => hi) ?_ ?_ ?_ ?_ ?_ ?_ ?_ ?_
    all_goals simp [hpc]
  · cases hs

theorem Sound.forkCall {np : ι} (h : Sound init s)
    (hs : s.step procs init (.fork p np) = some (.ok s')) : Sound init s' := by
  simp only [WaitState.step] at hs
  split at hs
  · next hc =>
    split at hs
    · next hu =>
      cases hs
      have hplace : s.pc np = .idle ∨ s.pc np = .dead := by
        have hfits := h.fits np
        cases hpc : s.pc np <;> simp [hpc, hu.2] at hfits ⊢
      have hnp : np ≠ p := by
        rintro rfl
        rw [hc.1] at hu
        cases hu.2
      have hfresh : ∀ i q, WaitState.newborn i (s.pc i) ≠ some (np, q) := by
        intro i q hi
        have hused := (h.newborn i np q hi).1
        rw [hu.2] at hused
        cases hused
      -- the context of the new process is reset first
      have h' : Sound init (s.goto np .idle) := by
        refine h.go (p := np) (c := .idle) rfl rfl (fun i _ hi => hi) ?_ ?_
          (fun i _ _ _ hi => hi) ?_ ?_ ?_ ?_ ?_ ?_ ?_ ?_
        all_goals rcases hplace with hplace | hplace <;> simp [hplace, hu.2]
      have hpcp : (s.goto np .idle).pc p = .idle := (Function.update_of_ne hnp.symm ..).trans hc.2
      have hpcn : (s.goto np .idle).pc np = .idle := Function.update_self ..
      have hparent := h.unused np hu.2
      refine h'.other (p := p) (n := np) (c := .forkCopy np) hnp ?_ rfl rfl
        (fun i _ hi => hi) ?_ ?_ ?_ ?_ ?_ ?_ ?_ ?_ ?_ ?_ ?_ ?_ ?_ ?_ ?_ ?_ ?_ ?_ ?_ ?_
      · rintro rfl
        exact h.live.ne_unused hu.2
      · intro i _ addr _ hi
        by_cases hin : i = np
        · simp [hin, goto, setHeld]
        · exact (Function.update_of_ne hin ..).trans hi
      · intro i _ q hi
        by_cases hin : i = np
        · rw [hin, hpcn] at hi
          cases hi
        · rw [show (s.goto np .idle).pc i = s.pc i from Function.update_of_ne hin ..] at hi
          exact hfresh i q hi
      · simp [hpcn]
      · simp [goto, hparent]
      · intro hst
        exact absurd hu.2 hst.ne_unused
      case refine_11 => rw [hpcp]; rfl
      all_goals simp [hc.1, hparent, goto, Started, Settled]
    · cases hs
  · cases hs

theorem Sound.forkCopy {np : ι} {ok : Bool} (h : Sound init s) (hpc : s.pc p = .forkCopy np)
    (hs : s.advance procs init p ok (.forkCopy np) = some s') : Sound init s' := by
  have hrun : (s.tasks p).state = .running := by simpa [hpc, Fits] using h.fits p
  have hnew : WaitState.newborn p (s.pc p) = some (np, none) := by rw [hpc]; rfl
  have hidle := h.newborn_idle hnew
  have hne := h.newborn_ne hnew
  obtain ⟨hused, hparent⟩ := h.newborn p np none hnew
  have hheld : ∀ i ≠ p, ∀ addr, s.pc i = .waitCommit addr → s.held i = true →
      (s.setHeld np false).held i = true := by
    intro i _ addr hi hheld
    have hin : i ≠ np := by
      rintro rfl
      rw [hidle] at hi
      cases hi
    exact (Function.update_of_ne hin ..).trans hheld
  simp only [advance] at hs
  split at hs
  · cases hs
    refine h.go (p := p) (c := .forkParent np) rfl rfl (fun i _ hi => hi) ?_ (.inr hrun) hheld
      ?_ ?_ ?_ ?_ ?_ ?_ ?_ ?_
    all_goals simp [hpc]
  · cases hs
    refine h.other (p := p) (n := np) (c := .idle) hne (h.newborn_ne_init hnew) rfl rfl
      (fun i _ hi => hi) hheld (fun i hi q hq => hi (h.once i p np q none hq hnew)) ?_ ?_ ?_ ?_ ?_ ?_
      ?_ ?_ ?_ ?_ ?_ ?_ ?_ ?_ ?_ ?_ ?_ ?_
    all_goals simp [hpc, hidle, hused, hrun, freed, Started, Settled]

theorem Sound.forkParent {np : ι} {ok : Bool} (h : Sound init s) (hpc : s.pc p = .forkParent np)
    (hrun : (s.tasks p).state = .running)
    (hs : s.advance procs init p ok (.forkParent np) = some s') : Sound init s' := by
  have hnew : WaitState.newborn p (s.pc p) = some (np, none) := by rw [hpc]; rfl
  have hidle := h.newborn_idle hnew
  have hne := h.newborn_ne hnew
  obtain ⟨hused, hparent⟩ := h.newborn p np none hnew
  simp only [advance] at hs
  split at hs
  · cases hs
    refine h.other (p := p) (n := np) (c := .forkRunnable np) hne (h.newborn_ne_init hnew) rfl rfl
      (fun i _ hi => hi) (fun i _ _ _ hi => hi)
      (fun i hi q hq => hi (h.once i p np q none hq hnew)) ?_ ?_ ?_ ?_ ?_ ?_ ?_ ?_ ?_ ?_ ?_ ?_ ?_ ?_
      ?_ ?_ ?_ ?_
    all_goals simp [hpc, hidle, hused, hrun, Started, Settled]
    exact hne.symm
  · cases hs

theorem Sound.forkRunnable {np : ι} {ok : Bool} (h : Sound init s) (hpc : s.pc p = .forkRunnable np)
    (hrun : (s.tasks p).state = .running)
    (hs : s.advance procs init p ok (.forkRunnable np) = some s') : Sound init s' := by
  have hnew : WaitState.newborn p (s.pc p) = some (np, some p) := by rw [hpc]; rfl
  have hidle := h.newborn_idle hnew
  have hne := h.newborn_ne hnew
  obtain ⟨hused, hparent⟩ := h.newborn p np _ hnew
  simp only [advance] at hs
  split at hs
  · cases hs
    refine h.other (p := p) (n := np) (c := .idle) hne (h.newborn_ne_init hnew) rfl rfl
      (fun i _ hi => hi) (fun i _ _ _ hi => hi)
      (fun i hi q hq => hi (h.once i p np q _ hq hnew)) ?_ ?_ ?_ ?_ ?_ ?_ ?_ ?_ ?_ ?_ ?_ ?_ ?_ ?_
      ?_ ?_ ?_ ?_
    all_goals simp [hpc, hidle, hused, hparent, hrun, Started, Settled]
    exact hne.symm
  · cases hs

theorem Sound.exitEnter {ok : Bool} (h : Sound init s) (hall : ∀ i, i ∈ procs)
    (hpc : s.pc p = .exitEnter st) (hrun : (s.tasks p).state = .running)
    (hs : s.advance procs init p ok (.exitEnter st) = some s') : Sound init s' := by
  simp only [advance] at hs
  split at hs
  · next hfree =>
    cases hs
    refine h.go (p := p) (c := .exitReparent st procs) rfl rfl ?_ ?_ ?_ (fun i _ _ _ hi => hi) ?_
      (fun _ => h.ending p (by rw [hpc]; rfl)) ?_ ?_ ?_ ?_ ?_ ?_
    all_goals simp [hpc, hrun, hfree, hall]
  · cases hs

theorem Sound.exitReparent {l : List ι} {ok : Bool} (h : Sound init s) (hall : ∀ i, i ∈ procs)
    (hpc : s.pc p = .exitReparent st l)
    (hs : s.advance procs init p ok (.exitReparent st l) = some s') : Sound init s' := by
  have hrun : (s.tasks p).state = .running := by simpa [hpc] using h.fits p
  have hlock := h.wait p (by rw [hpc]; rfl)
  have hne := h.ending p (by rw [hpc]; rfl)
  have hchildren := h.children p l (by rw [hpc]; rfl)
  cases l with
  | nil =>
    simp only [advance] at hs
    cases hs
    refine h.go (p := p) (c := .exitWake st procs) rfl rfl (fun i _ hi => hi) (fun _ => hlock)
      hrun (fun i _ _ _ hi => hi) ?_ (fun _ => hne) ?_ ?_ ?_ ?_ ?_ ?_
    case refine_3 =>
      intro l hl i hi
      exact absurd (hchildren i hi) (by simp)
    case refine_5 =>
      rintro l q hl - -
      cases hl
      exact hall q
    all_goals simp [hpc]
  | cons q todo =>
    simp only [advance] at hs
    split at hs
    · next hq =>
      cases hs
      have hqp : q ≠ p := by
        rintro rfl
        exact h.irrefl q hq
      have hqi : q ≠ init := by
        rintro rfl
        rw [h.orphan] at hq
        cases hq
      have hst : ∀ {t : Task ι}, t.state = (s.tasks q).state → t.chan = (s.tasks q).chan →
          Fits q t (s.pc q) := by
        intro t h1 h2
        have hfits := h.fits q
        cases hpcq : s.pc q <;> simpa [hpcq, h1, h2] using hfits
      refine h.other (p := p) (n := q) (c := .exitWakeInit st todo procs) hqp hqi rfl rfl
        (fun i _ hi => hi) (fun i _ _ _ hi => hi) ?_ (hst rfl rfl) ?_ (fun hi => hi) ?_ ?_ ?_
        (fun hi => hi) ?_ (fun _ => hlock) hrun ?_ (fun _ => hne) ?_ ?_ ?_ ?_ ?_ ?_
      · intro i hi r hr
        rw [(h.newborn i q r hr).2.symm, hq] at hr
        exact hi (newborn_parent hr)
      · intro r hr
        cases hr
        exact ⟨hqi.symm, .inr rfl, h.live⟩
      · intro hu
        rw [h.unused q hu] at hq
        cases hq
      · simp
      · cases hw : toWake (s.pc q) with
        | none => rfl
        | some w =>
          exact absurd (h.exclusive (holdsWait_of_toWake hw) (by rw [hpc]; rfl)) hqp
      · simp [hpc]
      · simp
      · simp
      · intro l hl i hi
        cases hl
        have hiq : i ≠ q := by
          rintro rfl
          simp only [goto, setTask, Function.update_self, Option.some.injEq] at hi
          exact hne hi.symm
        rw [show ((s.setTask q fun t => { t with parent := some init }).goto p
          (.exitWakeInit st todo procs)).tasks i = s.tasks i from
            Function.update_of_ne hiq ..] at hi
        rcases List.mem_cons.1 (hchildren i hi) with rfl | hmem
        · exact absurd rfl hiq
        · exact hmem
      · simp
      · simp
      · exact not_settled_of_running hrun (by simp)
      · intro _
        simp [hpc, hne, hall]
    · next hq =>
      cases hs
      refine h.go (p := p) (c := .exitReparent st todo) rfl rfl (fun i _ hi => hi) (fun _ => hlock)
        hrun (fun i _ _ _ hi => hi) ?_ (fun _ => hne) ?_ ?_ ?_ ?_ ?_ ?_
      case refine_3 =>
        rintro l hl i hi
        cases hl
        rcases List.mem_cons.1 (hchildren i hi) with rfl | hmem
        · exact absurd hi hq
        · exact hmem
      all_goals simp [hpc]

/-! ## Waking up -/

theorem wake_frame (c : Option ι) :
    (s.wake p c q).pc = s.pc ∧ (s.wake p c q).waitLock = s.waitLock ∧ (s.wake p c q).held = s.held ∧
      ∀ i, ((s.wake p c q).tasks i).parent = (s.tasks i).parent := by
  rw [wake]
  split
  · refine ⟨rfl, rfl, rfl, fun i => ?_⟩
    by_cases hi : i = q
    · simp [hi, setTask]
    · simp [hi, setTask]
  · exact ⟨rfl, rfl, rfl, fun _ => rfl⟩

theorem Sound.wake (h : Sound init s) (c : Option ι) : Sound init (s.wake p c q) := by
  rw [WaitState.wake]
  split
  · next hc => exact h.wakeUp hc.2.1
  · exact h

/-- A process that `wakeup` has looked at is awake. -/
theorem Sound.not_settled_wake (h : Sound init s) (hp : holdsWait (s.pc p) = true) (hqp : q ≠ p)
    (hheld : s.held q = false) : ¬ Settled q ((s.wake p (some q) q).tasks q) (s.pc q) := by
  rintro (⟨addr, hpc | hpc⟩ | ⟨hst, hchan⟩)
  · exact hqp (h.exclusive (by rw [hpc]; rfl) hp)
  · rw [h.commit q addr hpc] at hheld
    cases hheld
  · rw [WaitState.wake] at hst hchan
    split at hst
    · simp [setTask] at hst
    · next hno =>
      rw [if_neg hno] at hchan
      exact hno ⟨hqp, hst, hchan⟩

theorem Sound.exitWakeInit {todo w : List ι} {ok : Bool} (h : Sound init s)
    (hpc : s.pc p = .exitWakeInit st todo w)
    (hs : s.advance procs init p ok (.exitWakeInit st todo w) = some s') : Sound init s' := by
  have hrun : (s.tasks p).state = .running := by simpa [hpc] using h.fits p
  have hholds : holdsWait (s.pc p) = true := by rw [hpc]; rfl
  have hne := h.ending p (by rw [hpc]; rfl)
  have hchildren := h.children p todo (by rw [hpc]; rfl)
  cases w with
  | nil =>
    simp only [advance] at hs
    cases hs
    refine h.go (p := p) (c := .exitReparent st todo) rfl rfl (fun i _ hi => hi)
      (fun _ => h.wait p hholds) hrun (fun i _ _ _ hi => hi) ?_ (fun _ => hne) ?_ ?_ ?_ ?_ ?_ ?_
    case refine_3 =>
      rintro l hl
      cases hl
      exact hchildren
    all_goals simp [hpc]
  | cons q w =>
    simp only [advance] at hs
    split at hs
    · next hq =>
      cases hs
      obtain ⟨hwpc, hwlock, hwheld, hwparent⟩ := wake_frame (s := s) (p := p) (q := q) (some init)
      have hw := h.wake (p := p) (q := q) (some init)
      have hwrun : ((s.wake p (some init) q).tasks p).state = .running := by
        simpa [hwpc, hpc] using hw.fits p
      refine hw.go (p := p) (c := .exitWakeInit st todo w) rfl rfl (fun i _ hi => hi)
        (fun _ => hwlock.trans (h.wait p hholds)) hwrun (fun i _ _ _ hi => hi) ?_ (fun _ => hne) ?_ ?_ ?_ ?_
        ?_ ?_
      case refine_3 =>
        rintro l hl i hi
        cases hl
        rw [hwparent] at hi
        exact hchildren i hi
      case refine_7 =>
        intro l hl hmem hset
        rw [hwpc, hpc] at hl
        cases hl
        rw [hwpc] at hset
        refine ⟨w, rfl, ?_⟩
        rcases List.mem_cons.1 hmem with rfl | hmem
        · have hheld := hq.resolve_left hne.symm
          exact absurd hset (h.not_settled_wake hholds hne.symm hheld)
        · exact hmem
      all_goals simp [hpc, hwpc]
    · cases hs

theorem Sound.exitWake {w : List ι} {ok : Bool} (h : Sound init s) (hpc : s.pc p = .exitWake st w)
    (hs : s.advance procs init p ok (.exitWake st w) = some s') : Sound init s' := by
  have hrun : (s.tasks p).state = .running := by simpa [hpc] using h.fits p
  have hholds : holdsWait (s.pc p) = true := by rw [hpc]; rfl
  have hne := h.ending p (by rw [hpc]; rfl)
  have hchildren := h.children p [] (by rw [hpc]; rfl)
  cases w with
  | nil =>
    simp only [advance] at hs
    cases hs
    refine h.go (p := p) (c := .exitZombie st) rfl rfl (fun i _ hi => hi)
      (fun _ => h.wait p hholds) hrun (fun i _ _ _ hi => hi) ?_ (fun _ => hne) ?_ ?_ ?_ ?_ ?_ ?_
    case refine_3 =>
      rintro l hl
      cases hl
      exact hchildren
    case refine_5 =>
      rintro l q hl
      cases hl
      exact h.woken p [] q (by rw [hpc]; rfl)
    all_goals simp [hpc]
  | cons q w =>
    simp only [advance] at hs
    split at hs
    · next hq =>
      cases hs
      obtain ⟨hwpc, hwlock, hwheld, hwparent⟩ :=
        wake_frame (s := s) (p := p) (q := q) (s.tasks p).parent
      have hw := h.wake (p := p) (q := q) (s.tasks p).parent
      have hwrun : ((s.wake p (s.tasks p).parent q).tasks p).state = .running := by
        simpa [hwpc, hpc] using hw.fits p
      refine hw.go (p := p) (c := .exitWake st w) rfl rfl (fun i _ hi => hi)
        (fun _ => hwlock.trans (h.wait p hholds)) hwrun (fun i _ _ _ hi => hi) ?_ (fun _ => hne) ?_ ?_ ?_ ?_
        ?_ ?_
      case refine_3 =>
        rintro l hl i hi
        cases hl
        rw [hwparent] at hi
        exact hchildren i hi
      case refine_5 =>
        intro l r hl hr hset
        cases hl
        have hmem := hw.woken p (q :: w) r (by rw [hwpc, hpc]; rfl) hr hset
        rw [hwparent] at hr
        rw [hwpc, hr] at hset
        rcases List.mem_cons.1 hmem with rfl | hmem
        · have hrp : r ≠ p := by
            rintro rfl
            exact h.irrefl r hr
          exact absurd hset (h.not_settled_wake hholds hrp (hq.resolve_left hrp))
        · exact hmem
      all_goals simp [hpc, hwpc]
    · cases hs

/-- **A process ends**: it has no children, and its parent is awake. -/
theorem Sound.ended (h : Sound init s) (hpc : s.pc p = .exitZombie st)
    (htasks : s'.tasks = Function.update s.tasks p { s.tasks p with xstate := st, state := .zombie })
    (hpcs : s'.pc = Function.update s.pc p .dead)
    (hheld : ∀ i ≠ p, s'.held i = s.held i) : Sound init s' := by
  have hrun : (s.tasks p).state = .running := by simpa [hpc] using h.fits p
  have hlock := h.wait p (by rw [hpc]; rfl)
  have hne := h.ending p (by rw [hpc]; rfl)
  have hchildren : ∀ i, (s.tasks i).parent ≠ some p := by
    intro i hi
    exact absurd (h.children p [] (by rw [hpc]; rfl) i hi) (by simp)
  have hwoken : ∀ q, (s.tasks p).parent = some q → ¬ Settled q (s.tasks q) (s.pc q) := by
    intro q hq hset
    exact absurd (h.woken p [] q (by rw [hpc]; rfl) hq hset) (by simp)
  have hpc' : ∀ i ≠ p, s'.pc i = s.pc i := by
    intro i hi
    rw [hpcs, Function.update_of_ne hi]
  have hpcp : s'.pc p = .dead := by rw [hpcs, Function.update_self]
  have htask : ∀ i ≠ p, s'.tasks i = s.tasks i := by
    intro i hi
    rw [htasks, Function.update_of_ne hi]
  have htaskp : s'.tasks p = { s.tasks p with xstate := st, state := .zombie } := by
    rw [htasks, Function.update_self]
  have hparents : ∀ i, (s'.tasks i).parent = (s.tasks i).parent := by
    intro i
    by_cases hi : i = p
    · rw [hi, htaskp]
    · rw [htask i hi]
  -- nobody else holds `wait_lock`
  have hfree : ∀ i ≠ p, holdsWait (s.pc i) = false := by
    intro i hi
    by_contra hholds
    have hi' := h.wait i (by simpa using hholds)
    rw [hlock] at hi'
    exact hi (Option.some.inj hi').symm
  have hidle : ∀ i, holdsWait (s'.pc i) = false := by
    intro i
    by_cases hi : i = p
    · rw [hi, hpcp]
      rfl
    · rw [hpc' i hi]
      exact hfree i hi
  have hborn : ∀ i np q, WaitState.newborn i (s'.pc i) = some (np, q) →
      WaitState.newborn i (s.pc i) = some (np, q) := by
    intro i np q hi
    by_cases hip : i = p
    · rw [hip, hpcp] at hi
      cases hi
    · rwa [hpc' i hip] at hi
  have hsettle : ∀ i, Settled i (s'.tasks i) (s'.pc i) → Settled i (s.tasks i) (s.pc i) := by
    intro i hi
    by_cases hip : i = p
    · rw [hip, htaskp, hpcp] at hi
      simp [Settled] at hi
    · rwa [htask i hip, hpc' i hip] at hi
  refine ⟨fun i hi => ?_, fun i => ?_, fun i addr hi => ?_, fun i q hi => ?_, fun i hi => ?_,
    fun i hi hne => ?_, fun i => ?_, ?_, ?_, fun i hi => ?_, fun i np q hi => ?_,
    fun i i' np q q' hi hi' => ?_, fun i l hi j hj => ?_, fun i l hi z hz hzz => ?_,
    fun e l q he hq hset => ?_, fun z q hz hq hset => ?_⟩
  · rw [hidle i] at hi
    cases hi
  · by_cases hip : i = p
    · rw [hip, htaskp, hpcp]
      exact .inl rfl
    · rw [htask i hip, hpc' i hip]
      exact h.fits i
  · by_cases hip : i = p
    · rw [hip, hpcp] at hi
      cases hi
    · rw [hpc' i hip] at hi
      rw [hheld i hip]
      exact h.commit i addr hi
  · rw [hparents] at hi
    have hqp : q ≠ p := by
      rintro rfl
      exact hchildren i hi
    rw [htask q hqp]
    exact h.parent i q hi
  · rw [hparents]
    by_cases hip : i = p
    · rw [hip, htaskp] at hi
      cases hi
    · rw [htask i hip] at hi
      exact h.unused i hi
  · rw [hparents]
    by_cases hip : i = p
    · rw [hip]
      exact h.child p (.inl (started_of_running hrun)) (hip ▸ hne)
    · rw [htask i hip] at hi
      exact h.child i hi hne
  · rw [hparents]
    exact h.irrefl i
  · rw [hparents]
    exact h.orphan
  · rw [htask init hne.symm]
    exact h.live
  · by_cases hip : i = p
    · rw [hip]
      exact hne
    · rw [hpc' i hip] at hi
      exact h.ending i hi
  · obtain ⟨hused, hparent⟩ := h.newborn i np q (hborn i np q hi)
    have hnp : np ≠ p := by
      rintro rfl
      rw [hrun] at hused
      cases hused
    rw [htask np hnp]
    exact ⟨hused, hparent⟩
  · exact h.once i i' np q q' (hborn i np q hi) (hborn i' np q' hi')
  · rw [hparents] at hj
    by_cases hip : i = p
    · rw [hip, hpcp] at hi
      cases hi
    · rw [hpc' i hip] at hi
      exact h.children i l hi j hj
  · have hholds := hidle i
    rw [holdsWait_of_toScan hi] at hholds
    cases hholds
  · have hholds := hidle e
    rw [holdsWait_of_toWake he] at hholds
    cases hholds
  · rw [hparents] at hq
    have hset' := hsettle q hset
    by_cases hzp : z = p
    · rw [hzp] at hq
      exact absurd hset' (hwoken q hq)
    · rw [htask z hzp] at hz
      obtain ⟨-, e, l, he, -⟩ := h.zombie z q hz hq hset'
      have hep : e = p := by
        by_contra hep
        have hholds := hfree e hep
        rw [holdsWait_of_toWakeInit he] at hholds
        cases hholds
      rw [hep, hpc] at he
      cases he

theorem Sound.exitZombie {ok : Bool} (h : Sound init s) (hpc : s.pc p = .exitZombie st)
    (hs : s.advance procs init p ok (.exitZombie st) = some s') : Sound init s' := by
  simp only [advance] at hs
  split at hs
  · cases hs
    exact h.ended hpc rfl rfl fun i hi => Function.update_of_ne hi ..
  · cases hs

theorem Sound.waitEnter {ok : Bool} (h : Sound init s) (hall : ∀ i, i ∈ procs)
    (hpc : s.pc p = .waitEnter addr) (hrun : (s.tasks p).state = .running)
    (hs : s.advance procs init p ok (.waitEnter addr) = some s') : Sound init s' := by
  simp only [advance] at hs
  split at hs
  · next hfree =>
    cases hs
    have htidy : Sound init (s.setTask p fun t => { t with chan := none }) := by
      refine h.task _ rfl (.inl rfl) ?_ (by simp)
      simp [hpc, hrun]
    refine htidy.go (p := p) (c := .waitScan addr procs false) rfl rfl ?_ (fun _ => rfl) ?_
      (fun i _ _ _ hi => hi) ?_ ?_ ?_ ?_ ?_ ?_ ?_ ?_
    all_goals simp [setTask, hpc, hrun, hfree, hall]
  · cases hs

/-- `wait` returns without a change to the table. -/
theorem Sound.waitReturn (h : Sound init s) (hholds : holdsWait (s.pc p) = true)
    (hinit : toWakeInit (s.pc p) = none) (hrun : (s.tasks p).state = .running) :
    Sound init (s.waitReturn p) := by
  have hlock := h.wait p hholds
  refine h.go (p := p) (c := .idle) rfl rfl ?_ ?_ ?_ (fun i _ _ _ hi => hi) ?_ ?_ ?_ ?_ ?_ ?_ ?_ ?_
  case refine_1 =>
    intro i hi hl
    rw [hlock] at hl
    exact absurd (Option.some.inj hl).symm hi
  case refine_11 =>
    intro l hl
    rw [hinit] at hl
    cases hl
  all_goals simp [hrun]

/-- `wait` reaps a child. -/
theorem Sound.reap {r : List (Reap ι)} {todo : List ι} {havekids : Bool} (h : Sound init s)
    (hpc : s.pc p = .waitScan addr todo havekids) (hq : (s.tasks q).parent = some p)
    (hz : (s.tasks q).state = .zombie) :
    Sound init (WaitState.waitReturn p { s.setTask q freed with reaps := r }) := by
  have hrun : (s.tasks p).state = .running := by simpa [hpc] using h.fits p
  have hdead := h.dead hz
  have hlock := h.wait p (by rw [hpc]; rfl)
  have hqp : q ≠ p := by
    rintro rfl
    exact h.irrefl q hq
  have hqi : q ≠ init := by
    rintro rfl
    exact h.live.ne_zombie hz
  refine h.other (p := p) (n := q) (t := freed (s.tasks q)) (c := .idle) hqp hqi rfl rfl ?_
    (fun i _ _ _ hi => hi) ?_ ?_ ?_ ?_ ?_ ?_ ?_ ?_ ?_ ?_ ?_ ?_ ?_ ?_ ?_ ?_ ?_ ?_ ?_
  case refine_1 =>
    intro i hi hl
    rw [hlock] at hl
    exact absurd (Option.some.inj hl).symm hi
  case refine_2 =>
    intro i hi r hr
    have hused := (h.newborn i q r hr).1
    rw [hz] at hused
    cases hused
  case refine_5 => exact fun hst => absurd hz hst.ne_zombie
  all_goals simp [hpc, hdead, hrun, freed, Started, Settled]

theorem Sound.waitScan {todo : List ι} {havekids ok : Bool} (h : Sound init s)
    (hpc : s.pc p = .waitScan addr todo havekids)
    (hs : s.advance procs init p ok (.waitScan addr todo havekids) = some s') : Sound init s' := by
  have hrun : (s.tasks p).state = .running := by simpa [hpc] using h.fits p
  have hholds : holdsWait (s.pc p) = true := by rw [hpc]; rfl
  have hinit : toWakeInit (s.pc p) = none := by rw [hpc]; rfl
  have hlock := h.wait p hholds
  have hscanned := h.scanned p todo (by rw [hpc]; rfl)
  -- the scan goes on behind a process that is not a zombie of this one
  have hnext : ∀ {todo : List ι} {b : Bool},
      (∀ z, (s.tasks z).parent = some p → (s.tasks z).state = .zombie → z ∈ todo) →
      Sound init (s.goto p (.waitScan addr todo b)) := by
    intro todo b hz
    refine h.go (p := p) (c := .waitScan addr todo b) rfl rfl (fun i _ hi => hi) (fun _ => hlock)
      hrun (fun i _ _ _ hi => hi) ?_ ?_ ?_ ?_ ?_ ?_ ?_ ?_
    case refine_5 =>
      rintro l hl
      cases hl
      exact hz
    all_goals simp [hpc]
  cases todo with
  | nil =>
    simp only [advance] at hs
    split at hs
    · cases hs
      exact h.waitReturn hholds hinit hrun
    · cases hs
      refine h.go (p := p) (c := .waitSleep addr) rfl rfl (fun i _ hi => hi) (fun _ => hlock)
        hrun (fun i _ _ _ hi => hi) ?_ ?_ ?_ ?_ ?_ ?_ ?_ ?_
      case refine_5 =>
        rintro l hl
        cases hl
        exact hscanned
      case refine_7 =>
        intro _
        refine .inr ⟨hholds, fun z hz hzz => ?_⟩
        exact absurd (hscanned z hz hzz) (by simp)
      all_goals simp [hpc]
  | cons q todo =>
    simp only [advance] at hs
    split at hs
    · next hq =>
      split at hs
      · next hheld =>
        rw [waitChild] at hs
        split at hs
        · next hz =>
          split at hs
          · cases hs
            exact h.waitReturn hholds hinit hrun
          · cases hs
            exact h.reap hpc hq hz
        · next hz =>
          cases hs
          refine hnext fun z hzp hzz => ?_
          rcases List.mem_cons.1 (hscanned z hzp hzz) with rfl | hmem
          · exact absurd hzz hz
          · exact hmem
      · cases hs
    · next hq =>
      cases hs
      refine hnext fun z hzp hzz => ?_
      rcases List.mem_cons.1 (hscanned z hzp hzz) with rfl | hmem
      · exact absurd hzp hq
      · exact hmem

theorem Sound.waitSleep {ok : Bool} (h : Sound init s) (hpc : s.pc p = .waitSleep addr)
    (hs : s.advance procs init p ok (.waitSleep addr) = some s') : Sound init s' := by
  have hrun : (s.tasks p).state = .running := by simpa [hpc] using h.fits p
  have hlock := h.wait p (by rw [hpc]; rfl)
  simp only [advance] at hs
  split at hs
  · cases hs
    refine h.go (p := p) (c := .waitCommit addr) rfl rfl ?_ ?_ hrun ?_ ?_ ?_ ?_ ?_ ?_ ?_ ?_ ?_
    case refine_1 =>
      intro i hi hl
      rw [hlock] at hl
      exact absurd (Option.some.inj hl).symm hi
    case refine_3 =>
      intro i hi addr _ hheld
      exact (Function.update_of_ne hi ..).trans hheld
    all_goals simp [hpc, setHeld, goto, Settled]
  · cases hs

theorem Sound.waitCommit {ok : Bool} (h : Sound init s) (hpc : s.pc p = .waitCommit addr)
    (hs : s.advance procs init p ok (.waitCommit addr) = some s') : Sound init s' := by
  have hrun : (s.tasks p).state = .running := by simpa [hpc] using h.fits p
  simp only [advance] at hs
  cases hs
  refine h.own (p := p) (fun i hi => Function.update_of_ne hi ..)
    (fun i hi => Function.update_of_ne hi ..) ?_ ?_ (fun i _ hi => hi) ?_ ?_ ?_ ?_ ?_ ?_ ?_ ?_ ?_ ?_ ?_
  case refine_5 =>
    intro i hi addr _ hheld
    exact (Function.update_of_ne hi ..).trans hheld
  all_goals simp [hpc, setTask, setHeld, goto, Started, Settled, hrun]

theorem Sound.step {a : WaitAct ι} (h : Sound init s) (hall : ∀ i, i ∈ procs)
    (hs : s.step procs init a = some (.ok s')) : Sound init s' := by
  cases a with
  | run p => exact h.run hs
  | yield p => exact h.yield hs
  | sleepOther p => exact h.sleepOther hs
  | wakeOther p => exact h.wakeOther hs
  | kill p => exact h.kill hs
  | fork p np => exact h.forkCall hs
  | exit p st => exact h.exitCall hs
  | wait p addr => exact h.waitCall hs
  | step p ok =>
    simp only [WaitState.step] at hs
    split at hs
    · next hrun =>
      obtain ⟨s₁, hs, hs₁⟩ := Option.map_eq_some_iff.1 hs
      cases hs₁
      cases hpc : s.pc p with
      | idle =>
        rw [hpc] at hs
        cases hs
      | forkCopy np => exact h.forkCopy hpc (hpc ▸ hs)
      | forkParent np => exact h.forkParent hpc hrun (hpc ▸ hs)
      | forkRunnable np => exact h.forkRunnable hpc hrun (hpc ▸ hs)
      | exitEnter st => exact h.exitEnter hall hpc hrun (hpc ▸ hs)
      | exitReparent st l => exact h.exitReparent hall hpc (hpc ▸ hs)
      | exitWakeInit st l w => exact h.exitWakeInit hpc (hpc ▸ hs)
      | exitWake st w => exact h.exitWake hpc (hpc ▸ hs)
      | exitZombie st => exact h.exitZombie hpc (hpc ▸ hs)
      | dead =>
        rw [hpc] at hs
        cases hs
      | waitEnter addr => exact h.waitEnter hall hpc hrun (hpc ▸ hs)
      | waitScan addr l b => exact h.waitScan hpc (hpc ▸ hs)
      | waitSleep addr => exact h.waitSleep hpc (hpc ▸ hs)
      | waitCommit addr => exact h.waitCommit hpc (hpc ▸ hs)
    · cases hs

theorem sound_boot (init : ι) : Sound init (boot init) := by
  have htask : ∀ i, ((boot init).tasks i).parent = none ∧ ((boot init).tasks i).state ≠ .zombie ∧
      ((boot init).tasks i).state ≠ .sleeping := by
    intro i
    by_cases hi : i = init <;> simp [boot, hi]
  refine ⟨by simp [boot], fun i => ?_, by simp [boot], ?_, fun i _ => (htask i).1, ?_, ?_,
    (htask init).1, ?_, by simp [boot], by simp [boot], by simp [boot], by simp [boot],
    by simp [boot], by simp [boot], ?_⟩
  · exact ⟨(htask i).2.1, fun hi => absurd hi (htask i).2.2⟩
  · intro i q hi
    rw [(htask i).1] at hi
    cases hi
  · intro i hi hne
    simp [boot, hne, Started] at hi
  · intro i
    rw [(htask i).1]
    simp
  · exact .inr (.inl (by simp [boot]))
  · intro z q hz
    exact absurd hz (htask z).2.1

end

end WaitState

end Xv6pp
