import Xv6pp.File.PipeUsers
import Mathlib.Data.Fintype.Basic

/-!
# No reader sleeps on a readable pipe

A process that stores bytes wakes the readers before it gives up the lock, and one that makes room
wakes the writers, so while the lock is free nobody sleeps on a condition that is already true.
There is one exception: `write` returns `-1` without a wakeup when it is found killed at the head of its
loop, also after it has stored bytes.  `pipe_no_idle_sleeper` is about the runs in which that does not
happen to a sleeping reader.
-/

set_option autoImplicit false

namespace Xv6pp

namespace PipeUsers

variable {ι : Type} {s s' : PipeUsers ι} {p q : ι}

/-! ## Nobody sleeps on a true condition -/

/-- The sleepers' conditions are still false, or the process inside is about to wake them. -/
structure Awake (s : PipeUsers ι) : Prop where
  /-- A sleeping reader: no bytes, or bytes that the writer inside has just stored. -/
  nread : ∀ q, s.chan q = some .nread → s.pipe.empty = true ∧ s.pipe.writeopen = true ∨
    0 < s.fresh ∧ ∃ p st, s.pc p = .inside st ∧ st.writing = true
  /-- A sleeping writer: no room, or a reader that is making some. -/
  nwrite : ∀ q, s.chan q = some .nwrite → s.pipe.full = true ∧ s.pipe.readopen = true ∨
    ∃ p st, s.pc p = .inside st ∧ st.copying = true
  /-- Bytes are stored only while the read end is open. -/
  fresh : ∀ p st, s.pc p = .inside st → st.writing = true → 0 < s.fresh → s.pipe.readopen = true
  /-- A reader that goes to sleep has just found the pipe empty. -/
  readSleep : ∀ p n dst, s.pc p = .inside (.readSleep n dst) →
    s.pipe.empty = true ∧ s.pipe.writeopen = true
  /-- A writer goes on only while the read end is open. -/
  writeBody : ∀ p n src i, s.pc p = .inside (.writeBody n src i) → s.pipe.readopen = true

namespace Awake

theorem init (data : Nat → UInt8) : Awake (init data : PipeUsers ι) where
  nread := by intro q h; cases h
  nwrite := by intro q h; cases h
  fresh := by intro p st h; cases h
  readSleep := by intro p n dst h; cases h
  writeBody := by intro p n src i h; cases h

/-- Nobody is inside and the sleepers' conditions are false. -/
theorem outside (hin : ∀ q st, s.pc q ≠ .inside st)
    (hnread : ∀ q, s.chan q = some .nread → s.pipe.empty = true ∧ s.pipe.writeopen = true)
    (hnwrite : ∀ q, s.chan q = some .nwrite → s.pipe.full = true ∧ s.pipe.readopen = true) :
    Awake s where
  nread := fun q hq => .inl (hnread q hq)
  nwrite := fun q hq => .inl (hnwrite q hq)
  fresh := fun p st hp => absurd hp (hin p st)
  readSleep := fun p _ _ hp => absurd hp (hin p _)
  writeBody := fun p _ _ _ hp => absurd hp (hin p _)

/-- One process is inside; what has to be known depends on its stage. -/
theorem inside {st : PipeStage} (hp : s.pc p = .inside st)
    (hin : ∀ q st', s.pc q = .inside st' → q = p)
    (hnread : ∀ q, s.chan q = some .nread →
      s.pipe.empty = true ∧ s.pipe.writeopen = true ∨ 0 < s.fresh ∧ st.writing = true)
    (hnwrite : ∀ q, s.chan q = some .nwrite →
      s.pipe.full = true ∧ s.pipe.readopen = true ∨ st.copying = true)
    (hfresh : st.writing = true → 0 < s.fresh → s.pipe.readopen = true)
    (hsleep : ∀ n dst, st = .readSleep n dst → s.pipe.empty = true ∧ s.pipe.writeopen = true)
    (hbody : ∀ n src i, st = .writeBody n src i → s.pipe.readopen = true) : Awake s := by
  have hst : ∀ q st', s.pc q = .inside st' → st' = st := by
    intro q st' hq
    obtain rfl := hin q st' hq
    rw [hp] at hq
    cases hq
    rfl
  refine ⟨fun q hq => ?_, fun q hq => ?_, ?_, ?_, ?_⟩
  · exact (hnread q hq).imp_right fun ⟨hpos, hw⟩ => ⟨hpos, p, st, hp, hw⟩
  · exact (hnwrite q hq).imp_right fun hc => ⟨p, st, hp, hc⟩
  · exact fun q st' hq hw => hfresh (hst q st' hq ▸ hw)
  · exact fun q n dst hq => hsleep n dst (hst q _ hq).symm
  · exact fun q n src i hq => hbody n src i (hst q _ hq).symm

variable {st : PipeStage}

/-- While the process inside is not a writer, readers sleep on an empty pipe. -/
theorem nread_of (h : Awake s) (hc : Control s) (hp : s.pc p = .inside st)
    (hst : st.writing = false) (hq : s.chan q = some .nread) :
    s.pipe.empty = true ∧ s.pipe.writeopen = true := by
  refine (h.nread q hq).resolve_right ?_
  rintro ⟨-, r, st', hr, hwriting⟩
  obtain rfl := hc.unique hp hr
  rw [hp] at hr
  cases hr
  rw [hst] at hwriting
  cases hwriting

/-- While the process inside is not copying bytes out, writers sleep on a full pipe. -/
theorem nwrite_of (h : Awake s) (hc : Control s) (hp : s.pc p = .inside st)
    (hst : st.copying = false) (hq : s.chan q = some .nwrite) :
    s.pipe.full = true ∧ s.pipe.readopen = true := by
  refine (h.nwrite q hq).resolve_right ?_
  rintro ⟨r, st', hr, hcopying⟩
  obtain rfl := hc.unique hp hr
  rw [hp] at hr
  cases hr
  rw [hst] at hcopying
  cases hcopying

section

variable [DecidableEq ι]

/-- The process inside goes on to another stage. -/
theorem goto (hc : Control s) (hp : s.pc p = .inside st) {st' : PipeStage}
    (hpc : s'.pc = Function.update s.pc p (.inside st'))
    (hnread : ∀ q, s'.chan q = some .nread →
      s'.pipe.empty = true ∧ s'.pipe.writeopen = true ∨ 0 < s'.fresh ∧ st'.writing = true)
    (hnwrite : ∀ q, s'.chan q = some .nwrite →
      s'.pipe.full = true ∧ s'.pipe.readopen = true ∨ st'.copying = true)
    (hfresh : st'.writing = true → 0 < s'.fresh → s'.pipe.readopen = true)
    (hsleep : ∀ n dst, st' = .readSleep n dst → s'.pipe.empty = true ∧ s'.pipe.writeopen = true)
    (hbody : ∀ n src i, st' = .writeBody n src i → s'.pipe.readopen = true) : Awake s' := by
  refine inside (p := p) (by rw [hpc, Function.update_self]) ?_ hnread hnwrite hfresh hsleep hbody
  intro q st₁ hq
  by_contra hqp
  rw [hpc, Function.update_of_ne hqp] at hq
  exact hqp (hc.unique hp hq)

/-- The process inside gives up the lock. -/
theorem left (hc : Control s) (hp : s.pc p = .inside st) {pc : PipePc}
    (hpc : s'.pc = Function.update s.pc p pc) (hout : ∀ st, pc ≠ .inside st)
    (hnread : ∀ q, s'.chan q = some .nread → s'.pipe.empty = true ∧ s'.pipe.writeopen = true)
    (hnwrite : ∀ q, s'.chan q = some .nwrite → s'.pipe.full = true ∧ s'.pipe.readopen = true) :
    Awake s' := by
  refine outside (fun q st₁ hq => ?_) hnread hnwrite
  rw [hpc] at hq
  by_cases hqp : q = p
  · subst hqp
    rw [Function.update_self] at hq
    exact hout st₁ hq
  · rw [Function.update_of_ne hqp] at hq
    exact hqp (hc.unique hp hq)

end

end Awake

section

variable [DecidableEq ι]

/-- After `wakeup(c)` the only process that can sleep on `c` is the one that called it. -/
theorem wakeup_none {c : PipeChan} (hp : s.chan p = none) : (s.wakeup c p).chan q ≠ some c := by
  simp only [wakeup]
  split
  · simp
  · next h =>
    intro hq
    refine h ⟨?_, hq⟩
    rintro rfl
    rw [hp] at hq
    cases hq

/-- Does this step of the process inside leave no reader asleep that it stored bytes for?  `write` fails to
when it is found killed. -/
def announces [Fintype ι] (s : PipeUsers ι) : PipeAct ι → Bool
  | .step p =>
    match s.pc p with
    | .inside (.writeTest n _ i) =>
      !(decide (i < n) && s.killed p && decide (0 < s.fresh) &&
        decide (∃ q, s.chan q = some .nread))
    | _ => true
  | _ => true

theorem Awake.advance [Fintype ι] (h : Awake s) (hc : Control s) {st : PipeStage}
    (hp : s.pc p = .inside st) (hok : announces s (.step p) = true) : Awake (s.advance p st) := by
  have hawake := hc.awake hp
  have hr : st.writing = false → ∀ q, s.chan q = some .nread →
      s.pipe.empty = true ∧ s.pipe.writeopen = true := fun hst q => h.nread_of hc hp hst
  have hw : st.copying = false → ∀ q, s.chan q = some .nwrite →
      s.pipe.full = true ∧ s.pipe.readopen = true := fun hst q => h.nwrite_of hc hp hst
  cases st with
  | readTest n dst =>
    rw [PipeUsers.advance]
    split
    · next hempty =>
      split
      · exact left hc hp rfl (by simp) (hr rfl) (hw rfl)
      · exact goto hc hp rfl (fun q hq => .inl (hr rfl q hq)) (fun q hq => .inl (hw rfl q hq))
          (by rintro ⟨⟩) (fun _ _ _ => hempty) (by rintro _ _ _ ⟨⟩)
    · exact goto hc hp rfl (fun q hq => .inl (hr rfl q hq)) (fun q hq => .inl (hw rfl q hq))
        (by rintro ⟨⟩) (by rintro _ _ ⟨⟩) (by rintro _ _ _ ⟨⟩)
  | readSleep n dst =>
    have hempty := h.readSleep p n dst hp
    refine left hc hp rfl (by simp) (fun _ _ => hempty) (fun q hq => hw rfl q ?_)
    by_cases hqp : q = p
    · subst hqp
      simp [PipeUsers.advance, sleep] at hq
    · simpa [PipeUsers.advance, sleep, hqp] using hq
  | readCopy n dst out =>
    rw [PipeUsers.advance]
    split
    · next hbyte =>
      -- there are bytes, so no reader sleeps
      have hnone : ∀ q, s.chan q ≠ some .nread := by
        intro q hq
        rw [(hr rfl q hq).1] at hbyte
        cases hbyte.2
      dsimp only
      split
      · exact goto hc hp rfl (fun q hq => absurd hq (hnone q)) (fun _ _ => .inr rfl)
          (by rintro ⟨⟩) (by rintro _ _ ⟨⟩) (by rintro _ _ _ ⟨⟩)
      · exact left hc hp rfl (by simp) (fun q hq => absurd (chan_of_wakeup hq) (hnone q))
          (fun q hq => absurd hq (wakeup_none hawake))
    · exact left hc hp rfl (by simp) (fun q hq => hr rfl q (chan_of_wakeup hq))
        (fun q hq => absurd hq (wakeup_none hawake))
  | writeTest n src i =>
    rw [PipeUsers.advance]
    split
    · next hi =>
      split
      · next hreturn =>
        -- the early return: it wakes nobody, so it must not have stored bytes for a sleeping reader
        refine left hc hp rfl (by simp) (fun q hq => ?_) (hw rfl)
        refine (h.nread q hq).resolve_right ?_
        rintro ⟨hpos, -⟩
        rcases hreturn with hclosed | hkilled
        · rw [h.fresh p _ hp rfl hpos] at hclosed
          cases hclosed
        · have hsleeper : ∃ q, s.chan q = some .nread := ⟨q, hq⟩
          simp [announces, hp, hi, hkilled, hpos, hsleeper] at hok
      · next hgo =>
        have hopen : s.pipe.readopen = true := by
          cases hro : s.pipe.readopen
          · exact absurd (.inl hro) hgo
          · rfl
        refine goto hc hp rfl (fun q hq => ?_) (fun q hq => .inl (hw rfl q hq)) (fun _ _ => hopen)
          (by rintro _ _ ⟨⟩) (fun _ _ _ _ => hopen)
        exact (h.nread q hq).imp_right fun hpos => ⟨hpos.1, rfl⟩
    · exact left hc hp rfl (by simp) (fun q hq => absurd hq (wakeup_none hawake))
        (fun q hq => hw rfl q (chan_of_wakeup hq))
  | writeBody n src i =>
    have hopen := h.writeBody p n src i hp
    rw [PipeUsers.advance]
    split
    · next hfull =>
      refine left hc hp rfl (by simp) (fun q hq => ?_) (fun _ _ => ⟨hfull, hopen⟩)
      by_cases hqp : q = p
      · subst hqp
        simp [sleep] at hq
      · simp only [sleep, Function.update_of_ne hqp] at hq
        exact absurd hq (wakeup_none hawake)
    · next hfull =>
      -- there is room, so no writer sleeps
      have hnone : ∀ q, s.chan q ≠ some .nwrite := fun q hq => hfull (hw rfl q hq).1
      split
      · exact left hc hp rfl (by simp) (fun q hq => absurd hq (wakeup_none hawake))
          (fun q hq => absurd (chan_of_wakeup hq) (hnone q))
      · exact goto hc hp rfl (fun q hq => .inr ⟨Nat.succ_pos _, rfl⟩)
          (fun q hq => absurd hq (hnone q)) (fun _ _ => hopen) (by rintro _ _ ⟨⟩) (by rintro _ _ _ ⟨⟩)
  | close writable =>
    rw [PipeUsers.advance]
    split
    · exact left hc hp rfl (by simp) (fun q hq => absurd hq (wakeup_none hawake))
        (fun q hq => hw rfl q (chan_of_wakeup hq))
    · exact left hc hp rfl (by simp) (fun q hq => hr rfl q (chan_of_wakeup hq))
        (fun q hq => absurd hq (wakeup_none hawake))

theorem Awake.step [Fintype ι] (h : Awake s) (hc : Control s) {a : PipeAct ι}
    (ha : step s a = some (.ok s')) (hok : announces s a = true) : Awake s' := by
  rcases step_cases ha with ⟨p, st, -, hp, rfl⟩ | ⟨p, st, -, hp, hlock, -, rfl⟩ |
    ⟨p, st, rfl, hp, rfl⟩ | ⟨p, -, rfl⟩
  · have hin : ∀ q st', s.pc q = .inside st' →
        Function.update s.pc p (.acquire st) q = .inside st' := by
      intro q st' hq
      have hqp : q ≠ p := by
        rintro rfl
        rw [hp] at hq
        cases hq
      rw [Function.update_of_ne hqp, hq]
    have hout : ∀ {q st'}, Function.update s.pc p (.acquire st) q = .inside st' →
        s.pc q = .inside st' := inside_of_update (by simp)
    refine ⟨fun q hq => ?_, fun q hq => ?_, fun q st' hq => h.fresh q st' (hout hq),
      fun q n dst hq => h.readSleep q n dst (hout hq),
      fun q n src i hq => h.writeBody q n src i (hout hq)⟩
    · exact (h.nread q hq).imp_right fun ⟨hpos, r, st', hr, hw⟩ => ⟨hpos, r, st', hin r st' hr, hw⟩
    · exact (h.nwrite q hq).imp_right fun ⟨r, st', hr, hw⟩ => ⟨r, st', hin r st' hr, hw⟩
  · -- the lock was free, so nobody is about to wake a sleeper
    have hfree : ∀ q st', s.pc q ≠ .inside st' := by
      intro q st' hq
      have := hc.lock q st' hq
      rw [hlock] at this
      cases this
    have hentry := hc.entry p st hp
    refine inside (p := p) (Function.update_self ..) (fun q st' hq => ?_) (fun q hq => ?_)
      (fun q hq => ?_) (fun _ hpos => absurd hpos (Nat.lt_irrefl 0)) ?_ ?_
    · by_contra hqp
      exact hfree q st' ((Function.update_of_ne hqp ..).symm.trans hq)
    · exact .inl ((h.nread q hq).resolve_right fun ⟨_, r, st', hr, _⟩ => hfree r st' hr)
    · exact .inl ((h.nwrite q hq).resolve_right fun ⟨r, st', hr, _⟩ => hfree r st' hr)
    · rintro n dst rfl
      cases hentry
    · rintro n src i rfl
      cases hentry
  · exact h.advance hc hp hok
  · exact ⟨fun q hq => h.nread q (chan_of_update hq), fun q hq => h.nwrite q (chan_of_update hq),
      h.fresh, h.readSleep, h.writeBody⟩

/-- Sleepers on `&nread` find no byte to read, those on `&nwrite` no room to write. -/
def NoIdleSleeper (s : PipeUsers ι) : Prop :=
  (∀ q, s.chan q = some .nread → s.pipe.nread = s.pipe.nwrite ∧ s.pipe.writeopen = true) ∧
    ∀ q, s.chan q = some .nwrite → s.pipe.count = PIPESIZE ∧ s.pipe.readopen = true

end

end PipeUsers

open PipeUsers

/-- **No reader sleeps on a readable pipe**, in every run in which no writer is found killed at the head
of its loop after storing bytes that a sleeping reader was not woken for. -/
theorem pipe_no_idle_sleeper {ι : Type} [DecidableEq ι] [Fintype ι] {data : Nat → UInt8}
    {as : List (PipeAct ι)} {s : PipeUsers ι}
    (h : Machine.Run (Machine.restrict announces PipeUsers.step) (PipeUsers.init data) as s)
    (hfree : s.lock = none) : NoIdleSleeper s := by
  have hinv : Control s ∧ Awake s := by
    refine h.invariant (P := fun s => Control s ∧ Awake s) ⟨control_init data, Awake.init data⟩ ?_
    rintro s a s' ⟨hc, hw⟩ ha
    obtain ⟨hok, ha⟩ := Machine.restrict_eq_some.1 ha
    exact ⟨hc.step ha, hw.step hc ha hok⟩
  obtain ⟨hc, hw⟩ := hinv
  have hout : ∀ q st, s.pc q ≠ .inside st := by
    intro q st hq
    have := hc.lock q st hq
    rw [hfree] at this
    cases this
  refine ⟨fun q hq => ?_, fun q hq => ?_⟩
  · have hempty := (hw.nread q hq).resolve_right fun ⟨_, r, st, hr, _⟩ => hout r st hr
    exact ⟨Pipe.empty_iff.1 hempty.1, hempty.2⟩
  · have hfull := (hw.nwrite q hq).resolve_right fun ⟨r, st, hr, _⟩ => hout r st hr
    exact ⟨Pipe.full_iff.1 hfull.1, hfull.2⟩

/-- A reader that sleeps on the empty pipe is woken by a writer that is killed after its write. -/
theorem pipe_no_idle_sleeper_late_kill : ∃ s : PipeUsers (Fin 2),
    Machine.Run (Machine.restrict announces PipeUsers.step) (PipeUsers.init fun _ => 0)
      [.read 0 1 fun _ => true, .acquire 0, .step 0, .step 0,
        .write 1 1 fun _ => some 7, .acquire 1, .step 1, .step 1, .step 1, .kill 1] s ∧
    s.lock = none ∧ NoIdleSleeper s := by
  have hrun : ∃ s : PipeUsers (Fin 2),
      Machine.Run (Machine.restrict announces PipeUsers.step) (PipeUsers.init fun _ => 0)
        [.read 0 1 fun _ => true, .acquire 0, .step 0, .step 0,
          .write 1 1 fun _ => some 7, .acquire 1, .step 1, .step 1, .step 1, .kill 1] s ∧
      s.lock = none := ⟨_, Machine.run_of_exec rfl, rfl⟩
  obtain ⟨s, hs, hfree⟩ := hrun
  exact ⟨s, hs, hfree, pipe_no_idle_sleeper hs hfree⟩

/-- The writer stores the first of its two bytes, is killed, and returns `-1` from the test at the head
of its loop; the reader goes on sleeping although there is a byte to read. -/
theorem pipe_killed_writer_strands_reader : ∃ s : PipeUsers (Fin 2),
    Machine.Run PipeUsers.step (PipeUsers.init fun _ => 0)
      [.read 0 1 fun _ => true, .acquire 0, .step 0, .step 0,
        .write 1 2 fun _ => some 7, .acquire 1, .step 1, .step 1, .kill 1, .step 1] s ∧
    s.lock = none ∧ s.chan 0 = some .nread ∧ s.pipe.contents = [7] ∧ ¬ NoIdleSleeper s := by
  refine ⟨_, Machine.run_of_exec rfl, rfl, rfl, rfl, ?_⟩
  intro h
  exact absurd (h.1 0 rfl).1 (by decide)

end Xv6pp
