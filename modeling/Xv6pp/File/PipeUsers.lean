import Xv6pp.File.Pipe

/-!
# What a step at a pipe does

The buffer of a pipe is a queue: `put` appends to its contents and `get` takes the first byte off.
`step_cases` says what an action can do, and `Control` says who holds the lock and where a sleeper is;
the invariants of the pipe's users are built on these.
-/

set_option autoImplicit false

namespace Xv6pp

/-! ## The buffer as a queue -/

namespace Pipe

variable {p : Pipe}

theorem toNat_succ (x : UInt32) : (x + 1).toNat = (x.toNat + 1) % 2 ^ 32 := UInt32.toNat_add x 1

theorem empty_iff : p.empty = true ↔ p.nread = p.nwrite := by rw [empty, beq_iff_eq]

theorem count_eq_zero : p.count = 0 ↔ p.empty = true := by
  rw [empty_iff, count, Ring.count_eq_zero p.nread.toNat_lt p.nwrite.toNat_lt]
  exact UInt32.toNat_inj

theorem count_eq (p : Pipe) : p.count = (p.nwrite - p.nread).toNat := by
  have hr := p.nread.toNat_lt
  rw [count, Ring.count, UInt32.toNat_sub]
  congr 1
  omega

theorem full_iff : p.full = true ↔ p.count = PIPESIZE := by
  have hsize : PIPESIZE < 2 ^ 32 := by decide
  rw [full, beq_iff_eq, count, Ring.count_eq_size hsize p.nread.toNat_lt p.nwrite.toNat_lt,
    ← UInt32.toNat_inj, UInt32.toNat_add]
  rfl

theorem count_put {ch : UInt8} (h : p.count < PIPESIZE) : (p.put ch).count = p.count + 1 := by
  have hlt : p.count + 1 < 2 ^ 32 := by
    have hsize : PIPESIZE = 512 := rfl
    omega
  rw [count, put, toNat_succ]
  exact Ring.count_push p.nread.toNat_lt p.nwrite.toNat_lt hlt

theorem contents_put {ch : UInt8} (h : p.count < PIPESIZE) :
    (p.put ch).contents = p.contents ++ [ch] := by
  rw [contents, put, toNat_succ]
  exact Ring.contents_push _ (by decide) (by decide) p.nread.toNat_lt p.nwrite.toNat_lt h ch

theorem ne_of_not_empty (h : p.empty = false) : p.nread.toNat ≠ p.nwrite.toNat := by
  intro heq
  rw [empty_iff.2 (UInt32.toNat_inj.1 heq)] at h
  cases h

theorem count_get (h : p.empty = false) : p.count = p.get.2.count + 1 := by
  rw [count, count, get, toNat_succ]
  exact Ring.count_pop p.nread.toNat_lt p.nwrite.toNat_lt (ne_of_not_empty h)

theorem contents_get (h : p.empty = false) : p.contents = p.get.1 :: p.get.2.contents := by
  rw [contents, contents, get, toNat_succ]
  exact Ring.contents_pop (by decide) p.nread.toNat_lt p.nwrite.toNat_lt (ne_of_not_empty h)

theorem empty_opened {data : Nat → UInt8} : (opened data).empty = true := empty_iff.2 rfl

theorem contents_empty (h : p.empty = true) : p.contents = [] := by
  have hcount : Ring.count (2 ^ 32) p.nread.toNat p.nwrite.toNat = 0 := count_eq_zero.2 h
  rw [contents, Ring.contents, hcount]
  rfl

end Pipe

/-! ## Kinds of stages -/

namespace PipeStage

/-- Does a call begin here, or go on here after a sleep? -/
def entry : PipeStage → Bool
  | readTest .. | writeTest .. | close .. => true
  | _ => false

/-- A stage of `write`. -/
def writing : PipeStage → Bool
  | writeTest .. | writeBody .. => true
  | _ => false

/-- The `for` loop of `read`. -/
def copying : PipeStage → Bool
  | readCopy .. => true
  | _ => false

end PipeStage

namespace PipeUsers

variable {ι : Type} {s s' : PipeUsers ι} {p q : ι}

/-! ## The lock and the sleepers -/

/-- Who holds the lock, and where a sleeper is. -/
structure Control (s : PipeUsers ι) : Prop where
  /-- The process inside is the holder of the lock. -/
  lock : ∀ p st, s.pc p = .inside st → s.lock = some p
  /-- A process sleeps only where it will need the lock to go on. -/
  chan : ∀ p c, s.chan p = some c → ∃ st, s.pc p = .acquire st
  /-- The places from which a process asks for the lock. -/
  entry : ∀ p st, s.pc p = .acquire st → st.entry = true

namespace Control

theorem awake (h : Control s) {st : PipeStage} (hp : s.pc p = .inside st) : s.chan p = none := by
  rcases hc : s.chan p with _ | c
  · rfl
  · obtain ⟨st', hst'⟩ := h.chan p c hc
    rw [hp] at hst'
    cases hst'

/-- Only one process is inside. -/
theorem unique (h : Control s) {st st' : PipeStage} (hp : s.pc p = .inside st)
    (hq : s.pc q = .inside st') : q = p :=
  Option.some.inj ((h.lock q st' hq).symm.trans (h.lock p st hp))

variable [DecidableEq ι]

/-- **One process moves**, the one inside or one that takes the free lock; others may be woken. -/
theorem move (h : Control s) {pc : PipePc} (hpc : s'.pc = Function.update s.pc p pc)
    (hin : ∀ q ≠ p, ∀ st, s.pc q ≠ .inside st)
    (hlock : ∀ st, pc = .inside st → s'.lock = some p)
    (hchan : ∀ c, s'.chan p = some c → ∃ st, pc = .acquire st)
    (hentry : ∀ st, pc = .acquire st → st.entry = true)
    (hothers : ∀ q ≠ p, ∀ c, s'.chan q = some c → s.chan q = some c) : Control s' where
  lock := by
    intro q st hq
    rw [hpc] at hq
    by_cases hqp : q = p
    · subst hqp
      rw [Function.update_self] at hq
      exact hlock st hq
    · rw [Function.update_of_ne hqp] at hq
      exact absurd hq (hin q hqp st)
  chan := by
    intro q c hc
    rw [hpc]
    by_cases hqp : q = p
    · subst hqp
      rw [Function.update_self]
      exact hchan c hc
    · rw [Function.update_of_ne hqp]
      exact h.chan q c (hothers q hqp c hc)
  entry := by
    intro q st hq
    rw [hpc] at hq
    by_cases hqp : q = p
    · subst hqp
      rw [Function.update_self] at hq
      exact hentry st hq
    · rw [Function.update_of_ne hqp] at hq
      exact h.entry q st hq

end Control

theorem control_init (data : Nat → UInt8) : Control (init data : PipeUsers ι) where
  lock := by intro p st h; cases h
  chan := by intro p c h; cases h
  entry := by intro p st h; cases h

section

variable [DecidableEq ι]

/-- Who is inside after a process moved to a place outside. -/
theorem inside_of_update {pcs : ι → PipePc} {pc : PipePc} {st : PipeStage}
    (hpc : ∀ st, pc ≠ .inside st) (h : Function.update pcs p pc q = .inside st) :
    pcs q = .inside st := by
  by_cases hqp : q = p
  · subst hqp
    rw [Function.update_self] at h
    exact absurd h (hpc st)
  · rwa [Function.update_of_ne hqp] at h

/-- Who sleeps after a process was made runnable. -/
theorem chan_of_update {chan : ι → Option PipeChan} {c : PipeChan}
    (h : Function.update chan p none q = some c) : chan q = some c := by
  by_cases hqp : q = p
  · subst hqp
    rw [Function.update_self] at h
    cases h
  · rwa [Function.update_of_ne hqp] at h

theorem chan_of_wakeup {c c' : PipeChan} (h : (s.wakeup c p).chan q = some c') :
    s.chan q = some c' := by
  simp only [wakeup] at h
  split at h
  · cases h
  · exact h

/-- What a step of the process inside does to the lock and the sleepers. -/
theorem advance_move (s : PipeUsers ι) (p : ι) (st : PipeStage) :
    ∃ pc, (s.advance p st).pc = Function.update s.pc p pc ∧
      ((∃ st', pc = .inside st') ∧ (s.advance p st).lock = s.lock ∧
          (s.advance p st).chan = s.chan ∨
        pc = .user ∧ (s.advance p st).lock = none ∧
          (∀ q c, (s.advance p st).chan q = some c → s.chan q = some c) ∨
        (∃ st', st'.entry = true ∧ pc = .acquire st') ∧ (s.advance p st).lock = none ∧
          ∀ q ≠ p, ∀ c, (s.advance p st).chan q = some c → s.chan q = some c) := by
  have hwake : ∀ c q c', (s.wakeup c p).chan q = some c' → s.chan q = some c' :=
    fun c q c' => chan_of_wakeup
  cases st with
  | readTest n dst =>
    rw [advance]
    split
    · split
      · exact ⟨.user, rfl, .inr (.inl ⟨rfl, rfl, fun _ _ h => h⟩)⟩
      · exact ⟨_, rfl, .inl ⟨⟨_, rfl⟩, rfl, rfl⟩⟩
    · exact ⟨_, rfl, .inl ⟨⟨_, rfl⟩, rfl, rfl⟩⟩
  | readSleep n dst =>
    refine ⟨_, rfl, .inr (.inr ⟨⟨_, rfl, rfl⟩, rfl, fun q hq c h => ?_⟩)⟩
    simpa only [advance, sleep, Function.update_of_ne hq] using h
  | readCopy n dst out =>
    rw [advance]
    split
    · dsimp only
      split
      · exact ⟨_, rfl, .inl ⟨⟨_, rfl⟩, rfl, rfl⟩⟩
      · exact ⟨_, rfl, .inr (.inl ⟨rfl, rfl, hwake .nwrite⟩)⟩
    · exact ⟨_, rfl, .inr (.inl ⟨rfl, rfl, hwake .nwrite⟩)⟩
  | writeTest n src i =>
    rw [advance]
    split
    · split
      · exact ⟨.user, rfl, .inr (.inl ⟨rfl, rfl, fun _ _ h => h⟩)⟩
      · exact ⟨_, rfl, .inl ⟨⟨_, rfl⟩, rfl, rfl⟩⟩
    · exact ⟨_, rfl, .inr (.inl ⟨rfl, rfl, hwake .nread⟩)⟩
  | writeBody n src i =>
    rw [advance]
    split
    · refine ⟨_, rfl, .inr (.inr ⟨⟨_, rfl, rfl⟩, rfl, fun q hq c h => ?_⟩)⟩
      simp only [sleep, Function.update_of_ne hq] at h
      exact hwake .nread q c h
    · split
      · exact ⟨_, rfl, .inr (.inl ⟨rfl, rfl, hwake .nread⟩)⟩
      · exact ⟨_, rfl, .inl ⟨⟨_, rfl⟩, rfl, rfl⟩⟩
  | close writable =>
    rw [advance]
    split
    · exact ⟨_, rfl, .inr (.inl ⟨rfl, rfl, hwake .nread⟩)⟩
    · exact ⟨_, rfl, .inr (.inl ⟨rfl, rfl, hwake .nwrite⟩)⟩

theorem Control.advance (h : Control s) {st : PipeStage} (hp : s.pc p = .inside st) :
    Control (s.advance p st) := by
  obtain ⟨pc, hpc, hcase⟩ := advance_move s p st
  have hin : ∀ q ≠ p, ∀ st, s.pc q ≠ .inside st := fun q hq st' hst' => hq (h.unique hp hst')
  have hself : ∀ c, s.chan p ≠ some c := by
    intro c hc
    rw [h.awake hp] at hc
    cases hc
  rcases hcase with ⟨⟨st', rfl⟩, hlock, hchan⟩ | ⟨rfl, hlock, hchan⟩ | 
      ⟨⟨st', hentry, rfl⟩, hlock, hchan⟩
  · refine h.move hpc hin (fun _ _ => hlock.trans (h.lock p st hp)) ?_ (by simp) ?_
    · exact fun c hc => absurd (hchan ▸ hc) (hself c)
    · exact fun q _ c hc => hchan ▸ hc
  · refine h.move hpc hin (by simp) ?_ (by simp) ?_
    · exact fun c hc => absurd (hchan p c hc) (hself c)
    · exact fun q _ c hc => hchan q c hc
  · refine h.move hpc hin (by simp) (fun _ _ => ⟨st', rfl⟩) ?_ hchan
    rintro st₁ ⟨⟩
    exact hentry

/-- The call an action starts. -/
def starts : PipeAct ι → Option (ι × PipeStage)
  | .read p n dst => some (p, .readTest n dst)
  | .write p n src => some (p, .writeTest n src 0)
  | .close p writable => some (p, .close writable)
  | _ => none

omit [DecidableEq ι] in
theorem entry_of_starts {a : PipeAct ι} {st : PipeStage} (h : starts a = some (p, st)) :
    st.entry = true := by
  cases a <;> cases h <;> rfl

/-- **What a step can do**: start a call, take the lock, go on inside, or set a killed flag. -/
theorem step_cases {a : PipeAct ι} (h : step s a = some (.ok s')) :
    (∃ p st, starts a = some (p, st) ∧ s.pc p = .user ∧
      s' = { s with pc := Function.update s.pc p (.acquire st) }) ∨
    (∃ p st, a = .acquire p ∧ s.pc p = .acquire st ∧ s.lock = none ∧ s.chan p = none ∧
      s' = { s with lock := some p, pc := Function.update s.pc p (.inside st), fresh := 0 }) ∨
    (∃ p st, a = .step p ∧ s.pc p = .inside st ∧ s' = s.advance p st) ∨
    (∃ p, a = .kill p ∧ s' = { s with
      killed := Function.update s.killed p true
      chan := Function.update s.chan p none }) := by
  have hcall : ∀ p st, s.call p st = some (.ok s') → s.pc p = .user ∧
      s' = { s with pc := Function.update s.pc p (.acquire st) } := by
    intro p st h
    rw [call] at h
    split at h
    · next hp => cases h; exact ⟨hp, rfl⟩
    · cases h
  cases a with
  | read p n dst => exact .inl ⟨p, _, rfl, hcall _ _ h⟩
  | write p n src => exact .inl ⟨p, _, rfl, hcall _ _ h⟩
  | close p writable => exact .inl ⟨p, _, rfl, hcall _ _ h⟩
  | acquire p =>
    rw [step] at h
    split at h
    · next st hp =>
      split at h
      · next hfree => cases h; exact .inr (.inl ⟨p, st, rfl, hp, hfree.1, hfree.2, rfl⟩)
      · cases h
    · cases h
  | step p =>
    rw [step] at h
    split at h
    · next st hp => cases h; exact .inr (.inr (.inl ⟨p, st, rfl, hp, rfl⟩))
    · cases h
  | kill p =>
    rw [step] at h
    cases h
    exact .inr (.inr (.inr ⟨p, rfl, rfl⟩))

theorem Control.step (h : Control s) {a : PipeAct ι} (ha : step s a = some (.ok s')) :
    Control s' := by
  rcases step_cases ha with ⟨p, st, hst, hp, rfl⟩ | ⟨p, st, -, hp, hlock, hchan, rfl⟩ |
    ⟨p, st, -, hp, rfl⟩ | ⟨p, -, rfl⟩
  · refine ⟨fun q st' hq => h.lock q st' (inside_of_update (by simp) hq), fun q c hc => ?_,
      fun q st' hq => ?_⟩
    · by_cases hqp : q = p
      · subst hqp
        exact ⟨st, Function.update_self ..⟩
      · obtain ⟨st', hst'⟩ := h.chan q c hc
        exact ⟨st', (Function.update_of_ne hqp ..).trans hst'⟩
    · by_cases hqp : q = p
      · subst hqp
        obtain rfl : st = st' := by simpa using hq
        exact entry_of_starts hst
      · exact h.entry q st' ((Function.update_of_ne hqp ..).symm.trans hq)
  · refine h.move rfl ?_ (fun _ _ => rfl) ?_ (by simp) (fun _ _ _ hc => hc)
    · intro q _ st' hq
      have := h.lock q st' hq
      rw [hlock] at this
      cases this
    · intro c hc
      have : s.chan p = some c := hc
      rw [hchan] at this
      cases this
  · exact h.advance hp
  · exact ⟨h.lock, fun q c hc => h.chan q c (chan_of_update hc), h.entry⟩

end

end PipeUsers

end Xv6pp
