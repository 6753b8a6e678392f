import Xv6pp.Proc.SpinLock

/-!
# The interrupt-enable state belongs to the kernel thread

`noff` and `intena` are kept for each processor, but they belong to the thread that runs on it: `noff`
is the number of its outstanding `push_off`s, and `intena` is the interrupt bit that it will
restore.  `sched` saves `intena` in a local variable of the thread and `swtch` hands the one
`push_off` of the lock of the process over to the scheduler, so both are true again on the processor
where the thread comes back.
-/

set_option autoImplicit false

namespace Xv6pp

namespace CpuManager

variable {ι κ Λ : Type}

/-! ## The schedulers -/

/-- Where the scheduler is in its calls, and what it holds, at a position in `run`. -/
def SchedPos.At : SchedPos ι → ThreadPc ι Λ → List (LockId ι Λ) → Prop
  | .top, pc, held | .enabled, pc, held => pc = .idle ∧ held = []
  | .loop _, pc, held => (pc = .idle ∨ (∃ l, pc = .unlock l) ∨ pc = .popOff) ∧ held = []
  | .locked p _, pc, held =>
    ((∃ old, pc = .pushed old (some (.proc p))) ∨ pc = .spin (.proc p) ∨ pc = .own (.proc p)) ∧
      held = [] ∨ pc = .idle ∧ held = [.proc p]
  | .away p _, pc, held => pc = .idle ∧ held = [.proc p]

/-- The scheduler is at a position in `run`, also while it handles interrupts. -/
def KThread.SchedAt (t : KThread ι Λ) (pos : SchedPos ι) : Prop :=
  match t.trapped.getLast? with
  | none => pos.At t.pc t.held ∧ t.guards = 0
  | some pc => pos.At pc ([] : List (LockId ι Λ))

theorem KThread.schedAt_nil {t : KThread ι Λ} {pos : SchedPos ι} (h : t.trapped = []) :
    t.SchedAt pos ↔ pos.At t.pc t.held ∧ t.guards = 0 := by
  rw [KThread.SchedAt, h]
  rfl

/-- In an interrupt handler, the scheduler stays where it is. -/
theorem KThread.SchedAt.congr {t t' : KThread ι Λ} {pos : SchedPos ι} (h : t.SchedAt pos)
    (hne : t.trapped ≠ []) (heq : t'.trapped.getLast? = t.trapped.getLast?) : t'.SchedAt pos := by
  obtain ⟨pc, hpc⟩ := Option.ne_none_iff_exists'.1 (mt List.getLast?_eq_none_iff.1 hne)
  rw [KThread.SchedAt, hpc] at h
  rw [KThread.SchedAt, heq, hpc]
  exact h

variable {c : κ} {v v' : CpuView ι κ Λ} {pos : SchedPos ι}

section
variable [DecidableEq ι] [DecidableEq κ] [DecidableEq Λ]

/-- What the call in progress does to the thread. -/
theorem CpuView.go_thread (hgo : v.go c = some (.ok v')) :
    ∃ pc held guards, v'.thread = { v.thread with pc := pc, held := held, guards := guards } ∧
      match v.thread.pc with
      | .pushed _ none => pc = .idle ∧ held = v.thread.held ∧ guards = v.thread.guards + 1
      | .pushed _ (some l) => pc = .spin l ∧ held = v.thread.held ∧ guards = v.thread.guards
      | .spin l => (pc = .spin l ∨ pc = .own l) ∧ held = v.thread.held ∧ guards = v.thread.guards
      | .own l => pc = .idle ∧ held = l :: v.thread.held ∧ guards = v.thread.guards
      | .unlock _ => pc = .popOff ∧ held = v.thread.held ∧ guards = v.thread.guards
      | .popOff | .switched _ =>
        pc = .idle ∧ held = v.thread.held ∧ guards = v.thread.guards
      | .idle | .forkret => False := by
  obtain ⟨cpu, ⟨pc, held, guards, trapped⟩, lock⟩ := v
  cases pc with
  | idle | forkret => exact absurd hgo (by rintro ⟨⟩)
  | pushed old l =>
    cases l with
    | none =>
      obtain rfl := Except.ok.inj (Option.some.inj hgo)
      exact ⟨_, _, _, rfl, rfl, rfl, rfl⟩
    | some l =>
      have hr := Option.some.inj hgo
      split at hr
      · exact absurd hr (by rintro ⟨⟩)
      · obtain rfl := Except.ok.inj hr
        exact ⟨_, _, _, rfl, rfl, rfl, rfl⟩
  | spin l =>
    have hr := Option.some.inj hgo
    split at hr <;> obtain rfl := Except.ok.inj hr
    · exact ⟨_, _, _, rfl, .inl rfl, rfl, rfl⟩
    · exact ⟨_, _, _, rfl, .inr rfl, rfl, rfl⟩
  | own l | unlock l | switched x =>
    obtain rfl := Except.ok.inj (Option.some.inj hgo)
    exact ⟨_, _, _, rfl, rfl, rfl, rfl⟩
  | popOff =>
    have hr := Option.some.inj hgo
    cases hpop : cpu.popOff with
    | error e =>
      dsimp only at hr
      rw [hpop] at hr
      exact absurd hr (by rintro ⟨⟩)
    | ok cpu' =>
      dsimp only at hr
      rw [hpop] at hr
      obtain rfl := Except.ok.inj hr
      exact ⟨_, _, _, rfl, rfl, rfl, rfl⟩

/-- The scheduler goes on with a call. -/
theorem KThread.SchedAt.go (h : v.thread.SchedAt pos) (hgo : v.go c = some (.ok v')) :
    v'.thread.SchedAt pos := by
  obtain ⟨pc, held, guards, hthread, hpc⟩ := CpuView.go_thread hgo
  by_cases htrapped : v.thread.trapped = []
  · obtain ⟨hat, hguards⟩ := (KThread.schedAt_nil htrapped).1 h
    rw [KThread.schedAt_nil (by rw [hthread]; exact htrapped), hthread]
    cases pos with
    | top | enabled | away =>
      rw [hat.1] at hpc
      exact absurd hpc id
    | loop ps =>
      obtain ⟨hidle | ⟨l, hunlock⟩ | hpop, hheld⟩ := hat
      · rw [hidle] at hpc
        exact absurd hpc id
      · rw [hunlock, hheld, hguards] at hpc
        exact ⟨⟨.inr (.inr hpc.1), hpc.2.1⟩, hpc.2.2⟩
      · rw [hpop, hheld, hguards] at hpc
        exact ⟨⟨.inl hpc.1, hpc.2.1⟩, hpc.2.2⟩
    | locked p ps =>
      obtain ⟨⟨old, hpushed⟩ | hspin | hown, hheld⟩ | ⟨hidle, -⟩ := hat
      · rw [hpushed, hheld, hguards] at hpc
        exact ⟨.inl ⟨.inr (.inl hpc.1), hpc.2.1⟩, hpc.2.2⟩
      · rw [hspin, hheld, hguards] at hpc
        exact ⟨.inl ⟨.inr hpc.1, hpc.2.1⟩, hpc.2.2⟩
      · rw [hown, hheld, hguards] at hpc
        exact ⟨.inr ⟨hpc.1, hpc.2.1⟩, hpc.2.2⟩
      · rw [hidle] at hpc
        exact absurd hpc id
  · exact h.congr htrapped (by rw [hthread])

theorem CpuView.release_thread {l : LockId ι Λ} (h : v.release c l = .ok v') :
    v'.thread = { v.thread with pc := .unlock l, held := v.thread.held.erase l } := by
  rw [CpuView.release] at h
  split at h
  · obtain rfl := Except.ok.inj h
    rfl
  · exact absurd h (by rintro ⟨⟩)

/-- A call does not change which interrupts the thread handles. -/
theorem CpuView.call_trapped {m : SpinCall ι Λ} (hcall : v.call c m = some (.ok v'))
    (hm : m ≠ .interrupt ∧ m ≠ .sret) : v'.thread.trapped = v.thread.trapped := by
  cases m with
  | guard | acquire l =>
    obtain ⟨-, hr⟩ := Option.ite_none_right_eq_some.1 hcall
    obtain rfl := Except.ok.inj (Option.some.inj hr)
    rfl
  | unguard =>
    obtain ⟨-, hr⟩ := Option.ite_none_right_eq_some.1 hcall
    cases hpop : v.cpu.popOff with
    | error e =>
      rw [hpop] at hr
      exact absurd hr (by rintro ⟨⟩)
    | ok cpu =>
      rw [hpop] at hr
      obtain rfl := Except.ok.inj (Option.some.inj hr)
      rfl
  | release l =>
    obtain ⟨-, hr⟩ := Option.ite_none_right_eq_some.1 hcall
    rw [CpuView.release_thread (Option.some.inj hr)]
  | interrupt => exact absurd rfl hm.1
  | sret => exact absurd rfl hm.2

/-- A call of the scheduler in an interrupt handler, or an interrupt. -/
theorem KThread.SchedAt.call {m : SpinCall ι Λ} (h : v.thread.SchedAt pos) (hok : v.Ok c)
    (hm : v.thread.trapped = [] → m = .interrupt) (hcall : v.call c m = some (.ok v')) :
    v'.thread.SchedAt pos := by
  by_cases hi : m = .interrupt
  · subst hi
    obtain ⟨hsie, hr⟩ := Option.ite_none_right_eq_some.1 hcall
    obtain rfl := Except.ok.inj (Option.some.inj hr)
    by_cases htrapped : v.thread.trapped = []
    · -- the depth is zero, so the scheduler holds nothing
      obtain ⟨hat, -⟩ := (KThread.schedAt_nil htrapped).1 h
      rw [(KThread.depth_eq_zero.1 (hok.depth_eq_zero hsie)).1] at hat
      rw [KThread.SchedAt, htrapped]
      exact hat
    · obtain ⟨pc, trapped, hcons⟩ := List.exists_cons_of_ne_nil htrapped
      exact h.congr htrapped (by rw [hcons, List.getLast?_cons_cons])
  · have htrapped : v.thread.trapped ≠ [] := mt hm hi
    by_cases hs : m = .sret
    · subst hs
      rw [CpuView.call] at hcall
      split at hcall
      · exact absurd ‹_› htrapped
      · next pc trapped hcons =>
        obtain ⟨⟨-, hheld, hguards⟩, hr⟩ := Option.ite_none_right_eq_some.1 hcall
        obtain rfl := Except.ok.inj (Option.some.inj hr)
        cases trapped with
        | nil =>
          rw [KThread.SchedAt, hcons] at h
          rw [KThread.schedAt_nil rfl]
          exact ⟨hheld ▸ h, hguards⟩
        | cons pc' trapped => exact h.congr htrapped (by rw [hcons, List.getLast?_cons_cons])
    · exact h.congr htrapped (by rw [CpuView.call_trapped hcall ⟨hi, hs⟩])

end

/-! ## The invariant -/

/-- A kernel thread to which the scheduler may switch. -/
structure KThread.Parked (t : KThread ι Λ) (p : ι) : Prop where
  pc : t.pc.parked = true
  held : t.held = [.proc p]
  guards : t.guards = 0
  trapped : ∀ pc ∈ t.trapped, pc = .idle ∨ ∃ l, pc = .pushed true l

/-- What holds in every state. -/
structure Inv (s : Cpus ι κ Λ) : Prop where
  ok : ∀ c, (s.view c).Ok c
  /-- Two processors keep different locks. -/
  apart : ∀ c c', c ≠ c' → ∀ l ∈ (s.thread c).owned, l ∉ (s.thread c').owned
  sched : ∀ c, (s.sched c).SchedAt (s.pos c)
  /-- The scheduler waits for the process that runs. -/
  away : ∀ c p, s.running c = some p →
    (∃ ps, s.pos c = .away p ps) ∧ (s.sched c).trapped = []
  inj : ∀ c c' p, s.running c = some p → s.running c' = some p → c = c'
  /-- A process that runs has its state; when it has given it up, it has its lock. -/
  state : ∀ c p, s.running c = some p → s.state p = .running ∨
    .proc p ∈ (s.proc p).held ∧ (s.proc p).pc ≠ .forkret
  /-- A new thread has the lock of its process. -/
  fresh : ∀ c p, s.running c = some p → (s.proc p).pc = .forkret → .proc p ∈ (s.proc p).held
  parked : ∀ p, (∀ c, s.running c ≠ some p) → s.state p ≠ .running ∧ (s.proc p).Parked p

section
variable [DecidableEq ι] [DecidableEq κ] {s : Cpus ι κ Λ} {c c' : κ} {p : ι} {v : CpuView ι κ Λ}

namespace Cpus

omit [DecidableEq ι] [DecidableEq κ] in
theorem thread_of_none (h : s.running c = none) : s.thread c = s.sched c := by
  rw [Cpus.thread, h]

omit [DecidableEq ι] [DecidableEq κ] in
theorem thread_of_some (h : s.running c = some p) : s.thread c = s.proc p := by
  rw [Cpus.thread, h]

theorem put_of_none (h : s.running c = none) : s.put c v = { s with
    cpu := Function.update s.cpu c v.cpu, lock := v.lock
    sched := Function.update s.sched c v.thread } := by
  rw [Cpus.put, h]

theorem put_of_some (h : s.running c = some p) : s.put c v = { s with
    cpu := Function.update s.cpu c v.cpu, lock := v.lock
    proc := Function.update s.proc p v.thread } := by
  rw [Cpus.put, h]

theorem view_put_self : (s.put c v).view c = v := by
  cases h : s.running c with
  | none =>
    rw [put_of_none h]
    simp only [Cpus.view, Cpus.thread, h, Function.update_self]
  | some p =>
    rw [put_of_some h]
    simp only [Cpus.view, Cpus.thread, h, Function.update_self]

theorem view_put_of_ne (hinj : ∀ p, s.running c = some p → s.running c' ≠ some p) (hne : c' ≠ c) :
    (s.put c v).view c' = ⟨s.cpu c', s.thread c', v.lock⟩ := by
  cases h : s.running c with
  | none =>
    rw [put_of_none h]
    cases h' : s.running c' with
    | none =>
      simp only [Cpus.view, Cpus.thread, h', Function.update_of_ne hne]
    | some q =>
      simp only [Cpus.view, Cpus.thread, h', Function.update_of_ne hne]
  | some p =>
    rw [put_of_some h]
    cases h' : s.running c' with
    | none =>
      simp only [Cpus.view, Cpus.thread, h', Function.update_of_ne hne]
    | some q =>
      have hq : q ≠ p := by
        rintro rfl
        exact hinj q h h'
      simp only [Cpus.view, Cpus.thread, h', Function.update_of_ne hne, Function.update_of_ne hq]

end Cpus

omit [DecidableEq ι] [DecidableEq κ] in
theorem Inv.not_running (h : Inv s) (hne : c' ≠ c) (hp : s.running c = some p) :
    s.running c' ≠ some p := fun hp' => hne (h.inj c' c p hp' hp)

omit [DecidableEq ι] [DecidableEq κ] in
/-- What a thread keeps locked stays as it is when another processor makes a step. -/
theorem Inv.frame (h : Inv s) (hne : c' ≠ c) (hframe : (s.view c).Frame v) :
    CpuView.Ok c' ⟨s.cpu c', s.thread c', v.lock⟩ ∧
      ∀ l ∈ (s.thread c').owned, l ∉ v.thread.owned := by
  have hok := h.ok c'
  have hno : ∀ l ∈ (s.thread c').owned, l ∉ v.thread.owned := fun l hl hv => by
    have hfree := hframe.fresh l hv (h.apart c' c hne l hl)
    exact absurd ((hok.locked l hl).symm.trans hfree) (by decide)
  have hsame : ∀ l ∈ (s.thread c').owned, v.lock l = s.lock l := fun l hl =>
    hframe.same l (h.apart c' c hne l hl) (hno l hl)
  refine ⟨⟨hok.noff, hok.off, hok.pushed, hok.parked, hok.trapped, hok.nodup, fun l hl => ?_,
    fun l hl => ?_⟩, hno⟩
  · exact (congrArg SpinLock.locked (hsame l hl)).trans (hok.locked l hl)
  · exact (congrArg SpinLock.cpuid (hsame l (List.mem_append_right _ hl))).trans (hok.cpuid l hl)

theorem Inv.ok_put (h : Inv s) (hok : v.Ok c) (hframe : (s.view c).Frame v) (c' : κ) :
    ((s.put c v).view c').Ok c' := by
  by_cases hc : c' = c
  · rw [hc, Cpus.view_put_self]
    exact hok
  · rw [Cpus.view_put_of_ne (fun p hp => h.not_running hc hp) hc]
    exact (h.frame hc hframe).1

theorem Inv.apart_put (h : Inv s) (hframe : (s.view c).Frame v) (c₁ c₂ : κ) (hne : c₁ ≠ c₂) :
    ∀ l ∈ ((s.put c v).thread c₁).owned, l ∉ ((s.put c v).thread c₂).owned := by
  have hself : (s.put c v).thread c = v.thread := congrArg CpuView.thread Cpus.view_put_self
  have hother : ∀ c', c' ≠ c → (s.put c v).thread c' = s.thread c' := fun c' hc =>
    congrArg CpuView.thread (Cpus.view_put_of_ne (fun p hp => h.not_running hc hp) hc)
  intro l hl hl'
  by_cases h₁ : c₁ = c
  · have h₂ : c₂ ≠ c := fun h₂ => hne (h₁.trans h₂.symm)
    rw [h₁, hself] at hl
    rw [hother c₂ h₂] at hl'
    exact (h.frame h₂ hframe).2 l hl' hl
  · rw [hother c₁ h₁] at hl
    by_cases h₂ : c₂ = c
    · rw [h₂, hself] at hl'
      exact (h.frame h₁ hframe).2 l hl hl'
    · rw [hother c₂ h₂] at hl'
      exact h.apart c₁ c₂ hne l hl hl'

/-- **A step of a scheduler**, to another position. -/
theorem Inv.put_sched {pos : SchedPos ι} (h : Inv s) (hrun : s.running c = none) (hok : v.Ok c)
    (hframe : (s.view c).Frame v) (hat : v.thread.SchedAt pos) :
    Inv { s.put c v with pos := Function.update s.pos c pos } := by
  have hok' := h.ok_put hok hframe
  have hapart := h.apart_put hframe
  rw [Cpus.put_of_none hrun] at hok' hapart ⊢
  refine ⟨hok', hapart, fun c' => ?_, fun c' p hp => ?_, h.inj, h.state, h.fresh, h.parked⟩
  · by_cases hc : c' = c
    · simp only [hc, Function.update_self]
      exact hat
    · simp only [Function.update_of_ne hc]
      exact h.sched c'
  · have hc : c' ≠ c := fun hc => absurd ((hc ▸ hp).symm.trans hrun) (by rintro ⟨⟩)
    simp only [Function.update_of_ne hc]
    exact h.away c' p hp

/-- **A step of a process.** -/
theorem Inv.put_proc (h : Inv s) (hrun : s.running c = some p) (hok : v.Ok c)
    (hframe : (s.view c).Frame v)
    (hnew : v.thread.pc ≠ .forkret) (hst : s.state p = .running ∨ .proc p ∈ v.thread.held) :
    Inv (s.put c v) := by
  have hok' := h.ok_put hok hframe
  have hapart := h.apart_put hframe
  rw [Cpus.put_of_some hrun] at hok' hapart ⊢
  refine ⟨hok', hapart, h.sched, h.away, h.inj, fun c' q hq => ?_, fun c' q hq => ?_,
    fun q hq => ?_⟩
  · by_cases hqp : q = p
    · subst hqp
      simp only [Function.update_self]
      exact hst.imp_right fun hl => ⟨hl, hnew⟩
    · simp only [Function.update_of_ne hqp]
      exact h.state c' q hq
  · by_cases hqp : q = p
    · subst hqp
      simp only [Function.update_self]
      exact fun hf => absurd hf hnew
    · simp only [Function.update_of_ne hqp]
      exact h.fresh c' q hq
  · have hqp : q ≠ p := by
      rintro rfl
      exact hq c hrun
    simp only [Function.update_of_ne hqp]
    exact h.parked q hq

/-! ## Switching -/

omit [DecidableEq ι] [DecidableEq κ] in
/-- A process whose lock another thread holds runs only while it is `RUNNING`. -/
theorem Inv.not_running_of_held {q : ι} (h : Inv s) (hl : .proc q ∈ (s.thread c).held)
    (hrun : s.running c ≠ some q) (hst : s.state q ≠ .running) (c' : κ) :
    s.running c' ≠ some q := by
  intro hq
  have hne : c' ≠ c := by
    rintro rfl
    exact hrun hq
  have hl' := ((h.state c' q hq).resolve_left hst).1
  rw [← Cpus.thread_of_some hq] at hl'
  exact h.apart c' c hne _ (List.mem_append_right _ hl') (List.mem_append_right _ hl)

omit [DecidableEq ι] [DecidableEq κ] in
/-- One thread replaces another on a processor, and keeps the same locks locked. -/
theorem Inv.swap (h : Inv s) (s' : Cpus ι κ Λ) (hcpu : s'.cpu = s.cpu) (hlock : s'.lock = s.lock)
    (hother : ∀ c' ≠ c, s'.thread c' = s.thread c')
    (hself : CpuView.Ok c ⟨s.cpu c, s'.thread c, s.lock⟩)
    (howned : (s'.thread c).owned = (s.thread c).owned) :
    (∀ c', (s'.view c').Ok c') ∧
      ∀ c₁ c₂, c₁ ≠ c₂ → ∀ l ∈ (s'.thread c₁).owned, l ∉ (s'.thread c₂).owned := by
  have howned' : ∀ c', (s'.thread c').owned = (s.thread c').owned := fun c' => by
    by_cases hc : c' = c
    · rw [hc, howned]
    · rw [hother c' hc]
  refine ⟨fun c' => ?_, fun c₁ c₂ hne => ?_⟩
  · rw [Cpus.view, hcpu, hlock]
    by_cases hc : c' = c
    · rw [hc]
      exact hself
    · rw [hother c' hc]
      exact h.ok c'
  · rw [howned' c₁, howned' c₂]
    exact h.apart c₁ c₂ hne

omit [DecidableEq ι] [DecidableEq κ] in
/-- A parked thread has the depth, and keeps locked what the scheduler does. -/
theorem KThread.Parked.depth {t : KThread ι Λ} (h : t.Parked p) :
    t.depth = 1 ∧ t.owned = [.proc p] := by
  have hpc := h.pc
  rw [KThread.depth, KThread.owned, h.held, h.guards]
  cases ht : t.pc with
  | switched _ | forkret => exact ⟨rfl, rfl⟩
  | idle | pushed _ _ | spin _ | own _ | unlock _ | popOff =>
    rw [ht] at hpc
    exact absurd hpc (by rintro ⟨⟩)

omit [DecidableEq ι] [DecidableEq κ] in
/-- The thread that replaces one of the same depth, with the lock of its process. -/
theorem Inv.ok_of_owned {t : KThread ι Λ} (h : Inv s) (hheld : (s.thread c).held = [.proc p])
    (hdepth : (s.thread c).depth = 1) (ht : t.depth = 1) (htheld : t.held = [.proc p])
    (howned : t.owned = [.proc p]) (hpc : ∀ old l, t.pc ≠ .pushed old l)
    (htrapped : ∀ pc ∈ t.trapped, pc = .idle ∨ ∃ l, pc = .pushed true l) :
    CpuView.Ok c ⟨s.cpu c, t, s.lock⟩ := by
  have hok := h.ok c
  have hmem : .proc p ∈ (s.thread c).held := by
    rw [hheld]
    exact List.mem_singleton_self _
  refine ⟨?_, hok.off, fun old l hl => absurd hl (hpc old l), fun _ => ?_, htrapped, ?_,
    fun l hl => ?_, fun l hl => ?_⟩
  · exact hok.noff.trans (congrArg Nat.cast (hdepth.trans ht.symm))
  · rw [htheld]
    exact List.cons_ne_nil _ _
  · rw [howned]
    exact List.nodup_singleton _
  · rw [howned, List.mem_singleton] at hl
    rw [hl]
    exact hok.locked _ (List.mem_append_right _ hmem)
  · rw [htheld, List.mem_singleton] at hl
    rw [hl]
    exact hok.cpuid _ hmem

omit [DecidableEq ι] [DecidableEq κ] in
/-- After the acquisition, the scheduler holds the lock of the process that it looks at. -/
theorem Inv.sched_held {ps : List ι} (h : Inv s) (htrapped : (s.sched c).trapped = [])
    (hpos : s.pos c = .locked p ps) (hpc : (s.sched c).pc = .idle) :
    (s.sched c).held = [.proc p] := by
  obtain ⟨hat, -⟩ := (KThread.schedAt_nil htrapped).1 (h.sched c)
  rw [hpos] at hat
  rcases hat with ⟨⟨old, hp⟩ | hp | hp, -⟩ | ⟨-, hheld⟩
  · exact absurd (hpc.symm.trans hp) (by rintro ⟨⟩)
  · exact absurd (hpc.symm.trans hp) (by rintro ⟨⟩)
  · exact absurd (hpc.symm.trans hp) (by rintro ⟨⟩)
  · exact hheld

/-- **The scheduler switches to a process.** -/
theorem Inv.switch_to {ps : List ι} (h : Inv s) (hrun : s.running c = none)
    (htrapped : (s.sched c).trapped = []) (hpos : s.pos c = .locked p ps)
    (hpc : (s.sched c).pc = .idle) (hst : s.state p = .runnable) :
    Inv { s with
      state := Function.update s.state p .running
      running := Function.update s.running c (some p)
      pos := Function.update s.pos c (.away p ps) } := by
  obtain ⟨-, hguards⟩ := (KThread.schedAt_nil htrapped).1 (h.sched c)
  have hheld := h.sched_held htrapped hpos hpc
  have hth := Cpus.thread_of_none hrun
  have hne : s.state p ≠ .running := by
    rw [hst]
    rintro ⟨⟩
  have hmem : .proc p ∈ (s.thread c).held := by
    rw [hth, hheld]
    exact List.mem_singleton_self _
  have hnot := h.not_running_of_held hmem (by rw [hrun]; rintro ⟨⟩) hne
  obtain ⟨-, hparked⟩ := h.parked p hnot
  obtain ⟨hdepth, howned⟩ := hparked.depth
  have hself : Cpus.thread { s with
      state := Function.update s.state p .running
      running := Function.update s.running c (some p)
      pos := Function.update s.pos c (.away p ps) } c = s.proc p := by
    simp only [Cpus.thread, Function.update_self]
  obtain ⟨hok, hapart⟩ := h.swap (c := c) { s with
      state := Function.update s.state p .running
      running := Function.update s.running c (some p)
      pos := Function.update s.pos c (.away p ps) } rfl rfl
    (fun c' hc => by simp only [Cpus.thread, Function.update_of_ne hc])
    (by
      rw [hself]
      refine h.ok_of_owned (by rw [hth, hheld]) ?_ hdepth hparked.held howned ?_ hparked.trapped
      · rw [hth, KThread.depth, hheld, hguards, hpc]
        rfl
      · intro old l hl
        have := hparked.pc
        rw [hl] at this
        exact absurd this (by rintro ⟨⟩))
    (by rw [hself, howned, hth, KThread.owned, hheld, hpc]; rfl)
  have hcases : ∀ {c' q}, Function.update s.running c (some p) c' = some q →
      c' = c ∧ q = p ∨ c' ≠ c ∧ q ≠ p ∧ s.running c' = some q := by
    intro c' q hq
    by_cases hc : c' = c
    · rw [hc, Function.update_self] at hq
      exact .inl ⟨hc, (Option.some.inj hq).symm⟩
    · rw [Function.update_of_ne hc] at hq
      refine .inr ⟨hc, ?_, hq⟩
      rintro rfl
      exact hnot c' hq
  refine ⟨hok, hapart, fun c' => ?_, fun c' q hq => ?_, fun c₁ c₂ q h₁ h₂ => ?_, fun c' q hq => ?_,
    fun c' q hq hf => ?_, fun q hq => ?_⟩
  · by_cases hc : c' = c
    · rw [hc, KThread.schedAt_nil htrapped]
      simp only [Function.update_self]
      exact ⟨⟨hpc, hheld⟩, hguards⟩
    · simp only [Function.update_of_ne hc]
      exact h.sched c'
  · rcases hcases hq with ⟨rfl, rfl⟩ | ⟨hc, -, hq⟩
    · simp only [Function.update_self]
      exact ⟨⟨ps, rfl⟩, htrapped⟩
    · simp only [Function.update_of_ne hc]
      exact h.away c' q hq
  · rcases hcases h₁ with ⟨rfl, rfl⟩ | ⟨-, hqp, h₁⟩
    · exact ((hcases h₂).resolve_right fun h' => h'.2.1 rfl).1.symm
    · exact h.inj c₁ c₂ q h₁ ((hcases h₂).resolve_left fun h' => hqp h'.2).2.2
  · rcases hcases hq with ⟨-, rfl⟩ | ⟨-, hqp, hq⟩
    · exact .inl (Function.update_self _ _ _)
    · simp only [Function.update_of_ne hqp]
      exact h.state c' q hq
  · rcases hcases hq with ⟨-, rfl⟩ | ⟨-, -, hq⟩
    · simp only [hparked.held]
      exact List.mem_singleton_self _
    · exact h.fresh c' q hq hf
  · have hqp : q ≠ p := by
      rintro rfl
      exact hq c (Function.update_self _ _ _)
    simp only [Function.update_of_ne hqp]
    refine h.parked q fun c' hq' => hq c' ?_
    have hc : c' ≠ c := by
      rintro rfl
      exact absurd (hrun.symm.trans hq') (by rintro ⟨⟩)
    simp only [Function.update_of_ne hc]
    exact hq'

/-- **`sched`** does not find a lock missing or an interrupt enabled. -/
theorem Inv.doSched [DecidableEq Λ] (h : Inv s) (hrun : s.running c = some p)
    (hpc : (s.proc p).pc = .idle) (hheld : (s.proc p).held = [.proc p])
    (hguards : (s.proc p).guards = 0) :
    s.doSched c p = if s.state p = .running then .error .schedRunning else .ok { s with
      proc := Function.update s.proc p { s.proc p with pc := .switched (s.cpu c).intena }
      running := Function.update s.running c none } := by
  have hth := Cpus.thread_of_some hrun
  have hok := h.ok c
  have hmem : .proc p ∈ (s.thread c).held := by
    rw [hth, hheld]
    exact List.mem_singleton_self _
  have hdepth : (s.thread c).depth = 1 := by
    rw [hth, KThread.depth, hheld, hguards, hpc]
    rfl
  have hnoff : (s.cpu c).noff = 1 := by
    rw [show (s.cpu c).noff = _ from hok.noff, show (s.view c).thread = s.thread c from rfl, hdepth]
    rfl
  have hoff : (s.cpu c).sie = false := hok.off (by rw [show (s.view c).cpu.noff = 1 from hnoff]; decide)
  have hholding : ¬ (!(s.lock (.proc p)).holding c) = true := by
    rw [show (s.lock (.proc p)).holding c = true from hok.holding hmem]
    decide
  have hnoff' : ¬ (s.cpu c).noff ≠ 1 := not_not.2 hnoff
  have hoff' : ¬ (s.cpu c).sie = true := by
    rw [hoff]
    decide
  have hput : s.put c { s.view c with
      thread := { (s.view c).thread with pc := .switched (s.cpu c).intena } } = { s with
        proc := Function.update s.proc p { s.proc p with pc := .switched (s.cpu c).intena } } := by
    rw [Cpus.put_of_some hrun, Cpus.view, hth]
    simp only [Function.update_eq_self]
  refine (if_neg hholding).trans ((if_neg hnoff').trans ?_)
  split
  · rfl
  · refine (if_neg hoff').trans ?_
    exact congrArg (fun s' : Cpus ι κ Λ =>
      Except.ok { s' with running := Function.update s.running c none }) hput

/-- **A process switches to the scheduler.** -/
theorem Inv.switch_off (h : Inv s) (hrun : s.running c = some p) (hpc : (s.proc p).pc = .idle)
    (hheld : (s.proc p).held = [.proc p]) (hguards : (s.proc p).guards = 0)
    (hst : s.state p ≠ .running) :
    Inv { s with
      proc := Function.update s.proc p { s.proc p with pc := .switched (s.cpu c).intena }
      running := Function.update s.running c none } := by
  have hth := Cpus.thread_of_some hrun
  have hok := h.ok c
  have hdepth : (s.thread c).depth = 1 := by
    rw [hth, KThread.depth, hheld, hguards, hpc]
    rfl
  obtain ⟨⟨ps, hpos⟩, htrapped⟩ := h.away c p hrun
  obtain ⟨hat, hguards'⟩ := (KThread.schedAt_nil htrapped).1 (h.sched c)
  rw [hpos] at hat
  obtain ⟨hpc', hheld'⟩ := hat
  have hself : Cpus.thread { s with
      proc := Function.update s.proc p { s.proc p with pc := .switched (s.cpu c).intena }
      running := Function.update s.running c none } c = s.sched c := by
    simp only [Cpus.thread, Function.update_self]
  have howned : (s.sched c).owned = [.proc p] := by
    rw [KThread.owned, hheld', hpc']
    rfl
  obtain ⟨hoks, hapart⟩ := h.swap (c := c) { s with
      proc := Function.update s.proc p { s.proc p with pc := .switched (s.cpu c).intena }
      running := Function.update s.running c none } rfl rfl
    (fun c' hc => by
      cases hc' : s.running c' with
      | none => simp only [Cpus.thread, Function.update_of_ne hc, hc']
      | some q =>
        have hq : q ≠ p := by
          rintro rfl
          exact hc (h.inj c' c q hc' hrun)
        simp only [Cpus.thread, Function.update_of_ne hc, hc', Function.update_of_ne hq])
    (by
      rw [hself]
      refine h.ok_of_owned (by rw [hth, hheld]) hdepth ?_ hheld' howned ?_ ?_
      · rw [KThread.depth, hheld', hguards', hpc']
        rfl
      · intro old l hl
        exact absurd (hpc'.symm.trans hl) (by rintro ⟨⟩)
      · rw [htrapped]
        exact fun pc hmem' => absurd hmem' List.not_mem_nil)
    (by rw [hself, howned, hth, KThread.owned, hheld, hpc]; rfl)
  have hrun' : ∀ {c' q}, Function.update s.running c none c' = some q →
      c' ≠ c ∧ q ≠ p ∧ s.running c' = some q := by
    intro c' q hq
    have hc : c' ≠ c := by
      rintro rfl
      rw [Function.update_self] at hq
      exact absurd hq (by rintro ⟨⟩)
    rw [Function.update_of_ne hc] at hq
    refine ⟨hc, ?_, hq⟩
    rintro rfl
    exact hc (h.inj c' c q hq hrun)
  refine ⟨hoks, hapart, h.sched, fun c' q hq => h.away c' q (hrun' hq).2.2,
    fun c₁ c₂ q h₁ h₂ => h.inj c₁ c₂ q (hrun' h₁).2.2 (hrun' h₂).2.2, fun c' q hq => ?_,
    fun c' q hq => ?_, fun q hq => ?_⟩
  · simp only [Function.update_of_ne (hrun' hq).2.1]
    exact h.state c' q (hrun' hq).2.2
  · simp only [Function.update_of_ne (hrun' hq).2.1]
    exact h.fresh c' q (hrun' hq).2.2
  · by_cases hqp : q = p
    · subst hqp
      refine ⟨hst, ?_⟩
      simp only [Function.update_self]
      exact ⟨rfl, hheld, hguards, fun pc hpc => hok.trapped pc (by rw [Cpus.view, hth]; exact hpc)⟩
    · simp only [Function.update_of_ne hqp]
      refine h.parked q fun c' hq' => hq c' ?_
      have hc : c' ≠ c := by
        rintro rfl
        exact hqp (Option.some.inj (hq'.symm.trans hrun))
      simp only [Function.update_of_ne hc]
      exact hq'

/-! ## The states of the processes -/

omit [DecidableEq κ] in
/-- A process gives up its state, with its lock held. -/
theorem Inv.leave (h : Inv s) (hrun : s.running c = some p) (hl : .proc p ∈ (s.proc p).held)
    (hpc : (s.proc p).pc = .idle) (st : ProcessState) : Inv { s with state := Function.update s.state p st } := by
  refine ⟨h.ok, h.apart, h.sched, h.away, h.inj, fun c' q hq => ?_, h.fresh, fun q hq => ?_⟩
  · by_cases hqp : q = p
    · subst hqp
      exact .inr ⟨hl, by rw [hpc]; rintro ⟨⟩⟩
    · simp only [Function.update_of_ne hqp]
      exact h.state c' q hq
  · have hqp : q ≠ p := by
      rintro rfl
      exact hq c hrun
    simp only [Function.update_of_ne hqp]
    exact h.parked q hq

omit [DecidableEq κ] in
/-- The state of a process that does not run changes. -/
theorem Inv.change {q : ι} {st : ProcessState} (h : Inv s) (hq : ∀ c, s.running c ≠ some q)
    (hst : st ≠ .running) : Inv { s with state := Function.update s.state q st } := by
  refine ⟨h.ok, h.apart, h.sched, h.away, h.inj, fun c' p hp => ?_, h.fresh, fun p hp => ?_⟩
  · have hpq : p ≠ q := by
      rintro rfl
      exact hq c' hp
    simp only [Function.update_of_ne hpq]
    exact h.state c' p hp
  · obtain ⟨hold, hparked⟩ := h.parked p hp
    refine ⟨?_, hparked⟩
    by_cases hpq : p = q
    · subst hpq
      simp only [Function.update_self]
      exact hst
    · simp only [Function.update_of_ne hpq]
      exact hold

omit [DecidableEq κ] in
/-- A process that does not run gets a new thread. -/
theorem Inv.alloc {q : ι} (h : Inv s) (hq : ∀ c, s.running c ≠ some q) :
    Inv { s with proc := Function.update s.proc q (newThread q) } := by
  have hview : ∀ c, Cpus.view { s with proc := Function.update s.proc q (newThread q) } c =
      s.view c := fun c => by
    cases hc : s.running c with
    | none => simp only [Cpus.view, Cpus.thread, hc]
    | some p =>
      have hpq : p ≠ q := by
        rintro rfl
        exact hq c hc
      simp only [Cpus.view, Cpus.thread, hc, Function.update_of_ne hpq]
  have hthread : ∀ c, Cpus.thread { s with proc := Function.update s.proc q (newThread q) } c =
      s.thread c := fun c => congrArg CpuView.thread (hview c)
  have hne : ∀ {c p}, s.running c = some p → p ≠ q := by
    rintro c p hp rfl
    exact hq c hp
  refine ⟨fun c => ?_, fun c₁ c₂ hne => ?_, h.sched, h.away, h.inj, fun c' p hp => ?_,
    fun c' p hp => ?_, fun p hp => ?_⟩
  · rw [hview]
    exact h.ok c
  · rw [hthread, hthread]
    exact h.apart c₁ c₂ hne
  · simp only [Function.update_of_ne (hne hp)]
    exact h.state c' p hp
  · simp only [Function.update_of_ne (hne hp)]
    exact h.fresh c' p hp
  · obtain ⟨hold, hparked⟩ := h.parked p hp
    refine ⟨hold, ?_⟩
    by_cases hpq : p = q
    · subst hpq
      simp only [Function.update_self]
      exact ⟨rfl, rfl, rfl, fun pc hpc => absurd hpc List.not_mem_nil⟩
    · simp only [Function.update_of_ne hpq]
      exact hparked

/-! ## What a step can do -/

/-- The changes that a step makes. -/
inductive Change (s : Cpus ι κ Λ) : κ × CpuMove ι Λ → Cpus ι κ Λ → Prop
  /-- The scheduler goes on, in a call or in `run`. -/
  | sched {c : κ} {m : CpuMove ι Λ} {v : CpuView ι κ Λ} {pos : SchedPos ι}
      (hrun : s.running c = none) (hok : v.Ok c) (hframe : (s.view c).Frame v)
      (hat : v.thread.SchedAt pos) :
      Change s (c, m) { s.put c v with pos := Function.update s.pos c pos }
  /-- A process goes on. -/
  | proc {c : κ} {m : CpuMove ι Λ} {v : CpuView ι κ Λ} {p : ι} (hrun : s.running c = some p)
      (hok : v.Ok c) (hframe : (s.view c).Frame v) (hkeeps : (s.view c).Keeps v)
      (hnew : v.thread.pc ≠ .forkret)
      (hst : s.state p = .running ∨ .proc p ∈ v.thread.held) : Change s (c, m) (s.put c v)
  /-- The scheduler switches to a process. -/
  | switchTo {c : κ} {m : CpuMove ι Λ} {p : ι} {ps : List ι} (hrun : s.running c = none)
      (htrapped : (s.sched c).trapped = []) (hpos : s.pos c = .locked p ps)
      (hpc : (s.sched c).pc = .idle) (hst : s.state p = .runnable) :
      Change s (c, m) { s with
        state := Function.update s.state p .running
        running := Function.update s.running c (some p)
        pos := Function.update s.pos c (.away p ps) }
  /-- A process switches to the scheduler. -/
  | switchOff {c : κ} {m : CpuMove ι Λ} {p : ι} (hrun : s.running c = some p)
      (hpc : (s.proc p).pc = .idle) (hheld : (s.proc p).held = [.proc p])
      (hguards : (s.proc p).guards = 0) (hst : s.state p ≠ .running) :
      Change s (c, m) { s with
        proc := Function.update s.proc p { s.proc p with pc := .switched (s.cpu c).intena }
        running := Function.update s.running c none }
  /-- A process gives up its state. -/
  | leave {c : κ} {m : CpuMove ι Λ} {p : ι} {st : ProcessState} (hrun : s.running c = some p)
      (hl : .proc p ∈ (s.proc p).held) (hpc : (s.proc p).pc = .idle) :
      Change s (c, m) { s with state := Function.update s.state p st }
  /-- A process that does not run changes its state. -/
  | change {c : κ} {m : CpuMove ι Λ} {q : ι} {st : ProcessState} (hq : ∀ c, s.running c ≠ some q)
      (hst : st ≠ .running) : Change s (c, m) { s with state := Function.update s.state q st }
  /-- A process gets a new thread. -/
  | alloc {c : κ} {q : ι} (hq : ∀ c, s.running c ≠ some q) : Change s (c, .alloc q) { s with
      state := Function.update s.state q .used
      proc := Function.update s.proc q (newThread q) }

/-- **The invariant is kept.** -/
theorem Change.inv {s' : Cpus ι κ Λ} {a : κ × CpuMove ι Λ} (hc : Change s a s') (h : Inv s) :
    Inv s' := by
  cases hc with
  | sched hrun hok hframe hat => exact h.put_sched hrun hok hframe hat
  | proc hrun hok hframe hkeeps hnew hst =>
    exact h.put_proc hrun hok hframe hnew hst
  | switchTo hrun htrapped hpos hpc hst => exact h.switch_to hrun htrapped hpos hpc hst
  | switchOff hrun hpc hheld hguards hst => exact h.switch_off hrun hpc hheld hguards hst
  | leave hrun hl hpc => exact h.leave hrun hl hpc _
  | change hq hst => exact h.change hq hst
  | alloc hq => exact (h.change hq (by rintro ⟨⟩)).alloc hq

theorem Cpus.put_view (s : Cpus ι κ Λ) (c : κ) : s.put c (s.view c) = s := by
  cases hrun : s.running c with
  | none =>
    rw [Cpus.put_of_none hrun, Cpus.view, Cpus.thread_of_none hrun]
    simp only [Function.update_eq_self]
  | some p =>
    rw [Cpus.put_of_some hrun, Cpus.view, Cpus.thread_of_some hrun]
    simp only [Function.update_eq_self]

variable [DecidableEq Λ] {procs : List ι}

/-- **`run`** goes on. -/
theorem Inv.run (h : Inv s) (procs : List ι) (m : CpuMove ι Λ) (hrun : s.running c = none)
    (hpc : (s.sched c).pc = .idle) (htrapped : (s.sched c).trapped = []) :
    ∃ s', s.run procs c = .ok s' ∧ Change s (c, m) s' := by
  have hth : (s.view c).thread = s.sched c := Cpus.thread_of_none hrun
  have hpc' : (s.view c).thread.pc = .idle := by rw [hth, hpc]
  have htrapped' : (s.view c).thread.trapped = [] := by rw [hth, htrapped]
  obtain ⟨hat, hguards⟩ := (KThread.schedAt_nil htrapped).1 (h.sched c)
  have hok := h.ok c
  -- the lock that the scheduler holds
  have hrelease : ∀ {p} ps, (s.sched c).held = [.proc p] →
      ∃ v', (s.view c).release c (.proc p) = .ok v' ∧ Change s (c, m)
        { s.put c v' with pos := Function.update s.pos c (.loop ps) } := by
    intro p ps hheld
    obtain ⟨v', hv', hok', hframe, -⟩ := hok.release (l := .proc p) (.inl hpc')
      (by rw [hth, hheld]; exact List.mem_singleton_self _)
    refine ⟨v', hv', .sched hrun hok' hframe ?_⟩
    have hthread := CpuView.release_thread hv'
    rw [KThread.schedAt_nil (by rw [hthread]; exact htrapped'), hthread, hth]
    refine ⟨⟨.inr (.inl ⟨_, rfl⟩), ?_⟩, hguards⟩
    dsimp only
    rw [hheld, List.erase_cons_head]
  have hintr : ∀ pos (on : Bool), (s.sched c).held = [] → pos.At (.idle : ThreadPc ι Λ) [] →
      Change s (c, m) { s.put c { s.view c with cpu := { (s.view c).cpu with sie := on } } with
        pos := Function.update s.pos c pos } := by
    intro pos on hheld hat'
    obtain ⟨hok', hframe, -⟩ := hok.intr
      (KThread.depth_eq_zero.2 ⟨by rw [hth, hheld], by rw [hth, hguards], by rw [hpc']; rfl⟩) hpc' on
    refine .sched hrun hok' hframe ((KThread.schedAt_nil htrapped').2 ?_)
    rw [hth, hpc, hheld]
    exact ⟨hat', hguards⟩
  rw [Cpus.run]
  cases hpos : s.pos c with
  | top =>
    rw [hpos] at hat
    exact ⟨_, rfl, hintr .enabled true hat.2 ⟨rfl, rfl⟩⟩
  | enabled =>
    rw [hpos] at hat
    exact ⟨_, rfl, hintr (.loop procs) false hat.2 ⟨.inl rfl, rfl⟩⟩
  | loop ps =>
    rw [hpos] at hat
    cases ps with
    | nil =>
      have hc : Change s (c, m) { s.put c (s.view c) with pos := Function.update s.pos c .top } := by
        refine .sched hrun hok (.of_eq rfl rfl) ((KThread.schedAt_nil htrapped').2 ?_)
        rw [hth, hpc]
        exact ⟨⟨rfl, hat.2⟩, hguards⟩
      rw [Cpus.put_view] at hc
      exact ⟨_, rfl, hc⟩
    | cons p ps =>
      obtain ⟨hok', hframe, -⟩ := hok.push hpc' (some (.proc p))
      refine ⟨_, rfl, .sched hrun hok' hframe ?_⟩
      rw [KThread.schedAt_nil (by exact htrapped'), hth]
      exact ⟨.inl ⟨.inl ⟨_, rfl⟩, hat.2⟩, hguards⟩
  | locked p ps =>
    by_cases hst : s.state p = .runnable
    · exact ⟨_, if_pos hst, .switchTo hrun htrapped hpos hpc hst⟩
    · have hheld := h.sched_held htrapped hpos hpc
      obtain ⟨v', hv', hc⟩ := hrelease ps hheld
      refine ⟨_, (if_neg hst).trans ?_, hc⟩
      rw [hv']
      rfl
  | away p ps =>
    rw [hpos] at hat
    obtain ⟨v', hv', hc⟩ := hrelease ps hat.2
    refine ⟨_, ?_, hc⟩
    dsimp only
    rw [hv']
    rfl

/-- A process goes on. -/
theorem Inv.go_proc (h : Inv s) {r : Except SpinPanic (CpuView ι κ Λ)} (m : CpuMove ι Λ)
    (hrun : s.running c = some p) (hgo : (s.view c).go c = some r) :
    r.map (s.put c) = .error .acquire ∨ ∃ s', r.map (s.put c) = .ok s' ∧ Change s (c, m) s' := by
  have hth : (s.view c).thread = s.proc p := Cpus.thread_of_some hrun
  rcases (h.ok c).go hgo with rfl | ⟨v', rfl, hok, hframe, hkeeps⟩
  · exact .inl rfl
  obtain ⟨pc, held, guards, hthread, hpc⟩ := CpuView.go_thread hgo
  have hnew : pc ≠ .forkret ∧ ∀ l ∈ (s.view c).thread.held, l ∈ held := by
    cases hp : (s.view c).thread.pc with
    | pushed old l =>
      rw [hp] at hpc
      cases l <;> exact ⟨by rw [hpc.1]; rintro ⟨⟩, fun l hl => by rw [hpc.2.1]; exact hl⟩
    | spin l =>
      rw [hp] at hpc
      refine ⟨?_, fun l hl => by rw [hpc.2.1]; exact hl⟩
      rcases hpc.1 with hpc | hpc <;> rw [hpc] <;> rintro ⟨⟩
    | own l =>
      rw [hp] at hpc
      exact ⟨by rw [hpc.1]; rintro ⟨⟩, fun l hl => by rw [hpc.2.1]; exact List.mem_cons_of_mem _ hl⟩
    | unlock l | popOff | switched x =>
      rw [hp] at hpc
      exact ⟨by rw [hpc.1]; rintro ⟨⟩, fun l hl => by rw [hpc.2.1]; exact hl⟩
    | idle | forkret =>
      rw [hp] at hpc
      exact absurd hpc id
  refine .inr ⟨_, rfl, .proc hrun hok hframe hkeeps (by rw [hthread]; exact hnew.1) ?_⟩
  refine (h.state c p hrun).imp_right fun hl => ?_
  rw [hthread]
  exact hnew.2 _ (by rw [hth]; exact hl.1)

/-- A call of a process does not lead to `forkret`, and only `release` gives up a lock. -/
theorem CpuView.Ok.call_thread {v' : CpuView ι κ Λ} {m : SpinCall ι Λ} (hok : v.Ok c)
    (hcall : v.call c m = some (.ok v')) :
    v'.thread.pc ≠ .forkret ∧
      ∀ l, m ≠ .release l → l ∈ v.thread.held → l ∈ v'.thread.held := by
  cases m with
  | guard | acquire l =>
    obtain ⟨-, hr⟩ := Option.ite_none_right_eq_some.1 hcall
    obtain rfl := Except.ok.inj (Option.some.inj hr)
    exact ⟨(by rintro ⟨⟩), fun _ _ hl => hl⟩
  | unguard =>
    obtain ⟨⟨hpc, -⟩, hr⟩ := Option.ite_none_right_eq_some.1 hcall
    cases hpop : v.cpu.popOff with
    | error e =>
      rw [hpop] at hr
      exact absurd hr (by rintro ⟨⟩)
    | ok cpu =>
      rw [hpop] at hr
      obtain rfl := Except.ok.inj (Option.some.inj hr)
      refine ⟨?_, fun _ _ hl => hl⟩
      dsimp only
      rw [hpc]
      rintro ⟨⟩
  | release l =>
    obtain ⟨-, hr⟩ := Option.ite_none_right_eq_some.1 hcall
    rw [CpuView.release_thread (Option.some.inj hr)]
    refine ⟨(by rintro ⟨⟩), fun l' hne hl => (List.mem_erase_of_ne ?_).2 hl⟩
    rintro rfl
    exact hne rfl
  | interrupt =>
    obtain ⟨-, hr⟩ := Option.ite_none_right_eq_some.1 hcall
    obtain rfl := Except.ok.inj (Option.some.inj hr)
    exact ⟨(by rintro ⟨⟩), fun _ _ hl => hl⟩
  | sret =>
    rw [CpuView.call] at hcall
    split at hcall
    · exact absurd hcall (by rintro ⟨⟩)
    · next pc trapped htrapped =>
      obtain ⟨-, hr⟩ := Option.ite_none_right_eq_some.1 hcall
      obtain rfl := Except.ok.inj (Option.some.inj hr)
      refine ⟨?_, fun _ _ hl => hl⟩
      rcases hok.trapped pc (htrapped ▸ List.mem_cons_self) with rfl | ⟨l, rfl⟩ <;> rintro ⟨⟩

omit [DecidableEq Λ] in
/-- A thread changes the state of a process whose lock it holds. -/
theorem Inv.change_step {q : ι} {st : ProcessState} (h : Inv s) (m : CpuMove ι Λ)
    (hl : .proc q ∈ (s.thread c).held) (hq : s.running c ≠ some q)
    (hst : changes (s.state q) st = true) :
    Change s (c, m) { s with state := Function.update s.state q st } := by
  have hne : s.state q ≠ .running ∧ st ≠ .running := by
    constructor <;> intro he <;> rw [he] at hst
    · exact absurd hst (by cases st <;> decide)
    · exact absurd hst (by cases s.state q <;> decide)
  exact .change (h.not_running_of_held hl hq hne.1) hne.2

/-- **What a step can do.**  The panics are those of an `acquire` of a lock that the processor holds
already, and of `sched` in a process that has not given up its state. -/
theorem Inv.step {a : κ × CpuMove ι Λ} {r : Except SpinPanic (Cpus ι κ Λ)} (h : Inv s)
    (hs : step procs s a = some r) :
    r = .error .acquire ∨ r = .error .schedRunning ∨ ∃ s', r = .ok s' ∧ Change s a s' := by
  obtain ⟨c, m⟩ := a
  have hok := h.ok c
  cases hrun : s.running c with
  | none =>
    have hth : (s.view c).thread = s.sched c := Cpus.thread_of_none hrun
    -- the position in `run` stays the same
    have hput : ∀ {v' : CpuView ι κ Λ}, v'.Ok c → (s.view c).Frame v' →
        v'.thread.SchedAt (s.pos c) → Change s (c, m) (s.put c v') := by
      intro v' hok' hframe hat
      have hc := Change.sched (m := m) hrun hok' hframe hat
      rwa [Function.update_eq_self] at hc
    cases m with
    | go =>
      simp only [CpuManager.step, hrun, Cpus.thread_of_none hrun] at hs
      split at hs
      · next hidle =>
        obtain ⟨s', hs', hc⟩ := h.run procs .go hrun hidle.1 hidle.2
        exact .inr (.inr ⟨s', (Option.some.inj hs).symm.trans hs', hc⟩)
      · obtain ⟨r', hgo, rfl⟩ := Option.map_eq_some_iff.1 hs
        rcases hok.go hgo with rfl | ⟨v', rfl, hok', hframe, -⟩
        · exact .inl rfl
        · exact .inr (.inr ⟨_, rfl, hput hok' hframe (KThread.SchedAt.go (hth ▸ h.sched c) hgo)⟩)
    | call m =>
      simp only [CpuManager.step, hrun, Cpus.thread_of_none hrun] at hs
      obtain ⟨hm, hr⟩ := Option.ite_none_left_eq_some.1 hs
      obtain ⟨r', hcall, rfl⟩ := Option.map_eq_some_iff.1 hr
      obtain ⟨v', rfl, hok', hframe, -⟩ := hok.call hcall
      refine .inr (.inr ⟨_, rfl, hput hok' hframe ?_⟩)
      refine KThread.SchedAt.call (hth ▸ h.sched c) hok (fun htrapped => ?_) hcall
      by_contra hne
      exact hm ⟨hth ▸ htrapped, hne⟩
    | change q st =>
      simp only [CpuManager.step, hrun] at hs
      obtain ⟨⟨hpc, hl, -, -, hst⟩, hr⟩ := Option.ite_none_right_eq_some.1 hs
      refine .inr (.inr ⟨_, (Option.some.inj hr).symm, h.change_step _ hl ?_ hst⟩)
      rw [hrun]
      rintro ⟨⟩
    | intr on | leave st | sched | alloc q =>
      simp only [CpuManager.step, hrun] at hs
      exact absurd hs (by rintro ⟨⟩)
  | some p =>
    have hth : (s.view c).thread = s.proc p := Cpus.thread_of_some hrun
    cases m with
    | go =>
      simp only [CpuManager.step, hrun] at hs
      split at hs
      · next hfork =>
        have hfork' : (s.proc p).pc = .forkret := by rwa [← Cpus.thread_of_some hrun]
        obtain ⟨v', hv', hok', hframe, hkeeps⟩ := hok.release (l := .proc p) (.inr hfork)
          (by rw [hth]; exact h.fresh c p hrun hfork')
        refine .inr (.inr ⟨s.put c v', ?_, .proc hrun hok' hframe hkeeps ?_ ?_⟩)
        · rw [← Option.some.inj hs, hv']
          rfl
        · rw [CpuView.release_thread hv']
          rintro ⟨⟩
        · exact .inl ((h.state c p hrun).resolve_right fun hl => hl.2 hfork')
      · obtain ⟨r', hgo, rfl⟩ := Option.map_eq_some_iff.1 hs
        exact (h.go_proc .go hrun hgo).imp_right .inr
    | call m =>
      simp only [CpuManager.step, hrun] at hs
      obtain ⟨hm, hr⟩ := Option.ite_none_left_eq_some.1 hs
      obtain ⟨r', hcall, rfl⟩ := Option.map_eq_some_iff.1 hr
      obtain ⟨v', rfl, hok', hframe, hkeeps⟩ := hok.call hcall
      obtain ⟨hnew, hheld⟩ := hok.call_thread hcall
      refine .inr (.inr ⟨_, rfl, .proc hrun hok' hframe hkeeps hnew ?_⟩)
      by_cases hst : s.state p = .running
      · exact .inl hst
      · have hl := ((h.state c p hrun).resolve_left hst).1
        exact .inr (hheld _ (fun he => hm ⟨he, hst⟩) (hth ▸ hl))
    | intr on =>
      simp only [CpuManager.step, hrun] at hs
      obtain ⟨⟨hpc, hdepth, -⟩, hr⟩ := Option.ite_none_right_eq_some.1 hs
      obtain rfl := Option.some.inj hr
      obtain ⟨hok', hframe, hkeeps⟩ := hok.intr hdepth hpc on
      refine .inr (.inr ⟨_, rfl, .proc hrun hok' hframe hkeeps ?_ ?_⟩)
      · exact fun hf => absurd (hpc.symm.trans hf) (by rintro ⟨⟩)
      · exact (h.state c p hrun).imp_right fun hl => hth ▸ hl.1
    | leave st =>
      simp only [CpuManager.step, hrun, Cpus.thread_of_some hrun] at hs
      obtain ⟨⟨hpc, hl, -⟩, hr⟩ := Option.ite_none_right_eq_some.1 hs
      exact .inr (.inr ⟨_, (Option.some.inj hr).symm, .leave hrun hl hpc⟩)
    | sched =>
      simp only [CpuManager.step, hrun, Cpus.thread_of_some hrun] at hs
      obtain ⟨⟨hpc, hheld, hguards⟩, hr⟩ := Option.ite_none_right_eq_some.1 hs
      rw [h.doSched hrun hpc hheld hguards] at hr
      split at hr
      · exact .inr (.inl (Option.some.inj hr).symm)
      · next hst =>
        exact .inr (.inr ⟨_, (Option.some.inj hr).symm, .switchOff hrun hpc hheld hguards hst⟩)
    | change q st =>
      simp only [CpuManager.step, hrun] at hs
      obtain ⟨⟨hpc, hl, hne, -, hst⟩, hr⟩ := Option.ite_none_right_eq_some.1 hs
      refine .inr (.inr ⟨_, (Option.some.inj hr).symm, h.change_step _ hl ?_ hst⟩)
      rw [hrun]
      exact hne
    | alloc q =>
      simp only [CpuManager.step, hrun, Cpus.thread_of_some hrun] at hs
      obtain ⟨⟨hpc, hl, hne, hst⟩, hr⟩ := Option.ite_none_right_eq_some.1 hs
      refine .inr (.inr ⟨_, (Option.some.inj hr).symm, .alloc ?_⟩)
      refine h.not_running_of_held (c := c) (by rw [Cpus.thread_of_some hrun]; exact hl) ?_ ?_
      · rw [hrun]
        exact fun he => hne (Option.some.inj he)
      · rw [hst]
        rintro ⟨⟩

omit [DecidableEq ι] [DecidableEq κ] [DecidableEq Λ] in
theorem Inv.init (runnable : ι → Bool) : Inv (init runnable : Cpus ι κ Λ) where
  ok c := {
    noff := rfl
    off := fun hlt => absurd hlt (Int.lt_irrefl 0)
    pushed := by rintro _ _ ⟨⟩
    parked := by rintro ⟨⟩
    trapped := fun pc hpc => absurd hpc List.not_mem_nil
    nodup := List.nodup_nil
    locked := fun l hl => absurd hl List.not_mem_nil
    cpuid := fun l hl => absurd hl List.not_mem_nil }
  apart c c' hne l hl := absurd hl List.not_mem_nil
  sched c := ⟨⟨rfl, rfl⟩, rfl⟩
  away := by rintro _ _ ⟨⟩
  inj := by rintro _ _ _ ⟨⟩
  state := by rintro _ _ ⟨⟩
  fresh := by rintro _ _ ⟨⟩
  parked p _ := by
    refine ⟨?_, rfl, rfl, rfl, fun pc hpc => absurd hpc List.not_mem_nil⟩
    rw [CpuManager.init]
    dsimp only
    split <;> rintro ⟨⟩

/-- The invariant holds in every state of a run. -/
theorem inv_of_run {runnable : ι → Bool} {as : List (κ × CpuMove ι Λ)}
    (hrun : Machine.Run (step procs) (init runnable) as s) : Inv s := by
  refine hrun.invariant (Inv.init runnable) fun s a s' h hs => ?_
  rcases h.step hs with he | he | ⟨s'', he, hc⟩
  · exact absurd he (by rintro ⟨⟩)
  · exact absurd he (by rintro ⟨⟩)
  · obtain rfl := Except.ok.inj he
    exact hc.inv h

/-! ## The bit that a thread restores -/

omit [DecidableEq ι] [DecidableEq κ] [DecidableEq Λ] in
/-- The thread of the process will restore the interrupt bit `b`. -/
structure Cpus.Restores (s : Cpus ι κ Λ) (p : ι) (b : Bool) : Prop where
  here : ∀ c, s.running c = some p → (s.view c).saved = b
  away : (∀ c, s.running c ≠ some p) → (s.proc p).pc = .switched b

omit [DecidableEq ι] [DecidableEq κ] [DecidableEq Λ] in
theorem CpuView.saved_congr {v v' : CpuView ι κ Λ} (hpc : v'.thread.pc = v.thread.pc)
    (hi : v'.cpu = v.cpu) : v'.saved = v.saved := by
  rw [CpuView.saved, CpuView.saved, hpc, hi]

omit [DecidableEq Λ] in
/-- What a step does to the thread of a process: nothing, a step of its own, a switch, or a new
thread. -/
theorem Change.thread {s' : Cpus ι κ Λ} {a : κ × CpuMove ι Λ} (hc : Change s a s') (h : Inv s)
    (p : ι) :
    (s'.proc p = s.proc p ∧ (∀ c, s'.running c = some p ↔ s.running c = some p) ∧
      ∀ c, s.running c = some p → s'.cpu c = s.cpu c) ∨
    (∃ c, s.running c = some p ∧ s'.running = s.running ∧ (s.view c).Keeps (s'.view c)) ∨
    (∃ c, (∀ c', s.running c' ≠ some p) ∧ s'.running = Function.update s.running c (some p) ∧
      s'.proc p = s.proc p) ∨
    (∃ c, s.running c = some p ∧ s'.running = Function.update s.running c none ∧
      (s.proc p).pc = .idle ∧
      s'.proc p = { s.proc p with pc := .switched (s.cpu c).intena }) ∨
    a.2 = .alloc p ∧ ∀ c, s.running c ≠ some p := by
  cases hc with
  | @sched c m v pos hrun hok hframe hat =>
    refine .inl ⟨?_, fun _ => Iff.rfl, fun c' hc' => ?_⟩
    · rw [Cpus.put_of_none hrun]
    · refine Function.update_of_ne ?_ _ _
      rintro rfl
      exact absurd (hrun.symm.trans hc') (by rintro ⟨⟩)
  | @proc c m v q hrun hok hframe hkeeps hnew hst =>
    by_cases hqp : q = p
    · subst hqp
      refine .inr (.inl ⟨c, hrun, rfl, ?_⟩)
      rwa [Cpus.view_put_self]
    · refine .inl ⟨?_, fun _ => Iff.rfl, fun c' hc' => ?_⟩
      · rw [Cpus.put_of_some hrun]
        exact Function.update_of_ne (Ne.symm hqp) _ _
      · refine Function.update_of_ne ?_ _ _
        rintro rfl
        exact hqp (Option.some.inj (hrun.symm.trans hc'))
  | @switchTo c m q ps hrun htrapped hpos hpc hst =>
    by_cases hqp : q = p
    · subst hqp
      refine .inr (.inr (.inl ⟨c, ?_, rfl, rfl⟩))
      refine h.not_running_of_held (c := c) ?_ (by rw [hrun]; rintro ⟨⟩) (by rw [hst]; rintro ⟨⟩)
      rw [Cpus.thread_of_none hrun, h.sched_held htrapped hpos hpc]
      exact List.mem_singleton_self _
    · refine .inl ⟨rfl, fun c' => ?_, fun _ _ => rfl⟩
      by_cases hc : c' = c
      · simp only [hc, Function.update_self, hrun, Option.some_inj, hqp, reduceCtorEq]
      · simp only [Function.update_of_ne hc]
  | @switchOff c m q hrun hpc hheld hguards hst =>
    by_cases hqp : q = p
    · subst hqp
      exact .inr (.inr (.inr (.inl ⟨c, hrun, rfl, hpc, Function.update_self _ _ _⟩)))
    · refine .inl ⟨Function.update_of_ne (Ne.symm hqp) _ _, fun c' => ?_, fun _ _ => rfl⟩
      by_cases hc : c' = c
      · simp only [hc, Function.update_self, hrun, Option.some_inj, hqp, reduceCtorEq]
      · simp only [Function.update_of_ne hc]
  | leave hrun hl hpc => exact .inl ⟨rfl, fun _ => Iff.rfl, fun _ _ => rfl⟩
  | change hq hst => exact .inl ⟨rfl, fun _ => Iff.rfl, fun _ _ => rfl⟩
  | @alloc c q hq =>
    by_cases hqp : q = p
    · subst hqp
      exact .inr (.inr (.inr (.inr ⟨rfl, hq⟩)))
    · exact .inl ⟨Function.update_of_ne (Ne.symm hqp) _ _, fun _ => Iff.rfl, fun _ _ => rfl⟩

omit [DecidableEq ι] [DecidableEq κ] [DecidableEq Λ] in
/-- A thread of depth zero runs. -/
theorem Inv.running_of_depth (h : Inv s) (hd : (s.proc p).depth = 0) : ∃ c, s.running c = some p := by
  by_contra hno
  obtain ⟨-, hparked⟩ := h.parked p fun c hc => hno ⟨c, hc⟩
  exact absurd (hd.symm.trans hparked.depth.1) (by decide)

omit [DecidableEq Λ] in
/-- **A step keeps the bit that a thread will restore**, and the bit is restored when the depth of the
thread becomes zero. -/
theorem Change.restores {s' : Cpus ι κ Λ} {a : κ × CpuMove ι Λ} {b : Bool} (hc : Change s a s')
    (h : Inv s) (ha : a.2 ≠ .alloc p) (hd : (s.proc p).depth ≠ 0) (hr : s.Restores p b) :
    ((s'.proc p).depth ≠ 0 → s'.Restores p b) ∧
      ((s'.proc p).depth = 0 → ∃ c, s'.running c = some p ∧ (s'.cpu c).sie = b) := by
  rcases hc.thread h p with ⟨hproc, hrun, hcpu⟩ | ⟨c, hrun, hrun', hkeeps⟩ |
    ⟨c, hno, hrun, hproc⟩ | ⟨c, hrun, hrun', hpc, hproc⟩ | ⟨ha', -⟩
  · refine ⟨fun _ => ⟨fun c hc => ?_, fun hno => ?_⟩, fun hz => absurd (hproc ▸ hz) hd⟩
    · have hold := (hrun c).1 hc
      rw [← hr.here c hold]
      refine CpuView.saved_congr ?_ (hcpu c hold)
      exact congrArg KThread.pc ((Cpus.thread_of_some hc).trans
        (hproc.trans (Cpus.thread_of_some hold).symm))
    · rw [hproc]
      exact hr.away fun c hc => hno c ((hrun c).2 hc)
  · -- a step of its own
    have hth : (s.view c).thread = s.proc p := Cpus.thread_of_some hrun
    have hnow : s'.running c = some p := by rw [hrun', hrun]
    have hth' : (s'.view c).thread = s'.proc p := Cpus.thread_of_some hnow
    have hd₀ : (s.view c).thread.depth ≠ 0 := by rwa [hth]
    refine ⟨fun _ => ⟨fun c' hc' => ?_, fun hno => absurd hnow (hno c)⟩, fun hz => ⟨c, hnow, ?_⟩⟩
    · obtain rfl := h.inj c' c p (hrun' ▸ hc') hrun
      rw [hkeeps.saved hd₀, hr.here _ hrun]
    · rw [← hr.here c hrun]
      exact hkeeps.leave hd₀ (by rw [hth', hz])
  · -- the scheduler switches to it
    have hth : s'.thread c = s'.proc p := Cpus.thread_of_some (by rw [hrun, Function.update_self])
    have hpc := hr.away hno
    refine ⟨fun _ => ⟨fun c' hc' => ?_, fun hno' => ?_⟩, fun hz => absurd (hproc ▸ hz) hd⟩
    · obtain rfl : c' = c := by
        by_contra hne
        rw [hrun, Function.update_of_ne hne] at hc'
        exact hno c' hc'
      have hpc' : (s'.view c').thread.pc = .switched b := by
        rw [show (s'.view c').thread = s.proc p from hth.trans hproc, hpc]
      rw [CpuView.saved, hpc']
    · exact absurd (by rw [hrun, Function.update_self]) (hno' c)
  · -- it switches to the scheduler
    have hsaved : (s.cpu c).intena = b := by
      rw [← hr.here c hrun, CpuView.saved_of_not_parked]
      · rfl
      · intro x hx
        rw [show (s.view c).thread = s.proc p from Cpus.thread_of_some hrun, hpc] at hx
        exact absurd hx (by rintro ⟨⟩)
    refine ⟨fun _ => ⟨fun c' hc' => ?_, fun _ => ?_⟩, fun hz => absurd ?_ hd⟩
    · have hne : c' ≠ c := by
        rintro rfl
        rw [hrun', Function.update_self] at hc'
        exact absurd hc' (by rintro ⟨⟩)
      rw [hrun', Function.update_of_ne hne] at hc'
      exact absurd (h.inj c' c p hc' hrun) hne
    · rw [hproc, hsaved]
    · rw [hproc] at hz
      rw [← hz, KThread.depth, KThread.depth, hpc]
      rfl
  · exact absurd ha' ha

omit [DecidableEq Λ] in
/-- When the depth of a thread becomes positive, the thread will restore the bit as it is. -/
theorem Change.enters {s' : Cpus ι κ Λ} {a : κ × CpuMove ι Λ} (hc : Change s a s') (h : Inv s)
    (hd : (s.proc p).depth = 0) (hd' : (s'.proc p).depth ≠ 0) :
    ∃ c, s.running c = some p ∧ s'.Restores p (s.cpu c).sie := by
  obtain ⟨c₀, hc₀⟩ := h.running_of_depth hd
  rcases hc.thread h p with ⟨hproc, -, -⟩ | ⟨c, hrun, hrun', hkeeps⟩ |
    ⟨c, hno, -, -⟩ | ⟨c, -, -, hpc, hproc⟩ | ⟨-, hno⟩
  · exact absurd (hproc ▸ hd) hd'
  · have hth : (s.view c).thread = s.proc p := Cpus.thread_of_some hrun
    have hnow : s'.running c = some p := by rw [hrun', hrun]
    have hth' : (s'.view c).thread = s'.proc p := Cpus.thread_of_some hnow
    refine ⟨c, hrun, fun c' hc' => ?_, fun hno => absurd hnow (hno c)⟩
    obtain rfl := h.inj c' c p (hrun' ▸ hc') hrun
    exact hkeeps.enter (by rw [hth, hd]) (by rwa [hth'])
  · exact absurd hc₀ (hno c₀)
  · refine absurd ?_ hd'
    rw [hproc, ← hd, KThread.depth, KThread.depth, hpc]
    rfl
  · exact absurd hc₀ (hno c₀)

/-- While the depth of a thread is positive, every run keeps the bit that it will restore. -/
theorem restores_of_run {s' : Cpus ι κ Λ} {as : List (κ × CpuMove ι Λ)} {b : Bool} (h : Inv s)
    (hr : s.Restores p b)
    (hrun : Machine.Run (Machine.restrict
      (fun s a => decide ((s.proc p).depth ≠ 0 ∧ a.2 ≠ .alloc p)) (step procs)) s as s') :
    Inv s' ∧ ((s'.proc p).depth ≠ 0 → s'.Restores p b) ∧
      ((s'.proc p).depth = 0 → (s.proc p).depth ≠ 0 →
        ∃ c, s'.running c = some p ∧ (s'.cpu c).sie = b) := by
  induction hrun with
  | nil => exact ⟨h, fun _ => hr, fun hz hne => absurd hz hne⟩
  | snoc _ hs ih =>
    obtain ⟨hinv, hkeeps, -⟩ := ih
    obtain ⟨hcond, hstep⟩ := Machine.restrict_eq_some.1 hs
    obtain ⟨hd, ha⟩ := of_decide_eq_true hcond
    rcases hinv.step hstep with he | he | ⟨s'', he, hc⟩
    · exact absurd he (by rintro ⟨⟩)
    · exact absurd he (by rintro ⟨⟩)
    · obtain rfl := Except.ok.inj he
      obtain ⟨hstay, hleave⟩ := hc.restores hinv ha hd (hkeeps hd)
      exact ⟨hc.inv hinv, hstay, fun hz _ => hleave hz⟩

/-- **The interrupt-enable state belongs to the kernel thread.**  In every state of every run,
interrupts are off on a processor whose `noff` is positive, `noff` is the number of outstanding
`push_off`s of the thread that runs there, and no step panics in `pop_off`.  Whenever the depth of a
process's thread becomes positive, by the step from `s` to `s₁`, and is zero again after a run in
which the thread may have moved to other processors, the interrupt bit of the processor that it is then
on is that of the processor on which it was. -/
theorem interrupt_state_of_thread {runnable : ι → Bool} {as : List (κ × CpuMove ι Λ)}
    (hrun : Machine.Run (step procs) (init runnable) as s) :
    (∀ c, 0 < (s.cpu c).noff → (s.cpu c).sie = false) ∧
    (∀ c, (s.cpu c).noff = (s.thread c).depth) ∧
    (∀ a e, step procs s a = some (.error e) → e ≠ .popOffInterruptible ∧ e ≠ .popOff) ∧
    ∀ {p : ι} {a : κ × CpuMove ι Λ} {s₁ s₂ : Cpus ι κ Λ} {bs : List (κ × CpuMove ι Λ)},
      (s.proc p).depth = 0 → step procs s a = some (.ok s₁) → (s₁.proc p).depth ≠ 0 →
      Machine.Run (Machine.restrict
        (fun s a => decide ((s.proc p).depth ≠ 0 ∧ a.2 ≠ .alloc p)) (step procs)) s₁ bs s₂ →
      (s₂.proc p).depth = 0 →
      ∃ c c', s.running c = some p ∧ s₂.running c' = some p ∧ (s₂.cpu c').sie = (s.cpu c).sie := by
  have h := inv_of_run hrun
  refine ⟨fun c => (h.ok c).off, fun c => (h.ok c).noff, fun a e hs => ?_, ?_⟩
  · rcases h.step hs with he | he | ⟨s', he, -⟩
    · obtain rfl := Except.error.inj he
      exact ⟨(by rintro ⟨⟩), (by rintro ⟨⟩)⟩
    · obtain rfl := Except.error.inj he
      exact ⟨(by rintro ⟨⟩), (by rintro ⟨⟩)⟩
    · exact absurd he (by rintro ⟨⟩)
  · intro p a s₁ s₂ bs hd hs hd₁ hrun' hd₂
    rcases h.step hs with he | he | ⟨s', he, hc⟩
    · exact absurd he (by rintro ⟨⟩)
    · exact absurd he (by rintro ⟨⟩)
    · obtain rfl := Except.ok.inj he
      obtain ⟨c, hc₀, hr⟩ := hc.enters h hd hd₁
      obtain ⟨-, -, hleave⟩ := restores_of_run (hc.inv h) hr hrun'
      obtain ⟨c', hc', hsie⟩ := hleave hd₂ hd₁
      exact ⟨c, c', hc₀, hc', hsie⟩

end

/-- The two processors, and the process. -/
def hart0 : Fin 2 := (Fin.last 0).castSucc
def hart1 : Fin 2 := Fin.last 1
def proc0 : Fin 1 := Fin.last 0

/-- Two processors and one process, which runs and enables interrupts. -/
def smallBoot : List (Fin 2 × CpuMove (Fin 1) Unit) :=
  List.replicate 10 (hart0, .go) ++ [(hart0, .intr true), (hart0, .call (.acquire (.other ())))]

/-- The process acquires a lock, goes to sleep with it, and comes back on the other processor. -/
def smallSleep : List (Fin 2 × CpuMove (Fin 1) Unit) :=
  List.replicate 2 (hart0, .go) ++ [(hart0, .call (.acquire (.proc proc0)))] ++ List.replicate 3 (hart0, .go) ++
    [(hart0, .call (.release (.other ())))] ++ List.replicate 2 (hart0, .go) ++
    [(hart0, .leave .runnable), (hart0, .sched)] ++ List.replicate 3 (hart0, .go) ++
    List.replicate 8 (hart1, .go) ++ [(hart1, .call (.release (.proc proc0)))] ++ List.replicate 2 (hart1, .go)

/-- Interrupts are enabled again on the other processor. -/
theorem interrupt_state_of_thread_small : ∃ s s₂ : Cpus (Fin 1) (Fin 2) Unit, ∃ c c',
    Machine.Run (step [0]) (init fun _ => true) smallBoot s ∧ s₂.running 1 = some 0 ∧
    s.running c = some 0 ∧ s₂.running c' = some 0 ∧ (s₂.cpu c').sie = (s.cpu c).sie := by
  obtain ⟨s, s₁, s₂, hboot, hstep, hsleep, hd, hd₁, hd₂, hmoved⟩ :
      ∃ s s₁ s₂ : Cpus (Fin 1) (Fin 2) Unit,
        Machine.exec (step [0]) smallBoot (init fun _ => true) = some (.ok s) ∧
        step [0] s (0, .go) = some (.ok s₁) ∧
        Machine.exec (Machine.restrict
          (fun s a => decide ((s.proc 0).depth ≠ 0 ∧ a.2 ≠ .alloc 0)) (step [0])) smallSleep s₁ =
          some (.ok s₂) ∧
        (s.proc 0).depth = 0 ∧ (s₁.proc 0).depth = 1 ∧ (s₂.proc 0).depth = 0 ∧
        s₂.running 1 = some 0 :=
    ⟨_, _, _, rfl, rfl, rfl, rfl, rfl, rfl, rfl⟩
  have hrun := Machine.run_of_exec hboot
  obtain ⟨c, c', hc, hc', hsie⟩ := (interrupt_state_of_thread hrun).2.2.2 hd hstep
    (by rw [hd₁]; decide) (Machine.run_of_exec hsleep) hd₂
  exact ⟨s, s₂, c, c', hrun, hmoved, hc, hc', hsie⟩

end CpuManager

end Xv6pp
