import Xv6pp.Proc.CpuManager

/-!
# Spin locks on one processor

The thread that runs on a processor, with the processor and the locks (`CpuView.Ok`): `noff` is the
number of its outstanding `push_off`s, interrupts are off while that is positive, and the locks that
it holds carry the number of the processor.  `CpuView.Ok.go` and `CpuView.Ok.call` are about every
step of the thread: it does not panic in `pop_off`, it changes only locks that are its own or free
(`CpuView.Frame`), and it keeps the interrupt bit that it has to restore (`CpuView.Keeps`).
-/

set_option autoImplicit false

namespace Xv6pp

namespace CpuManager

variable {ι κ Λ : Type}

/-! ## What runs on one processor -/

/-- The lock that a call has taken or not given up yet. -/
def ThreadPc.taken : ThreadPc ι Λ → List (LockId ι Λ)
  | own l | unlock l => [l]
  | _ => []

/-- The locks that the thread keeps locked. -/
def KThread.owned (t : KThread ι Λ) : List (LockId ι Λ) := t.pc.taken ++ t.held

/-- The thread is at a place where the scheduler switches to it. -/
def ThreadPc.parked : ThreadPc ι Λ → Bool
  | switched _ | forkret => true
  | _ => false

/-- The processor and the thread agree. -/
structure CpuView.Ok (c : κ) (v : CpuView ι κ Λ) : Prop where
  noff : v.cpu.noff = v.thread.depth
  off : 0 < v.cpu.noff → v.cpu.sie = false
  /-- The bit that `push_off` has read is still right. -/
  pushed : ∀ old l, v.thread.pc = .pushed old l → v.cpu.sie = old
  parked : v.thread.pc.parked = true → v.thread.held ≠ []
  /-- Interrupts come outside of calls, or where `push_off` has read the bit. -/
  trapped : ∀ pc ∈ v.thread.trapped, pc = .idle ∨ ∃ l, pc = .pushed true l
  nodup : v.thread.owned.Nodup
  locked : ∀ l ∈ v.thread.owned, (v.lock l).locked = true
  cpuid : ∀ l ∈ v.thread.held, (v.lock l).cpuid = some c

/-- A step takes only locks that were free, and changes only those that it takes or has. -/
structure CpuView.Frame (v v' : CpuView ι κ Λ) : Prop where
  fresh : ∀ l ∈ v'.thread.owned, l ∉ v.thread.owned → (v.lock l).locked = false
  same : ∀ l, l ∉ v.thread.owned → l ∉ v'.thread.owned → v'.lock l = v.lock l

/-- The bit that the thread will restore: `intena`, or what `sched` has saved of it. -/
def CpuView.saved (v : CpuView ι κ Λ) : Bool :=
  match v.thread.pc with
  | .switched intena => intena
  | _ => v.cpu.intena

/-- A step keeps the bit that the thread will restore, restores it when the depth becomes zero, and
records it when the depth was zero. -/
structure CpuView.Keeps (v v' : CpuView ι κ Λ) : Prop where
  saved : v.thread.depth ≠ 0 → v'.saved = v.saved
  leave : v.thread.depth ≠ 0 → v'.thread.depth = 0 → v'.cpu.sie = v.saved
  enter : v.thread.depth = 0 → v'.thread.depth ≠ 0 → v'.saved = v.cpu.sie

theorem CpuView.Keeps.of_depth_eq {v v' : CpuView ι κ Λ} (hd : v'.thread.depth = v.thread.depth)
    (hs : v.thread.depth ≠ 0 → v'.saved = v.saved) : Keeps v v' where
  saved := hs
  leave hne hz := absurd (hd.symm.trans hz) hne
  enter hz hne := absurd (hd.trans hz) hne

theorem CpuView.saved_of_not_parked {v : CpuView ι κ Λ} (h : ∀ x, v.thread.pc ≠ .switched x) :
    v.saved = v.cpu.intena := by
  rw [CpuView.saved]
  split
  · next x hx => exact absurd hx (h x)
  · rfl

theorem CpuView.Frame.of_eq {v v' : CpuView ι κ Λ} (ho : v'.thread.owned = v.thread.owned)
    (hl : v'.lock = v.lock) : Frame v v' where
  fresh l hl' hno := absurd (ho ▸ hl') hno
  same l _ _ := by rw [hl]

variable {c : κ} {v v' : CpuView ι κ Λ} {l : LockId ι Λ}

/-- While the depth is positive, `pop_off` does not panic. -/
theorem CpuState.popOff_eq {k : CpuState} (hpos : 0 < k.noff) (hoff : k.sie = false) :
    k.popOff = .ok { k with noff := k.noff - 1, sie := decide (k.noff - 1 = 0) && k.intena } := by
  rw [CpuState.popOff, if_neg (by rw [hoff]; exact Bool.false_ne_true), if_neg (by omega), hoff]
  by_cases hz : k.noff - 1 = 0 <;> cases hi : k.intena <;> simp [hz]

/-- A call of `push_off` starts. -/
theorem CpuView.Ok.push (h : v.Ok c) (hpc : v.thread.pc = .idle) (l : Option (LockId ι Λ)) :
    let v' : CpuView ι κ Λ := { v with thread := { v.thread with pc := .pushed v.cpu.sie l } }
    v'.Ok c ∧ Frame v v' ∧ Keeps v v' := by
  have hdepth : KThread.depth { v.thread with pc := .pushed v.cpu.sie l } = v.thread.depth := by
    rw [KThread.depth, KThread.depth, hpc]
    rfl
  have howned : KThread.owned { v.thread with pc := .pushed v.cpu.sie l } = v.thread.owned := by
    rw [KThread.owned, KThread.owned, hpc]
    rfl
  refine ⟨⟨hdepth ▸ h.noff, h.off, ?_, (by rintro ⟨⟩), h.trapped, howned ▸ h.nodup,
    fun l hl => h.locked l (howned ▸ hl), h.cpuid⟩, .of_eq howned rfl, .of_depth_eq hdepth fun _ => ?_⟩
  · rintro _ _ ⟨⟩
    rfl
  · rw [CpuView.saved, CpuView.saved, hpc]

/-- The bit that `push_off` has read is right, and interrupts are off afterwards. -/
theorem CpuView.Ok.pushOff {old : Bool} {pc : ThreadPc ι Λ} {guards : Nat} (h : v.Ok c)
    (hpc : (∃ l, v.thread.pc = .pushed old (some l) ∧ pc = .spin l ∧ guards = v.thread.guards) ∨
      v.thread.pc = .pushed old none ∧ pc = .idle ∧ guards = v.thread.guards + 1) :
    let v' : CpuView ι κ Λ := { v with
      cpu := v.cpu.pushOff old, thread := { v.thread with pc := pc, guards := guards } }
    v'.Ok c ∧ Frame v v' ∧ Keeps v v' := by
  have hdepth : KThread.depth { v.thread with pc := pc, guards := guards } =
      v.thread.depth + 1 := by
    rcases hpc with ⟨l, hpc, rfl, rfl⟩ | ⟨hpc, rfl, rfl⟩ <;> rw [KThread.depth, KThread.depth, hpc]
    · rfl
    · exact Nat.add_right_comm _ _ _
  have howned : KThread.owned { v.thread with pc := pc, guards := guards } = v.thread.owned := by
    rcases hpc with ⟨l, hpc, rfl, -⟩ | ⟨hpc, rfl, -⟩ <;> rw [KThread.owned, KThread.owned, hpc] <;> rfl
  obtain ⟨l', hpushed⟩ : ∃ l', v.thread.pc = .pushed old l' := by
    rcases hpc with ⟨l, hpc, -⟩ | ⟨hpc, -⟩
    · exact ⟨_, hpc⟩
    · exact ⟨_, hpc⟩
  have hsaved : v.saved = v.cpu.intena :=
    saved_of_not_parked fun x hx => absurd (hpushed.symm.trans hx) (by rintro ⟨⟩)
  have hsaved' : CpuView.saved { v with
      cpu := v.cpu.pushOff old, thread := { v.thread with pc := pc, guards := guards } } =
        if v.cpu.noff = 0 then old else v.cpu.intena := by
    rcases hpc with ⟨l, -, rfl, -⟩ | ⟨-, rfl, -⟩ <;> rfl
  refine ⟨⟨?_, fun _ => rfl, ?_, ?_, h.trapped, howned ▸ h.nodup,
    fun l hl => h.locked l (howned ▸ hl), h.cpuid⟩, .of_eq howned rfl, fun hne => ?_,
    fun _ hz => ?_, fun hz _ => ?_⟩
  · rw [hdepth, Nat.cast_add, ← h.noff]
    rfl
  · rintro _ _ hpushed
    rcases hpc with ⟨l', -, rfl, -⟩ | ⟨-, rfl, -⟩ <;> exact absurd hpushed (by rintro ⟨⟩)
  · rcases hpc with ⟨l', -, rfl, -⟩ | ⟨-, rfl, -⟩ <;> rintro ⟨⟩
  · rw [hsaved', if_neg (by rw [h.noff]; exact Int.natCast_ne_zero.2 hne), hsaved]
  · exact absurd (hdepth.symm.trans hz) (Nat.succ_ne_zero _)
  · rw [hsaved', if_pos (by rw [h.noff, hz, Nat.cast_zero]), h.pushed old l' hpushed]

/-- `intr_on` and `intr_off` outside of calls. -/
theorem CpuView.Ok.intr (h : v.Ok c) (hdepth : v.thread.depth = 0) (hpc : v.thread.pc = .idle)
    (on : Bool) :
    let v' : CpuView ι κ Λ := { v with cpu := { v.cpu with sie := on } }
    v'.Ok c ∧ Frame v v' ∧ Keeps v v' := by
  refine ⟨⟨h.noff, fun hlt => ?_, fun old l hp => ?_, h.parked, h.trapped, h.nodup, h.locked,
    h.cpuid⟩, .of_eq rfl rfl, .of_depth_eq rfl fun _ => rfl⟩
  · have hnoff : v.cpu.noff = 0 := by rw [h.noff, hdepth, Nat.cast_zero]
    exact absurd hnoff hlt.ne'
  · exact absurd (hpc.symm.trans hp) (by rintro ⟨⟩)

/-- `pop_off` of a call or of a guard that is over. -/
theorem CpuView.Ok.popOff {t : KThread ι Λ} (h : v.Ok c) (hdepth : t.depth + 1 = v.thread.depth)
    (hpc : t.pc = .idle) (hpc' : v.thread.pc = .idle ∨ v.thread.pc = .popOff)
    (hheld : t.held = v.thread.held) (htrapped : t.trapped = v.thread.trapped) :
    ∃ cpu, v.cpu.popOff = .ok cpu ∧ Ok c { v with cpu := cpu, thread := t } ∧
      Frame v { v with cpu := cpu, thread := t } ∧ Keeps v { v with cpu := cpu, thread := t } := by
  have howned : t.owned = v.thread.owned := by
    rw [KThread.owned, KThread.owned, hpc, hheld]
    rcases hpc' with hpc' | hpc'
    · rw [hpc']
    · rw [hpc']
      rfl
  have hsaved : v.saved = v.cpu.intena := saved_of_not_parked fun x hx => by
    rw [hx] at hpc'
    exact hpc'.elim (by rintro ⟨⟩) (by rintro ⟨⟩)
  have hsaved' : ∀ k : CpuState, CpuView.saved { v with cpu := k, thread := t } = k.intena :=
    fun k => saved_of_not_parked fun x hx => absurd (hpc.symm.trans hx) (by rintro ⟨⟩)
  have hpos : 0 < v.cpu.noff := by
    rw [h.noff, ← hdepth]
    exact Int.natCast_pos.2 (Nat.succ_pos _)
  have hnoff : v.cpu.noff - 1 = t.depth := by
    rw [h.noff, ← hdepth, Nat.cast_add, Nat.cast_one, add_sub_cancel_right]
  refine ⟨_, CpuState.popOff_eq hpos (h.off hpos), ⟨hnoff, fun hlt => ?_, ?_, ?_,
    htrapped ▸ h.trapped, howned ▸ h.nodup, fun l hl => h.locked l (howned ▸ hl),
    fun l hl => h.cpuid l (hheld ▸ hl)⟩, .of_eq howned rfl, fun _ => ?_, fun _ hz => ?_,
    fun hz => absurd (hdepth.trans hz) (Nat.succ_ne_zero _)⟩
  · dsimp only at hlt ⊢
    rw [decide_eq_false hlt.ne', Bool.false_and]
  · intro old l hpushed
    exact absurd (hpc.symm.trans hpushed) (by rintro ⟨⟩)
  · rw [hpc]
    rintro ⟨⟩
  · rw [hsaved', hsaved]
  · dsimp only at hz ⊢
    rw [hnoff, hz, hsaved, Nat.cast_zero, decide_eq_true rfl, Bool.true_and]

/-- While interrupts are on the depth is zero. -/
theorem CpuView.Ok.depth_eq_zero (h : v.Ok c) (hsie : v.cpu.sie = true) : v.thread.depth = 0 := by
  by_contra hne
  have hpos : 0 < v.cpu.noff := by
    rw [h.noff]
    exact Int.natCast_pos.2 (Nat.pos_of_ne_zero hne)
  exact absurd ((h.off hpos).symm.trans hsie) (by decide)

theorem KThread.depth_eq_zero {t : KThread ι Λ} :
    t.depth = 0 ↔ t.held = [] ∧ t.guards = 0 ∧ t.pc.pending = 0 := by
  rw [KThread.depth, Nat.add_eq_zero_iff, Nat.add_eq_zero_iff, List.length_eq_zero_iff, and_assoc]

/-- A thread of depth zero is outside of calls, or `push_off` has read the bit. -/
theorem CpuView.Ok.base (h : v.Ok c) (hdepth : v.thread.depth = 0) :
    v.thread.pc = .idle ∨ ∃ l, v.thread.pc = .pushed v.cpu.sie l := by
  obtain ⟨hheld, -, hpending⟩ := KThread.depth_eq_zero.1 hdepth
  cases hp : v.thread.pc with
  | idle => exact .inl rfl
  | pushed old l => exact .inr ⟨l, by rw [h.pushed old l hp]⟩
  | switched _ | forkret => exact absurd hheld (h.parked (by rw [hp]; rfl))
  | spin _ | own _ | unlock _ | popOff =>
    rw [hp] at hpending
    exact absurd hpending (by rintro ⟨⟩)

/-- An interrupt. -/
theorem CpuView.Ok.interrupt (h : v.Ok c) (hsie : v.cpu.sie = true) :
    let v' : CpuView ι κ Λ := { v with
      cpu := { v.cpu with sie := false }
      thread := { v.thread with pc := .idle, trapped := v.thread.pc :: v.thread.trapped } }
    v'.Ok c ∧ Frame v v' ∧ Keeps v v' := by
  have hdepth := h.depth_eq_zero hsie
  obtain ⟨hheld, hguards, -⟩ := KThread.depth_eq_zero.1 hdepth
  have hdepth' : KThread.depth
      { v.thread with pc := .idle, trapped := v.thread.pc :: v.thread.trapped } = 0 :=
    KThread.depth_eq_zero.2 ⟨hheld, hguards, rfl⟩
  refine ⟨⟨?_, fun _ => rfl, ?_, (by rintro ⟨⟩), fun pc hpc => ?_, ?_, fun l hl => ?_, h.cpuid⟩,
    ⟨fun l hl hno => absurd (List.mem_append_right _ hl) hno, fun _ _ _ => rfl⟩,
    .of_depth_eq (hdepth'.trans hdepth.symm) fun hne => absurd hdepth hne⟩
  · rw [h.noff, hdepth, hdepth']
  · rintro _ _ ⟨⟩
  · rcases List.mem_cons.1 hpc with rfl | hpc
    · rw [← hsie]
      exact h.base hdepth
    · exact h.trapped pc hpc
  · exact (List.nodup_append.1 h.nodup).2.1
  · exact h.locked l (List.mem_append_right _ hl)

/-- The return from an interrupt. -/
theorem CpuView.Ok.sret {pc : ThreadPc ι Λ} {trapped : List (ThreadPc ι Λ)} (h : v.Ok c)
    (htrapped : v.thread.trapped = pc :: trapped) (hpc : v.thread.pc = .idle)
    (hheld : v.thread.held = []) (hguards : v.thread.guards = 0) :
    let v' : CpuView ι κ Λ := { v with
      cpu := { v.cpu with sie := true }
      thread := { v.thread with pc := pc, trapped := trapped } }
    v'.Ok c ∧ Frame v v' ∧ Keeps v v' := by
  have hbase := h.trapped pc (htrapped ▸ List.mem_cons_self)
  obtain ⟨hpending, htaken, hparked⟩ :
      pc.pending = 0 ∧ pc.taken = [] ∧ pc.parked = false := by
    rcases hbase with rfl | ⟨l, rfl⟩ <;> exact ⟨rfl, rfl, rfl⟩
  have hdepth := KThread.depth_eq_zero.2 ⟨hheld, hguards, by rw [hpc]; rfl⟩
  have hdepth' : KThread.depth { v.thread with pc := pc, trapped := trapped } = 0 :=
    KThread.depth_eq_zero.2 ⟨hheld, hguards, hpending⟩
  have hnoff : v.cpu.noff = 0 := by rw [h.noff, hdepth, Nat.cast_zero]
  have howned : KThread.owned { v.thread with pc := pc, trapped := trapped } = [] := by
    rw [KThread.owned, htaken]
    exact hheld
  refine ⟨⟨?_, fun hlt => ?_, fun old l hp => ?_, ?_, fun pc' hpc' => ?_, ?_, fun l hl => ?_,
    h.cpuid⟩, ⟨fun l hl _ => ?_, fun _ _ _ => rfl⟩,
    .of_depth_eq (hdepth'.trans hdepth.symm) fun hne => absurd hdepth hne⟩
  · rw [hnoff, hdepth', Nat.cast_zero]
  · exact absurd hnoff hlt.ne'
  · rcases hbase with rfl | ⟨l, rfl⟩ <;> cases hp
    rfl
  · rw [hparked]
    rintro ⟨⟩
  · exact h.trapped pc' (htrapped ▸ List.mem_cons_of_mem _ hpc')
  · exact howned ▸ List.nodup_nil
  · exact absurd (howned ▸ hl) List.not_mem_nil
  · exact absurd (howned ▸ hl) List.not_mem_nil

section
variable [DecidableEq ι] [DecidableEq κ] [DecidableEq Λ]

theorem SpinLock.holding_eq_true {k : SpinLock κ} :
    k.holding c = true ↔ k.locked = true ∧ k.cpuid = some c := by
  rw [SpinLock.holding, Bool.and_eq_true, decide_eq_true_iff]

omit [DecidableEq ι] [DecidableEq Λ] in
theorem CpuView.Ok.holding (h : v.Ok c) (hl : l ∈ v.thread.held) : (v.lock l).holding c = true :=
  SpinLock.holding_eq_true.2 ⟨h.locked l (List.mem_append_right _ hl), h.cpuid l hl⟩

/-- `release` of a lock that is held, up to the store to `cpuid`. -/
theorem CpuView.Ok.release (h : v.Ok c) (hpc : v.thread.pc = .idle ∨ v.thread.pc = .forkret)
    (hl : l ∈ v.thread.held) :
    ∃ v', v.release c l = .ok v' ∧ v'.Ok c ∧ Frame v v' ∧ Keeps v v' := by
  have hpending : v.thread.pc.pending = 0 := by rcases hpc with hpc | hpc <;> rw [hpc] <;> rfl
  have howned : v.thread.owned = v.thread.held := by
    rw [KThread.owned]
    rcases hpc with hpc | hpc <;> rw [hpc] <;> rfl
  have hperm : (l :: v.thread.held.erase l).Perm v.thread.held := (List.perm_cons_erase hl).symm
  have hmem : ∀ {l'}, l' ∈ l :: v.thread.held.erase l → l' ∈ v.thread.held := fun h' =>
    hperm.mem_iff.1 h'
  have hnodup : (l :: v.thread.held.erase l).Nodup :=
    hperm.nodup_iff.2 (howned ▸ h.nodup)
  have hdepth : KThread.depth
      { v.thread with pc := .unlock l, held := v.thread.held.erase l } = v.thread.depth := by
    rw [KThread.depth, KThread.depth, hpending, ← hperm.length_eq, List.length_cons, Nat.add_zero,
      Nat.add_right_comm]
    rfl
  rw [CpuView.release, if_pos (h.holding hl)]
  refine ⟨_, rfl, ⟨hdepth ▸ h.noff, h.off, ?_, (by rintro ⟨⟩), h.trapped, hnodup,
    fun l' hl' => ?_, fun l' hl' => ?_⟩, ⟨?_, ?_⟩, .of_depth_eq hdepth fun _ => ?_⟩
  · rintro _ _ ⟨⟩
  · have hlocked := h.locked l' (howned ▸ hmem hl')
    dsimp only
    rw [Function.update_apply]
    split
    · next he => exact he ▸ hlocked
    · exact hlocked
  · dsimp only
    have hne : l' ≠ l := by
      rintro rfl
      exact (List.nodup_cons.1 hnodup).1 hl'
    rw [Function.update_of_ne hne]
    exact h.cpuid l' (hmem (List.mem_cons_of_mem _ hl'))
  · exact fun l' hl' hno => absurd (howned ▸ hmem hl') hno
  · intro l' hno _
    exact Function.update_of_ne (fun he => hno (by rw [he, howned]; exact hl)) _ _
  · rw [CpuView.saved, CpuView.saved]
    rcases hpc with hpc | hpc <;> rw [hpc]

omit [DecidableEq κ] in
/-- The loop of `acquire` ends, on a lock that was free. -/
theorem CpuView.Ok.take (h : v.Ok c) (hpc : v.thread.pc = .spin l)
    (hfree : (v.lock l).locked = false) :
    let v' : CpuView ι κ Λ := { v with
      thread := { v.thread with pc := .own l }
      lock := Function.update v.lock l { v.lock l with locked := true } }
    v'.Ok c ∧ Frame v v' ∧ Keeps v v' := by
  have howned : v.thread.owned = v.thread.held := by rw [KThread.owned, hpc]; rfl
  have hno : l ∉ v.thread.held := fun hl => by
    rw [h.locked l (howned ▸ hl)] at hfree
    exact absurd hfree (by decide)
  have hdepth : KThread.depth { v.thread with pc := .own l } = v.thread.depth := by
    rw [KThread.depth, KThread.depth, hpc]
    rfl
  refine ⟨⟨hdepth ▸ h.noff, h.off, ?_, (by rintro ⟨⟩), h.trapped, ?_, fun l' hl' => ?_,
    fun l' hl' => ?_⟩, ⟨?_, ?_⟩, .of_depth_eq hdepth fun _ => ?_⟩
  · rintro _ _ ⟨⟩
  · exact List.nodup_cons.2 ⟨hno, howned ▸ h.nodup⟩
  · dsimp only
    rw [Function.update_apply]
    split
    · rfl
    · next hne =>
      exact h.locked l' (howned ▸ (List.mem_cons.1 hl').resolve_left hne)
  · dsimp only
    have hne : l' ≠ l := by
      rintro rfl
      exact hno hl'
    rw [Function.update_of_ne hne]
    exact h.cpuid l' hl'
  · intro l' hl' hno'
    rcases List.mem_cons.1 hl' with rfl | hl'
    · exact hfree
    · exact absurd (howned ▸ hl') hno'
  · intro l' _ hno'
    exact Function.update_of_ne (fun he => hno' (by rw [he]; exact List.mem_cons_self)) _ _
  · rw [CpuView.saved, CpuView.saved, hpc]

omit [DecidableEq κ] in
/-- `acquire` sets `cpuid`. -/
theorem CpuView.Ok.own (h : v.Ok c) (hpc : v.thread.pc = .own l) :
    let v' : CpuView ι κ Λ := { v with
      thread := { v.thread with pc := .idle, held := l :: v.thread.held }
      lock := Function.update v.lock l { v.lock l with cpuid := some c } }
    v'.Ok c ∧ Frame v v' ∧ Keeps v v' := by
  have howned : v.thread.owned = l :: v.thread.held := by rw [KThread.owned, hpc]; rfl
  have hlocked : ∀ l' ∈ l :: v.thread.held, (v.lock l').locked = true := fun l' hl' =>
    h.locked l' (howned ▸ hl')
  have hdepth : KThread.depth { v.thread with pc := .idle, held := l :: v.thread.held } =
      v.thread.depth := by
    rw [KThread.depth, KThread.depth, hpc, List.length_cons, Nat.add_right_comm _ 1]
    rfl
  refine ⟨⟨hdepth ▸ h.noff, h.off, ?_, (by rintro ⟨⟩), h.trapped, ?_, fun l' hl' => ?_,
    fun l' hl' => ?_⟩, ⟨?_, ?_⟩, .of_depth_eq hdepth fun _ => ?_⟩
  · rintro _ _ ⟨⟩
  · exact (howned ▸ h.nodup : (l :: v.thread.held).Nodup)
  · dsimp only
    rw [Function.update_apply]
    split
    · exact hlocked l List.mem_cons_self
    · exact hlocked l' hl'
  · dsimp only
    rw [Function.update_apply]
    split
    · rfl
    · next hne => exact h.cpuid l' ((List.mem_cons.1 hl').resolve_left hne)
  · exact fun l' hl' hno => absurd (howned ▸ hl') hno
  · intro l' hno _
    exact Function.update_of_ne (fun he => hno (by rw [he, howned]; exact List.mem_cons_self)) _ _
  · rw [CpuView.saved, CpuView.saved, hpc]

omit [DecidableEq κ] in
/-- `release` gives up the lock. -/
theorem CpuView.Ok.unlock (h : v.Ok c) (hpc : v.thread.pc = .unlock l) :
    let v' : CpuView ι κ Λ := { v with
      thread := { v.thread with pc := .popOff }
      lock := Function.update v.lock l { v.lock l with locked := false } }
    v'.Ok c ∧ Frame v v' ∧ Keeps v v' := by
  have howned : v.thread.owned = l :: v.thread.held := by rw [KThread.owned, hpc]; rfl
  have hnodup : (l :: v.thread.held).Nodup := howned ▸ h.nodup
  have hne : ∀ {l'}, l' ∈ v.thread.held → l' ≠ l := fun hl' he =>
    (List.nodup_cons.1 hnodup).1 (he ▸ hl')
  have hdepth : KThread.depth { v.thread with pc := .popOff } = v.thread.depth := by
    rw [KThread.depth, KThread.depth, hpc]
    rfl
  refine ⟨⟨hdepth ▸ h.noff, h.off, ?_, (by rintro ⟨⟩), h.trapped, (List.nodup_cons.1 hnodup).2,
    fun l' hl' => ?_, fun l' hl' => ?_⟩, ⟨?_, ?_⟩, .of_depth_eq hdepth fun _ => ?_⟩
  · rintro _ _ ⟨⟩
  · dsimp only
    rw [Function.update_of_ne (hne hl')]
    exact h.locked l' (howned ▸ List.mem_cons_of_mem _ hl')
  · dsimp only
    rw [Function.update_of_ne (hne hl')]
    exact h.cpuid l' hl'
  · exact fun l' hl' hno => absurd (howned ▸ List.mem_cons_of_mem l hl') hno
  · intro l' hno _
    exact Function.update_of_ne (fun he => hno (by rw [he, howned]; exact List.mem_cons_self)) _ _
  · rw [CpuView.saved, CpuView.saved, hpc]

omit [DecidableEq ι] [DecidableEq κ] [DecidableEq Λ] in
/-- `sched` restores `intena`. -/
theorem CpuView.Ok.restore {x : Bool} (h : v.Ok c) (hpc : v.thread.pc = .switched x) :
    let v' : CpuView ι κ Λ := { v with
      cpu := { v.cpu with intena := x }, thread := { v.thread with pc := .idle } }
    v'.Ok c ∧ Frame v v' ∧ Keeps v v' := by
  have hdepth : KThread.depth { v.thread with pc := .idle } = v.thread.depth := by
    rw [KThread.depth, KThread.depth, hpc]
    rfl
  have howned : KThread.owned { v.thread with pc := .idle } = v.thread.owned := by
    rw [KThread.owned, KThread.owned, hpc]
    rfl
  refine ⟨⟨hdepth ▸ h.noff, h.off, ?_, (by rintro ⟨⟩), h.trapped, howned ▸ h.nodup,
    fun l hl => h.locked l (howned ▸ hl), h.cpuid⟩, .of_eq howned rfl,
    .of_depth_eq hdepth fun _ => ?_⟩
  · rintro _ _ ⟨⟩
  · rw [CpuView.saved, CpuView.saved, hpc]

/-- **The call in progress goes on.**  The only panic is that of `acquire` of a lock that the
processor holds. -/
theorem CpuView.Ok.go {r : Except SpinPanic (CpuView ι κ Λ)} (h : v.Ok c) (hgo : v.go c = some r) :
    r = .error .acquire ∨ ∃ v', r = .ok v' ∧ v'.Ok c ∧ Frame v v' ∧ Keeps v v' := by
  cases hpc : v.thread.pc with
  | idle | forkret =>
    rw [CpuView.go, hpc] at hgo
    exact absurd hgo (by rintro ⟨⟩)
  | pushed old l =>
    rw [CpuView.go, hpc] at hgo
    cases l with
    | none => exact .inr ⟨_, (Option.some.inj hgo).symm, h.pushOff (.inr ⟨hpc, rfl, rfl⟩)⟩
    | some l =>
      obtain rfl := Option.some.inj hgo
      by_cases hh : (v.lock l).holding c = true
      · exact .inl (if_pos hh)
      · exact .inr ⟨_, if_neg hh, h.pushOff (.inl ⟨l, hpc, rfl, rfl⟩)⟩
  | spin l =>
    rw [CpuView.go, hpc] at hgo
    obtain rfl := Option.some.inj hgo
    by_cases hl : (v.lock l).locked = true
    · exact .inr ⟨v, if_pos hl, h, .of_eq rfl rfl, .of_depth_eq rfl fun _ => rfl⟩
    · exact .inr ⟨_, if_neg hl, h.take hpc (Bool.eq_false_iff.2 hl)⟩
  | own l =>
    rw [CpuView.go, hpc] at hgo
    exact .inr ⟨_, (Option.some.inj hgo).symm, h.own hpc⟩
  | unlock l =>
    rw [CpuView.go, hpc] at hgo
    exact .inr ⟨_, (Option.some.inj hgo).symm, h.unlock hpc⟩
  | popOff =>
    rw [CpuView.go, hpc] at hgo
    obtain rfl := Option.some.inj hgo
    obtain ⟨cpu, hpop, hok⟩ := h.popOff (t := { v.thread with pc := .idle })
      (by rw [KThread.depth, KThread.depth, hpc]; rfl) rfl (.inr hpc) rfl rfl
    rw [hpop]
    exact .inr ⟨_, rfl, hok⟩
  | switched x =>
    rw [CpuView.go, hpc] at hgo
    exact .inr ⟨_, (Option.some.inj hgo).symm, h.restore hpc⟩

/-- **A call or a return** does not panic. -/
theorem CpuView.Ok.call {r : Except SpinPanic (CpuView ι κ Λ)} {m : SpinCall ι Λ} (h : v.Ok c)
    (hcall : v.call c m = some r) : ∃ v', r = .ok v' ∧ v'.Ok c ∧ Frame v v' ∧ Keeps v v' := by
  cases m with
  | guard =>
    obtain ⟨hpc, hr⟩ := Option.ite_none_right_eq_some.1 hcall
    exact ⟨_, (Option.some.inj hr).symm, h.push hpc none⟩
  | acquire l =>
    obtain ⟨hpc, hr⟩ := Option.ite_none_right_eq_some.1 hcall
    exact ⟨_, (Option.some.inj hr).symm, h.push hpc (some l)⟩
  | unguard =>
    obtain ⟨⟨hpc, hguards⟩, hr⟩ := Option.ite_none_right_eq_some.1 hcall
    obtain rfl := Option.some.inj hr
    obtain ⟨cpu, hpop, hok⟩ := h.popOff (t := { v.thread with guards := v.thread.guards - 1 })
      (by rw [KThread.depth, KThread.depth]; dsimp only; omega) hpc (.inl hpc) rfl rfl
    rw [hpop]
    exact ⟨_, rfl, hok⟩
  | release l =>
    obtain ⟨⟨hpc, hl⟩, hr⟩ := Option.ite_none_right_eq_some.1 hcall
    obtain ⟨v', hv', hok⟩ := h.release (.inl hpc) hl
    exact ⟨v', (Option.some.inj hr).symm.trans hv', hok⟩
  | interrupt =>
    obtain ⟨hsie, hr⟩ := Option.ite_none_right_eq_some.1 hcall
    exact ⟨_, (Option.some.inj hr).symm, h.interrupt hsie⟩
  | sret =>
    rw [CpuView.call] at hcall
    split at hcall
    · exact absurd hcall (by rintro ⟨⟩)
    · next pc trapped htrapped =>
      obtain ⟨⟨hpc, hheld, hguards⟩, hr⟩ := Option.ite_none_right_eq_some.1 hcall
      exact ⟨_, (Option.some.inj hr).symm, h.sret htrapped hpc hheld hguards⟩

end

end CpuManager

end Xv6pp
