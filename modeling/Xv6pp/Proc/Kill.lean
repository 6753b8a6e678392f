import Xv6pp.Proc.ProcessMachine

/-!
# Whom `kill` hits

`kill` compares process IDs only, and an unused process has the ID 0 that `free` leaves there.  So
`kill(0)` marks an unused process as killed, and since `alloc` does not reset the flag, the next
process that `fork` makes there starts out killed.  In the runs in which nobody calls `kill(0)` while
there is an unused process, process IDs identify the live processes (`Identified`) and `kill` hits
what it should.
-/

set_option autoImplicit false

namespace Xv6pp

open Prog VirtualMemory

/-! ## Process IDs -/

/-- Process IDs are given to live processes, and to one each; unused processes are not killed. -/
structure Identified (k : Kernel) : Prop where
  unused : ∀ i, (k.procs i).state = .unused → (k.procs i).pid = 0 ∧ (k.procs i).killed = false
  live : ∀ i, (k.procs i).state ≠ .unused → 0 < (k.procs i).pid ∧ (k.procs i).pid < k.nextPid
  unique : ∀ i j, (k.procs i).state ≠ .unused → (k.procs j).state ≠ .unused →
    (k.procs i).pid = (k.procs j).pid → i = j
  next : 0 < k.nextPid

/-- Nothing that concerns process IDs has changed; live processes may be killed. -/
structure SameIds (k k' : Kernel) : Prop where
  next : k'.nextPid = k.nextPid
  pid : ∀ i, (k'.procs i).pid = (k.procs i).pid
  state : ∀ i, (k'.procs i).state = .unused ↔ (k.procs i).state = .unused
  killed : ∀ i, (k.procs i).state = .unused → (k'.procs i).killed = (k.procs i).killed

section
variable {k k' k'' : Kernel} {p : Pid}

theorem SameIds.refl (k : Kernel) : SameIds k k :=
  ⟨rfl, fun _ => rfl, fun _ => Iff.rfl, fun _ _ => rfl⟩

theorem SameIds.trans (h : SameIds k k') (h' : SameIds k' k'') : SameIds k k'' where
  next := h'.next.trans h.next
  pid := fun i => (h'.pid i).trans (h.pid i)
  state := fun i => (h'.state i).trans (h.state i)
  killed := fun i hi => (h'.killed i ((h.state i).2 hi)).trans (h.killed i hi)

/-- A change of one process. -/
theorem SameIds.updateProc {f : Process → Process} (hpid : (f (k.procs p)).pid = (k.procs p).pid)
    (hstate : (f (k.procs p)).state = .unused ↔ (k.procs p).state = .unused)
    (hkilled : (k.procs p).state = .unused → (f (k.procs p)).killed = (k.procs p).killed) :
    SameIds k { k with procs := Function.update k.procs p (f (k.procs p)) } := by
  refine ⟨rfl, fun i => ?_, fun i => ?_, fun i hi => ?_⟩
  all_goals
    by_cases hip : i = p
    · subst hip
      simp only [Function.update_self]
      first | exact hpid | exact hstate | exact hkilled hi
    · simp only [Function.update_of_ne hip]

theorem Identified.same (h : Identified k) (hs : SameIds k k') : Identified k' where
  unused := by
    intro i hi
    have hi := (hs.state i).1 hi
    rw [hs.pid, hs.killed i hi]
    exact h.unused i hi
  live := by
    intro i hi
    rw [hs.pid, hs.next]
    exact h.live i (mt (hs.state i).2 hi)
  unique := by
    intro i j hi hj hij
    rw [hs.pid, hs.pid] at hij
    exact h.unique i j (mt (hs.state i).2 hi) (mt (hs.state j).2 hj) hij
  next := by
    rw [hs.next]
    exact h.next

/-- A process is freed. -/
theorem Identified.cleared (h : Identified k) (p : Pid) (q : Process) :
    Identified { k with procs := Function.update k.procs p (ProcessManager.cleared q) } := by
  have hlive : ∀ i, (Function.update k.procs p (ProcessManager.cleared q) i).state ≠ .unused →
      Function.update k.procs p (ProcessManager.cleared q) i = k.procs i := by
    intro i hi
    refine Function.update_of_ne ?_ ..
    rintro rfl
    rw [Function.update_self] at hi
    exact hi rfl
  refine ⟨fun i hi => ?_, fun i hi => ?_, fun i j hi hj hij => ?_, h.next⟩
  · by_cases hip : i = p
    · subst hip
      simp only [Function.update_self]
      exact ⟨rfl, rfl⟩
    · simp only [Function.update_of_ne hip] at hi ⊢
      exact h.unused i hi
  · have heq := hlive i hi
    simp only [heq] at hi ⊢
    exact h.live i hi
  · have hi' := hlive i hi
    have hj' := hlive j hj
    simp only [hi', hj'] at hi hj hij
    exact h.unique i j hi hj hij

/-- An unused process gets the next process ID. -/
theorem Identified.allocated (h : Identified k) (hp : (k.procs p).state = .unused) {q : Process}
    (hpid : q.pid = k.nextPid) (hstate : q.state ≠ .unused) :
    Identified { k with nextPid := k.nextPid + 1, procs := Function.update k.procs p q } := by
  have hne : ∀ i, (k.procs i).state ≠ .unused → (k.procs i).pid ≠ k.nextPid := by
    intro i hi
    have := (h.live i hi).2
    omega
  refine ⟨fun i hi => ?_, fun i hi => ?_, fun i j hi hj hij => ?_, ?_⟩
  · by_cases hip : i = p
    · subst hip
      simp only [Function.update_self] at hi
      exact absurd hi hstate
    · simp only [Function.update_of_ne hip] at hi ⊢
      exact h.unused i hi
  · by_cases hip : i = p
    · subst hip
      simp only [Function.update_self]
      have := h.next
      omega
    · simp only [Function.update_of_ne hip] at hi ⊢
      have := h.live i hi
      omega
  · by_cases hip : i = p <;> by_cases hjp : j = p
    · rw [hip, hjp]
    · subst hip
      simp only [Function.update_self, Function.update_of_ne hjp] at hj hij
      exact absurd (hij.symm.trans hpid) (hne j hj)
    · subst hjp
      simp only [Function.update_self, Function.update_of_ne hip] at hi hij
      exact absurd (hij.trans hpid) (hne i hi)
    · simp only [Function.update_of_ne hip, Function.update_of_ne hjp] at hi hj hij
      exact h.unique i j hi hj hij
  · have := h.next
    show 0 < k.nextPid + 1
    omega

end

/-! ## Programs -/

section
variable {k : Kernel} {p : Pid} {α : Type}

/-- A program of the virtual-memory system, whatever it does to the memory. -/
theorem wp_vm_any {m : VmM α} {Q : α → Kernel → Prop} (h : ∀ a s, Q a { k with memory := s }) :
    wp (vm m) (fun _ => True) Q k := by
  rw [wp_vm, wp]
  split
  · exact h _ _
  · trivial

theorem wp_deref_any {ptr : Option α} {Q : α → Kernel → Prop} (h : ∀ a, Q a k) :
    wp (deref ptr) (fun _ => True) Q k := by
  cases ptr with
  | none => trivial
  | some a => exact h a

variable [KernelImage]

/-- Either of the two ways to free a process, whatever becomes of the memory. -/
theorem wp_pmFree_any {Q : PUnit → Kernel → Prop}
    (h : ∀ s, Q ⟨⟩ (k.with s p (ProcessManager.cleared (k.procs p)))) :
    wp (ProcessManager.free p) (fun _ => True) Q k := by
  rcases htf : (k.procs p).trapframe with _ | tf <;>
    rcases hpt : (k.procs p).pagetable with _ | pagetable <;>
    simp only [ProcessManager.free, wp_bind, wp_proc, htf, hpt]
  · exact h k.memory
  · exact wp_vm_any fun _ s => h s
  · exact wp_vm_any fun _ s => h s
  · exact wp_vm_any fun _ s => wp_vm_any fun _ s' => h s'

theorem wp_processFree_any {Q : PUnit → Kernel → Prop}
    (h : ∀ s, Q ⟨⟩ (k.with s p (ProcessManager.cleared (k.procs p)))) :
    wp (Process.free p) (fun _ => True) Q k := by
  rcases htf : (k.procs p).trapframe with _ | tf <;>
    rcases hpt : (k.procs p).pagetable with _ | pagetable <;>
    simp only [Process.free, wp_bind, wp_proc, htf, hpt]
  · exact h k.memory
  · exact wp_vm_any fun _ s => h s
  · exact wp_vm_any fun _ s => h s
  · exact wp_vm_any fun _ s => wp_vm_any fun _ s' => h s'

omit [KernelImage] in
theorem Identified.with_cleared (h : Identified k) (s : Memory) (q : Process) :
    Identified (k.with s p (ProcessManager.cleared q)) :=
  (h.cleared p q).same ⟨rfl, fun _ => rfl, fun _ => Iff.rfl, fun _ _ => rfl⟩

/-- A process that `alloc` or `fork` has made in an unused slot. -/
structure Fresh (k k' : Kernel) (p : Pid) : Prop where
  unused : (k.procs p).state = .unused
  state : (k'.procs p).state ≠ .unused
  pid : (k'.procs p).pid = k.nextPid
  killed : (k'.procs p).killed = false

theorem wp_pmAlloc_ids (h : Identified k) :
    wp ProcessManager.alloc (fun _ => True)
      (fun res k' => Identified k' ∧ ∀ p, res = some p → Fresh k k' p) k := by
  rw [ProcessManager.alloc]
  simp only [wp_bind, wp_get]
  split
  · exact ⟨h, (by rintro _ ⟨⟩)⟩
  · next p hfind =>
    have hunused := find_unused hfind
    simp only [ProcessManager.getNextPid, wp_bind, wp_get, wp_modify, wp_pure, wp_updateProc]
    have hall : ∀ (s : Memory) (q : Process), q.pid = k.nextPid → q.state ≠ .unused →
        Identified { k with memory := s, nextPid := k.nextPid + 1,
                            procs := Function.update k.procs p q } := fun s q hpid hstate =>
      (h.allocated hunused hpid hstate).same ⟨rfl, fun _ => rfl, fun _ => Iff.rfl, fun _ _ => rfl⟩
    refine wp_vm_any fun res s => ?_
    rcases res with _ | tf
    · exact wp_bind.2 (wp_pmFree_any fun s' =>
        ⟨(hall s _ rfl (by simp)).with_cleared s' _, (by rintro _ ⟨⟩)⟩)
    · simp only [wp_bind, wp_updateProc]
      refine wp_vm_any fun res s => ?_
      rcases res with _ | pagetable
      · refine wp_bind.2 (wp_pmFree_any fun s' => ⟨?_, (by rintro _ ⟨⟩)⟩)
        simp only [Function.update_self, Function.update_idem]
        exact (hall s _ rfl (by simp)).with_cleared s' _
      · simp only [wp_bind, wp_updateProc, wp_pure, Function.update_self, Function.update_idem]
        refine ⟨hall s _ rfl (by simp), ?_⟩
        rintro p' ⟨⟩
        have hkilled := (h.unused p hunused).2
        exact ⟨hunused, by simp, by simp, by simpa using hkilled⟩

/-- **`fork`** makes a process that has not been killed. -/
theorem wp_fork_ids (h : Identified k) :
    wp (Process.fork p) (fun _ => True) (fun r k' => Identified k' ∧
      (r = -1 ∨ ∃ np, Fresh k k' np ∧ (k'.procs np).pid = r ∧
        (k'.procs np).state = .runnable)) k := by
  rw [Process.fork, wp_bind]
  refine wp_imp (wp_pmAlloc_ids h) ?_
  rintro (_ | np) k₁ ⟨h₁, hfresh⟩
  · exact ⟨h₁, .inl rfl⟩
  have hfresh := hfresh np rfl
  simp only [wp_bind, wp_proc]
  refine wp_deref_any fun old => wp_deref_any fun new => wp_vm_any fun r s => ?_
  split
  · refine wp_bind.2 (wp_processFree_any fun s' => ⟨?_, .inl rfl⟩)
    exact h₁.with_cleared s' _
  · simp only [wp_bind, wp_updateProc]
    refine wp_deref_any fun tf => wp_deref_any fun ntf => wp_vm_any fun _ s₁ =>
      wp_vm_any fun _ s₂ => ?_
    simp only [wp_pure, Function.update_self, Function.update_idem]
    have hsame : SameIds k₁ (k₁.with s₂ np
        { k₁.procs np with
          sz := (k₁.procs p).sz, parent := some p, state := .runnable
          name := Process.safestrcpy (k₁.procs p).name Process.sizeofName }) := by
      refine (SameIds.updateProc (f := fun q => { q with
        sz := (k₁.procs p).sz, parent := some p, state := .runnable
        name := Process.safestrcpy (k₁.procs p).name Process.sizeofName }) rfl ?_ fun _ => rfl).trans
        ⟨rfl, fun _ => rfl, fun _ => Iff.rfl, fun _ _ => rfl⟩
      exact ⟨(by rintro ⟨⟩), fun hu => absurd hu hfresh.state⟩
    refine ⟨h₁.same hsame, .inr ⟨np, ⟨hfresh.unused, by simp, ?_, ?_⟩, by simp, by simp⟩⟩
    · simpa using hfresh.pid
    · simpa using hfresh.killed

omit [KernelImage] in
theorem SameIds.memory (s : Memory) : SameIds k { k with memory := s } :=
  ⟨rfl, fun _ => rfl, fun _ => Iff.rfl, fun _ _ => rfl⟩

theorem wp_execError_ids {r newsz : Nat} :
    wp (Process.execError r newsz) (fun _ => True) (fun _ k' => SameIds k k') k :=
  wp_bind.2 (wp_vm_any fun _ s => .memory s)

theorem wp_exec_ids {path : List UInt8} {file : Option Process.Inode} {argv : List (List UInt8)} :
    wp (Process.exec p path file argv) (fun _ => True) (fun _ k' => SameIds k k') k := by
  rw [Process.exec.eq_def]
  split
  · exact .refl k
  · simp only [wp_ite]
    refine ⟨fun _ => .refl k, fun _ => ⟨fun _ => .refl k, fun _ => ?_⟩⟩
    simp only [wp_bind, wp_proc]
    refine wp_deref_any fun tf => wp_vm_any fun res s => ?_
    rcases res with _ | newpagetable
    · exact .memory s
    refine wp_bind.2 (wp_vm_any fun res s => ?_)
    rcases res with ⟨ok, newsz⟩
    simp only [wp_ite]
    refine ⟨fun _ => wp_imp wp_execError_ids fun _ _ h => (SameIds.memory s).trans h, fun _ => ?_⟩
    refine wp_bind.2 (wp_vm_any fun res s => ?_)
    rcases res with ⟨_ | sp, newsz⟩
    · exact wp_imp wp_execError_ids fun _ _ h => (SameIds.memory s).trans h
    simp only [wp_bind]
    refine wp_vm_any fun _ s => ?_
    simp only [wp_updateProc]
    refine wp_deref_any fun old => ?_
    simp only [Function.update_self, Function.update_idem]
    refine wp_vm_any fun _ s => wp_vm_any fun _ s => wp_vm_any fun _ s => ?_
    exact (SameIds.updateProc (k := k) (p := p)
      (f := fun q => { q with
        pagetable := some newpagetable, sz := newsz
        name := Process.safestrcpy (Process.lastName path) Process.sizeofName }) rfl Iff.rfl
      fun _ => rfl).trans (.memory s)

theorem wp_grow_ids {n : Int} :
    wp (Process.grow p n) (fun _ => True) (fun _ k' => SameIds k k') k := by
  have hsz : ∀ (s : Memory) (sz : Nat), SameIds k { k with
      memory := s, procs := Function.update k.procs p { k.procs p with sz := sz } } := fun s sz =>
    (SameIds.updateProc (k := k) (p := p) (f := fun q => { q with sz := sz }) rfl Iff.rfl
      fun _ => rfl).trans (.memory s)
  rw [Process.grow]
  simp only [wp_bind, wp_proc]
  refine wp_deref_any fun pagetable => ?_
  simp only [wp_ite, wp_bind]
  refine ⟨fun _ => wp_vm_any fun newsz s => ?_, fun _ => ⟨fun _ => wp_vm_any fun newsz s => ?_,
    fun _ => .refl k⟩⟩
  · exact ⟨fun _ => .memory s, fun _ => hsz s newsz⟩
  · exact hsz s newsz

omit [KernelImage] in
theorem wp_wakeup_ids {chan : Option Pid} :
    wp (ProcessManager.wakeup p chan) (fun _ => True) (fun _ k' => SameIds k k') k := by
  refine wp_modify.2 ⟨rfl, fun i => ?_, fun i => ?_, fun i _ => ?_⟩
  all_goals
    dsimp only
    split
  · rfl
  · rfl
  · next h => exact ⟨nofun, fun hu => absurd (hu.symm.trans h.2.1) (by decide)⟩
  · exact Iff.rfl
  · rfl
  · rfl

omit [KernelImage] in
theorem wp_reparent_ids :
    wp (ProcessManager.reparent p) (fun _ => True) (fun _ k' => SameIds k k') k := by
  simp only [ProcessManager.reparent, wp_bind, wp_get, wp_ite, wp_set, wp_pure]
  refine ⟨fun _ => wp_imp wp_wakeup_ids fun _ k' h => SameIds.trans ?_ h, fun _ => .refl k⟩
  refine ⟨rfl, fun i => ?_, fun i => ?_, fun i _ => ?_⟩
  all_goals
    dsimp only
    split <;> rfl

omit [KernelImage] in
theorem wp_exit_ids {status : Int} (hp : (k.procs p).state ≠ .unused) :
    wp (Process.exit p status) (fun _ => True) (fun _ k' => SameIds k k') k := by
  simp only [Process.exit, wp_bind, wp_get, wp_ite, wp_throw]
  refine ⟨fun _ => trivial, fun _ => wp_imp wp_reparent_ids fun _ k₁ h₁ => ?_⟩
  refine wp_proc.2 (wp_imp wp_wakeup_ids fun _ k₂ h₂ => ?_)
  have h := h₁.trans h₂
  exact h.trans (SameIds.updateProc (f := fun q => { q with xstate := status, state := .zombie })
    rfl ⟨(by rintro ⟨⟩), fun hu => absurd ((h.state p).1 hu) hp⟩ fun _ => rfl)

theorem wp_wait_ids {addr : Nat} (h : Identified k) (hp : (k.procs p).state ≠ .unused) :
    wp (ProcessManager.wait p addr) (fun _ => True) (fun _ k' => Identified k') k := by
  have hawake : ∀ s, Identified (k.with s p { k.procs p with waiting := none }) := fun s =>
    h.same ((SameIds.updateProc (f := fun q => { q with waiting := none }) rfl Iff.rfl
      fun _ => rfl).trans (.memory s))
  simp only [ProcessManager.wait, wp_bind, wp_get, wp_updateProc]
  split
  · next i _ =>
    have hfree : ∀ s, wp (ProcessManager.free i) (fun _ => True) (fun _ k' => Identified k')
        (k.with s p { k.procs p with waiting := none }) := fun s =>
      wp_pmFree_any fun s' => (hawake s).with_cleared s' _
    simp only [wp_bind, wp_ite, wp_pure]
    refine ⟨fun _ => ⟨fun _ => hawake k.memory, fun _ => hfree k.memory⟩, fun _ => ?_⟩
    refine wp_deref_any fun pagetable => wp_vm_any fun copied s => ?_
    exact ⟨fun _ => hawake s, fun _ => hfree s⟩
  · simp only [wp_ite, wp_pure, wp_bind, wp_updateProc, Function.update_self, Function.update_idem]
    refine ⟨fun _ => hawake k.memory, fun _ => h.same ?_⟩
    exact SameIds.updateProc (f := fun q => { q with waiting := some addr, state := .sleeping }) rfl
      ⟨(by rintro ⟨⟩), fun hu => absurd hu hp⟩ fun _ => rfl

theorem wp_sysExec_ids {upath uargv : Nat} {namei : List UInt8 → Option Process.Inode} :
    wp (Syscall.exec p upath uargv namei) (fun _ => True) (fun _ k' => SameIds k k') k := by
  simp only [Syscall.exec, wp_bind, wp_proc]
  refine wp_deref_any fun pagetable => wp_vm_any fun res s => ?_
  simp only [wp_ite, wp_pure, wp_bind]
  refine ⟨fun _ => .memory s, fun _ => wp_vm_any fun res s => ?_⟩
  refine ⟨fun _ => wp_vm_any fun _ s => .memory s, fun _ => wp_imp wp_exec_ids fun ret k₁ h => ?_⟩
  exact wp_vm_any fun _ s' => ((SameIds.memory (k := k) s).trans h).trans (.memory s')

/-! ## `kill` -/

/-- The call `kill(pid)` cannot hit an unused process. -/
def KillsLive (k : Kernel) (pid : Int) : Prop := pid ≠ 0 ∨ ∀ i, (k.procs i).state ≠ .unused

instance (k : Kernel) (pid : Int) : Decidable (KillsLive k pid) :=
  inferInstanceAs (Decidable (_ ∨ _))

/-- What `kill` does to the process it finds. -/
def Process.killedBy (q : Process) : Process :=
  { q with killed := true, state := if q.state = .sleeping then .runnable else q.state }

omit [KernelImage] in
/-- **`kill`** hits the live process with this ID, if there is one. -/
theorem kill_run (h : Identified k) {pid : Int} (hpid : KillsLive k pid) :
    (∃ i, (k.procs i).state ≠ .unused ∧ (k.procs i).pid = pid ∧
      (ProcessManager.kill pid).run k =
        .ok (0, { k with procs := Function.update k.procs i (k.procs i).killedBy })) ∨
    (∀ i, (k.procs i).state ≠ .unused → (k.procs i).pid ≠ pid) ∧
      (ProcessManager.kill pid).run k = .ok (-1, k) := by
  rcases hfind : (List.finRange NPROC).find? fun i => (k.procs i).pid = pid with _ | i
  · refine .inr ⟨fun i _ hi => ?_, ?_⟩
    · exact of_decide_eq_false (by simpa using List.find?_eq_none.1 hfind i (List.mem_finRange i)) hi
    · show (ProcessManager.kill pid) k = _
      simp only [ProcessManager.kill, Bind.bind, StateT.bind, get, getThe, MonadStateOf.get, StateT.get,
        Except.bind, pure, Except.pure, hfind]
      rfl
  · have hi : (k.procs i).pid = pid := by simpa using List.find?_some hfind
    refine .inl ⟨i, fun hu => ?_, hi, ?_⟩
    · rcases hpid with hne | hfull
      · exact hne (hi.symm.trans (h.unused i hu).1)
      · exact hfull i hu
    · show (ProcessManager.kill pid) k = _
      simp only [ProcessManager.kill, Bind.bind, StateT.bind, get, getThe, MonadStateOf.get, StateT.get,
        Except.bind, pure, Except.pure, hfind]
      rfl

/-- Does this action not kill an unused process? -/
def sparesUnused (k : Kernel) : ProcAct → Bool
  | .kill _ pid => decide (KillsLive k pid)
  | _ => true

theorem Identified.step {k' : Kernel} (h : Identified k) {a : ProcAct}
    (ha : Kernel.step k a = some (.ok k')) (hok : sparesUnused k a = true) : Identified k' := by
  obtain ⟨hen, hrun⟩ := Kernel.step_ok ha
  refine wp_ok (E := fun _ => True) (Q := fun _ k' => Identified k') ?_ hrun
  cases a with
  | boot =>
    simp only [ProcAct.prog, ProcessManager.initialProcess, wp_bind]
    refine wp_imp (wp_pmAlloc_ids h) ?_
    rintro (_ | p) k₁ ⟨h₁, hfresh⟩
    · trivial
    · have hinit : Identified { k₁ with initprocess := some p } :=
        h₁.same ⟨rfl, fun _ => rfl, fun _ => Iff.rfl, fun _ _ => rfl⟩
      exact hinit.same (SameIds.updateProc (f := fun q => { q with state := .runnable }) rfl
        ⟨(by rintro ⟨⟩), fun hu => absurd hu (hfresh p rfl).state⟩ fun _ => rfl)
  | forkret p file =>
    simp only [ProcAct.prog, ProcessManager.forkretFirst, wp_bind, wp_modify]
    refine wp_imp wp_exec_ids fun ret k₁ h₁ => ?_
    simp only [wp_proc]
    refine wp_deref_any fun tf => wp_vm_any fun _ s => ?_
    simp only [wp_ite, wp_throw, wp_pure]
    exact ⟨fun _ => trivial, fun _ => h.same (SameIds.trans ⟨h₁.next, h₁.pid, h₁.state, h₁.killed⟩
      (.memory s))⟩
  | run p =>
    have hp : (k.procs p).state = .runnable := of_decide_eq_true hen
    exact h.same (SameIds.updateProc (f := fun q => { q with state := .running }) rfl
      ⟨(by rintro ⟨⟩), fun hu => absurd (hp.symm.trans hu) (by decide)⟩ fun _ => rfl)
  | yield p =>
    have hp : (k.procs p).state = .running := of_decide_eq_true hen
    exact h.same (SameIds.updateProc (f := fun q => { q with state := .runnable }) rfl
      ⟨(by rintro ⟨⟩), fun hu => absurd (hp.symm.trans hu) (by decide)⟩ fun _ => rfl)
  | user p addr bytes frame =>
    simp only [ProcAct.prog, userMode, wp_bind, wp_proc]
    refine wp_deref_any fun pagetable => wp_deref_any fun tf => wp_vm_any fun _ s =>
      wp_vm_any fun _ s => h.same (.memory s)
  | fork p => exact wp_seq (wp_fork_ids h) fun _ _ h' => h'.1
  | exec p upath uargv namei => exact wp_seq wp_sysExec_ids fun _ _ h' => h.same h'
  | sbrk p a0 =>
    simp only [ProcAct.prog, Syscall.sbrk, wp_bind, wp_proc, wp_ite, wp_pure]
    exact wp_imp wp_grow_ids fun _ _ h' => ⟨fun _ => h.same h', fun _ => h.same h'⟩
  | exit p status =>
    exact wp_imp (wp_exit_ids (of_decide_eq_true hen).1.live) fun _ _ h' => h.same h'
  | wait p addr =>
    exact wp_seq (wp_wait_ids h (of_decide_eq_true hen).1.live) fun _ _ h' => h'
  | kill p pid =>
    have hpid : KillsLive k pid := of_decide_eq_true hok
    rcases kill_run h hpid with ⟨i, hi, -, hkill⟩ | ⟨-, hkill⟩
    · refine wp_bind.2 ?_
      rw [wp, hkill]
      refine h.same (SameIds.updateProc (f := Process.killedBy) rfl ?_ fun hu => absurd hu hi)
      rw [Process.killedBy]
      dsimp only
      split
      · exact ⟨(by rintro ⟨⟩), fun hu => absurd hu hi⟩
      · exact Iff.rfl
    · refine wp_bind.2 ?_
      rw [wp, hkill]
      exact h
  | fault p =>
    have hp : (k.procs p).state = .running := (of_decide_eq_true hen).1.1
    exact h.same (SameIds.updateProc (f := fun q => { q with killed := true }) rfl Iff.rfl
      fun hu => absurd (hp.symm.trans hu) (by decide))

end

theorem identified_initial (memory : Memory) : Identified (Kernel.initial memory) where
  unused := fun _ _ => ⟨rfl, rfl⟩
  live := fun _ hi => absurd rfl hi
  unique := fun _ _ hi _ _ => absurd rfl hi
  next := Int.one_pos

/-- **`kill` targets only live processes, and does not outlive them.**  In every state of every run in
which no `kill(0)` is called while there is an unused process: unused processes are not killed;
`kill(pid)` returns 0 exactly when a live process has this ID, and changes only its killed flag and, if
it sleeps, its state; and a process made by `fork` starts out not killed. -/
theorem kill_targets_live [KernelImage] {memory : Memory} {as : List ProcAct} {k : Kernel}
    (hrun : Machine.Run (Machine.restrict sparesUnused Kernel.step) (Kernel.initial memory) as k) :
    (∀ i, (k.procs i).state = .unused → (k.procs i).killed = false) ∧
    (∀ pid, KillsLive k pid →
      (∃ i, (k.procs i).state ≠ .unused ∧ (k.procs i).pid = pid ∧
        (∀ j, (k.procs j).state ≠ .unused → (k.procs j).pid = pid → j = i) ∧
        (ProcessManager.kill pid).run k =
          .ok (0, { k with procs := Function.update k.procs i (k.procs i).killedBy })) ∨
      (∀ i, (k.procs i).state ≠ .unused → (k.procs i).pid ≠ pid) ∧
        (ProcessManager.kill pid).run k = .ok (-1, k)) ∧
    ∀ p r k', (Process.fork p).run k = .ok (r, k') → r ≠ -1 →
      ∃ np, (k.procs np).state = .unused ∧ (k'.procs np).pid = r ∧
        (k'.procs np).state = .runnable ∧ (k'.procs np).killed = false := by
  have h : Identified k := by
    refine hrun.invariant (identified_initial memory) fun k a k' h ha => ?_
    obtain ⟨hok, ha⟩ := Machine.restrict_eq_some.1 ha
    exact h.step ha hok
  refine ⟨fun i hi => (h.unused i hi).2, fun pid hpid => ?_, fun p r k' hfork hr => ?_⟩
  · refine (kill_run h hpid).imp_left fun ⟨i, hi, hipid, hkill⟩ => ⟨i, hi, hipid, ?_, hkill⟩
    exact fun j hj hjpid => h.unique j i hj hi (hjpid.trans hipid.symm)
  · obtain ⟨np, hfresh, hpid, hstate⟩ := (wp_ok (wp_fork_ids h) hfork).2.resolve_left hr
    exact ⟨np, hfresh.unused, hpid, hstate, hfresh.killed⟩

/-- The first process of the small machine is the only one that `kill` can hit. -/
theorem kill_targets_live_small : ∃ k, @Machine.Run Kernel ProcAct Panic
      (Machine.restrict sparesUnused (@Kernel.step smallImage)) (Kernel.initial smallMemory)
      [.boot, .run ⟨0, by decide⟩] k ∧ KillsLive k 1 ∧
    ((∃ i, (k.procs i).state ≠ .unused ∧ (k.procs i).pid = 1 ∧
        (∀ j, (k.procs j).state ≠ .unused → (k.procs j).pid = 1 → j = i) ∧
        (ProcessManager.kill 1).run k =
          .ok (0, { k with procs := Function.update k.procs i (k.procs i).killedBy })) ∨
      (∀ i, (k.procs i).state ≠ .unused → (k.procs i).pid ≠ 1) ∧
        (ProcessManager.kill 1).run k = .ok (-1, k)) := by
  have hrun : ∃ k, @Machine.Run Kernel ProcAct Panic
      (Machine.restrict sparesUnused (@Kernel.step smallImage)) (Kernel.initial smallMemory)
      [.boot, .run ⟨0, by decide⟩] k := ⟨_, Machine.run_of_exec rfl⟩
  obtain ⟨k, hk⟩ := hrun
  have hlive : KillsLive k 1 := .inl (by decide)
  exact ⟨k, hk, hlive, (@kill_targets_live smallImage _ _ _ hk).2.1 1 hlive⟩

/-- With one live process, whose ID is not 0, `kill(0)` returns 0 and marks an unused process as
killed. -/
theorem kill_zero_hits_unused : ∃ k k' : Kernel, @Machine.Run Kernel ProcAct Panic
      (@Kernel.step smallImage) (Kernel.initial smallMemory) [.boot, .run ⟨0, by decide⟩] k ∧
    (∀ i, (k.procs i).state ≠ .unused → (k.procs i).pid ≠ 0) ∧
    (ProcessManager.kill 0).run k = .ok (0, k') ∧
    (k'.procs ⟨1, by decide⟩).state = .unused ∧ (k'.procs ⟨1, by decide⟩).killed = true :=
  ⟨_, _, Machine.run_of_exec rfl, by decide +kernel, rfl, rfl, rfl⟩

end Xv6pp
