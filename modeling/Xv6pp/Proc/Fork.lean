import Xv6pp.File.FileManager
import Xv6pp.Proc.ProcessMachine
import Xv6pp.Vm.Supply

/-!
# `fork` when memory runs out

`process::fork` of `kernel/process.cpp` on the whole state that it works on: processes and their
memory, descriptors and the files behind them, current directories and the references to their inodes.
How many pages a `fork` takes is computed from the size of the parent (`forkPages`), and whether one
that finds fewer of them fails cleanly depends on where it runs out: `process_manager::free` undoes
everything that `process_manager::alloc` has done, but `process::free`, which is called when the copy
fails, does not unmap the trampoline and the trapframe.
-/

set_option autoImplicit false

namespace Xv6pp

open Prog Radix VirtualMemory

attribute [local irreducible] freewalk

variable [KernelImage]

/-! ## The state -/

/-- What `fork` works on. -/
structure System where
  kernel : Kernel
  files : FileManager
  /-- Open files. -/
  ofile : Pid → Fin NOFILE → Option FileId
  /-- Current directories. -/
  cwd : Pid → Option InodeId
  /-- Reference counts of the in-core inodes. -/
  iref : InodeId → Nat

/-- A program on the whole state. -/
abbrev SystemM (α : Type) : Type := StateT System (Except Panic) α

namespace System

omit [KernelImage] in
/-- Run a program of the kernel. -/
def onKernel {α : Type} (m : KernelM α) : SystemM α := fun st =>
  match m.run st.kernel with
  | .ok (a, k) => .ok (a, { st with kernel := k })
  | .error e => .error e

omit [KernelImage] in
/-- `file::dup`. -/
def dup (f : FileId) : SystemM Unit := fun st =>
  match st.files.dup f with
  | .ok m => .ok ((), { st with files := m })
  | .error e => .error e

omit [KernelImage] in
/-- The loop of `fork` over the descriptors of the parent. -/
def forkFiles (p np : Pid) : SystemM Unit :=
  (List.finRange NOFILE).forM fun i => do
    match (← get).ofile p i with
    | none => pure ()
    | some f => do
      dup f
      modify fun st =>
        { st with ofile := Function.update st.ofile np (Function.update (st.ofile np) i (some f)) }

omit [KernelImage] in
/-- `np->cwd = idup(cwd)`. -/
def forkCwd (p np : Pid) : SystemM Unit := do
  match (← get).cwd p with
  | none => throw .outOfBounds
  | some ip =>
    modify fun st => { st with iref := Function.update st.iref ip (st.iref ip + 1) }
    modify fun st => { st with cwd := Function.update st.cwd np (some ip) }

/-- `process::fork`. -/
def fork (p : Pid) : SystemM Int := do
  match ← onKernel ProcessManager.alloc with
  | none => pure (-1)
  | some np => do
    let self ← onKernel (proc p)
    let child ← onKernel (proc np)
    let old ← onKernel (deref self.pagetable)
    let new ← onKernel (deref child.pagetable)
    if (← onKernel (vm (copy old new self.sz))) < 0 then do
      onKernel (Process.free np)
      pure (-1)
    else do
      onKernel (updateProc np fun q => { q with sz := self.sz })
      let tf ← onKernel (deref self.trapframe)
      let ntf ← onKernel (deref child.trapframe)
      onKernel (vm (modify fun s => s.store ntf (s.mem tf)))
      onKernel (vm (Process.setReg ntf Process.offA0 0))
      forkFiles p np
      forkCwd p np
      onKernel (updateProc np fun q => { q with name := Process.safestrcpy self.name Process.sizeofName })
      onKernel (updateProc np fun q => { q with parent := some p })
      onKernel (updateProc np fun q => { q with state := .runnable })
      pure child.pid

section
variable {E : Panic → Prop} {st : System} {α : Type} {p np : Pid}

omit [KernelImage] in
@[simp] theorem wp_onKernel {m : KernelM α} {Q : α → System → Prop} :
    wp (onKernel m) E Q st ↔ wp m E (fun a k => Q a { st with kernel := k }) st.kernel := by
  simp only [wp, onKernel, StateT.run]
  cases m st.kernel with
  | error e => rfl
  | ok r => rfl

end
end System

/-! ## The pages that `fork` takes -/

section
variable {s : Memory} {tf : Nat} {A : Multiset Nat} {k : Kernel} {U X : Multiset Nat}

omit [KernelImage] in
/-- The trampoline and the trapframe are mapped by words of the same page. -/
theorem apart_trampoline (u : Nat) : apart 512 2 u (trapPage + 1) = apart 512 2 u trapPage := by
  simp only [apart]
  rfl

/-- Mapping one of the two pages above the user memory takes the page-table pages that are missing. -/
theorem wp_map_high_supply {r v pa perm a b a' b' : Nat} {O : Multiset Nat} {d : Nat → Nat}
    (h : Space s r true 0 a b O) (ho : Owned s O) (hd : Gaps s 2 r d)
    (hv : trapPage ≤ v) (hv' : v * PGSIZE < MAXVA) (hfree : high a b v = 0)
    (hw : mkPte pa perm < 2 ^ 64)
    (hhigh' : high a' b' = Function.update (high a b) v (mkPte pa perm)) :
    wp (mappages r (v * PGSIZE) PGSIZE pa perm) (fun _ => True) (fun res s' =>
      (res = -1 ∧ ¬ Supply s (d v)) ∨ (res = 0 ∧ Used s (d v) s' ∧ Gaps s' 2 r (closed 2 v d) ∧
        ∃ O', Moves s O s' O' ∧ Space s' r true 0 a' b' O')) s := by
  have hmap : wp (mappages r (v * PGSIZE) PGSIZE pa perm) (fun _ => True) (fun res s' =>
      (res = 0 → Used s (d v) s' ∧ Gaps s' 2 r (closed 2 v d)) ∧ (res ≠ 0 → ¬ Supply s (d v))) s := by
    obtain ⟨-, T, f, htab, rfl, -, -⟩ := h
    exact wp_mappages_supply pa perm htab (ho.of_le (Multiset.le_add_right _ _)) hd hv'
  refine wp_imp (wp_and hmap (wp_map_high (E := fun _ => True) h ho hv hv' hfree hw hhigh')) ?_
  rintro res s' ⟨⟨hzero, hnonzero⟩, O', hm, ⟨rfl, -⟩ | ⟨rfl, hsp⟩⟩
  · exact .inl ⟨rfl, hnonzero (by decide)⟩
  · exact .inr ⟨rfl, (hzero rfl).1, (hzero rfl).2, O', hm, hsp⟩

/-- **`create_pagetable`** takes three pages. -/
theorem wp_createPagetable_supply (htf : PageOk tf) (ho : Owned s A) :
    wp (ProcessManager.createPagetable tf) (fun _ => True) (fun res s' =>
      (res = none → ¬ Supply s 3) ∧ ∀ r, res = some r → Used s 3 s' ∧ Gaps s' 2 r (gaps 0)) s := by
  have hfail : ∀ {m : VmM (Option Nat)} {s' : Memory}, wp m (fun _ => True) (fun res _ => res = none) s' →
      ¬ Supply s 3 → wp m (fun _ => True) (fun res s' =>
        (res = none → ¬ Supply s 3) ∧ ∀ r, res = some r → Used s 3 s' ∧ Gaps s' 2 r (gaps 0)) s' := by
    intro m s' hm hno
    refine wp_imp hm ?_
    rintro res s₁ rfl
    exact ⟨fun _ => hno, (by rintro _ ⟨⟩)⟩
  rw [ProcessManager.createPagetable, VirtualMemory.create]
  simp only [wp_bind]
  refine wp_alloc_supply (fun s₁ hno => ⟨fun _ hs => hno (hs.le (by decide)), (by rintro _ ⟨⟩)⟩)
    fun p rest s₁ hf hf₁ hm₁ hused => ?_
  simp only [wp_bind, wp_memsetZero, wp_pure]
  set s₂ := s₁.store p (Bytes.zero PGSIZE) with hs₂
  have hused₂ : Used s 1 s₂ := hused.trans (.of_eq rfl rfl)
  have hm₂ : Moves s A s₂ (p ::ₘ A) :=
    (Moves.pop hf hf₁ fun _ _ => by rw [hm₁]).trans (Moves.storeWord (by simp) _)
  have ho₂ : Owned s₂ {p} := (ho.moves hm₂).of_le (by simp)
  have hsp₂ : Space s₂ p true 0 0 0 {p} := by
    refine ⟨Nat.zero_le _, {p}, fun _ => 0, Tab.empty fun k _ => word_zero s₁ p k, ?_, (by rintro _ ⟨⟩), ?_⟩
    · rw [mapped_zero, add_zero]
    · intro v _ _
      rw [high, ite_self, ite_self]
  have hgaps₂ : Gaps s₂ 2 p fun _ => 2 := fun v _ => Missing.empty fun k => word_zero s₁ p k
  rw [trampoline_eq]
  refine wp_imp (wp_map_high_supply hsp₂ ho₂ hgaps₂ (by omega) (by decide) rfl
    leaf_trampolinePte.lt (high_update_trampoline 0 0 _)) ?_
  rintro res s₃ (⟨rfl, hno⟩ | ⟨rfl, hused₃, hgaps₃, O₃, hm₃, hsp₃⟩)
  · rw [if_pos (by decide)]
    exact hfail (wp_seq (wp_const trivial) fun _ _ _ => rfl) fun hs => hno ((hused₂ 2).2 hs)
  have hused₃' := hused₂.trans hused₃
  rw [if_neg (by decide), trapframe_eq, wp_bind]
  refine wp_imp (wp_map_high_supply hsp₃ (ho₂.moves hm₃) hgaps₃ (by omega) (by decide) rfl
    (leaf_trapframePte htf).lt (high_update_trapframe 0 _ _)) ?_
  have hzero : closed 2 (trapPage + 1) (fun _ => 2) trapPage = 0 := by decide
  rintro res s₄ (⟨rfl, hno⟩ | ⟨rfl, hused₄, hgaps₄, -⟩)
  · rw [hzero] at hno
    exact absurd (supply_zero s₃) hno
  rw [hzero] at hused₄
  rw [if_neg (by decide)]
  refine ⟨(by rintro ⟨⟩), ?_⟩
  rintro r ⟨⟩
  refine ⟨hused₃'.trans hused₄, hgaps₄.congr fun u _ => ?_⟩
  rw [closed, closed, apart_trampoline, min_eq_right (apart_le _ _ _ _), min_self]
  rfl

/-- **`process_manager::alloc`** takes four pages. -/
theorem wp_pmAlloc_supply (hU : MachinePages U) (h : Ledger U X k.memory k.procs) :
    wp ProcessManager.alloc (fun _ => True) (fun res k' =>
      (res = none → (∃ i, (k.procs i).state = .unused) → ¬ Supply k.memory 4) ∧
      ∀ np, res = some np → Used k.memory 4 k'.memory ∧
        ∃ r, (k'.procs np).pagetable = some r ∧ Gaps k'.memory 2 r (gaps 0)) k := by
  rw [ProcessManager.alloc]
  simp only [wp_bind, wp_get]
  split
  · next hfind =>
    refine ⟨?_, by rintro _ ⟨⟩⟩
    rintro _ ⟨i, hi⟩
    have := List.find?_eq_none.1 hfind i (List.mem_finRange i)
    exact absurd hi (by simpa using this)
  · next p hfind =>
    obtain ⟨B, R, hB, ho, -, -⟩ := h.step hU p
    have hoX : Owned k.memory X := ho.of_le
      ((Multiset.le_add_left _ _).trans (Multiset.le_add_right _ _))
    simp only [ProcessManager.getNextPid, wp_bind, wp_get, wp_modify, wp_pure, wp_updateProc, wp_vm]
    refine wp_alloc_supply (fun s₁ hno => ?_) fun tf rest s₁ hf hf₁ hm₁ hused => ?_
    · exact wp_seq (wp_const hno) fun _ _ hno => ⟨fun _ _ hs => hno (hs.le (by decide)), (by rintro _ ⟨⟩)⟩
    · have hmoves : Moves k.memory X s₁ (tf ::ₘ X) := Moves.pop hf hf₁ fun _ _ => by rw [hm₁]
      have ho₁ := hoX.moves hmoves
      simp only [wp_bind, wp_updateProc, wp_vm, Function.update_self, Function.update_idem]
      refine wp_imp (wp_createPagetable_supply (ho₁.pageOk (by simp)) ho₁) ?_
      rintro (_ | r) s₂ ⟨hnone, hsome⟩
      · have hno : ¬ Supply k.memory 4 := fun hs => hnone rfl ((hused 3).2 hs)
        exact wp_seq (wp_const hno) fun _ _ hno => ⟨fun _ _ => hno, (by rintro _ ⟨⟩)⟩
      · obtain ⟨hused₂, hgaps⟩ := hsome r rfl
        simp only [wp_bind, wp_updateProc, wp_pure, Function.update_self, Function.update_idem]
        refine ⟨(by rintro ⟨⟩), ?_⟩
        rintro np ⟨⟩
        exact ⟨hused.trans hused₂, r, by rw [Function.update_self], hgaps⟩

variable {E : Panic → Prop} {p : Pid}

omit [KernelImage] in
/-- The pages that a `fork` of the process `p` takes: the trapframe, the page table with its two pages
for trapframe and trampoline, the user memory, and the page-table pages for it. -/
def forkPages (k : Kernel) (p : Pid) : Nat :=
  4 + (pages (k.procs p).sz + tablePages (pages (k.procs p).sz))

/-- **`copy` into a new child** takes the rest of them. -/
theorem wp_copy_supply {old new a b a' b' sz : Nat} {O P : Multiset Nat}
    (hold : Space s old false (pages sz) a' b' P) (hnew : Space s new false 0 a b O)
    (ho : Owned s (O + P)) (hd : Gaps s 2 new (gaps 0)) :
    wp (copy old new sz) (fun _ => True) (fun res s' =>
      (res = 0 → Used s (pages sz + tablePages (pages sz)) s') ∧
      (res ≠ 0 → ¬ Supply s (pages sz + tablePages (pages sz)))) s := by
  have hle : 0 + pages sz ≤ 512 ^ 2 := by
    have h1 := hold.le_card
    have h2 := ho.card_le
    rw [Multiset.card_add] at h2
    omega
  have hcost := copyCost_add hle
  have hcopy := wp_copyFrom_supply (m := pages sz) hold hnew ho (by omega) hd
  have h0 : copyCost 0 (pages sz) = pages sz + tablePages (pages sz) := by
    rw [zero_add] at hcost
    exact hcost
  rwa [h0, Nat.zero_mul] at hcopy

/-- A new child `np` of the process `p`, with no memory yet. -/
structure Child (k k₁ : Kernel) (p np : Pid) (old new tf ntf : Nat) : Prop where
  unused : (k.procs np).state = .unused
  parent : k₁.procs p = k.procs p
  pagetable : (k.procs p).pagetable = some old
  trapframe : (k.procs p).trapframe = some tf
  childPagetable : (k₁.procs np).pagetable = some new
  childTrapframe : (k₁.procs np).trapframe = some ntf
  /-- The copy succeeds exactly if there are pages enough; if it fails, `process::free` panics. -/
  copied : wp (copy old new (k.procs p).sz) (fun _ => False) (fun res s =>
    (res = 0 ∧ Supply k.memory (forkPages k p)) ∨ (res = -1 ∧ ¬ Supply k.memory (forkPages k p) ∧
      ∀ Q, wp (Process.free np) (· = .freewalkLeaf) Q { k₁ with memory := s })) k₁.memory

/-- The allocation of the child. -/
theorem wp_alloc_child (hU : MachinePages U) (h : Ledger U 0 k.memory k.procs)
    (hp : (k.procs p).state ≠ .unused) :
    wp ProcessManager.alloc E (fun res k₁ =>
      (res = none → AllocFailed 0 k k₁ ∧ ((∃ i, (k.procs i).state = .unused) → ¬ Supply k.memory 4)) ∧
      ∀ np, res = some np → Supply k.memory 4 ∧ ∃ old new tf ntf, Child k k₁ p np old new tf ntf) k := by
  refine wp_imp (wp_and (wp_pmAlloc hU h) (wp_pmAlloc_supply hU h)) ?_
  rintro res k₁ ⟨⟨h₁, -, hsame, hnp, hnone⟩, hfew, hgaps⟩
  refine ⟨fun hres => ⟨hnone hres, hfew hres⟩, fun np hres => ?_⟩
  obtain ⟨hunused, hused, hsz0⟩ := hnp np hres
  obtain ⟨hpages, nr, hnr, hgaps⟩ := hgaps np hres
  have hpnp : p ≠ np := fun e => hp (e ▸ hunused)
  have hself : k₁.procs p = k.procs p := hsame p hp
  obtain ⟨B, R, hB, ho, hothers, -⟩ := h₁.step hU np
  obtain ⟨ntf, nr', O, rfl, hntf, hnpt, hnspace⟩ := hB.of_live (by rw [hused]; decide)
  obtain rfl : nr = nr' := Option.some.inj (hnr.symm.trans hnpt)
  obtain ⟨C, hCR, hC⟩ := hothers p hpnp
  obtain ⟨tf, r, P, rfl, htf, hpt, hspace⟩ := hC.of_live (by rw [hself]; exact hp)
  rw [hself] at htf hpt hspace
  have hle : O + P ≤ (ntf ::ₘ O) + 0 + R :=
    add_le_add ((Multiset.le_cons_self _ _).trans (Multiset.le_add_right _ _))
      ((Multiset.le_cons_self _ _).trans hCR)
  rw [hsz0] at hnspace
  have hOP : Owned k₁.memory (O + P) := ho.of_le hle
  refine ⟨hpages.supply, r, nr, tf, ntf, hunused, hself, hpt, htf, hnpt, hntf, ?_⟩
  refine wp_imp (wp_and (wp_copy hspace hnspace hOP) (wp_copy_supply hspace hnspace hOP hgaps)) ?_
  rintro res s₂ ⟨⟨O₂, hm₂, ⟨rfl, -⟩ | ⟨rfl, hsp₂⟩⟩, hzero, hnonzero⟩
  · rw [forkPages]
    exact .inl ⟨rfl, (hpages.trans (hzero rfl)).supply⟩
  · rw [forkPages]
    refine .inr ⟨rfl, fun hs => hnonzero (by decide) ((hpages _).2 hs), fun Q => ?_⟩
    -- `process::free` on an address space that still has its trapframe and trampoline
    have ho₂ : Owned s₂ (ntf ::ₘ O₂) :=
      (ho.moves ((hm₂.cons ntf 0).add R)).of_le
        ((Multiset.le_add_right _ _).trans (Multiset.le_add_right _ _))
    have hntf' : PageOk ntf := ho₂.pageOk (by simp)
    simp only [Process.free, wp_bind, wp_proc, hntf, hnpt, hsz0, wp_vm]
    refine wp_free_page ho₂ fun s₃ hm₃ hframe => ?_
    exact wp_vmFree_leaf (hsp₂.frame hframe) (ho₂.moves hm₃) hntf'

end

/-! ## Running out of memory -/

/-- There is a slot for the child, but not memory enough. -/
def OutOfMemory (k : Kernel) (p : Pid) : Prop :=
  (∃ i, (k.procs i).state = .unused) ∧ ¬ Supply k.memory (forkPages k p)

/-- A `fork` that has failed cleanly. -/
structure FailedCleanly (st st' : System) : Prop where
  /-- The parent and all other processes are as they were, ... -/
  live : ∀ i, (st.kernel.procs i).state ≠ .unused → st'.kernel.procs i = st.kernel.procs i
  /-- ... and so is the slot that was chosen for the child. -/
  slot : ∀ i, (st.kernel.procs i).state = .unused → (st'.kernel.procs i).state = .unused ∧
    (st'.kernel.procs i).pagetable = none ∧ (st'.kernel.procs i).trapframe = none
  /-- Every page that was taken is on the free list again. -/
  free : (st'.kernel.memory.freeList : Multiset Nat) = st.kernel.memory.freeList
  /-- No other page has changed. -/
  frame : ∀ x, x ∉ st.kernel.memory.freeList → st'.kernel.memory.mem x = st.kernel.memory.mem x
  files : st'.files = st.files
  ofile : st'.ofile = st.ofile
  cwd : st'.cwd = st.cwd
  iref : st'.iref = st.iref

section
variable {E : Panic → Prop} {k : Kernel} {st : System} {U : Multiset Nat} {p : Pid}

theorem FailedCleanly.of_alloc {k' : Kernel} (h : Ledger U 0 st.kernel.memory st.kernel.procs)
    (hfail : AllocFailed 0 st.kernel k') : FailedCleanly st { st with kernel := k' } := by
  obtain ⟨hm, hprocs⟩ := hfail
  have hslot : ∀ i, (st.kernel.procs i).state = .unused →
      (st.kernel.procs i).pagetable = none ∧ (st.kernel.procs i).trapframe = none := by
    intro i hi
    obtain ⟨A, hA, -⟩ := h
    obtain ⟨-, htf, hpt, -⟩ := (hA i).zero_of_unused hi
    exact ⟨hpt, htf⟩
  refine ⟨fun i hi => ?_, fun i hi => ?_, ?_, fun x hx => hm.frame x ?_, rfl, rfl, rfl, rfl⟩
  · rcases hprocs with hsame | ⟨np, q, hnp, hupd⟩
    · exact congrFun hsame i
    · have hne : i ≠ np := fun e => hi (e ▸ hnp)
      exact (congrFun hupd i).trans (Function.update_of_ne hne _ _)
  · rcases hprocs with hsame | ⟨np, q, -, hupd⟩
    · simp only [hsame]
      exact ⟨hi, hslot i hi⟩
    · by_cases hne : i = np
      · subst hne
        simp only [hupd, Function.update_self]
        exact ⟨rfl, rfl, rfl⟩
      · simp only [hupd, Function.update_of_ne hne]
        exact ⟨hi, hslot i hi⟩
  · have hc := hm.conserve
    rwa [add_zero, add_zero] at hc
  · rwa [add_zero, Multiset.mem_coe]

/-- With pages enough, `fork` makes a child. -/
theorem wp_fork_completes (hU : MachinePages U) (h : Ledger U 0 k.memory k.procs)
    (hp : (k.procs p).state ≠ .unused) (hslot : ∃ i, (k.procs i).state = .unused)
    (hs : Supply k.memory (forkPages k p)) :
    wp (Process.fork p) (fun _ => False) (fun pid k' => ∃ np, (k.procs np).state = .unused ∧
      (k'.procs np).state = .runnable ∧ (k'.procs np).parent = some p ∧ (k'.procs np).pid = pid) k := by
  rw [Process.fork]
  refine wp_seq (wp_alloc_child hU h hp) ?_
  rintro (_ | np) k₁ ⟨hnone, hsome⟩
  · exact absurd (hs.le (Nat.le_add_right _ _)) ((hnone rfl).2 hslot)
  · obtain ⟨-, old, new, tf, ntf, hc⟩ := hsome np rfl
    simp only [wp_bind, wp_proc, hc.parent, hc.pagetable, hc.childPagetable, wp_deref_some, wp_vm]
    refine wp_imp hc.copied ?_
    rintro res s₂ (⟨rfl, -⟩ | ⟨-, hno, -⟩)
    · rw [if_neg (by decide)]
      simp only [wp_bind, wp_updateProc, hc.trapframe, hc.childTrapframe, wp_deref_some, wp_vm,
        wp_modify, wp_setReg, Function.update_self, Function.update_idem, wp_pure]
      refine ⟨np, hc.unused, ?_⟩
      rw [Function.update_self]
      exact ⟨rfl, rfl, rfl⟩
    · exact absurd hs hno

/-- When memory runs out, `fork` fails cleanly in `process_manager::alloc` and panics after it. -/
theorem wp_fork_out (hU : MachinePages U) (h : Ledger U 0 st.kernel.memory st.kernel.procs)
    (hp : (st.kernel.procs p).state ≠ .unused) (hout : OutOfMemory st.kernel p) :
    wp (System.fork p) (fun e => e = .freewalkLeaf ∧ Supply st.kernel.memory 4) (fun r st' =>
      ¬ Supply st.kernel.memory 4 ∧ r = -1 ∧ FailedCleanly st st') st := by
  rw [System.fork, wp_bind, System.wp_onKernel]
  refine wp_imp (wp_alloc_child hU h hp) ?_
  rintro (_ | np) k₁ ⟨hnone, hsome⟩
  · obtain ⟨hfail, hfew⟩ := hnone rfl
    exact ⟨hfew hout.1, rfl, .of_alloc h hfail⟩
  · obtain ⟨hs, old, new, tf, ntf, hc⟩ := hsome np rfl
    simp only [wp_bind, System.wp_onKernel, wp_proc, hc.parent, hc.pagetable, hc.childPagetable,
      wp_deref_some, wp_vm]
    refine wp_mono hc.copied ?_ fun _ => False.elim
    rintro res s₂ (⟨-, hs⟩ | ⟨rfl, -, hpanic⟩)
    · exact absurd hs hout.2
    · rw [if_pos (by decide), wp_bind, System.wp_onKernel]
      exact wp_mono (hpanic fun _ _ => False) (fun _ _ => False.elim) fun _ he => ⟨he, hs⟩

/-- **`fork` when memory runs out.**  In every reachable state, a `fork` that finds a slot and the pages
it needs makes a child; and one that runs out of memory fails cleanly if and only if it runs out in
`process_manager::alloc`, which takes the first four pages. -/
theorem fork_fails_cleanly_iff {memory : Memory} {as : List ProcAct}
    (hpages : MachinePages (memory.freeList : Multiset Nat))
    (hrun : Machine.Run Kernel.step (Kernel.initial memory) as st.kernel)
    (hp : (st.kernel.procs p).state = .running) :
    ((∃ i, (st.kernel.procs i).state = .unused) →
      Supply st.kernel.memory (forkPages st.kernel p) → ∃ pid k' np,
        (Process.fork p).run st.kernel = .ok (pid, k') ∧ (st.kernel.procs np).state = .unused ∧
        (k'.procs np).state = .runnable ∧ (k'.procs np).parent = some p ∧ (k'.procs np).pid = pid) ∧
    ((OutOfMemory st.kernel p →
        ∃ st', (System.fork p).run st = .ok (-1, st') ∧ FailedCleanly st st') ↔
      (∀ i, (st.kernel.procs i).state ≠ .unused) ∨ ¬ Supply st.kernel.memory 4 ∨
        Supply st.kernel.memory (forkPages st.kernel p)) := by
  have h := ledger_of_run hpages hrun
  have hlive : (st.kernel.procs p).state ≠ .unused := by
    rw [hp]
    decide
  refine ⟨fun hslot hs => ?_, fun hclean => ?_, fun hcond hout => ?_⟩
  · obtain ⟨pid, k', hk', np, hnp⟩ := wp_total (wp_fork_completes hpages h hlive hslot hs)
    exact ⟨pid, k', np, hk', hnp⟩
  · by_contra hno
    rw [not_or, not_or, not_not, not_forall] at hno
    obtain ⟨⟨i, hi⟩, hs, hfew⟩ := hno
    have hout : OutOfMemory st.kernel p := ⟨⟨i, not_not.1 hi⟩, hfew⟩
    obtain ⟨st', hst', -⟩ := hclean hout
    exact (wp_ok (wp_fork_out hpages h hlive hout) hst').1 hs
  · obtain ⟨⟨i, hi⟩, hfew⟩ := hout
    rcases hcond with hall | hno | hs
    · exact absurd hi (hall i)
    · have hwp : wp (System.fork p) (fun _ => False) (fun r st' => r = -1 ∧ FailedCleanly st st') st :=
        wp_mono (wp_fork_out hpages h hlive ⟨⟨i, hi⟩, hfew⟩) (fun _ _ hr => hr.2)
          fun _ hs => hno hs.2
      obtain ⟨r, st', hst', rfl, hfailed⟩ := wp_total hwp
      exact ⟨st', hst', hfailed⟩
    · exact absurd hs hfew

omit [KernelImage] in
/-- The rest of the state, with no file open. -/
def System.ofKernel (k : Kernel) : System where
  kernel := k
  files := ⟨fun _ => .blank, fun _ => .blank fun _ => 0⟩
  ofile := fun _ _ => none
  cwd := fun _ => none
  iref := fun _ => 0

omit [KernelImage] in
/-- On the small machine, two pages are left for a child of the first process. -/
theorem fork_fails_cleanly_iff_small : ∃ k, @Machine.Run Kernel ProcAct Panic (@Kernel.step smallImage)
    (Kernel.initial smallMemory) [.boot, .run ⟨0, by decide⟩] k ∧
      ∃ st', (@System.fork smallImage ⟨0, by decide⟩).run (.ofKernel k) = .ok (-1, st') ∧
        FailedCleanly (.ofKernel k) st' := by
  obtain ⟨k, hrun, hstate, hslot, hfew⟩ : ∃ k,
      @Machine.Run Kernel ProcAct Panic (@Kernel.step smallImage) (Kernel.initial smallMemory)
        [.boot, .run ⟨0, by decide⟩] k ∧ (k.procs ⟨0, by decide⟩).state = .running ∧
      (k.procs ⟨1, by decide⟩).state = .unused ∧ ¬ Supply k.memory 4 :=
    ⟨_, Machine.run_of_exec rfl, rfl, rfl, by decide⟩
  refine ⟨k, hrun, ?_⟩
  have hiff := (@fork_fails_cleanly_iff smallImage (.ofKernel k) ⟨0, by decide⟩ _ _ smallMemory_pages
    hrun hstate).2
  exact hiff.2 (.inr (.inl hfew)) ⟨⟨_, hslot⟩, fun hs => hfew (hs.le (Nat.le_add_right _ _))⟩

omit [KernelImage] in
/-- Boot, and run `/init`. -/
def initActs : List ProcAct :=
  [.boot, .run ⟨0, NPROC_pos⟩, .forkret ⟨0, NPROC_pos⟩ (some emptyElf)]

set_option maxRecDepth 4000 in
omit [KernelImage] in
/-- Four pages are left when the first process runs. -/
theorem lowMemory_boots : ((@Machine.exec Kernel ProcAct Panic (@Kernel.step smallImage) initActs
    (Kernel.initial lowMemory)).elim false fun r => r.toOption.elim false fun k =>
      decide ((k.procs ⟨0, by decide⟩).state = .running ∧ (k.procs ⟨0, by decide⟩).sz = 2 * PGSIZE ∧
        (k.procs ⟨1, by decide⟩).state = .unused ∧ Supply k.memory 4 ∧
        k.memory.freeList.length = 4)) = true := by
  decide +kernel

omit [KernelImage] in
/-- A process of two pages forks when four pages are left: the child is made, but the first page of the
copy cannot be had, and `process::free` panics. -/
theorem fork_panics_out_of_memory : ∃ k,
    @Machine.Run Kernel ProcAct Panic (@Kernel.step smallImage) (Kernel.initial lowMemory) initActs k ∧
      OutOfMemory k ⟨0, by decide⟩ ∧
      (@System.fork smallImage ⟨0, by decide⟩).run (.ofKernel k) = .error .freewalkLeaf := by
  have hboot := lowMemory_boots
  cases hexec : @Machine.exec Kernel ProcAct Panic (@Kernel.step smallImage) initActs
      (Kernel.initial lowMemory) with
  | none => rw [hexec] at hboot; exact absurd hboot (by decide)
  | some r =>
    rw [hexec] at hboot
    cases r with
    | error e => exact absurd hboot Bool.false_ne_true
    | ok k =>
      obtain ⟨hstate, hsz, hslot, hs, hlen⟩ := of_decide_eq_true hboot
      have hrun := Machine.run_of_exec hexec
      have hpages := lowMemory_pages
      have hout : OutOfMemory k ⟨0, by decide⟩ := by
        refine ⟨⟨_, hslot⟩, fun hs => absurd hs.1 ?_⟩
        rw [hlen, forkPages, hsz]
        decide
      have hwp := @wp_fork_out smallImage (.ofKernel k) _ ⟨0, by decide⟩ hpages
        (@ledger_of_run smallImage k _ _ hpages hrun) (by rw [show (System.ofKernel k).kernel = k from rfl, hstate]; decide) hout
      refine ⟨k, hrun, hout, ?_⟩
      cases hfork : (@System.fork smallImage ⟨0, by decide⟩).run (.ofKernel k) with
      | error e => rw [(wp_error hwp hfork).1]
      | ok r => exact absurd hs (wp_ok hwp hfork).1

end

end Xv6pp
