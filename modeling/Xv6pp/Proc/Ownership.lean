import Mathlib.Algebra.Order.BigOperators.Group.Finset
import Mathlib.Data.Fintype.BigOperators
import Xv6pp.Proc.UserPagetable

/-!
# Which process owns which page

The ledger of the machine's pages: every page is on the free list, or belongs to exactly one
process — its trapframe, its page table or its user memory — or is held by the running kernel
function (`Ledger`).  Every function of the process subsystem keeps the ledger; in between, pages
move between the free list, the kernel function and one process at a time, which is what
`Ledger.step` says once for all of them.
-/

set_option autoImplicit false

namespace Xv6pp

open Prog VirtualMemory

attribute [local irreducible] freewalk

/-! ## Programs of the kernel -/

section
variable {E : Panic → Prop} {k : Kernel} {α : Type}

@[simp] theorem wp_vm {m : VmM α} {Q : α → Kernel → Prop} :
    wp (vm m) E Q k ↔ wp m E (fun a s => Q a { k with memory := s }) k.memory := by
  unfold vm wp
  simp only [StateT.run]
  cases m k.memory with
  | error e => rfl
  | ok r => rfl

@[simp] theorem wp_updateProc {p : Pid} {f : Process → Process} {Q : PUnit → Kernel → Prop} :
    wp (updateProc p f) E Q k ↔
      Q ⟨⟩ { k with procs := Function.update k.procs p (f (k.procs p)) } := Iff.rfl

@[simp] theorem wp_proc {p : Pid} {Q : Process → Kernel → Prop} :
    wp (proc p) E Q k ↔ Q (k.procs p) k := Iff.rfl

@[simp] theorem wp_deref_some {a : α} {Q : α → Kernel → Prop} :
    wp (deref (some a)) E Q k ↔ Q a k := Iff.rfl

end

variable [KernelImage]

/-! ## The ledger -/

/-- The pages that a process owns. -/
inductive Owns (s : Memory) (q : Process) : Multiset Nat → Prop
  | unused (hstate : q.state = .unused) (htf : q.trapframe = none) (hpt : q.pagetable = none)
      (hsz : q.sz = 0) : Owns s q 0
  | live {tf r : Nat} {O : Multiset Nat} (hstate : q.state ≠ .unused)
      (htf : q.trapframe = some tf) (hpt : q.pagetable = some r)
      (hspace : UserSpace s r false (pages q.sz) tf O) : Owns s q (tf ::ₘ O)

/-- The pages of the machine: each of them once, after the kernel. -/
structure MachinePages (U : Multiset Nat) : Prop where
  nodup : U.Nodup
  ok : ∀ p ∈ U, PageOk p

/-- The pages `U` of the machine are the free pages, the pages `X` that the running kernel function
holds, and the pages of the processes. -/
def Ledger (U X : Multiset Nat) (s : Memory) (procs : Pid → Process) : Prop :=
  ∃ A : Pid → Multiset Nat, (∀ i, Owns s (procs i) (A i)) ∧
    (s.freeList : Multiset Nat) + (X + ∑ i, A i) = U

section
variable {s s' : Memory} {q q' : Process} {B : Multiset Nat} {U X : Multiset Nat}
  {procs : Pid → Process}

theorem Owns.frame (h : Owns s q B) (hs : ∀ p ∈ B, s'.mem p = s.mem p) : Owns s' q B := by
  cases h with
  | unused hstate htf hpt hsz => exact .unused hstate htf hpt hsz
  | live hstate htf hpt hspace =>
    exact .live hstate htf hpt (hspace.frame fun p hp => hs p (by simp [hp]))

/-- Ownership does not depend on the other fields of a process. -/
theorem Owns.congr (h : Owns s q B) (hstate : q'.state = .unused ↔ q.state = .unused)
    (htf : q'.trapframe = q.trapframe) (hpt : q'.pagetable = q.pagetable) (hsz : q'.sz = q.sz) :
    Owns s q' B := by
  cases h with
  | unused h1 h2 h3 h4 => exact .unused (hstate.2 h1) (htf.trans h2) (hpt.trans h3) (hsz.trans h4)
  | live h1 h2 h3 h4 =>
    exact .live (fun e => h1 (hstate.1 e)) (htf.trans h2) (hpt.trans h3) (by rwa [hsz])

theorem Owns.zero_of_unused (h : Owns s q B) (hstate : q.state = .unused) :
    B = 0 ∧ q.trapframe = none ∧ q.pagetable = none ∧ q.sz = 0 := by
  cases h with
  | unused h1 h2 h3 h4 => exact ⟨rfl, h2, h3, h4⟩
  | live h1 => exact absurd hstate h1

theorem Owns.of_live (h : Owns s q B) (hstate : q.state ≠ .unused) :
    ∃ tf r O, B = tf ::ₘ O ∧ q.trapframe = some tf ∧ q.pagetable = some r ∧
      UserSpace s r false (pages q.sz) tf O := by
  cases h with
  | unused h1 => exact absurd h1 hstate
  | live h1 h2 h3 h4 => exact ⟨_, _, _, rfl, h2, h3, h4⟩

/-- The memory and the record of a process determine the pages it owns. -/
theorem Owns.unique {B' : Multiset Nat} (h : Owns s q B) (h' : Owns s q B') : B = B' := by
  cases h with
  | unused hstate => exact (h'.zero_of_unused hstate).1.symm
  | live hstate htf hpt hspace =>
    obtain ⟨tf', r', O', rfl, htf', hpt', hspace'⟩ := h'.of_live hstate
    obtain rfl := Option.some.inj (htf.symm.trans htf')
    obtain rfl := Option.some.inj (hpt.symm.trans hpt')
    obtain ⟨hn, T, f, htab, rfl, -, -⟩ := hspace
    obtain ⟨-, T', f', htab', rfl, -, -⟩ := hspace'
    obtain ⟨rfl, hf⟩ := Radix.Tab.unique htab htab'
    rw [mapped_congr fun i hi => hf _ ?_]
    rw [Nat.zero_add]
    exact lt_of_lt_of_le (lt_of_lt_of_le hi hn) (by decide)

theorem Ledger.congr {procs' : Pid → Process} (h : Ledger U X s procs)
    (hstate : ∀ i, (procs' i).state = .unused ↔ (procs i).state = .unused)
    (htf : ∀ i, (procs' i).trapframe = (procs i).trapframe)
    (hpt : ∀ i, (procs' i).pagetable = (procs i).pagetable)
    (hsz : ∀ i, (procs' i).sz = (procs i).sz) : Ledger U X s procs' := by
  obtain ⟨A, hA, hsum⟩ := h
  exact ⟨A, fun i => (hA i).congr (hstate i) (htf i) (hpt i) (hsz i), hsum⟩

/-- Pages that a process or the kernel function holds are owned. -/
theorem Ledger.owned (hU : MachinePages U) (h : Ledger U X s procs) : Owned s X := by
  obtain ⟨A, -, hsum⟩ := h
  have hall : Owned s (X + ∑ i, A i) := ⟨hsum ▸ hU.nodup, hsum ▸ hU.ok⟩
  exact hall.of_le (Multiset.le_add_right _ _)

/-- **One process at a time.**  The pages of the process `p` and those held by the kernel function
may be moved in any way; the other processes are not affected. -/
theorem Ledger.step (hU : MachinePages U) (h : Ledger U X s procs) (p : Pid) :
    ∃ B R, Owns s (procs p) B ∧ Owned s ((B + X) + R) ∧
      (∀ j, j ≠ p → ∃ C, C ≤ R ∧ Owns s (procs j) C) ∧
      ∀ s' q' B' X', Moves s (B + X) s' (B' + X') → Owns s' q' B' →
        Ledger U X' s' (Function.update procs p q') := by
  obtain ⟨A, hA, hsum⟩ := h
  have hsplit : ∀ C : Pid → Multiset Nat, ∑ i, C i = C p + ∑ i ∈ Finset.univ.erase p, C i :=
    fun C => (Finset.add_sum_erase _ _ (Finset.mem_univ p)).symm
  have hperm : ∀ B X R : Multiset Nat, X + (B + R) = (B + X) + R := fun B X R => by
    rw [← add_assoc, add_comm X B]
  rw [hsplit A, hperm (A p) X] at hsum
  have hown : Owned s ((A p + X) + ∑ i ∈ Finset.univ.erase p, A i) := ⟨hsum ▸ hU.nodup, hsum ▸ hU.ok⟩
  refine ⟨A p, ∑ i ∈ Finset.univ.erase p, A i, hA p, hown, fun j hj => ⟨A j, ?_, hA j⟩, ?_⟩
  · exact Finset.single_le_sum (fun _ _ => Multiset.zero_le _)
      (Finset.mem_erase.2 ⟨hj, Finset.mem_univ j⟩)
  · intro s' q' B' X' hmoves hq'
    refine ⟨Function.update A p B', fun i => ?_, ?_⟩
    · by_cases hi : i = p
      · subst hi
        rw [Function.update_self, Function.update_self]
        exact hq'
      · rw [Function.update_of_ne hi, Function.update_of_ne hi]
        refine (hA i).frame fun x hx => hmoves.mem_eq hown.nodup ?_
        exact Multiset.mem_sum.2 ⟨i, Finset.mem_erase.2 ⟨hi, Finset.mem_univ i⟩, hx⟩
    · have hrest : ∑ i ∈ Finset.univ.erase p, Function.update A p B' i
          = ∑ i ∈ Finset.univ.erase p, A i :=
        Finset.sum_congr rfl fun i hi => Function.update_of_ne (Finset.ne_of_mem_erase hi) _ _
      rw [hsplit, Function.update_self, hrest, hperm B' X', ← hsum]
      exact (hmoves.add _).conserve

/-- Pages that only the kernel function holds. -/
theorem Ledger.held {X' : Multiset Nat} (hU : MachinePages U) (h : Ledger U X s procs)
    (hm : Moves s X s' X') : Ledger U X' s' procs := by
  obtain ⟨A, hA, hsum⟩ := h
  have hown : Owned s (X + ∑ i, A i) := ⟨hsum ▸ hU.nodup, hsum ▸ hU.ok⟩
  refine ⟨A, fun i => (hA i).frame fun x hx => hm.mem_eq hown.nodup ?_, ?_⟩
  · exact Multiset.mem_sum.2 ⟨i, Finset.mem_univ i, hx⟩
  · rw [← hsum]
    exact (hm.add _).conserve

end

/-! ## Freeing and allocating processes -/

section
variable {E : Panic → Prop} {k : Kernel} {U X : Multiset Nat} {p : Pid}

/-- What a function may do to the table: change memory and the process `p`. -/
def Kernel.with (k : Kernel) (s : Memory) (p : Pid) (q : Process) : Kernel :=
  { k with memory := s, procs := Function.update k.procs p q }

/-- A process record that has been freed owns nothing. -/
theorem owns_cleared (s : Memory) (q : Process) : Owns s (ProcessManager.cleared q) 0 :=
  .unused rfl rfl rfl rfl

/-- **`process_manager::free`** gives back all pages of a process. -/
theorem wp_pmFree (hU : MachinePages U) (h : Ledger U X k.memory k.procs)
    (hp : (k.procs p).state ≠ .unused) :
    wp (ProcessManager.free p) E (fun _ k' => ∃ s',
      k' = k.with s' p (ProcessManager.cleared (k.procs p)) ∧
      Ledger U X k'.memory k'.procs ∧ ∀ B, Owns k.memory (k.procs p) B →
        (s'.freeList : Multiset Nat) = k.memory.freeList + B) k := by
  obtain ⟨B, R, hB, ho, -, hstep⟩ := h.step hU p
  have hBowns := hB
  obtain ⟨tf, r, O, rfl, htf, hpt, hspace⟩ := hB.of_live hp
  have hpage : PageOk tf := ho.pageOk (by simp)
  have ho' : Owned k.memory (tf ::ₘ (O + X)) := by
    rw [← Multiset.cons_add]
    exact ho.of_le (Multiset.le_add_right _ _)
  rw [ProcessManager.free]
  simp only [wp_bind, wp_proc, htf, hpt, wp_vm]
  refine wp_free_page ho' fun s₁ hm₁ hsame => ?_
  have ho₁ := ho'.moves hm₁
  have hspace₁ := hspace.frame fun x hx => hsame x (by simp [hx])
  refine wp_imp (wp_freePagetable hspace₁ (ho₁.of_le (Multiset.le_add_right _ _)) hpage) ?_
  intro _ s₂ hm₂
  have hm : Moves k.memory ((tf ::ₘ O) + X) s₂ (0 + X) := by
    rw [Multiset.cons_add]
    exact hm₁.trans (hm₂.add X)
  refine ⟨s₂, rfl, hstep s₂ _ 0 X hm (owns_cleared s₂ _), fun B hB => ?_⟩
  rw [← hBowns.unique hB]
  have hc := hm.conserve
  rw [zero_add, ← add_assoc] at hc
  exact Multiset.add_left_inj.1 hc

omit [KernelImage] in
/-- The first unused process, if there is one. -/
theorem find_unused {procs : Pid → Process} {p : Pid}
    (h : (List.finRange NPROC).find? (fun i => (procs i).state = .unused) = some p) :
    (procs p).state = .unused := by
  have := List.find?_some h
  simpa using this

/-- What a failed `process_manager::alloc` leaves: pages may have moved within the free list, and the
slot that was chosen is unused again. -/
def AllocFailed (X : Multiset Nat) (k k' : Kernel) : Prop :=
  Moves k.memory X k'.memory X ∧ (k'.procs = k.procs ∨ ∃ np q, (k.procs np).state = .unused ∧
    k'.procs = Function.update k.procs np (ProcessManager.cleared q))

/-- **`process_manager::alloc`** gives an unused process a trapframe and an empty address space, or
fails and keeps no page. -/
theorem wp_pmAlloc (hU : MachinePages U) (h : Ledger U X k.memory k.procs) :
    wp ProcessManager.alloc E (fun res k' =>
      Ledger U X k'.memory k'.procs ∧ k'.initprocess = k.initprocess ∧
      (∀ i, (k.procs i).state ≠ .unused → k'.procs i = k.procs i) ∧
      (∀ p, res = some p → (k.procs p).state = .unused ∧ (k'.procs p).state = .used ∧
        (k'.procs p).sz = 0) ∧ (res = none → AllocFailed X k k')) k := by
  rw [ProcessManager.alloc]
  simp only [wp_bind, wp_get]
  split
  · exact ⟨h, rfl, fun _ _ => rfl, (by rintro _ ⟨⟩), fun _ => ⟨Moves.refl _ _, .inl rfl⟩⟩
  · next p hfind =>
    have hunused := find_unused hfind
    have hother : ∀ (q : Process) i, (k.procs i).state ≠ .unused →
        Function.update k.procs p q i = k.procs i := by
      intro q i hi
      rw [Function.update_of_ne]
      rintro rfl
      exact hi hunused
    obtain ⟨B, R, hB, ho, -, hstep⟩ := h.step hU p
    obtain ⟨rfl, htf, hpt, hsz⟩ := hB.zero_of_unused hunused
    rw [zero_add] at ho hstep
    have hoX : Owned k.memory X := ho.of_le (Multiset.le_add_right _ _)
    simp only [ProcessManager.getNextPid, wp_bind, wp_get, wp_modify, wp_pure, wp_updateProc,
      wp_vm, ProcessManager.free, htf, hpt]
    refine wp_alloc_page hoX (fun s₁ hm₁ _ => ?_) fun tf s₁ hm₁ _ _ => ?_
    · -- no page for the trapframe
      simp only [wp_bind, wp_proc, wp_updateProc, Function.update_self, Function.update_idem,
        wp_pure]
      exact ⟨hstep s₁ _ 0 X (by rwa [zero_add]) (owns_cleared s₁ _), trivial, hother _, (by rintro _ ⟨⟩),
        fun _ => ⟨hm₁, .inr ⟨p, _, hunused, rfl⟩⟩⟩
    · have ho₁ := hoX.moves hm₁
      have hpage : PageOk tf := ho₁.pageOk (by simp)
      simp only [wp_bind, wp_updateProc, wp_vm, Function.update_self, Function.update_idem]
      refine wp_imp (wp_createPagetable hpage ho₁) ?_
      rintro res s₂ (⟨rfl, hm₂⟩ | ⟨r, O, rfl, hspace, hm₂⟩)
      · -- no page table
        simp only [wp_bind, wp_proc, wp_vm, wp_updateProc, Function.update_self,
          Function.update_idem, wp_pure]
        have hm₂' := hm₁.trans hm₂
        refine wp_free_page (hoX.moves hm₂') fun s₃ hm₃ _ => ?_
        have hm₃' := hm₂'.trans hm₃
        exact ⟨hstep s₃ _ 0 X (by rwa [zero_add]) (owns_cleared s₃ _), trivial, hother _, (by rintro _ ⟨⟩),
          fun _ => ⟨hm₃', .inr ⟨p, _, hunused, rfl⟩⟩⟩
      · simp only [wp_bind, wp_updateProc, wp_pure, Function.update_self, Function.update_idem]
        refine ⟨hstep s₂ _ (tf ::ₘ O) X ?_ ?_, trivial, hother _, ?_, (by rintro ⟨⟩)⟩
        · have hm₂' := hm₁.trans hm₂
          rw [Multiset.add_cons] at hm₂'
          rwa [Multiset.cons_add]
        · refine .live (by rintro ⟨⟩) rfl rfl ?_
          show UserSpace s₂ r false (pages (k.procs p).sz) tf O
          rw [hsz]
          exact hspace.weaken
        · rintro p' ⟨⟩
          exact ⟨hunused, by rw [Function.update_self], by rw [Function.update_self]; exact hsz⟩

/-! ## Growing and forking -/

omit [KernelImage] in
theorem VirtualMemory.Moves.cons {s s' : Memory} {O O' : Multiset Nat} (h : Moves s O s' O') (p : Nat)
    (X : Multiset Nat) : Moves s ((p ::ₘ O) + X) s' ((p ::ₘ O') + X) := by
  rw [Multiset.cons_add, Multiset.cons_add, ← Multiset.add_cons, ← Multiset.add_cons]
  exact h.add _

/-- **`grow`** keeps the ledger. -/
theorem wp_grow {n : Int} (hU : MachinePages U) (h : Ledger U X k.memory k.procs)
    (hp : (k.procs p).state ≠ .unused) :
    wp (Process.grow p n) E (fun _ k' => Ledger U X k'.memory k'.procs) k := by
  obtain ⟨B, R, hB, ho, -, hstep⟩ := h.step hU p
  obtain ⟨tf, r, O, rfl, htf, hpt, hspace⟩ := hB.of_live hp
  have hoO : Owned k.memory O := ho.of_le (by
    rw [Multiset.cons_add, Multiset.cons_add]
    exact (Multiset.le_add_right _ _).trans
      ((Multiset.le_add_right _ _).trans (Multiset.le_cons_self _ _)))
  -- the process after its size and address space have changed
  have hresize : ∀ s' O' (q : Process), Moves k.memory O s' O' →
      UserSpace s' r false (pages q.sz) tf O' → q.state = (k.procs p).state →
      q.trapframe = some tf → q.pagetable = some r →
      Ledger U X s' (Function.update k.procs p q) := by
    intro s' O' q hm hsp hstate hqtf hqpt
    exact hstep s' _ (tf ::ₘ O') X (hm.cons tf X) (.live (hstate ▸ hp) hqtf hqpt hsp)
  have hself : ∀ s' O', Moves k.memory O s' O' →
      UserSpace s' r false (pages (k.procs p).sz) tf O' → Ledger U X s' k.procs := by
    intro s' O' hm hsp
    have := hresize s' O' (k.procs p) hm hsp rfl htf hpt
    rwa [Function.update_eq_self] at this
  rw [Process.grow]
  simp only [wp_bind, wp_proc, hpt, wp_deref_some, wp_ite, wp_vm, wp_updateProc, wp_pure]
  refine ⟨fun _ => ?_, fun _ => ⟨fun _ => ?_, fun _ => h⟩⟩
  · refine wp_imp (wp_vmAlloc hspace hoO (by decide)) ?_
    rintro newsz s' ⟨O', hm, ⟨hnew, hsp⟩ | ⟨rfl, hsp⟩⟩
    · refine ⟨fun h0 => ?_, fun _ => ?_⟩
      · have hsz : (k.procs p).sz = 0 := by omega
        rw [← hnew, h0, ← hsz] at hsp
        exact hself s' O' hm hsp
      · rw [← hnew] at hsp
        exact hresize s' O' _ hm hsp rfl htf rfl
    · exact ⟨fun _ => hself s' O' hm hsp, fun hne => absurd rfl hne⟩
  · refine wp_imp (wp_dealloc _ _ hspace hoO) ?_
    rintro newsz s' ⟨rfl, O', hsp, hm⟩
    exact hresize s' O' _ hm hsp rfl htf rfl

/-- The address space of a process that has just been allocated cannot be freed by
`process::free`: its trapframe and trampoline are still mapped. -/
theorem wp_vmFree_leaf {s : Memory} {r tf : Nat} {u : Bool} {O : Multiset Nat}
    (h : UserSpace s r u 0 tf O) (ho : Owned s O) (htf : PageOk tf) {Q : PUnit → Memory → Prop} :
    wp (VirtualMemory.free r 0) (· = .freewalkLeaf) Q s := by
  obtain ⟨-, T, f, htab, rfl, -, hhigh⟩ := h
  have hleaf : ∀ v < sv39.width ^ 3, has (f v) PTE_V → Leaf (f v) := by
    intro v hv hV
    rw [hhigh v (Nat.zero_le v) hv] at hV ⊢
    rw [high] at hV ⊢
    split
    · exact leaf_trapframePte htf
    · next hne =>
      rw [if_neg hne] at hV
      split
      · exact leaf_trampolinePte
      · next hne' =>
        rw [if_neg hne'] at hV
        exact absurd hV (by decide)
  rw [VirtualMemory.free]
  simp only [lt_irrefl, if_false]
  refine wp_freewalk_leaf htab (ho.of_le (Multiset.le_add_right _ _)) (fun v hv hV => ?_)
    ⟨trapPage, by decide, ?_⟩
  · have hR := (hleaf v hv hV).readable
    rw [has, bne_iff_ne] at hR ⊢
    intro h0
    apply hR
    have hsub : (f v &&& (PTE_R ||| PTE_W ||| PTE_X)) &&& PTE_R = f v &&& PTE_R := by
      rw [Nat.and_assoc]
      rfl
    rw [← hsub, h0, Nat.zero_and]
  · rw [hhigh trapPage (Nat.zero_le _) (by decide), high, if_pos rfl]
    exact (leaf_trapframePte htf).valid

omit [KernelImage] in
@[simp] theorem wp_setReg {s : Memory} {tf off v : Nat} {Q : PUnit → Memory → Prop} :
    wp (Process.setReg tf off v) E Q s ↔ Q ⟨⟩ (s.store tf ((s.mem tf).setU64 off v)) := Iff.rfl

/-- **`fork`** keeps the ledger, or panics when it runs out of memory while it copies. -/
theorem wp_fork (hU : MachinePages U) (h : Ledger U X k.memory k.procs)
    (hp : (k.procs p).state ≠ .unused) :
    wp (Process.fork p) (· = .freewalkLeaf) (fun _ k' => Ledger U X k'.memory k'.procs) k := by
  rw [Process.fork]
  refine wp_seq (wp_pmAlloc hU h) ?_
  rintro (_ | np) k₁ ⟨h₁, -, hsame, hnp, -⟩
  · exact h₁
  obtain ⟨hunused, hused, hsz0⟩ := hnp np rfl
  have hpnp : p ≠ np := fun e => hp (e ▸ hunused)
  have hself : k₁.procs p = k.procs p := hsame p hp
  obtain ⟨B, R, hB, ho, hothers, hstep⟩ := h₁.step hU np
  obtain ⟨ntf, nr, O, rfl, hntf, hnpt, hnspace⟩ := hB.of_live (by rw [hused]; decide)
  obtain ⟨C, hCR, hC⟩ := hothers p hpnp
  obtain ⟨tf, r, P, rfl, htf, hpt, hspace⟩ := hC.of_live (by rw [hself]; exact hp)
  have hle : O + P ≤ (ntf ::ₘ O) + X + R :=
    add_le_add ((Multiset.le_cons_self _ _).trans (Multiset.le_add_right _ _))
      ((Multiset.le_cons_self _ _).trans hCR)
  have hntf' : PageOk ntf := ho.pageOk (by simp)
  rw [hsz0] at hnspace
  simp only [wp_bind, wp_proc, hpt, hnpt, wp_deref_some, wp_vm]
  refine wp_imp (wp_copy hspace hnspace (ho.of_le hle)) ?_
  rintro res s₂ ⟨O₂, hm₂, ⟨rfl, hsp₂⟩ | ⟨rfl, hsp₂⟩⟩
  · -- the child has its memory
    rw [if_neg (by decide)]
    simp only [wp_bind, wp_updateProc, htf, hntf, wp_deref_some, wp_vm, wp_modify, wp_setReg,
      Function.update_self, Function.update_idem, wp_pure]
    have hm₂' := hm₂.cons ntf X
    have hnot : ntf ∉ O₂ := by
      have hnd := ((ho.of_le (Multiset.le_add_right _ _)).moves hm₂').nodup_right
      rw [Multiset.cons_add, Multiset.nodup_cons] at hnd
      exact fun hmem => hnd.1 (Multiset.mem_add.2 (.inl hmem))
    refine hstep _ _ (ntf ::ₘ O₂) X ?_ ?_
    · exact (hm₂'.trans (Moves.storeWord (by simp) _)).trans (Moves.storeWord (by simp) _)
    · refine .live (by rintro ⟨⟩) rfl hnpt ?_
      refine hsp₂.frame fun x hx => ?_
      have hne : x ≠ ntf := fun e => hnot (e ▸ hx)
      rw [Memory.store_mem_of_ne _ _ hne, Memory.store_mem_of_ne _ _ hne]
  · -- `process::free` on an address space that still has its trapframe and trampoline
    rw [if_pos (by decide)]
    simp only [Process.free, wp_bind, wp_proc, hntf, hnpt, hsz0, wp_vm]
    have ho₂ := ho.moves ((hm₂.cons ntf X).add R)
    have ho₂' : Owned s₂ (ntf ::ₘ O₂) :=
      ho₂.of_le ((Multiset.le_add_right _ _).trans (Multiset.le_add_right _ _))
    refine wp_free_page ho₂' fun s₃ hm₃ hframe => ?_
    exact wp_vmFree_leaf (hsp₂.frame hframe) (ho₂'.moves hm₃) hntf'

/-! ## `exec` -/

/-- A failed `exec` leaves everything as it was: the processes, the free pages and the contents of all
other pages. -/
structure ExecFailed (k k' : Kernel) : Prop where
  procs : k'.procs = k.procs
  free : (k'.memory.freeList : Multiset Nat) = k.memory.freeList
  frame : ∀ x, x ∉ k.memory.freeList → k'.memory.mem x = k.memory.mem x

/-- A successful `exec` of the process `p`: the process has the page table `new`, the size `newsz` and a
new name, and starts at `entry` with the stack pointer `sp`. -/
structure ExecDone (k k' : Kernel) (p : Pid) (path : List UInt8) (new newsz sp entry : Nat) : Prop where
  procs : k'.procs = Function.update k.procs p
    { k.procs p with
      pagetable := some new, sz := newsz
      name := Process.safestrcpy (Process.lastName path) Process.sizeofName }
  /-- The pages of the new image come from the free list, and those of the old image are on it. -/
  pages : ∃ tf old P O, (k.procs p).trapframe = some tf ∧ (k.procs p).pagetable = some old ∧
    UserSpace k.memory old false (pages (k.procs p).sz) tf P ∧
    UserSpace k'.memory new false (VirtualMemory.pages newsz) tf O ∧
    (k'.memory.freeList : Multiset Nat) + O = k.memory.freeList + P ∧
    P ≤ (k'.memory.freeList : Multiset Nat) ∧
    k'.memory.mem tf = (((k.memory.mem tf).setU64 Process.offA1 sp).setU64 Process.offEpc
      entry).setU64 Process.offSp sp

omit [KernelImage] in
theorem ExecFailed.of_moves {s : Memory} (hm : Moves k.memory 0 s 0) :
    ExecFailed k { k with memory := s } := by
  refine ⟨rfl, ?_, fun x hx => hm.frame x ?_⟩
  · have := hm.conserve
    rwa [add_zero, add_zero] at this
  · rwa [add_zero, Multiset.mem_coe]

/-- Nothing changes hands in a failed `exec`. -/
theorem ExecFailed.ledger {k' : Kernel} (hU : MachinePages U) (h : Ledger U X k.memory k.procs)
    (he : ExecFailed k k') : Ledger U X k'.memory k'.procs := by
  rw [he.procs]
  refine h.held hU ⟨by rw [he.free], fun x hx => he.frame x fun hmem => hx ?_⟩
  exact Multiset.mem_add.2 (.inl (Multiset.mem_coe.2 hmem))

/-- Giving up the new image. -/
theorem wp_execError {r newsz tf : Nat} {u : Bool} {O : Multiset Nat} {s : Memory}
    (ho : Owned s O) (hm : Moves k.memory 0 s O)
    (hsp : UserSpace s r u (pages newsz) tf O) (htf : PageOk tf) :
    wp (Process.execError r newsz) E (fun res k' => res = -1 ∧ ExecFailed k k')
      { k with memory := s } := by
  rw [Process.execError]
  simp only [wp_bind, wp_vm]
  refine wp_imp (wp_freePagetable hsp ho htf) ?_
  intro _ s' hm'
  exact ⟨rfl, .of_moves (hm.trans hm')⟩

/-- The last part of `exec`: the process gets the new image, and its old one is freed. -/
theorem wp_execCommit {new newsz tf old : Nat} (sp entry : Nat) (path : List UInt8)
    {O : Multiset Nat} {s : Memory} (hU : MachinePages U) (h : Ledger U X k.memory k.procs)
    (hp : (k.procs p).state ≠ .unused) (htf : (k.procs p).trapframe = some tf)
    (hpt : (k.procs p).pagetable = some old) (hm : Moves k.memory 0 s O)
    (hsp : UserSpace s new false (pages newsz) tf O) :
    wp (do
      vm (Process.setReg tf Process.offA1 sp)
      updateProc p fun q =>
        { q with name := Process.safestrcpy (Process.lastName path) Process.sizeofName }
      updateProc p fun q => { q with pagetable := some new, sz := newsz }
      vm (Process.setReg tf Process.offEpc entry)
      vm (Process.setReg tf Process.offSp sp)
      vm (ProcessManager.freePagetable old (k.procs p).sz)) E
      (fun _ k' => Ledger U X k'.memory k'.procs ∧ ExecDone k k' p path new newsz sp entry ∧
        ∀ x ∈ O, k'.memory.mem x = s.mem x) { k with memory := s } := by
  obtain ⟨B, R, hB, ho, -, hstep⟩ := h.step hU p
  obtain ⟨tf', r, P, rfl, htf', hpt', hspace⟩ := hB.of_live hp
  obtain rfl : tf = tf' := Option.some.inj (htf.symm.trans htf')
  obtain rfl : old = r := Option.some.inj (hpt.symm.trans hpt')
  have hperm : (tf ::ₘ P) + X = P + (tf ::ₘ X) := by rw [Multiset.cons_add, ← Multiset.add_cons]
  have hoX : Owned k.memory (P + (tf ::ₘ X)) := by
    rw [← hperm]
    exact ho.of_le (Multiset.le_add_right _ _)
  have hpage : PageOk tf := hoX.pageOk (by simp)
  -- the new image was built on free pages
  have hm₀ : Moves k.memory (P + (tf ::ₘ X)) s (P + (tf ::ₘ (O + X))) := by
    have := hm.add (P + (tf ::ₘ X))
    rwa [zero_add, show O + (P + (tf ::ₘ X)) = P + (tf ::ₘ (O + X)) by
      rw [Multiset.add_cons, Multiset.add_cons, Multiset.add_cons, add_left_comm]] at this
  have ho' := hoX.moves hm₀
  have hold : ∀ x ∈ P + (tf ::ₘ X), s.mem x = k.memory.mem x := fun x hx =>
    hm.mem_eq (X := P + (tf ::ₘ X)) (by rw [zero_add]; exact hoX.nodup) hx
  have hspace₀ := hspace.frame fun x hx => hold x (by simp [hx])
  simp only [wp_bind, wp_vm, wp_setReg, wp_updateProc]
  -- the three stores to the trapframe
  generalize hs : Memory.store _ tf _ = s₁
  have hmem : ∀ x, x ≠ tf → s₁.mem x = s.mem x := by
    intro x hx
    rw [← hs]
    simp only [Memory.store_mem_of_ne _ _ hx]
  have hregs : s₁.mem tf = (((k.memory.mem tf).setU64 Process.offA1 sp).setU64 Process.offEpc
      entry).setU64 Process.offSp sp := by
    rw [← hs, ← hold tf (by simp)]
    simp only [Memory.store_mem_self]
  have hm₁ : Moves s (P + (tf ::ₘ (O + X))) s₁ (P + (tf ::ₘ (O + X))) := by
    refine ⟨by rw [← hs]; rfl, fun x hx => hmem x ?_⟩
    rintro rfl
    exact hx (by simp)
  have ho₁ := ho'.moves hm₁
  have hnodup := ho'.nodup_right
  have hPtf : ∀ x ∈ P, x ≠ tf := by
    rintro x hx rfl
    exact Multiset.disjoint_left.1 (Multiset.nodup_add.1 hnodup).2.2 hx (by simp)
  have hOtf : ∀ x ∈ O, x ≠ tf := by
    rintro x hx rfl
    exact (Multiset.nodup_cons.1 (Multiset.nodup_add.1 hnodup).2.1).1
      (Multiset.mem_add.2 (.inl hx))
  have hspace₁ := hspace₀.frame fun x hx => hmem x (hPtf x hx)
  refine wp_imp (wp_freePagetable hspace₁ (ho₁.of_le (Multiset.le_add_right _ _)) hpage) ?_
  intro _ s₂ hm₂
  have hm₂' := (hm₀.trans hm₁).trans (hm₂.add (tf ::ₘ (O + X)))
  have hkept : ∀ x ∈ tf ::ₘ (O + X), s₂.mem x = s₁.mem x := fun x hx =>
    hm₂.mem_eq (X := tf ::ₘ (O + X)) ho₁.nodup hx
  have hdata : ∀ x ∈ O, s₂.mem x = s.mem x := fun x hx => by
    rw [hkept x (by simp [hx]), hmem x (hOtf x hx)]
  have hsp₂ : UserSpace s₂ new false (pages newsz) tf O := hsp.frame hdata
  rw [zero_add, ← hperm] at hm₂'
  simp only [Function.update_self, Function.update_idem]
  refine ⟨hstep s₂ _ (tf ::ₘ O) X ?_ (.live hp htf rfl hsp₂), ⟨rfl, tf, old, P, O, htf, hpt, hspace,
    hsp₂, ?_, ?_, ?_⟩, hdata⟩
  · rwa [Multiset.cons_add tf O X]
  · have hc := hm₂'.conserve
    rw [← Multiset.cons_add, Multiset.cons_add, Multiset.cons_add, Multiset.add_cons,
      Multiset.add_cons, ← add_assoc, ← add_assoc] at hc
    exact Multiset.add_left_inj.1 ((Multiset.cons_inj_right tf).1 hc)
  · have hc := hm₂.conserve
    rw [add_zero] at hc
    rw [hc]
    exact Multiset.le_add_left _ _
  · rw [hkept tf (by simp), hregs]

/-- The entry point in the ELF header of a file. -/
def Process.elfEntry (ip : Process.Inode) : Nat := leField (ip.readi 0 Process.sizeofElfhdr) 24 8

/-- The program headers of a file: how many there are, and where the first one is. -/
def Process.elfPhnum (ip : Process.Inode) : Nat := leField (ip.readi 0 Process.sizeofElfhdr) 56 2
def Process.elfPhoff (ip : Process.Inode) : Nat :=
  leField (ip.readi 0 Process.sizeofElfhdr) 32 8 % 2 ^ 32

/-- The file begins with an ELF header. -/
def Process.IsElf (ip : Process.Inode) : Prop :=
  (ip.readi 0 Process.sizeofElfhdr).length = Process.sizeofElfhdr ∧
    leField (ip.readi 0 Process.sizeofElfhdr) 0 4 = Process.ELF_MAGIC

/-- **`exec`** keeps the ledger; it fails and leaves everything as it was, or it succeeds, and what
building the stack promises, from what loading the segments promises, holds of the new image. -/
theorem wp_exec_stack {path : List UInt8} {file : Option Process.Inode} {argv : List (List UInt8)}
    {tf : Nat} {A : Process.Inode → Nat → Bool × Nat → Memory → Prop}
    {B : Process.Inode → Nat → Option Nat × Nat → Memory → Prop} (hU : MachinePages U)
    (h : Ledger U X k.memory k.procs) (hp : (k.procs p).state ≠ .unused)
    (htf : (k.procs p).trapframe = some tf) (hargc : argv.length < MAXARG)
    (hA : ∀ ip r s O, UserSpace s r true (pages 0) tf O → Owned s O →
      wp (Process.loadSegments r ip (Process.elfPhnum ip) (Process.elfPhoff ip) 0) (fun _ => True)
        (A ip r) s)
    (hB : ∀ ip r newsz s O, UserSpace s r true (pages newsz) tf O → Owned s O →
      A ip r (true, newsz) s →
      wp (Process.buildStack r newsz argv) (fun _ => True) (B ip r) s) :
    wp (Process.exec p path file argv) E (fun res k' => Ledger U X k'.memory k'.procs ∧
      (res = -1 ∧ ExecFailed k k' ∨ res = argv.length ∧
        ∃ ip new newsz sp, file = some ip ∧ Process.IsElf ip ∧
          ExecDone k k' p path new newsz sp (Process.elfEntry ip) ∧
          ∃ s O, B ip new (some sp, newsz) s ∧ UserSpace s new false (pages newsz) tf O ∧
            Owned s O ∧ ∀ x ∈ O, k'.memory.mem x = s.mem x)) k := by
  -- the ways to fail
  have hfail : ∀ {res : Int} {k' : Kernel}, res = -1 ∧ ExecFailed k k' →
      Ledger U X k'.memory k'.procs ∧ (res = -1 ∧ ExecFailed k k' ∨ res = argv.length ∧
        ∃ ip new newsz sp, file = some ip ∧ Process.IsElf ip ∧
          ExecDone k k' p path new newsz sp (Process.elfEntry ip) ∧
          ∃ s O, B ip new (some sp, newsz) s ∧ UserSpace s new false (pages newsz) tf O ∧
            Owned s O ∧ ∀ x ∈ O, k'.memory.mem x = s.mem x) :=
    fun hr => ⟨hr.2.ledger hU h, .inl hr⟩
  have hnone : Moves k.memory 0 k.memory 0 := Moves.refl _ _
  unfold Process.exec
  cases file with
  | none => exact hfail ⟨rfl, .of_moves hnone⟩
  | some ip =>
    rw [wp_ite]
    refine ⟨fun _ => hfail ⟨rfl, .of_moves hnone⟩, fun hlen => ?_⟩
    rw [wp_ite]
    refine ⟨fun _ => hfail ⟨rfl, .of_moves hnone⟩, fun hmagic => ?_⟩
    have helf : Process.IsElf ip := ⟨not_not.1 hlen, not_not.1 hmagic⟩
    obtain ⟨C, R, hC, ho, -, -⟩ := h.step hU p
    obtain ⟨tf', old, P, rfl, htf', hpt, -⟩ := hC.of_live hp
    obtain rfl : tf = tf' := Option.some.inj (htf.symm.trans htf')
    have hpage : PageOk tf := ho.pageOk (by simp)
    have ho₀ : Owned k.memory 0 := ho.of_le (Multiset.zero_le _)
    simp only [wp_bind, wp_proc, htf, wp_deref_some, wp_vm]
    refine wp_imp (wp_createPagetable hpage ho₀) ?_
    rintro res s₁ (⟨rfl, hm₁⟩ | ⟨new, O₁, rfl, hsp₁, hm₁⟩)
    · exact hfail ⟨rfl, .of_moves hm₁⟩
    rw [add_zero] at hm₁
    have hsp₁' : UserSpace s₁ new true (pages 0) tf O₁ := hsp₁
    have ho₁ := ho₀.moves hm₁
    simp only [wp_bind, wp_vm]
    refine wp_imp (wp_and (wp_loadSegments hsp₁' ho₁) (hA ip new s₁ O₁ hsp₁' ho₁)) ?_
    rintro ⟨ok, newsz₂⟩ s₂ ⟨⟨O₂, hsp₂, hm₂⟩, hloaded⟩
    have hm₂' := hm₁.trans hm₂
    have ho₂ := ho₀.moves hm₂'
    cases ok with
    | false => exact wp_imp (wp_execError ho₂ hm₂' hsp₂ hpage) fun _ _ => hfail
    | true =>
      simp only [Bool.not_true, Bool.false_eq_true, if_false, wp_bind, wp_vm]
      refine wp_imp (wp_and (wp_buildStack hsp₂ ho₂ hargc) (hB ip _ _ _ _ hsp₂ ho₂ hloaded)) ?_
      rintro ⟨sp, newsz₃⟩ s₃ ⟨⟨O₃, hsp₃, hm₃⟩, hbuilt⟩
      have hm₃' := hm₂'.trans hm₃
      cases sp with
      | none => exact wp_imp (wp_execError (ho₀.moves hm₃') hm₃' hsp₃ hpage) fun _ _ => hfail
      | some sp =>
        have hc := fun entry => wp_execCommit (E := E) sp entry path hU h hp htf hpt hm₃' hsp₃
        simp only [wp_bind, hpt, wp_deref_some, wp_vm, wp_setReg, wp_updateProc] at hc ⊢
        refine wp_imp (hc _) ?_
        rintro _ k' ⟨hledger, hdone, hdata⟩
        exact ⟨hledger, .inr ⟨rfl, ip, _, _, _, rfl, helf, hdone, s₃, O₃, hbuilt, hsp₃,
          ho₀.moves hm₃', hdata⟩⟩

/-- **`exec`** keeps the ledger; it fails and leaves everything as it was, or it succeeds. -/
theorem wp_exec {path : List UInt8} {file : Option Process.Inode} {argv : List (List UInt8)}
    (hU : MachinePages U) (h : Ledger U X k.memory k.procs) (hp : (k.procs p).state ≠ .unused)
    (hargc : argv.length < MAXARG) :
    wp (Process.exec p path file argv) E (fun res k' => Ledger U X k'.memory k'.procs ∧
      (res = -1 ∧ ExecFailed k k' ∨ res = argv.length ∧
        ∃ new newsz sp entry, ExecDone k k' p path new newsz sp entry)) k := by
  obtain ⟨C, R, hC, ho, -, -⟩ := h.step hU p
  obtain ⟨tf, old, P, rfl, htf, -, -⟩ := hC.of_live hp
  refine wp_imp (wp_exec_stack (A := fun _ _ _ _ => True) (B := fun _ _ _ _ => True) hU h hp htf hargc
    (fun _ _ _ _ hsp ho => wp_imp (wp_loadSegments hsp ho) fun _ _ _ => trivial)
    fun _ _ _ _ _ hsp ho _ => wp_imp (wp_buildStack hsp ho hargc) fun _ _ _ => trivial) ?_
  rintro res k' ⟨hledger, hfailed | ⟨rfl, ip, new, newsz, sp, -, -, hdone, -⟩⟩
  · exact ⟨hledger, .inl hfailed⟩
  · exact ⟨hledger, .inr ⟨rfl, new, newsz, sp, Process.elfEntry ip, hdone⟩⟩

/-- The states of the processes after an `exec`. -/
theorem ExecDone.state {k' : Kernel} {path : List UInt8} {new newsz sp entry : Nat}
    (h : ExecDone k k' p path new newsz sp entry) (i : Pid) :
    (k'.procs i).state = (k.procs i).state := by
  rw [h.procs]
  by_cases hi : i = p
  · subst hi
    rw [Function.update_self]
  · rw [Function.update_of_ne hi]

/-! ## `sys_exec` -/

/-- The pages that hold the arguments. -/
def argPages (args : List (Nat × List UInt8)) : Multiset Nat := (args.map Prod.fst : List Nat)

omit [KernelImage] in
theorem argPages_append (args : List (Nat × List UInt8)) (page : Nat) (str : List UInt8) :
    argPages (args ++ [(page, str)]) = page ::ₘ argPages args := by
  rw [argPages, argPages, List.map_append, ← Multiset.coe_add, add_comm]
  rfl

/-- The address space of a process, as the ledger has it. -/
theorem Ledger.space {s : Memory} {procs : Pid → Process} (hU : MachinePages U)
    (h : Ledger U X s procs) (hp : (procs p).state ≠ .unused) :
    ∃ tf r O, (procs p).trapframe = some tf ∧ (procs p).pagetable = some r ∧ PageOk tf ∧
      UserSpace s r false (pages (procs p).sz) tf O ∧ Owned s O := by
  obtain ⟨B, R, hB, ho, -, -⟩ := h.step hU p
  obtain ⟨tf, r, O, rfl, htf, hpt, hspace⟩ := hB.of_live hp
  refine ⟨tf, r, O, htf, hpt, ho.pageOk (by simp), hspace, ho.of_le ?_⟩
  exact (Multiset.le_cons_self _ _).trans
    ((Multiset.le_add_right _ _).trans (Multiset.le_add_right _ _))

/-- The argument loop takes pages from the free list, one for each argument. -/
theorem wp_fetchArgs {s : Memory} {procs : Pid → Process} {r sz uargv n i : Nat}
    {args : List (Nat × List UInt8)} (hU : MachinePages U) (h : Ledger U (argPages args) s procs)
    (hp : (procs p).state ≠ .unused) (hpt : (procs p).pagetable = some r) :
    wp (Syscall.fetchArgs r sz uargv n i args) E (fun res s' =>
      Ledger U (argPages res.2) s' procs ∧
        (res.1 = true → res.2.length < args.length + n)) s := by
  induction n generalizing i args s with
  | zero => exact ⟨h, (by rintro ⟨⟩)⟩
  | succ n ih =>
    obtain ⟨tf, r', O, -, hpt', -, hspace, ho⟩ := h.space hU hp
    obtain rfl : r = r' := Option.some.inj (hpt.symm.trans hpt')
    have hfetch : ∀ addr, wp (Syscall.fetchaddr r sz addr) E (fun _ s' => s' = s) s := by
      intro addr
      rw [Syscall.fetchaddr]
      simp only [wp_ite, wp_pure, wp_bind]
      refine ⟨fun _ => trivial, fun _ => wp_imp (wp_copyin_user hspace ho) ?_⟩
      rintro ⟨bytes, res⟩ s' rfl
      exact ⟨fun _ => rfl, fun _ => rfl⟩
    rw [Syscall.fetchArgs]
    refine wp_seq (hfetch _) ?_
    rintro (_ | _ | uarg) s' rfl
    · exact ⟨h, (by rintro ⟨⟩)⟩
    · exact ⟨h, fun _ => by simp⟩
    refine wp_bind.2 (wp_alloc_page (h.owned hU) (fun s₁ hm₁ _ => ⟨h.held hU hm₁, (by rintro ⟨⟩)⟩)
      fun page s₁ hm₁ hmem _ => ?_)
    have h₁ := h.held hU hm₁
    obtain ⟨tf₁, r₁, O₁, -, hpt₁, -, hspace₁, ho₁⟩ := h₁.space hU hp
    obtain rfl : r = r₁ := Option.some.inj (hpt.symm.trans hpt₁)
    simp only [Syscall.fetchstr, wp_bind]
    refine wp_imp (wp_copyinstr_user hspace₁ ho₁) ?_
    rintro ⟨str, res⟩ s₂ rfl
    simp only [wp_pure, wp_modify, wp_ite]
    have h₂ : ∀ bytes, Ledger U (argPages (args ++ [(page, str)])) (s₂.store page bytes) procs := by
      intro bytes
      rw [argPages_append]
      exact h₁.held hU (Moves.storeWord (by simp) bytes)
    refine ⟨fun _ => ⟨h₂ _, (by rintro ⟨⟩)⟩, fun _ => wp_imp (ih (h₂ _)) ?_⟩
    rintro res s₃ ⟨h₃, hlen⟩
    refine ⟨h₃, fun hok => ?_⟩
    have := hlen hok
    simp only [List.length_append, List.length_singleton] at this
    omega

/-- The destructors give the pages back. -/
theorem wp_freeArgs {s : Memory} {procs : Pid → Process} {args : List (Nat × List UInt8)}
    (hU : MachinePages U) (h : Ledger U (argPages args) s procs) :
    wp (Syscall.freeArgs args) E (fun _ s' => Ledger U 0 s' procs) s := by
  have hperm : argPages args = argPages args.reverse :=
    Multiset.coe_eq_coe.2 ((List.reverse_perm args).symm.map Prod.fst)
  rw [hperm] at h
  rw [Syscall.freeArgs]
  refine wp_forM (fun rest s' => Ledger U (argPages rest) s' procs) h ?_
  intro arg rest s' h'
  have hcons : argPages (arg :: rest) = arg.1 ::ₘ argPages rest := rfl
  rw [hcons] at h'
  exact wp_free_page (h'.owned hU) fun s'' hm _ => h'.held hU hm

/-- **`sys_exec`** keeps the ledger: the pages of the arguments are given back on every path. -/
theorem wp_sysExec {upath uargv : Nat} {namei : List UInt8 → Option Process.Inode}
    (hU : MachinePages U) (h : Ledger U 0 k.memory k.procs) (hp : (k.procs p).state ≠ .unused) :
    wp (Syscall.exec p upath uargv namei) E (fun _ k' => Ledger U 0 k'.memory k'.procs) k := by
  obtain ⟨tf, r, O, -, hpt, -, hspace, ho⟩ := h.space hU hp
  rw [Syscall.exec]
  simp only [wp_bind, wp_proc, hpt, wp_deref_some, wp_vm, Syscall.fetchstr, wp_pure]
  refine wp_imp (wp_copyinstr_user hspace ho) ?_
  rintro ⟨path, res⟩ s₁ rfl
  simp only [wp_ite, wp_pure, wp_bind, wp_vm]
  refine ⟨fun _ => h, fun _ => wp_imp (wp_fetchArgs hU (show Ledger U (argPages []) _ _ from h) hp hpt) ?_⟩
  rintro ⟨ok, args⟩ s₂ ⟨h₂, hlen⟩
  refine ⟨fun _ => wp_freeArgs hU h₂, fun hok => ?_⟩
  have hargc : (args.map Prod.snd).length < MAXARG := by
    have := hlen (by simpa using hok)
    simpa using this
  refine wp_imp (wp_exec (k := { k with memory := s₂ }) hU h₂ hp hargc) ?_
  rintro ret k₃ ⟨h₃, -⟩
  exact wp_freeArgs hU h₃

/-! ## Waiting, exiting and killing -/

/-- A change of a process that does not concern its memory. -/
theorem Ledger.updateProc {s : Memory} {procs : Pid → Process} {f : Process → Process}
    (h : Ledger U X s procs)
    (hstate : (f (procs p)).state = .unused ↔ (procs p).state = .unused)
    (htf : (f (procs p)).trapframe = (procs p).trapframe)
    (hpt : (f (procs p)).pagetable = (procs p).pagetable)
    (hsz : (f (procs p)).sz = (procs p).sz) :
    Ledger U X s (Function.update procs p (f (procs p))) := by
  refine h.congr (fun i => ?_) (fun i => ?_) (fun i => ?_) fun i => ?_
  all_goals
    by_cases hi : i = p
    · subst hi
      rw [Function.update_self]
      assumption
    · rw [Function.update_of_ne hi]

/-- A process stores to its user memory: no page changes hands. -/
theorem wp_copyout_proc {r addr : Nat} {bytes : List UInt8} {s : Memory} {procs : Pid → Process}
    (hU : MachinePages U) (h : Ledger U X s procs) (hp : (procs p).state ≠ .unused)
    (hpt : (procs p).pagetable = some r) :
    wp (copyout r addr bytes) E (fun _ s' => Ledger U X s' procs ∧
      ∀ j B, Owns s (procs j) B → Owns s' (procs j) B) s := by
  obtain ⟨B, R, hB, ho, hothers, hstep⟩ := h.step hU p
  have hBowns := hB
  obtain ⟨tf, r', O, rfl, htf, hpt', hspace⟩ := hB.of_live hp
  obtain rfl : r = r' := Option.some.inj (hpt.symm.trans hpt')
  have hoO : Owned s O := ho.of_le ((Multiset.le_cons_self _ _).trans
    ((Multiset.le_add_right _ _).trans (Multiset.le_add_right _ _)))
  refine wp_imp (wp_copyout_user hspace hoO (highHidden tf)) ?_
  rintro _ s' ⟨hsp, hm⟩
  have howns : Owns s' (procs p) (tf ::ₘ O) := .live hp htf hpt hsp
  have hledger := hstep s' (procs p) (tf ::ₘ O) X (hm.cons tf X) howns
  rw [Function.update_eq_self] at hledger
  refine ⟨hledger, fun j B hjB => ?_⟩
  by_cases hj : j = p
  · subst hj
    rwa [hjB.unique hBowns]
  · obtain ⟨C, hC, hjC⟩ := hothers j hj
    rw [← hjC.unique hjB]
    exact hjC.frame fun x hx => (hm.cons tf X).mem_eq ho.nodup (Multiset.mem_of_le hC hx)

/-- What `wait`, called by `p` with the address `addr` for the status, has done to the process table,
by its answer. -/
inductive Waited (k k' : Kernel) (p : Pid) (addr : Nat) : Option Int → Prop
  /-- The process has gone to sleep, or the call has failed: no process has been freed.  With a zombie
  child, that is only so when the status cannot be stored. -/
  | kept {r : Option Int} (hr : r = none ∨ r = some (-1))
      (hzombie : ∀ i, (k.procs i).parent = some p → (k.procs i).state = .zombie → addr ≠ 0)
      (hstate : ∀ i, (k'.procs i).state = .unused → (k.procs i).state = .unused) :
      Waited k k' p addr r
  /-- The child `i` was a zombie and has been freed; its id is the answer. -/
  | freed (i : Pid) (hparent : (k.procs i).parent = some p) (hzombie : (k.procs i).state = .zombie)
      (hunused : (k'.procs i).state = .unused)
      (hother : ∀ j, j ≠ i → (k'.procs j).state = .unused → (k.procs j).state = .unused) :
      Waited k k' p addr (some (k.procs i).pid)

/-- Freeing a zombie child is what `wait` answers with its id for. -/
theorem wp_free_zombie {procs : Pid → Process} {s' : Memory} {i : Pid} {addr : Nat}
    (hU : MachinePages U) (h : Ledger U X s' procs) (hstate : ∀ j, (procs j).state = (k.procs j).state)
    (howns : ∀ j B, Owns k.memory (k.procs j) B → Owns s' (procs j) B)
    (hparent : (k.procs i).parent = some p) (hi : (k.procs i).state = .zombie) :
    wp (ProcessManager.free i) E (fun _ k' => Ledger U X k'.memory k'.procs ∧
      Waited k k' p addr (some (k.procs i).pid) ∧
      ∀ j B, Owns k.memory (k.procs j) B → (k'.procs j).state = .unused →
        B ≤ (k'.memory.freeList : Multiset Nat)) { k with memory := s', procs := procs } := by
  have hlive : (procs i).state ≠ .unused := by
    rw [hstate, hi]
    decide
  refine wp_imp (wp_pmFree (k := { k with memory := s', procs := procs }) hU h hlive) ?_
  rintro _ k' ⟨s'', rfl, hl, hback⟩
  have hother : ∀ j, j ≠ i →
      (Function.update procs i (ProcessManager.cleared (procs i)) j).state = .unused →
      (k.procs j).state = .unused := by
    intro j hji hj
    rwa [Function.update_of_ne hji, hstate] at hj
  refine ⟨hl, .freed i hparent hi ?_ hother, fun j B hB hj => ?_⟩
  · dsimp only [Kernel.with]
    rw [Function.update_self]
    rfl
  by_cases hji : j = i
  · subst hji
    rw [Kernel.with, hback B (howns j B hB)]
    exact Multiset.le_add_left _ _
  · rw [(hB.zero_of_unused (hother j hji hj)).1]
    exact Multiset.zero_le _

/-- **`wait`** keeps the ledger, frees the child it answers with, and puts all pages of a child that
it frees on the free list. -/
theorem wp_wait {addr : Nat} (hU : MachinePages U) (h : Ledger U X k.memory k.procs)
    (hp : (k.procs p).state ≠ .unused) :
    wp (ProcessManager.wait p addr) E (fun r k' => Ledger U X k'.memory k'.procs ∧
      Waited k k' p addr r ∧ ∀ i B, Owns k.memory (k.procs i) B → (k'.procs i).state = .unused →
        B ≤ (k'.memory.freeList : Multiset Nat)) k := by
  set q : Process := { k.procs p with waiting := none } with hq
  have hself : ∀ i, (Function.update k.procs p q i).state = (k.procs i).state := by
    intro i
    by_cases hi : i = p
    · subst hi
      rw [Function.update_self]
    · rw [Function.update_of_ne hi]
  have h₀ : Ledger U X k.memory (Function.update k.procs p q) :=
    h.updateProc (f := fun q => { q with waiting := none }) Iff.rfl rfl rfl rfl
  -- nothing is freed when no process becomes unused
  have hnone : ∀ (procs : Pid → Process) (s' : Memory),
      (∀ i, (procs i).state = .unused → (k.procs i).state = .unused) →
      ∀ i B, Owns k.memory (k.procs i) B → (procs i).state = .unused →
        B ≤ (s'.freeList : Multiset Nat) := by
    intro procs s' hstate i B hB hi
    rw [(hB.zero_of_unused (hstate i hi)).1]
    exact Multiset.zero_le _
  rw [ProcessManager.wait]
  simp only [wp_bind, wp_get, wp_updateProc]
  split
  · next i hfind =>
    obtain ⟨hparent, hi⟩ : (k.procs i).parent = some p ∧ (k.procs i).state = .zombie := by
      have := List.find?_some hfind
      rwa [decide_eq_true_eq] at this
    have hkeep : ∀ j B, Owns k.memory (k.procs j) B →
        Owns k.memory (Function.update k.procs p q j) B := by
      intro j B hB
      by_cases hj : j = p
      · subst hj
        rw [Function.update_self]
        exact hB.congr Iff.rfl rfl rfl rfl
      · rwa [Function.update_of_ne hj]
    simp only [wp_bind, wp_ite, wp_pure]
    refine ⟨fun _ => ⟨fun hneg => absurd hneg (by decide), fun _ =>
      wp_free_zombie hU h₀ hself hkeep hparent hi⟩, fun haddr => ?_⟩
    obtain ⟨tf, r, O, -, hpt, -, -, -⟩ := h.space hU hp
    have hderef : deref (k.procs p).pagetable = pure r := by
      rw [hpt]
      rfl
    simp only [hderef, wp_pure, wp_vm]
    have hq' : (Function.update k.procs p q p).pagetable = some r := by
      rw [Function.update_self]
      exact hpt
    refine wp_imp (wp_copyout_proc hU h₀ (by rwa [hself]) hq') ?_
    rintro copied s' ⟨h', howns⟩
    have hkept : ∀ i, (Function.update k.procs p q i).state = .unused →
        (k.procs i).state = .unused := fun i hi => (hself i).symm.trans hi
    refine ⟨fun _ => ⟨h', .kept (.inr rfl) (fun _ _ _ => haddr) hkept, hnone _ _ hkept⟩, fun _ => ?_⟩
    exact wp_free_zombie hU h' hself (fun j B hB => howns j B (hkeep j B hB)) hparent hi
  · next hfind =>
    have hzombie : ∀ i, (k.procs i).parent = some p → (k.procs i).state = .zombie → addr ≠ 0 := by
      intro i hparent hi
      have hno := List.find?_eq_none.1 hfind i (List.mem_finRange i)
      exact absurd (decide_eq_true ⟨hparent, hi⟩) hno
    simp only [wp_ite, wp_pure, wp_bind, wp_updateProc, Function.update_self, Function.update_idem]
    refine ⟨fun _ => ?_, fun _ => ?_⟩
    · have hkept : ∀ i, (Function.update k.procs p q i).state = .unused →
          (k.procs i).state = .unused := fun i hi => (hself i).symm.trans hi
      exact ⟨h₀, .kept (.inr rfl) hzombie hkept, hnone _ _ hkept⟩
    have hkept : ∀ i, (Function.update k.procs p
        { q with waiting := some addr, state := .sleeping } i).state = .unused →
        (k.procs i).state = .unused := by
      intro i hi
      by_cases hip : i = p
      · subst hip
        rw [Function.update_self] at hi
        exact absurd hi (by rintro ⟨⟩)
      · rwa [Function.update_of_ne hip] at hi
    exact ⟨h.updateProc (f := fun q => { q with waiting := some addr, state := .sleeping })
      ⟨(by rintro ⟨⟩), fun e => absurd e hp⟩ rfl rfl rfl, .kept (.inl rfl) hzombie hkept,
      hnone _ _ hkept⟩

/-- **`exit`** keeps the ledger: a zombie keeps its pages.  Only `init` cannot exit. -/
theorem wp_exit {status : Int} (h : Ledger U X k.memory k.procs)
    (hp : (k.procs p).state ≠ .unused) :
    wp (Process.exit p status) (fun e => e = .initExiting ∧ k.initprocess = some p)
      (fun _ k' => Ledger U X k'.memory k'.procs) k := by
  -- what `reparent` and `wakeup` may change
  have hwake : ∀ (procs : Pid → Process) (cur : Pid) (chan : Option Pid) i,
      let q := if i ≠ cur ∧ (procs i).state = .sleeping ∧ chan = some i ∧
          (procs i).waiting ≠ none then { procs i with state := .runnable } else procs i
      (q.state = .unused ↔ (procs i).state = .unused) ∧ q.trapframe = (procs i).trapframe ∧
        q.pagetable = (procs i).pagetable ∧ q.sz = (procs i).sz := by
    intro procs cur chan i
    dsimp only
    split
    · next hc => exact ⟨⟨nofun, fun e => absurd (hc.2.1.symm.trans e) (by decide)⟩, rfl, rfl, rfl⟩
    · exact ⟨Iff.rfl, rfl, rfl, rfl⟩
  have hwakeup : ∀ (k' : Kernel) (chan : Option Pid) (Q : PUnit → Kernel → Prop) (E : Panic → Prop),
      Ledger U X k'.memory k'.procs → (k'.procs p).state ≠ .unused →
      (∀ k'', Ledger U X k''.memory k''.procs → (k''.procs p).state ≠ .unused → Q ⟨⟩ k'') →
      wp (ProcessManager.wakeup p chan) E Q k' := by
    intro k' chan Q E h' hp' hQ
    refine hQ _ (h'.congr (fun i => ?_) (fun i => ?_) (fun i => ?_) fun i => ?_) ?_
    · exact (hwake k'.procs p chan i).1
    · exact (hwake k'.procs p chan i).2.1
    · exact (hwake k'.procs p chan i).2.2.1
    · exact (hwake k'.procs p chan i).2.2.2
    · exact fun e => hp' ((hwake k'.procs p chan p).1.1 e)
  have hzombie : ∀ k' : Kernel, Ledger U X k'.memory k'.procs → (k'.procs p).state ≠ .unused →
      Ledger U X k'.memory (Function.update k'.procs p
        { k'.procs p with xstate := status, state := .zombie }) := fun k' h' hp' =>
    h'.updateProc (f := fun q => { q with xstate := status, state := .zombie })
      ⟨nofun, fun e => absurd e hp'⟩ rfl rfl rfl
  rw [Process.exit]
  simp only [wp_bind, wp_get, wp_ite, wp_throw]
  refine ⟨fun hinit => ⟨trivial, hinit⟩, fun _ => ?_⟩
  rw [ProcessManager.reparent]
  simp only [wp_bind, wp_get, wp_ite, wp_set, wp_pure, wp_proc, wp_updateProc]
  refine ⟨fun _ => ?_, fun _ => ?_⟩
  · refine hwakeup _ _ _ _ ?_ ?_ fun k₁ h₁ hp₁ => hwakeup _ _ _ _ h₁ hp₁ hzombie
    · refine h.congr (fun i => ?_) (fun i => ?_) (fun i => ?_) fun i => ?_
      all_goals dsimp only; split <;> rfl
    · dsimp only
      split
      · exact hp
      · exact hp
  · exact hwakeup _ _ _ _ h hp hzombie

/-- **`kill`** keeps the ledger. -/
theorem wp_kill {pid : Int} (h : Ledger U X k.memory k.procs) :
    wp (ProcessManager.kill pid) E (fun _ k' => Ledger U X k'.memory k'.procs) k := by
  rw [ProcessManager.kill]
  simp only [wp_bind, wp_get]
  split
  · exact h
  · next i hfind =>
    refine h.updateProc (f := fun q => { q with
      killed := true, state := if q.state = .sleeping then .runnable else q.state }) ?_ rfl rfl rfl
    dsimp only
    split
    · next hs => exact ⟨(by rintro ⟨⟩), fun e => absurd (hs.symm.trans e) (by decide)⟩
    · exact Iff.rfl

/-! ## The first process -/

/-- **`initial_process`** keeps the ledger, or stops because there is no page for the process. -/
theorem wp_initialProcess (hU : MachinePages U) (h : Ledger U X k.memory k.procs) :
    wp ProcessManager.initialProcess (· = .outOfBounds)
      (fun _ k' => Ledger U X k'.memory k'.procs) k := by
  rw [ProcessManager.initialProcess]
  refine wp_seq (wp_pmAlloc hU h) ?_
  rintro (_ | p) k₁ ⟨h₁, -, -, hp, -⟩
  · exact wp_throw.2 rfl
  · obtain ⟨-, hused, -⟩ := hp p rfl
    simp only [wp_bind, wp_deref_some, wp_modify, wp_updateProc]
    exact h₁.updateProc (f := fun q => { q with state := .runnable })
      ⟨(by rintro ⟨⟩), fun e => absurd (hused.symm.trans e) (by decide)⟩ rfl rfl rfl

/-- A store to the trapframe of a process. -/
theorem Ledger.storeTrapframe {s : Memory} {procs : Pid → Process} {tf : Nat} (hU : MachinePages U)
    (h : Ledger U X s procs) (hp : (procs p).state ≠ .unused)
    (htf : (procs p).trapframe = some tf) (bytes : Bytes PGSIZE) :
    Ledger U X (s.store tf bytes) procs := by
  obtain ⟨B, R, hB, ho, -, hstep⟩ := h.step hU p
  obtain ⟨tf', r, O, rfl, htf', hpt, hspace⟩ := hB.of_live hp
  obtain rfl : tf = tf' := Option.some.inj (htf.symm.trans htf')
  have hnot : tf ∉ O := fun hmem => by
    have hnd := ho.nodup_right
    rw [Multiset.cons_add, Multiset.cons_add, Multiset.nodup_cons] at hnd
    exact hnd.1 (by simp [hmem])
  have hl := hstep (s.store tf bytes) (procs p) (tf ::ₘ O) X (Moves.storeWord (by simp) bytes)
    (.live hp htf hpt (hspace.frame fun x hx =>
      Memory.store_mem_of_ne s bytes fun e => hnot (e ▸ hx)))
  rwa [Function.update_eq_self] at hl

/-- **The first `forkret`** keeps the ledger, or panics because `/init` cannot be run. -/
theorem wp_forkretFirst {file : Option Process.Inode} (hU : MachinePages U)
    (h : Ledger U X k.memory k.procs) (hp : (k.procs p).state ≠ .unused) :
    wp (ProcessManager.forkretFirst p file) (· = .execInit)
      (fun _ k' => Ledger U X k'.memory k'.procs) k := by
  rw [ProcessManager.forkretFirst]
  simp only [wp_bind, wp_modify]
  refine wp_imp (wp_exec (k := { k with first := false }) hU h hp (by decide)) ?_
  rintro ret k₁ ⟨h₁, hres⟩
  have hp₁ : (k₁.procs p).state ≠ .unused := by
    rcases hres with ⟨-, hfailed⟩ | ⟨-, new, newsz, sp, entry, hdone⟩
    · rw [hfailed.procs]
      exact hp
    · rw [hdone.state]
      exact hp
  obtain ⟨tf, r, O, htf, -, -, -, -⟩ := h₁.space hU hp₁
  simp only [wp_proc, htf, wp_deref_some, wp_vm, wp_setReg, wp_ite, wp_throw, wp_pure]
  exact ⟨fun _ => trivial, fun _ => h₁.storeTrapframe hU hp₁ htf _⟩

end

end Xv6pp
