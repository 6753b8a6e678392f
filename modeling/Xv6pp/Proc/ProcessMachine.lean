import Xv6pp.Lib.Machine
import Xv6pp.Proc.Ownership

/-!
# Runs of the process subsystem

The process subsystem as a machine: booting, the scheduler, what processes do in user mode, and the
system calls `fork`, `exec`, `sbrk`, `exit`, `wait` and `kill`, with any arguments, any files and
any pattern of allocation failures.  Every state that the machine reaches satisfies the ledger, from
which the two main results are read off: every page the allocator ever had is in exactly one place
(`Place`), and every address space has the shape that the kernel relies on (`Shape`).
-/

set_option autoImplicit false

namespace Xv6pp

open Prog Radix VirtualMemory

attribute [local irreducible] freewalk

variable [KernelImage]

/-! ## The machine -/

/-- What can happen at a system-call boundary. -/
inductive ProcAct
  /-- The boot processor makes the first process. -/
  | boot
  /-- The first process enters `forkret` and finds this file at `/init`. -/
  | forkret (p : Pid) (file : Option Process.Inode)
  /-- The scheduler picks a process. -/
  | run (p : Pid)
  /-- A process gives up the processor. -/
  | yield (p : Pid)
  /-- A process runs in user mode, stores to its memory, and traps with these saved registers. -/
  | user (p : Pid) (addr : Nat) (bytes : List UInt8) (frame : Bytes PGSIZE)
  | fork (p : Pid)
  | exec (p : Pid) (upath uargv : Nat) (namei : List UInt8 → Option Process.Inode)
  | sbrk (p : Pid) (a0 : Nat)
  | exit (p : Pid) (status : Int)
  /-- One pass of the loop of `wait`, at the call or after a wakeup. -/
  | wait (p : Pid) (addr : Nat)
  | kill (p : Pid) (pid : Int)
  /-- A process traps for a reason that `usertrap` does not handle, and is marked as killed. -/
  | fault (p : Pid)

/-- A process in user mode.  Its stores go through its page table, to writable user pages only, as
those of `copyout` do. -/
def userMode (p : Pid) (addr : Nat) (bytes : List UInt8) (frame : Bytes PGSIZE) : KernelM Unit := do
  let self ← proc p
  let pagetable ← deref self.pagetable
  let tf ← deref self.trapframe
  let _ ← vm (copyout pagetable addr bytes)
  vm (modify fun s => s.store tf frame)

/-- The kernel code that an action runs. -/
def ProcAct.prog : ProcAct → KernelM Unit
  | .boot => ProcessManager.initialProcess
  | .forkret p file => ProcessManager.forkretFirst p file
  | .run p => updateProc p fun q => { q with state := .running }
  | .yield p => updateProc p fun q => { q with state := .runnable }
  | .user p addr bytes frame => userMode p addr bytes frame
  | .fork p => do let _ ← Process.fork p
  | .exec p upath uargv namei => do let _ ← Syscall.exec p upath uargv namei
  | .sbrk p a0 => do let _ ← Syscall.sbrk p a0
  | .exit p status => Process.exit p status
  | .wait p addr => do let _ ← ProcessManager.wait p addr
  | .kill _ pid => do let _ ← ProcessManager.kill pid
  | .fault p => updateProc p fun q => { q with killed := true }

/-- A process that has been through `forkret` and is on a processor. -/
def Kernel.inKernel (k : Kernel) (p : Pid) : Prop := (k.procs p).state = .running ∧ k.first = false

instance (k : Kernel) (p : Pid) : Decidable (k.inKernel p) :=
  inferInstanceAs (Decidable (_ ∧ _))

/-- When an action can happen.  A process that sleeps in `wait` goes on with that `wait`. -/
def ProcAct.enabled (k : Kernel) : ProcAct → Bool
  | .boot => k.initprocess = none
  | .forkret p _ => (k.procs p).state = .running ∧ k.first = true
  | .run p => (k.procs p).state = .runnable
  | .yield p => (k.procs p).state = .running
  | .wait p addr =>
    k.inKernel p ∧ ((k.procs p).waiting = none ∨ (k.procs p).waiting = some addr)
  | .user p _ _ _ | .fork p | .exec p _ _ _ | .sbrk p _ | .exit p _ | .kill p _ | .fault p =>
    k.inKernel p ∧ (k.procs p).waiting = none

/-- One step of the machine. -/
def Kernel.step (k : Kernel) (a : ProcAct) : Option (Except Panic Kernel) :=
  if a.enabled k then some ((a.prog.run k).map Prod.snd) else none

/-- A process slot before booting. -/
def Process.zero : Process where
  state := .unused
  killed := false
  xstate := 0
  pid := 0
  parent := none
  sz := 0
  pagetable := none
  trapframe := none
  waiting := none
  name := []

/-- The machine before booting, with the pages that the kernel has left over. -/
def Kernel.initial (memory : Memory) : Kernel where
  memory := memory
  procs := fun _ => Process.zero
  nextPid := 1
  initprocess := none
  first := true

/-! ## The ledger in every reachable state -/

/-- The panics an action may end in: there is no page for the first process, `/init` cannot be run,
`fork` fails half-way, or `init` exits. -/
def ProcAct.mayPanic (k : Kernel) : ProcAct → Panic → Prop
  | .boot, e => e = .outOfBounds
  | .forkret _ _, e => e = .execInit
  | .fork _, e => e = .freewalkLeaf
  | .exit p _, e => e = .initExiting ∧ k.initprocess = some p
  | _, _ => False

section
variable {k k' : Kernel} {U : Multiset Nat} {a : ProcAct}

omit [KernelImage] in
theorem Kernel.inKernel.live {p : Pid} (h : k.inKernel p) : (k.procs p).state ≠ .unused := by
  rw [h.1]
  decide

/-- **What one action does.** -/
theorem wp_prog (hU : MachinePages U) (h : Ledger U 0 k.memory k.procs) (ha : a.enabled k = true) :
    wp a.prog (a.mayPanic k) (fun _ k' => Ledger U 0 k'.memory k'.procs) k := by
  cases a with
  | boot => exact wp_initialProcess hU h
  | forkret p file =>
    have ha := (of_decide_eq_true ha).1
    exact wp_forkretFirst hU h (by rw [ha]; decide)
  | run p =>
    have ha : (k.procs p).state = .runnable := of_decide_eq_true ha
    exact h.updateProc (f := fun q => { q with state := .running })
      ⟨nofun, fun e => absurd (ha.symm.trans e) (by decide)⟩ rfl rfl rfl
  | yield p =>
    have ha : (k.procs p).state = .running := of_decide_eq_true ha
    exact h.updateProc (f := fun q => { q with state := .runnable })
      ⟨nofun, fun e => absurd (ha.symm.trans e) (by decide)⟩ rfl rfl rfl
  | user p addr bytes frame =>
    have hp := (of_decide_eq_true ha).1.live
    obtain ⟨tf, r, O, htf, hpt, -, -, -⟩ := h.space hU hp
    simp only [ProcAct.prog, userMode, wp_bind, wp_proc, htf, hpt, wp_deref_some, wp_vm, wp_modify]
    refine wp_imp (wp_copyout_proc hU h hp hpt) ?_
    rintro _ s' ⟨h', -⟩
    exact h'.storeTrapframe hU hp htf frame
  | fork p => exact wp_seq (wp_fork hU h (of_decide_eq_true ha).1.live) fun _ _ h' => h'
  | exec p upath uargv namei =>
    exact wp_seq (wp_sysExec hU h (of_decide_eq_true ha).1.live) fun _ _ h' => h'
  | sbrk p a0 =>
    simp only [ProcAct.prog, Syscall.sbrk, wp_bind, wp_proc, wp_ite, wp_pure]
    refine wp_imp (wp_grow hU h (of_decide_eq_true ha).1.live) ?_
    exact fun _ _ h' => ⟨fun _ => h', fun _ => h'⟩
  | exit p status => exact wp_exit h (of_decide_eq_true ha).1.live
  | wait p addr =>
    exact wp_seq (wp_wait hU h (of_decide_eq_true ha).1.live) fun _ _ h' => h'.1
  | kill p pid => exact wp_seq (wp_kill h) fun _ _ h' => h'
  | fault p =>
    exact h.updateProc (f := fun q => { q with killed := true }) Iff.rfl rfl rfl rfl

/-- A step is the run of the action's code. -/
theorem Kernel.step_ok (h : k.step a = some (.ok k')) :
    a.enabled k = true ∧ a.prog.run k = .ok (⟨⟩, k') := by
  rw [Kernel.step] at h
  split at h
  · next ha =>
    refine ⟨ha, ?_⟩
    generalize a.prog.run k = res at h
    cases res with
    | error e => exact absurd h nofun
    | ok r =>
      cases h
      rfl
  · exact absurd h nofun

theorem Kernel.step_error {e : Panic} (h : k.step a = some (.error e)) :
    a.enabled k = true ∧ a.prog.run k = .error e := by
  rw [Kernel.step] at h
  split at h
  · next ha =>
    refine ⟨ha, ?_⟩
    generalize a.prog.run k = res at h
    cases res with
    | error e =>
      cases h
      rfl
    | ok r => exact absurd h nofun
  · exact absurd h nofun

/-- **The ledger holds in every reachable state.** -/
theorem ledger_of_run {memory : Memory} {as : List ProcAct}
    (hU : MachinePages (memory.freeList : Multiset Nat))
    (hrun : Machine.Run Kernel.step (Kernel.initial memory) as k) :
    Ledger (memory.freeList : Multiset Nat) 0 k.memory k.procs := by
  refine hrun.invariant (P := fun k => Ledger (memory.freeList : Multiset Nat) 0 k.memory k.procs)
    ⟨fun _ => 0, fun i => .unused rfl rfl rfl rfl, ?_⟩ ?_
  · rw [Finset.sum_const_zero, add_zero, add_zero]
    rfl
  · intro k a k' h hstep
    obtain ⟨ha, hrun⟩ := Kernel.step_ok hstep
    exact wp_ok (Q := fun _ k' => Ledger _ 0 k'.memory k'.procs) (wp_prog hU h ha) hrun

end

/-! ## What an address space maps -/

omit [KernelImage] in
/-- The word that the page table of the process `i` has for the page number `v`. -/
def Kernel.Pte (k : Kernel) (i : Pid) (v w : Nat) : Prop :=
  ∃ r q j, (k.procs i).pagetable = some r ∧ Radix.Slot sv39 k.memory.word 2 r v q j ∧
    k.memory.word q j = w

/-- **The shape of an address space.**  The page table of the process `i` maps the pages below
`PGROUNDUP(sz)`, the trapframe and the trampoline, and nothing else. -/
structure Shape (k : Kernel) (i : Pid) : Prop where
  /-- The pages of the user memory are mapped, and can be read. -/
  user : ∀ v, v * PGSIZE < pgRoundUp (k.procs i).sz →
    ∃ w, k.Pte i v w ∧ has w PTE_V ∧ has w PTE_R
  /-- The process's own trapframe is mapped, but not for the user. -/
  trapframe : ∃ w tf, k.Pte i (TRAPFRAME / PGSIZE) w ∧ has w PTE_V ∧ has w PTE_U = false ∧
    (k.procs i).trapframe = some tf ∧ pte2pa w = tf
  /-- The trampoline is mapped, but not for the user. -/
  trampoline : ∃ w, k.Pte i (TRAMPOLINE / PGSIZE) w ∧ has w PTE_V ∧ has w PTE_U = false ∧
    pte2pa w = KernelImage.trampoline
  /-- Nothing else is mapped. -/
  only : ∀ v w, v < sv39.width ^ 3 → k.Pte i v w → has w PTE_V →
    v * PGSIZE < pgRoundUp (k.procs i).sz ∨ v = TRAPFRAME / PGSIZE ∨ v = TRAMPOLINE / PGSIZE
  /-- All leaves are at level 0: the valid words above it point to tables. -/
  leaves : ∀ r path x j, (k.procs i).pagetable = some r → Reach sv39 k.memory.word 2 r path x →
    path.length < 2 → j < sv39.width → has (k.memory.word x j) PTE_V →
    has (k.memory.word x j) (PTE_R ||| PTE_W ||| PTE_X) = false

section
variable {k : Kernel} {i : Pid} {r n tf v w : Nat} {T : Multiset Nat} {f : Nat → Nat}

omit [KernelImage] in
/-- The words of a page table are the map that it represents. -/
theorem Kernel.Pte.eq (h : k.Pte i v w) (hpt : (k.procs i).pagetable = some r)
    (htab : Table k.memory 2 r T f) (hv : v < sv39.width ^ 3) : w = f v := by
  obtain ⟨r', q, j, hpt', hs, rfl⟩ := h
  obtain rfl : r = r' := Option.some.inj (hpt.symm.trans hpt')
  exact Tab.slot_read htab hv hs

omit [KernelImage] in
theorem Kernel.pte_of_valid (hpt : (k.procs i).pagetable = some r) (htab : Table k.memory 2 r T f)
    (hv : v < sv39.width ^ 3) (hV : has (f v) PTE_V) : k.Pte i v (f v) := by
  have hne : f v ≠ sv39.null := fun e => by
    rw [e] at hV
    exact absurd hV (by decide)
  obtain ⟨q, j, hs⟩ := Tab.slot_of_ne_null htab hv hne
  exact ⟨r, q, j, hpt, hs, Tab.slot_read htab hv hs⟩

omit [KernelImage] in
/-- The page numbers below the rounded size. -/
theorem mul_lt_pgRoundUp {sz : Nat} (hsz : pages sz ≤ trapPage) :
    v * PGSIZE < pgRoundUp sz ↔ v < pages sz := by
  have hle : sz ≤ MAXVA := (le_of_pages_le hsz).trans (by decide)
  rw [pgRoundUp_eq hle]
  exact Nat.mul_lt_mul_right (by decide)

/-- The address space of a live process has its shape. -/
theorem shape_of_space {O : Multiset Nat} (htf : (k.procs i).trapframe = some tf)
    (hpt : (k.procs i).pagetable = some r) (hpage : PageOk tf)
    (h : UserSpace k.memory r false (pages (k.procs i).sz) tf O) : Shape k i := by
  obtain ⟨hn, T, f, htab, -, hleaf, hhigh⟩ := h
  have hlt : trapPage + 1 < sv39.width ^ 3 := by decide
  have htrap : f trapPage = trapframePte tf := by
    rw [hhigh _ hn (Nat.lt_of_succ_lt hlt), high, if_pos rfl]
  have htramp : f (trapPage + 1) = trampolinePte := by
    rw [hhigh _ (Nat.le_succ_of_le hn) hlt, high, if_neg (Nat.succ_ne_self _), if_pos rfl]
  refine ⟨fun v hv => ?_, ?_, ?_, fun v w hv hw hV => ?_, ?_⟩
  · have hv' := (mul_lt_pgRoundUp hn).1 hv
    exact ⟨f v, Kernel.pte_of_valid hpt htab (by omega) (hleaf v hv').valid, (hleaf v hv').valid,
      (hleaf v hv').readable⟩
  · have hV := (leaf_trapframePte hpage).valid
    have hpte : k.Pte i trapPage (f trapPage) :=
      Kernel.pte_of_valid hpt htab (Nat.lt_of_succ_lt hlt) (by rwa [htrap])
    rw [htrap] at hpte
    refine ⟨trapframePte tf, tf, hpte, hV, (highHidden tf).1, htf, ?_⟩
    rw [trapframePte, mkPte, Nat.or_assoc]
    exact pte2pa_pa2pte_or hpage.aligned hpage.lt (by decide)
  · have hV := leaf_trampolinePte.valid
    have hpte : k.Pte i (trapPage + 1) (f (trapPage + 1)) :=
      Kernel.pte_of_valid hpt htab hlt (by rwa [htramp])
    rw [htramp] at hpte
    refine ⟨trampolinePte, hpte, hV, (highHidden tf).2, ?_⟩
    rw [trampolinePte, mkPte, Nat.or_assoc]
    exact pte2pa_pa2pte_or KernelImage.trampoline_aligned trampoline_lt_phystop (by decide)
  · obtain rfl := hw.eq hpt htab hv
    rw [mul_lt_pgRoundUp hn]
    by_cases hvn : v < pages (k.procs i).sz
    · exact .inl hvn
    rw [hhigh v (Nat.not_lt.1 hvn) hv, high] at hV
    by_cases h1 : v = trapPage
    · exact .inr (.inl h1)
    by_cases h2 : v = trapPage + 1
    · exact .inr (.inr h2)
    rw [if_neg h1, if_neg h2] at hV
    exact absurd hV (by decide)
  · intro r' path x j hpt' hreach hlen hj hV
    obtain rfl : r = r' := Option.some.inj (hpt.symm.trans hpt')
    rcases Tab.inner htab hreach hlen hj with hdead | ⟨c, hc⟩
    · exact absurd (hV.symm.trans hdead) (by decide)
    · exact hc.2.1

end

/-! ## Where a page is -/

/-- A place for a page. -/
inductive Place
  /-- A position of the free list. -/
  | free (j : Nat)
  /-- The trapframe of a process. -/
  | trapframe (i : Pid)
  /-- The page-table page of a process at the end of a path of indices. -/
  | table (i : Pid) (path : List Nat)
  /-- The page mapped in the address space of a process at a page number. -/
  | user (i : Pid) (v : Nat)

/-- The process that a place belongs to. -/
def Place.owner : Place → Option Pid
  | .free _ => none
  | .trapframe i | .table i _ | .user i _ => some i

/-- The page `x` is in a place.  Every page that a page table maps counts, except for the trapframe,
which has a place of its own, and the trampoline, which is part of the kernel. -/
def Kernel.At (k : Kernel) (x : Nat) : Place → Prop
  | .free j => k.memory.freeList[j]? = some x
  | .trapframe i => (k.procs i).trapframe = some x
  | .table i path => ∃ r, (k.procs i).pagetable = some r ∧ Reach sv39 k.memory.word 2 r path x
  | .user i v => v < sv39.width ^ 3 ∧ v ≠ TRAPFRAME / PGSIZE ∧ v ≠ TRAMPOLINE / PGSIZE ∧
      ∃ w, k.Pte i v w ∧ has w PTE_V ∧ pte2pa w = x

section
variable {k : Kernel} {i : Pid} {x : Nat} {B : Multiset Nat} {place place' : Place}

/-- The pages that are mapped for a process, by page number. -/
theorem at_user_iff {r n tf v : Nat} {T : Multiset Nat} {f : Nat → Nat}
    (hpt : (k.procs i).pagetable = some r) (htab : Table k.memory 2 r T f) (hn : n ≤ trapPage)
    (hleaf : ∀ v < n, UserLeaf false (f v))
    (hhigh : ∀ v, n ≤ v → v < sv39.width ^ 3 → f v = high (trapframePte tf) trampolinePte v) :
    k.At x (.user i v) ↔ v < n ∧ pte2pa (f v) = x := by
  have hlt : trapPage + 1 < sv39.width ^ 3 := by decide
  constructor
  · rintro ⟨hv, h1, h2, w, hw, hV, hx⟩
    obtain rfl := hw.eq hpt htab hv
    refine ⟨Nat.lt_of_not_le fun hle => ?_, hx⟩
    rw [hhigh v hle hv, high, if_neg (show v ≠ trapPage from h1),
      if_neg (show v ≠ trapPage + 1 from h2)] at hV
    exact absurd hV (by decide)
  · rintro ⟨hv, hx⟩
    have hV := (hleaf v hv).valid
    have hv3 : v < sv39.width ^ 3 := by omega
    refine ⟨hv3, ?_, ?_, f v, Kernel.pte_of_valid hpt htab hv3 hV, hV, hx⟩
    · show v ≠ trapPage
      omega
    · show v ≠ trapPage + 1
      omega

/-- The pages of a process are those in its places. -/
theorem Owns.mem_iff (h : Owns k.memory (k.procs i) B) :
    x ∈ B ↔ ∃ place, place.owner = some i ∧ k.At x place := by
  cases h with
  | unused hstate htf hpt hsz =>
    refine ⟨fun hx => absurd hx (Multiset.notMem_zero x), ?_⟩
    rintro ⟨_ | j | ⟨j, path⟩ | ⟨j, v⟩, hown, hat⟩ <;> cases hown
    · exact absurd (htf.symm.trans hat) nofun
    · obtain ⟨r, hr, -⟩ := hat
      exact absurd (hpt.symm.trans hr) nofun
    · obtain ⟨-, -, -, w, ⟨r, -, -, hr, -⟩, -⟩ := hat
      exact absurd (hpt.symm.trans hr) nofun
  | @live tf r O hstate htf hpt hspace =>
    obtain ⟨hn, T, f, htab, rfl, hleaf, hhigh⟩ := hspace
    have huser := fun v => at_user_iff (x := x) (v := v) hpt htab hn hleaf hhigh
    rw [Multiset.mem_cons, Multiset.mem_add, Tab.mem_iff_reach htab, mapped, Multiset.mem_map]
    constructor
    · rintro (rfl | ⟨path, hpath⟩ | ⟨v, hv, hx⟩)
      · exact ⟨.trapframe i, rfl, htf⟩
      · exact ⟨.table i path, rfl, r, hpt, hpath⟩
      · rw [Nat.zero_add] at hx
        exact ⟨.user i v, rfl, (huser v).2 ⟨Multiset.mem_range.1 hv, hx⟩⟩
    · rintro ⟨_ | j | ⟨j, path⟩ | ⟨j, v⟩, hown, hat⟩ <;> cases hown
      · exact .inl (Option.some.inj (hat.symm.trans htf))
      · obtain ⟨r', hr, hpath⟩ := hat
        obtain rfl : r = r' := Option.some.inj (hpt.symm.trans hr)
        exact .inr (.inl ⟨path, hpath⟩)
      · obtain ⟨hv, hx⟩ := (huser v).1 hat
        exact .inr (.inr ⟨v, Multiset.mem_range.2 hv, by rwa [Nat.zero_add]⟩)

/-- A page that a process owns once is in one of its places only. -/
theorem Owns.place_unique (h : Owns k.memory (k.procs i) B) (hB : B.Nodup)
    (hown : place.owner = some i) (hown' : place'.owner = some i) (hat : k.At x place)
    (hat' : k.At x place') : place = place' := by
  cases h with
  | unused hstate htf hpt hsz =>
    have hmem := (Owns.unused hstate htf hpt hsz).mem_iff.2 ⟨place, hown, hat⟩
    exact absurd hmem (Multiset.notMem_zero x)
  | @live tf r O hstate htf hpt hspace =>
    obtain ⟨hn, T, f, htab, rfl, hleaf, hhigh⟩ := hspace
    have huser := fun v => at_user_iff (x := x) (v := v) hpt htab hn hleaf hhigh
    obtain ⟨htfB, hTU⟩ := Multiset.nodup_cons.1 hB
    obtain ⟨hT, hU, hdisj⟩ := Multiset.nodup_add.1 hTU
    -- each of the three kinds of places is a part of the pages
    have htrap : k.At x (.trapframe i) → x = tf := fun h =>
      Option.some.inj (Eq.trans (Eq.symm h) htf)
    have htable : ∀ path, k.At x (.table i path) → Reach sv39 k.memory.word 2 r path x := by
      rintro path ⟨r', hr, hpath⟩
      obtain rfl : r = r' := Option.some.inj (hpt.symm.trans hr)
      exact hpath
    have htableT : ∀ path, k.At x (.table i path) → x ∈ T := fun path h =>
      (Tab.mem_iff_reach htab).2 ⟨path, htable path h⟩
    have huserU : ∀ v, k.At x (.user i v) → x ∈ mapped f 0 (pages (k.procs i).sz) := fun v h => by
      obtain ⟨hv, hx⟩ := (huser v).1 h
      have := mem_mapped (f := f) (v := 0) hv
      rwa [Nat.zero_add, hx] at this
    have hnotT : x ∈ T → x ∉ mapped f 0 (pages (k.procs i).sz) :=
      fun h h' => Multiset.disjoint_left.1 hdisj h h'
    have hnottf : x ∈ T ∨ x ∈ mapped f 0 (pages (k.procs i).sz) → x ≠ tf := by
      rintro h rfl
      exact htfB (Multiset.mem_add.2 h)
    rcases place with _ | j | ⟨j, path⟩ | ⟨j, v⟩ <;> cases hown <;>
      rcases place' with _ | j | ⟨j, path'⟩ | ⟨j, v'⟩ <;> cases hown'
    · rfl
    · exact absurd (htrap hat) (hnottf (.inl (htableT path' hat')))
    · exact absurd (htrap hat) (hnottf (.inr (huserU v' hat')))
    · exact absurd (htrap hat') (hnottf (.inl (htableT path hat)))
    · rw [Tab.reach_unique htab hT (htable path hat) (htable path' hat')]
    · exact absurd (huserU v' hat') (hnotT (htableT path hat))
    · exact absurd (htrap hat') (hnottf (.inr (huserU v hat)))
    · exact absurd (huserU v hat) (hnotT (htableT path' hat'))
    · obtain ⟨hv, hx⟩ := (huser v).1 hat
      obtain ⟨hv', hx'⟩ := (huser v').1 hat'
      have hinj := Multiset.inj_on_of_nodup_map hU v (Multiset.mem_range.2 hv) v'
        (Multiset.mem_range.2 hv') (by rw [Nat.zero_add, Nat.zero_add, hx, hx'])
      rw [hinj]

omit [KernelImage] in
/-- Pages counted once belong to one process. -/
theorem owner_unique {A : Pid → Multiset Nat} (hA : (∑ i, A i).Nodup) {i j : Pid} (hi : x ∈ A i)
    (hj : x ∈ A j) : i = j := by
  by_contra hne
  rw [← Finset.add_sum_erase _ _ (Finset.mem_univ i)] at hA
  refine Multiset.disjoint_left.1 (Multiset.nodup_add.1 hA).2.2 hi ?_
  exact Multiset.mem_sum.2 ⟨j, Finset.mem_erase.2 ⟨Ne.symm hne, Finset.mem_univ j⟩, hj⟩

/-- The free list and the processes together have every page in one place. -/
theorem Ledger.place_unique {U : Multiset Nat} (hU : MachinePages U)
    (h : Ledger U 0 k.memory k.procs) (hat : k.At x place) (hat' : k.At x place') :
    place = place' := by
  obtain ⟨A, hA, hsum⟩ := h
  rw [zero_add] at hsum
  have hnodup := hU.nodup
  rw [← hsum] at hnodup
  obtain ⟨hfree, hprocs, hdisj⟩ := Multiset.nodup_add.1 hnodup
  have hmem : ∀ i place, Place.owner place = some i → k.At x place → x ∈ A i :=
    fun i place hown hat => (hA i).mem_iff.2 ⟨place, hown, hat⟩
  have hsumA : ∀ i, x ∈ A i → x ∈ ∑ i, A i := fun i hx =>
    Multiset.mem_sum.2 ⟨i, Finset.mem_univ i, hx⟩
  -- a page of a process is not on the free list
  have hnot : ∀ j i place, Place.owner place = some i → k.At x place → ¬ k.At x (.free j) :=
    fun j i place hown hat hj => Multiset.disjoint_left.1 hdisj
      (Multiset.mem_coe.2 (List.mem_of_getElem? hj)) (hsumA i (hmem i place hown hat))
  cases hown : place.owner with
  | none =>
    cases hown' : place'.owner with
    | none =>
      cases place with
      | free j =>
        cases place' with
        | free j' =>
          obtain ⟨hj, hx⟩ := List.getElem?_eq_some_iff.1 hat
          obtain ⟨hj', hx'⟩ := List.getElem?_eq_some_iff.1 hat'
          rw [((Multiset.coe_nodup.1 hfree).getElem_inj_iff).1 (hx.trans hx'.symm)]
        | _ => cases hown'
      | _ => cases hown
    | some i' =>
      cases place with
      | free j => exact absurd hat (hnot j i' place' hown' hat')
      | _ => cases hown
  | some i =>
    cases hown' : place'.owner with
    | none =>
      cases place' with
      | free j => exact absurd hat' (hnot j i place hown hat)
      | _ => cases hown'
    | some i' =>
      obtain rfl := owner_unique hprocs (hmem i place hown hat) (hmem i' place' hown' hat')
      have hle : A i ≤ ∑ i, A i :=
        Finset.single_le_sum (fun _ _ => Multiset.zero_le _) (Finset.mem_univ i)
      exact (hA i).place_unique (Multiset.nodup_of_le hle hprocs) hown hown' hat hat'

/-- The pages of the machine are those that have a place. -/
theorem Ledger.mem_iff {U : Multiset Nat} (h : Ledger U 0 k.memory k.procs) :
    x ∈ U ↔ ∃ place, k.At x place := by
  obtain ⟨A, hA, hsum⟩ := h
  rw [← hsum, zero_add, Multiset.mem_add, Multiset.mem_coe, Multiset.mem_sum]
  constructor
  · rintro (hx | ⟨i, -, hx⟩)
    · obtain ⟨j, hj⟩ := List.mem_iff_getElem?.1 hx
      exact ⟨.free j, hj⟩
    · obtain ⟨place, -, hat⟩ := (hA i).mem_iff.1 hx
      exact ⟨place, hat⟩
  · rintro ⟨place, hat⟩
    cases hown : place.owner with
    | none =>
      cases place with
      | free j => exact .inl (List.mem_of_getElem? hat)
      | _ => cases hown
    | some i => exact .inr ⟨i, Finset.mem_univ i, (hA i).mem_iff.2 ⟨place, hown, hat⟩⟩

/-- A process that is not in use has no pages. -/
theorem Ledger.not_at_unused {U : Multiset Nat} (h : Ledger U 0 k.memory k.procs)
    (hstate : (k.procs i).state = .unused) (hown : place.owner = some i) : ¬ k.At x place := by
  obtain ⟨A, hA, -⟩ := h
  intro hat
  have hmem := (hA i).mem_iff.2 ⟨place, hown, hat⟩
  rw [((hA i).zero_of_unused hstate).1] at hmem
  exact Multiset.notMem_zero x hmem

end

/-! ## The pages at the beginning -/

/-- The loop of the allocator's constructor adds pages that it has not added before. -/
theorem wp_initFrom {E : Panic → Prop} {s : Memory} {n p : Nat}
    (h : MachinePages (s.freeList : Multiset Nat)) (hlt : ∀ x ∈ s.freeList, x < p)
    (haligned : p % PGSIZE = 0) (hge : KernelImage.kernelEnd ≤ p) (hle : p + n * PGSIZE ≤ PHYSTOP) :
    wp (PageAllocator.initFrom n p) E (fun _ s' => MachinePages (s'.freeList : Multiset Nat)) s := by
  induction n generalizing s p with
  | zero => exact h
  | succ n ih =>
    have hpos : 0 < PGSIZE := by decide
    have hmul : (n + 1) * PGSIZE = n * PGSIZE + PGSIZE := Nat.succ_mul n PGSIZE
    have hpage : PageOk p := ⟨haligned, hge, by omega⟩
    rw [PageAllocator.initFrom]
    refine wp_bind.2 (wp_free hpage fun s' hf hm => ih ⟨?_, ?_⟩ ?_ ?_ (by omega) (by omega))
    · rw [hf, ← Multiset.cons_coe, Multiset.nodup_cons]
      exact ⟨fun hmem => absurd (hlt p hmem) (lt_irrefl p), h.nodup⟩
    · intro x hx
      rw [hf, ← Multiset.cons_coe, Multiset.mem_cons] at hx
      rcases hx with rfl | hx
      · exact hpage
      · exact h.ok x hx
    · intro x hx
      rw [hf, List.mem_cons] at hx
      rcases hx with rfl | hx
      · omega
      · exact (hlt x hx).trans (by omega)
    · rw [Nat.add_mod_right]
      exact haligned

/-- **The constructor of the allocator** leaves distinct pages after the kernel on the free list. -/
theorem wp_init {E : Panic → Prop} {s : Memory} (h : s.freeList = []) :
    wp PageAllocator.init E (fun _ s' => MachinePages (s'.freeList : Multiset Nat)) s := by
  have hend := KernelImage.kernelEnd_le
  rw [phystop_eq] at hend
  have hround : pgRoundUp KernelImage.kernelEnd = pages KernelImage.kernelEnd * PGSIZE :=
    pgRoundUp_eq (hend.trans (by decide))
  rw [PageAllocator.init, hround]
  refine wp_initFrom ⟨?_, ?_⟩ ?_ (Nat.mul_mod_left _ _) (le_of_pages_le le_rfl) ?_
  · rw [h]
    exact Multiset.nodup_zero
  · rw [h]
    exact fun x hx => absurd hx (Multiset.notMem_zero x)
  · rw [h]
    exact fun x hx => absurd hx List.not_mem_nil
  · have := Nat.div_mul_le_self (PHYSTOP - pages KernelImage.kernelEnd * PGSIZE) PGSIZE
    have hle : pages KernelImage.kernelEnd * PGSIZE ≤ PHYSTOP := by
      rw [phystop_eq]
      simp only [pages, PGSIZE]
      omega
    omega

/-- The constructor does not stop. -/
theorem init_pages {s : Memory} (h : s.freeList = []) :
    ∃ s', PageAllocator.init.run s = .ok (⟨⟩, s') ∧ MachinePages (s'.freeList : Multiset Nat) := by
  obtain ⟨⟨⟩, s', hs', hpages⟩ := wp_total (wp_init h)
  exact ⟨s', hs', hpages⟩

/-! ## A small machine -/

/-- Six pages of memory after the kernel of two pages. -/
def smallMemory : Memory where
  mem := fun _ => Bytes.zero PGSIZE
  freeList := (List.range 6).map fun i => KERNBASE + (2 + i) * PGSIZE
  denied := fun _ => false

omit [KernelImage] in
theorem smallImage_pages {memory : Memory} (hnodup : memory.freeList.Nodup)
    (hall : ∀ p ∈ memory.freeList, p % PGSIZE = 0 ∧ smallImage.kernelEnd ≤ p ∧ p < PHYSTOP) :
    @MachinePages smallImage (memory.freeList : Multiset Nat) := by
  refine @MachinePages.mk smallImage _ (Multiset.coe_nodup.2 hnodup) fun p hp => ?_
  obtain ⟨h1, h2, h3⟩ := hall p (Multiset.mem_coe.1 hp)
  exact @PageOk.mk smallImage p h1 h2 h3

omit [KernelImage] in
theorem smallMemory_pages : @MachinePages smallImage (smallMemory.freeList : Multiset Nat) :=
  smallImage_pages (by decide) (by decide)

/-- An ELF file without segments. -/
def emptyElf : Process.Inode where
  readi off n := ((leBytes 4 Process.ELF_MAGIC ++ List.replicate 60 0).drop off).take n
  length_le off n := by simp

/-! ## A machine on which a program is loaded -/

omit [KernelImage] in
/-- Twelve pages of memory. -/
def lowMemory : Memory := { smallMemory with
  freeList := (List.range 12).map fun i => KERNBASE + (2 + i) * PGSIZE }

omit [KernelImage] in
theorem lowMemory_pages : @MachinePages smallImage (lowMemory.freeList : Multiset Nat) :=
  smallImage_pages (by decide) (by decide)

/-- A file with these bytes. -/
def Process.Inode.ofBytes (l : List UInt8) : Process.Inode where
  readi off n := (l.drop off).take n
  length_le off n := by simp

/-- An ELF file with one segment, of eight bytes at the address `0`, where it starts at the second
instruction. -/
def exitElf : Process.Inode := .ofBytes <|
  leBytes 4 Process.ELF_MAGIC ++ List.replicate 20 0 ++ leBytes 8 4 ++ leBytes 8 64 ++
    List.replicate 16 0 ++ leBytes 2 1 ++ List.replicate 6 0 ++
  leBytes 4 Process.ELF_PROG_LOAD ++ leBytes 4 5 ++ leBytes 8 120 ++ leBytes 8 0 ++ leBytes 8 0 ++
    leBytes 8 8 ++ leBytes 8 16 ++ leBytes 8 0 ++
  [147, 8, 112, 0, 115, 0, 0, 0]

omit [KernelImage] in
theorem one_lt_NPROC : 1 < NPROC := by decide

/-- `init` and its child. -/
def initPid : Pid := ⟨0, NPROC_pos⟩
def childPid : Pid := ⟨1, one_lt_NPROC⟩

/-- Whether the first process can run this file with the arguments `a` and `bc`. -/
def execs (memory : Memory) : Bool :=
  match @Machine.exec Kernel ProcAct Panic (@Kernel.step smallImage) [.boot, .run initPid]
    (Kernel.initial memory) with
  | some (.ok k) => decide ((k.procs initPid).state = .running) &&
    match (@Process.exec smallImage initPid [47, 97] (some exitElf) [[97], [98, 99]]).run k with
    | .ok r => decide (r.1 = 2)
    | .error _ => false
  | _ => false

set_option maxRecDepth 8000 in
omit [KernelImage] in
theorem execs_lowMemory : execs lowMemory = true := by
  decide +kernel

omit [KernelImage] in
/-- The first process of this machine runs the file. -/
theorem lowMemory_execs : ∃ k, @Machine.Run Kernel ProcAct Panic (@Kernel.step smallImage)
    (Kernel.initial lowMemory) [.boot, .run initPid] k ∧ (k.procs initPid).state = .running ∧
      ∃ k', (@Process.exec smallImage initPid [47, 97] (some exitElf) [[97], [98, 99]]).run k =
        .ok (2, k') := by
  have hexecs := execs_lowMemory
  unfold execs at hexecs
  split at hexecs
  · next k hk =>
    rw [Bool.and_eq_true] at hexecs
    obtain ⟨hstate, hres⟩ := hexecs
    refine ⟨k, Machine.run_of_exec hk, of_decide_eq_true hstate, ?_⟩
    split at hres
    · next r hr => exact ⟨r.2, of_decide_eq_true hres ▸ hr⟩
    · exact absurd hres Bool.false_ne_true
  · exact absurd hexecs Bool.false_ne_true

/-! ## A machine on which processes are made and reaped -/

/-- A kernel that leaves 18 pages of memory. -/
@[reducible] def largeImage : KernelImage where
  kernelEnd := PHYSTOP - 18 * PGSIZE
  trampoline := PHYSTOP - 19 * PGSIZE
  trampoline_aligned := rfl
  trampoline_lt := by decide
  kernelEnd_le := by decide
  kernbase_le := by decide

/-- The memory before the allocator's constructor has run. -/
def blankMemory : Memory where
  mem := fun _ => Bytes.zero PGSIZE
  freeList := []
  denied := fun _ => false

/-- The first process runs `/init`, grows by one byte and forks; the child runs and exits. -/
def forkActs : List ProcAct :=
  [.boot, .run initPid, .forkret initPid (some emptyElf), .sbrk initPid 1, .fork initPid,
    .yield initPid, .run childPid, .exit childPid 7, .run initPid]

/-- What the machine has come to after these actions: `init` has three pages, and its child, the only
zombie, has the process id 2. -/
def Forked (k : Kernel) : Prop :=
  (k.procs initPid).state = .running ∧ (k.procs initPid).waiting = none ∧ k.first = false ∧
    (k.procs initPid).sz = 2 * PGSIZE + 1 ∧ (k.procs childPid).parent = some initPid ∧
    (k.procs childPid).pid = 2 ∧ (k.procs childPid).sz = 2 * PGSIZE + 1 ∧
    ∀ i, (k.procs i).state = .zombie ↔ i = childPid

instance (k : Kernel) : Decidable (Forked k) :=
  inferInstanceAs (Decidable (_ ∧ _))

/-- Whether these actions can be run on a memory, and lead there. -/
def forks (memory : Memory) : Bool :=
  match @Machine.exec Kernel ProcAct Panic (@Kernel.step largeImage) forkActs
    (Kernel.initial memory) with
  | some (.ok k) => Forked k
  | _ => false

set_option maxRecDepth 8000 in
omit [KernelImage] in
theorem forks_bootMemory : (((@PageAllocator.init largeImage).run blankMemory).toOption.elim false
    fun r => forks r.2) = true := by
  decide +kernel

omit [KernelImage] in
theorem run_of_forks {memory : Memory} (h : forks memory = true) : ∃ k,
    @Machine.Run Kernel ProcAct Panic (@Kernel.step largeImage) (Kernel.initial memory) forkActs k ∧
      Forked k := by
  unfold forks at h
  split at h
  · next k hexec => exact ⟨k, Machine.run_of_exec hexec, of_decide_eq_true h⟩
  · exact absurd h Bool.false_ne_true

omit [KernelImage] in
/-- The memory that the allocator's constructor leaves, and the machine that runs on it. -/
theorem forkActs_run : ∃ memory k, (@PageAllocator.init largeImage).run blankMemory = .ok (⟨⟩, memory) ∧
    @MachinePages largeImage (memory.freeList : Multiset Nat) ∧
    @Machine.Run Kernel ProcAct Panic (@Kernel.step largeImage) (Kernel.initial memory) forkActs k ∧
    Forked k := by
  have hforks := forks_bootMemory
  obtain ⟨memory, hinit, hpages⟩ := @init_pages largeImage blankMemory rfl
  rw [hinit] at hforks
  obtain ⟨k, hrun, hforked⟩ := @run_of_forks memory hforks
  exact ⟨memory, k, hinit, hpages, hrun, hforked⟩

/-! ## Main results -/

section
variable {k : Kernel} {memory : Memory} {as : List ProcAct}

/-- **Address-space shape.**  In every reachable state, every live process's page table maps exactly
the user memory below `PGROUNDUP(sz)`, the trapframe and the trampoline; and no action stops with
one of the panics of the virtual-memory system, except for a `fork` that fails while it copies. -/
theorem address_space_shape (hpages : MachinePages (memory.freeList : Multiset Nat))
    (hrun : Machine.Run Kernel.step (Kernel.initial memory) as k) :
    (∀ i, (k.procs i).state ≠ .unused → Shape k i) ∧
      ∀ a e, k.step a = some (.error e) → a.mayPanic k e := by
  have h := ledger_of_run hpages hrun
  refine ⟨fun i hi => ?_, fun a e hstep => ?_⟩
  · obtain ⟨tf, r, O, htf, hpt, hpage, hspace, -⟩ := h.space hpages hi
    exact shape_of_space htf hpt hpage hspace
  · obtain ⟨ha, herr⟩ := Kernel.step_error hstep
    exact wp_error (wp_prog hpages h ha) herr

omit [KernelImage] in
/-- A process and its child have the shape when the one has run `/init`, grown and forked, and the other
has exited. -/
theorem address_space_shape_small : ∃ memory k,
    (@PageAllocator.init largeImage).run blankMemory = .ok (⟨⟩, memory) ∧
    @Machine.Run Kernel ProcAct Panic (@Kernel.step largeImage) (Kernel.initial memory) forkActs k ∧
    (k.procs initPid).sz = 2 * PGSIZE + 1 ∧ (k.procs childPid).sz = 2 * PGSIZE + 1 ∧
    @Shape largeImage k initPid ∧ @Shape largeImage k childPid := by
  obtain ⟨memory, k, hinit, hpages, hrun, hstate, -, -, hsz, -, -, hsz', hzombie⟩ := forkActs_run
  have hshape := (@address_space_shape largeImage k memory _ hpages hrun).1
  refine ⟨memory, k, hinit, hrun, hsz, hsz', hshape _ ?_, hshape _ ?_⟩
  · rw [hstate]
    decide
  · rw [(hzombie childPid).2 rfl]
    decide

/-- **Page conservation and isolation.**  In every reachable state, every page that the allocator
had at the beginning is in exactly one place, and no other page is in any place; the mapped pages of
an address space are those of live processes below `PGROUNDUP(sz)`; a process that is not in use has
no page; and `wait` answers with the process id of a zombie child only when it has freed that child,
whose pages are all on the free list then. -/
theorem page_conservation (hpages : MachinePages (memory.freeList : Multiset Nat))
    (hrun : Machine.Run Kernel.step (Kernel.initial memory) as k) :
    (∀ x, x ∈ memory.freeList → ∃! place, k.At x place) ∧
      (∀ x place, k.At x place → x ∈ memory.freeList) ∧
      (∀ i v x, k.At x (.user i v) →
        (k.procs i).state ≠ .unused ∧ v * PGSIZE < pgRoundUp (k.procs i).sz) ∧
      (∀ i x place, (k.procs i).state = .unused → place.owner = some i → ¬ k.At x place) ∧
      ∀ p addr r k', (ProcAct.wait p addr).enabled k = true →
        (ProcessManager.wait p addr).run k = .ok (r, k') → Waited k k' p addr r ∧
          ∀ i x place, (k'.procs i).state = .unused → place.owner = some i → k.At x place →
            x ∈ k'.memory.freeList := by
  have h := ledger_of_run hpages hrun
  refine ⟨fun x hx => ?_, fun x place hat => ?_, fun i v x hat => ?_,
    fun i x place hstate hown => h.not_at_unused hstate hown, ?_⟩
  · obtain ⟨place, hat⟩ := h.mem_iff.1 (Multiset.mem_coe.2 hx)
    exact ⟨place, hat, fun place' hat' => h.place_unique hpages hat' hat⟩
  · exact Multiset.mem_coe.1 (h.mem_iff.2 ⟨place, hat⟩)
  · have hlive : (k.procs i).state ≠ .unused := fun hstate => h.not_at_unused hstate rfl hat
    obtain ⟨tf, r, O, htf, hpt, hpage, hspace, -⟩ := h.space hpages hlive
    obtain ⟨hv, h1, h2, w, hw, hV, -⟩ := hat
    refine ⟨hlive, ?_⟩
    rcases (shape_of_space htf hpt hpage hspace).only v w hv hw hV with hlt | heq | heq
    · exact hlt
    · exact absurd heq h1
    · exact absurd heq h2
  · intro p addr r k' ha hwait
    obtain ⟨-, hwaited, hpost⟩ := wp_ok (E := fun _ => False)
      (wp_wait hpages h (of_decide_eq_true ha).1.live) hwait
    refine ⟨hwaited, fun i x place hstate hown hat => ?_⟩
    obtain ⟨A, hA, -⟩ := h
    exact Multiset.mem_coe.1
      (Multiset.mem_of_le (hpost i (A i) (hA i) hstate) ((hA i).mem_iff.2 ⟨place, hown, hat⟩))

omit [KernelImage] in
/-- The 18 pages are in one place each after `init` has forked and its child has exited; and when `init`
waits, it gets the child's process id, and the child's pages are free. -/
theorem page_conservation_small : ∃ memory k,
    (@PageAllocator.init largeImage).run blankMemory = .ok (⟨⟩, memory) ∧
    @Machine.Run Kernel ProcAct Panic (@Kernel.step largeImage) (Kernel.initial memory) forkActs k ∧
    (∀ x, x ∈ memory.freeList → ∃! place, k.At x place) ∧
    ∃ k', (@ProcessManager.wait largeImage initPid 0).run k = .ok (some 2, k') ∧
      (k'.procs childPid).state = .unused ∧
      ∀ x place, place.owner = some childPid → k.At x place → x ∈ k'.memory.freeList := by
  obtain ⟨memory, k, hinit, hpages, hrun, hstate, hwaiting, hfirst, -, hparent, hpid, -, hzombie⟩ :=
    forkActs_run
  have hmain := @page_conservation largeImage k memory _ hpages hrun
  have ha : (ProcAct.wait initPid 0).enabled k = true :=
    decide_eq_true ⟨⟨hstate, hfirst⟩, .inl hwaiting⟩
  have hlive : (k.procs initPid).state ≠ .unused := by
    rw [hstate]
    decide
  have hledger := @ledger_of_run largeImage k memory _ hpages hrun
  obtain ⟨r, k', hwait, -⟩ := wp_total
    (@wp_wait largeImage (fun _ => False) k _ 0 initPid 0 hpages hledger hlive)
  obtain ⟨hwaited, hback⟩ := hmain.2.2.2.2 initPid 0 r k' ha hwait
  refine ⟨memory, k, hinit, hrun, hmain.1, k', ?_⟩
  cases hwaited with
  | kept hr hno hkept => exact absurd rfl (hno childPid hparent ((hzombie childPid).2 rfl))
  | freed i hp hi hunused hother =>
    obtain rfl := (hzombie i).1 hi
    rw [hpid] at hwait
    exact ⟨hwait, hunused, fun x place => hback childPid x place hunused⟩

end

end Xv6pp
