import Xv6pp.Lib.Assembly

/-!
# Traps of user code

`kernel/trampoline.S`, and `user_interrupt` and `prepare_return` of `kernel/interrupt_manager.cpp`.  A trap
saves the registers of the process in its trapframe, and the way back loads them, on a CPU that may be
another one.  What the next trap needs to find the kernel again is in the trapframe too: `prepare_return`
puts it there each time.

The registers that a process gets back are the ones that it had, or that the kernel gave it: for any number
of processes and CPUs, and in any order of their steps.
-/

set_option autoImplicit false

namespace Xv6pp

open Assembly

/-! ## The trampoline -/

/-- `TRAPFRAME`. -/
def trapframeAddress : Word := 0x3fffffe000

/-- The registers of the user in a `struct trapframe`. -/
def trapframe : List (Reg × Nat) :=
  [(.ra, 40), (.sp, 48), (.gp, 56), (.tp, 64), (.t0, 72), (.t1, 80), (.t2, 88), (.s0, 96), (.s1, 104),
    (.a1, 120), (.a2, 128), (.a3, 136), (.a4, 144), (.a5, 152), (.a6, 160), (.a7, 168), (.s2, 176), (.s3, 184),
    (.s4, 192), (.s5, 200), (.s6, 208), (.s7, 216), (.s8, 224), (.s9, 232), (.s10, 240), (.s11, 248),
    (.t3, 256), (.t4, 264), (.t5, 272), (.t6, 280)]

/-- The size of a `struct trapframe`. -/
def sizeofTrapframe : Nat := 288

/-- `uservec`; `userret` is the address of the instruction after the last. -/
def uservec (userret : Word) : List Instr :=
  [.csrw .sscratch .a0,
    .li .a0 trapframeAddress,
    .sd .ra 40 .a0, .sd .sp 48 .a0, .sd .gp 56 .a0, .sd .tp 64 .a0, .sd .t0 72 .a0, .sd .t1 80 .a0,
    .sd .t2 88 .a0, .sd .s0 96 .a0, .sd .s1 104 .a0, .sd .a1 120 .a0, .sd .a2 128 .a0, .sd .a3 136 .a0,
    .sd .a4 144 .a0, .sd .a5 152 .a0, .sd .a6 160 .a0, .sd .a7 168 .a0, .sd .s2 176 .a0, .sd .s3 184 .a0,
    .sd .s4 192 .a0, .sd .s5 200 .a0, .sd .s6 208 .a0, .sd .s7 216 .a0, .sd .s8 224 .a0, .sd .s9 232 .a0,
    .sd .s10 240 .a0, .sd .s11 248 .a0, .sd .t3 256 .a0, .sd .t4 264 .a0, .sd .t5 272 .a0, .sd .t6 280 .a0,
    .csrr .t0 .sscratch,
    .sd .t0 112 .a0,
    .ld .sp 8 .a0,
    .ld .tp 32 .a0,
    .ld .t0 16 .a0,
    .ld .t1 0 .a0,
    .sfence,
    .csrw .satp .t1,
    .sfence,
    .jalr .t0 userret]

/-- `userret`. -/
def userret : List Instr :=
  [.sfence,
    .csrw .satp .a0,
    .sfence,
    .li .a0 trapframeAddress,
    .ld .ra 40 .a0, .ld .sp 48 .a0, .ld .gp 56 .a0, .ld .tp 64 .a0, .ld .t0 72 .a0, .ld .t1 80 .a0,
    .ld .t2 88 .a0, .ld .s0 96 .a0, .ld .s1 104 .a0, .ld .a1 120 .a0, .ld .a2 128 .a0, .ld .a3 136 .a0,
    .ld .a4 144 .a0, .ld .a5 152 .a0, .ld .a6 160 .a0, .ld .a7 168 .a0, .ld .s2 176 .a0, .ld .s3 184 .a0,
    .ld .s4 192 .a0, .ld .s5 200 .a0, .ld .s6 208 .a0, .ld .s7 216 .a0, .ld .s8 224 .a0, .ld .s9 232 .a0,
    .ld .s10 240 .a0, .ld .s11 248 .a0, .ld .t3 256 .a0, .ld .t4 264 .a0, .ld .t5 272 .a0, .ld .t6 280 .a0,
    .ld .a0 112 .a0,
    .sret]

/-- The fields that `uservec` loads. -/
def kernelFields : List (Reg × Nat) := [(.sp, 8), (.tp, 32), (.t0, 16), (.t1, 0)]

theorem userret_eq : userret =
    [.sfence, .csrw .satp .a0, .sfence, .li .a0 trapframeAddress] ++
      (loads .a0 trapframe ++ [.ld .a0 112 .a0, .sret]) := rfl

theorem trapframe_frame : Frame trapframe sizeofTrapframe where
  nodup := by decide
  place := by decide
  size := by decide

theorem kernelFields_frame : Frame kernelFields sizeofTrapframe where
  nodup := by decide
  place := by decide
  size := by decide

/-- The trapframe at `area` holds the registers `f` of a process. -/
def HoldsUser (mem : Word → Word) (area : Word) (f : Reg → Word) : Prop :=
  Holds mem area ((.a0, 112) :: trapframe) f

theorem userFrame : Frame ((.a0, 112) :: trapframe) sizeofTrapframe where
  nodup := by decide
  place := by decide
  size := by decide

theorem a0_not_mem : Reg.a0 ∉ trapframe.map Prod.fst := by decide

theorem epc_not_mem : 24 ∉ ((Reg.a0, 112) :: trapframe).map Prod.snd := by decide

/-- Every register has its place. -/
theorem mem_userRegs (r : Reg) (hr : r ≠ .zero) : r ∈ ((Reg.a0, 112) :: trapframe).map Prod.fst := by
  cases r <;> first | exact absurd rfl hr | decide

/-- The instructions of `uservec` that save the registers of the user. -/
def uservecSave : List Instr :=
  [.csrw .sscratch .a0, .li .a0 trapframeAddress] ++ (stores .a0 trapframe ++ ([.csrr .t0 .sscratch] ++
    stores .a0 [(.t0, 112)]))

/-- The instructions of `uservec` that find the kernel. -/
def uservecEnter (next : Word) : List Instr :=
  loads .a0 kernelFields ++ [.sfence, .csrw .satp .t1, .sfence, .jalr .t0 next]

theorem uservec_split (next : Word) : uservec next = uservecSave ++ uservecEnter next := rfl

section
variable {mmu : Mmu} {s : State} {area : Word}

/-- The registers are saved, `a0` by way of `sscratch`. -/
theorem run_uservecSave (hm : Maps mmu (s.csrs .satp) trapframeAddress area sizeofTrapframe) :
    ∃ s', run mmu uservecSave s = some s' ∧ s'.get .a0 = trapframeAddress ∧
      s'.csrs = Function.update s.csrs .sscratch (s.get .a0) ∧ s'.mode = s.mode ∧
      HoldsUser s'.mem area s.get ∧ SameOutside area ((.a0, 112) :: trapframe) s.mem s'.mem := by
  obtain ⟨s₁, hs₁⟩ : ∃ s₁, s₁ = (s.setCsr .sscratch (s.get .a0)).set .a0 trapframeAddress := ⟨_, rfl⟩
  have ha₁ : s₁.get .a0 = trapframeAddress := by
    rw [hs₁]
    exact State.get_set_self (by decide)
  have hget₁ : ∀ r, r ≠ .a0 → s₁.get r = s.get r := fun r hr => by
    rw [hs₁]
    exact State.get_set_ne (by decide) hr
  have hcsrs₁ : s₁.csrs = Function.update s.csrs .sscratch (s.get .a0) := by
    rw [hs₁, State.set_csrs, State.setCsr_csrs]
  have hmem₁ : s₁.mem = s.mem := by rw [hs₁, State.set_mem, State.setCsr_mem]
  have hmode₁ : s₁.mode = s.mode := by rw [hs₁, State.set_mode, State.setCsr_mode]
  have hsatp₁ : s₁.csrs .satp = s.csrs .satp := by
    rw [hcsrs₁]
    exact Function.update_of_ne (by decide) ..
  have hm₁ : Maps mmu (s₁.csrs .satp) (s₁.get .a0) area sizeofTrapframe := by rwa [hsatp₁, ha₁]
  obtain ⟨mem, hstores, hsaved, hsame⟩ := run_stores hm₁ trapframe_frame
  -- `t0` is saved, so that it can carry `a0`
  obtain ⟨s₂, hs₂⟩ : ∃ s₂, s₂ = State.set { s₁ with mem := mem } .t0 (s.get .a0) := ⟨_, rfl⟩
  have ha₂ : s₂.get .a0 = trapframeAddress := by
    rw [hs₂, State.get_set_ne (by decide) (by decide)]
    exact ha₁
  have ht₂ : s₂.get .t0 = s.get .a0 := by
    rw [hs₂]
    exact State.get_set_self (by decide)
  have hcsrs₂ : s₂.csrs = s₁.csrs := by rw [hs₂, State.set_csrs]
  have hmem₂ : s₂.mem = mem := by rw [hs₂, State.set_mem]
  have hmode₂ : s₂.mode = s₁.mode := by rw [hs₂, State.set_mode]
  have hm₂ : Maps mmu (s₂.csrs .satp) (s₂.get .a0) area sizeofTrapframe := by rwa [hcsrs₂, hsatp₁, ha₂]
  have hscratch : s₁.csrs .sscratch = s.get .a0 := by rw [hcsrs₁, Function.update_self]
  refine ⟨{ s₂ with mem := Function.update mem (slot area 112) (s.get .a0) }, ?_, ha₂, hcsrs₂.trans hcsrs₁,
    hmode₂.trans hmode₁, ?_, ?_⟩
  · have hfirst : run mmu [.csrw .sscratch .a0, .li .a0 trapframeAddress] s = some s₁ := by
      rw [run_cons exec_csrw, run_cons exec_li, hs₁, run]
    have hthird : run mmu [.csrr .t0 .sscratch] { s₁ with mem := mem } = some s₂ := by
      rw [run_cons exec_csrr, hs₂, run, hscratch]
    rw [uservecSave, run_append_some hfirst, run_append_some hstores, run_append_some hthird, stores,
      List.map_cons, run_cons (hm₂.exec_sd .t0 (by decide) (by decide)), ht₂, hmem₂]
    rfl
  · rintro p hp
    rcases List.mem_cons.1 hp with rfl | hp
    · exact Function.update_self ..
    · have hne : p.1 ≠ .a0 := fun heq => a0_not_mem (heq ▸ List.mem_map_of_mem hp)
      exact (Function.update_of_ne (userFrame.slot_ne hp) ..).trans ((hsaved p hp).trans (hget₁ _ hne))
  · intro a ha
    have hframe : mem a = s.mem a := by
      rw [hsame a fun q hq => ha q (List.mem_cons_of_mem _ hq), hmem₁]
    exact (Function.update_of_ne (ha (.a0, 112) List.mem_cons_self) ..).trans hframe

/-- The kernel is found: its stack, the hart, its page table, and `usertrap`. -/
theorem run_uservecEnter (next : Word) (hm : Maps mmu (s.csrs .satp) (s.get .a0) area sizeofTrapframe) :
    ∃ s', run mmu (uservecEnter next) s = some s' ∧ s'.get .sp = s.mem (slot area 8) ∧
      s'.get .tp = s.mem (slot area 32) ∧ s'.pc = s.mem (slot area 16) ∧ s'.get .ra = next ∧
      s'.csrs = Function.update s.csrs .satp (s.mem (slot area 0)) ∧ s'.mem = s.mem ∧ s'.mode = s.mode := by
  obtain ⟨s₁, hloads, hmem, hcsrs, hmode, hloaded, -⟩ :=
    run_loads hm kernelFields_frame (by decide) (by decide) (by decide)
  have hget : ∀ p ∈ kernelFields, s₁.get p.1 = s.mem (slot area p.2) := fun p hp => (hloaded p hp).symm
  refine ⟨State.set { s₁.setCsr .satp (s₁.get .t1) with pc := s₁.get .t0 } .ra next, ?_, ?_, ?_, ?_, ?_, ?_, ?_, ?_⟩
  · rw [uservecEnter, run_append_some hloads, run_cons exec_sfence, run_cons exec_csrw, run_cons exec_sfence,
      run_cons exec_jalr, run]
    rfl
  · rw [State.get_set_ne (by decide) (by decide)]
    exact hget (.sp, 8) (by decide)
  · rw [State.get_set_ne (by decide) (by decide)]
    exact hget (.tp, 32) (by decide)
  · rw [State.set_pc]
    exact hget (.t0, 16) (by decide)
  · exact State.get_set_self (by decide)
  · rw [State.set_csrs, hget (.t1, 0) (by decide)]
    exact congrArg (Function.update · _ _) hcsrs
  · rw [State.set_mem]
    exact hmem
  · rw [State.set_mode]
    exact hmode

/-- **`uservec`** saves the registers of the user, and finds the kernel by the fields that it left. -/
theorem run_uservec (next : Word) (hm : Maps mmu (s.csrs .satp) trapframeAddress area sizeofTrapframe) :
    ∃ s', run mmu (uservec next) s = some s' ∧ HoldsUser s'.mem area s.get ∧
      SameOutside area ((.a0, 112) :: trapframe) s.mem s'.mem ∧ s'.get .sp = s.mem (slot area 8) ∧
      s'.get .tp = s.mem (slot area 32) ∧ s'.pc = s.mem (slot area 16) ∧ s'.get .ra = next ∧
      s'.csrs .satp = s.mem (slot area 0) ∧ (∀ c, c ≠ .satp → c ≠ .sscratch → s'.csrs c = s.csrs c) ∧
      s'.mode = s.mode := by
  obtain ⟨s₁, hsave, ha₁, hcsrs₁, hmode₁, hsaved, hsame⟩ := run_uservecSave hm
  have hm₁ : Maps mmu (s₁.csrs .satp) (s₁.get .a0) area sizeofTrapframe := by
    rw [hcsrs₁, ha₁, Function.update_of_ne (by decide)]
    exact hm
  obtain ⟨s₂, henter, hsp, htp, hpc, hra, hcsrs₂, hmem₂, hmode₂⟩ := run_uservecEnter next hm₁
  -- the fields for the kernel are not where the registers of the user are
  have hfield : ∀ o < sizeofTrapframe, (∀ p ∈ (Reg.a0, 112) :: trapframe, o ≠ p.2) →
      s₁.mem (slot area o) = s.mem (slot area o) := fun o ho hne => hsame _ fun p hp heq => by
    have hsize := userFrame.size
    exact hne p hp (slot_inj (by omega) (Nat.lt_of_lt_of_le (userFrame.place p hp).1 hsize) heq)
  refine ⟨s₂, ?_, ?_, ?_, ?_, ?_, ?_, hra, ?_, fun c hsatp hscratch => ?_, hmode₂.trans hmode₁⟩
  · rw [uservec_split, run_append_some hsave]
    exact henter
  · rwa [hmem₂]
  · rwa [hmem₂]
  · rw [hsp, hfield 8 (by decide) (by decide)]
  · rw [htp, hfield 32 (by decide) (by decide)]
  · rw [hpc, hfield 16 (by decide) (by decide)]
  · rw [hcsrs₂, Function.update_self, hfield 0 (by decide) (by decide)]
  · rw [hcsrs₂, Function.update_of_ne hsatp, hcsrs₁, Function.update_of_ne hscratch]

/-- **`userret`** loads the registers of the user, with the page table that it is given. -/
theorem run_userret (hm : Maps mmu (s.get .a0) trapframeAddress area sizeofTrapframe) :
    ∃ s' : State, run mmu userret s = some s'.sret ∧ HoldsUser s.mem area s'.get ∧ s'.mem = s.mem ∧
      s'.csrs = Function.update s.csrs .satp (s.get .a0) := by
  obtain ⟨s₁, hs₁⟩ : ∃ s₁, s₁ = (s.setCsr .satp (s.get .a0)).set .a0 trapframeAddress := ⟨_, rfl⟩
  have ha₁ : s₁.get .a0 = trapframeAddress := by
    rw [hs₁]
    exact State.get_set_self (by decide)
  have hcsrs₁ : s₁.csrs = Function.update s.csrs .satp (s.get .a0) := by
    rw [hs₁, State.set_csrs, State.setCsr_csrs]
  have hmem₁ : s₁.mem = s.mem := by rw [hs₁, State.set_mem, State.setCsr_mem]
  have hm₁ : Maps mmu (s₁.csrs .satp) (s₁.get .a0) area sizeofTrapframe := by
    rwa [hcsrs₁, Function.update_self, ha₁]
  obtain ⟨s₂, hloads, hmem₂, hcsrs₂, -, hloaded, hsame⟩ :=
    run_loads hm₁ trapframe_frame (by decide) (by decide) (by decide)
  have ha₂ : s₂.get .a0 = s₁.get .a0 := hsame .a0 a0_not_mem
  have hm₂ : Maps mmu (s₂.csrs .satp) (s₂.get .a0) area sizeofTrapframe := by rwa [hcsrs₂, ha₂]
  refine ⟨s₂.set .a0 (s₂.mem (slot area 112)), ?_, fun p hp => ?_, ?_, ?_⟩
  · have hfirst : run mmu [.sfence, .csrw .satp .a0, .sfence, .li .a0 trapframeAddress] s = some s₁ := by
      rw [run_cons exec_sfence, run_cons exec_csrw, run_cons exec_sfence, run_cons exec_li, hs₁, run]
    rw [userret_eq, run_append_some hfirst, run_append_some hloads,
      run_cons (hm₂.exec_ld .a0 (by decide) (by decide)), run_cons exec_sret, run]
  · rcases List.mem_cons.1 hp with rfl | hp
    · rw [State.get_set_self (by decide), hmem₂, hmem₁]
    · have hne : p.1 ≠ .a0 := fun heq => a0_not_mem (heq ▸ List.mem_map_of_mem hp)
      rw [State.get_set_ne (by decide) hne, ← hmem₁]
      exact hloaded p hp
  · rw [State.set_mem, hmem₂, hmem₁]
  · rw [State.set_csrs, hcsrs₂, hcsrs₁]

end

/-! ## Trapframes -/

/-- The fields of the trapframe are the same. -/
def SameTrapframe (area : Word) (mem mem' : Word → Word) : Prop :=
  ∀ o < sizeofTrapframe, mem' (slot area o) = mem (slot area o)

/-- Nothing but the trapframe is changed. -/
def SameElsewhere (area : Word) (mem mem' : Word → Word) : Prop :=
  ∀ a, (∀ o < sizeofTrapframe, a ≠ slot area o) → mem' a = mem a

/-- The registers of a process, and where it goes on. -/
structure UserRegs where
  regs : Reg → Word
  epc : Word

/-- The trapframe at `area` holds the registers of a process. -/
structure Saved (mem : Word → Word) (area : Word) (f : UserRegs) : Prop where
  regs : HoldsUser mem area f.regs
  epc : mem (slot area 24) = f.epc

section
variable {mem mem' : Word → Word} {area area' : Word} {f : UserRegs}

theorem Saved.same (hf : Saved mem area f) (hsame : SameTrapframe area mem mem') : Saved mem' area f where
  regs q hq := (hsame _ (userFrame.place q hq).1).trans (hf.regs q hq)
  epc := (hsame 24 (by decide)).trans hf.epc

theorem SameElsewhere.trapframe (hsame : SameElsewhere area mem mem')
    (hapart : Apart area' area sizeofTrapframe) : SameTrapframe area' mem mem' := fun o ho =>
  hsame _ fun o' ho' => hapart o ho o' ho'

theorem SameElsewhere.refl : SameElsewhere area mem mem := fun _ _ => rfl

theorem SameElsewhere.update (hsame : SameElsewhere area mem mem') {o : Nat} (ho : o < sizeofTrapframe) (w : Word) :
    SameElsewhere area mem (Function.update mem' (slot area o) w) := fun a ha => by
  rw [Function.update_of_ne (ha o ho)]
  exact hsame a ha

/-- Two fields of a trapframe are at different places. -/
theorem slot_ne_slot {o o' : Nat} (ho : o < sizeofTrapframe) (ho' : o' < sizeofTrapframe) (hne : o ≠ o') :
    slot area o ≠ slot area o' := fun heq =>
  hne (slot_inj (Nat.lt_of_lt_of_le ho userFrame.size) (Nat.lt_of_lt_of_le ho' userFrame.size) heq)

end

/-! ## The kernel's side -/

/-- Where things are: the code of the kernel and of the trampoline, the page table of the kernel, and, for each
process, its trapframe and its kernel stack. -/
structure KernelMap (Cpu Proc : Type) where
  kernelvec : Word
  uservec : Word
  userret : Word
  usertrap : Word
  satp : Word
  hartid : Cpu → Word
  trapframe : Proc → Word
  kstack : Proc → Word

section
variable {Cpu Proc : Type} (k : KernelMap Cpu Proc)

/-- How `user_interrupt` goes on with a trap. -/
inductive UserInterrupt where
  /-- The system call or the interrupt is served. -/
  | serve (s : State)
  /-- `p->exit(-1)`: the process was killed before its system call. -/
  | exit (s : State)

/-- `interrupt_manager::user_interrupt` for a trapframe at `area`, up to where it serves the trap; `killed` is
what `get_killed` says of the process.  There is no result if it panics. -/
def user_interrupt (area : Word) (killed : Bool) (s : State) : Option UserInterrupt :=
  if (s.csrs .sstatus).getLsbD spp = true then none
  else
    let s := s.setCsr .stvec k.kernelvec
    let s := { s with mem := Function.update s.mem (slot area 24) (s.csrs .sepc) }
    if s.csrs .scause = 8 then
      if killed then some (.exit s)
      else some (.serve { s with mem := Function.update s.mem (slot area 24) (s.mem (slot area 24) + 4) })
    else some (.serve s)

/-- `interrupt_manager::prepare_return` for the process with the trapframe at `area` and the kernel stack
`kstack`. -/
def prepare_return (area kstack : Word) (s : State) : State :=
  let s := s.setCsr .sstatus (withBit (s.csrs .sstatus) sie false)
  let s := s.setCsr .stvec k.uservec
  let mem := Function.update s.mem (slot area 0) (s.csrs .satp)
  let mem := Function.update mem (slot area 8) (kstack + 4096)
  let mem := Function.update mem (slot area 16) k.usertrap
  let mem := Function.update mem (slot area 32) (s.get .tp)
  let s := { s with mem := mem }
  let s := s.setCsr .sstatus (withBit (withBit (s.csrs .sstatus) spp false) spie true)
  s.setCsr .sepc (s.mem (slot area 24))

/-! ## Processes on the CPUs -/

/-- The CPUs, the memory and the page tables. -/
structure Users (Cpu Proc : Type) where
  mem : Word → Word
  mmu : Mmu
  harts : Cpu → Hart
  /-- The process whose code a CPU runs. -/
  user : Cpu → Option Proc
  /-- The registers of the processes that are in the kernel. -/
  left : Proc → Option UserRegs

namespace Users

/-- There is such a process. -/
def Live (s : Users Cpu Proc) (p : Proc) : Prop := s.left p ≠ none ∨ ∃ c, s.user c = some p

/-- A CPU that runs the kernel. -/
structure KernelHart (c : Cpu) (h : Hart) : Prop where
  mode : h.mode = .supervisor
  satp : h.csrs .satp = k.satp
  hartid : h.regs .tp = k.hartid c

variable [DecidableEq Cpu] [DecidableEq Proc]

/-- The states of the system, if the kernel is at `k`. -/
inductive Reached : Users Cpu Proc → Prop
  /-- The CPUs have started, and there is no process. -/
  | boot {s : Users Cpu Proc} : (∀ c, s.user c = none) → (∀ p, s.left p = none) →
      (∀ c, KernelHart k c (s.harts c)) → Reached s
  /-- A CPU runs the kernel, which leaves the trapframes alone and the pages where they are. -/
  | work {s : Users Cpu Proc} {c : Cpu} {h : Hart} {mem : Word → Word} {mmu : Mmu} : Reached s →
      s.user c = none → KernelHart k c h → (∀ p, s.Live p → SameTrapframe (k.trapframe p) s.mem mem) →
      (∀ c' p, s.user c' = some p →
        Maps s.mmu ((s.harts c').csrs .satp) trapframeAddress (k.trapframe p) sizeofTrapframe →
        Maps mmu ((s.harts c').csrs .satp) trapframeAddress (k.trapframe p) sizeofTrapframe) →
      Reached { s with mem := mem, mmu := mmu, harts := Function.update s.harts c h }
  /-- The kernel gives registers to a process that is in the kernel, or to a new one: `fork`, `exec`, and the
  result of a system call. -/
  | give {s : Users Cpu Proc} {p : Proc} {f : UserRegs} {mem : Word → Word} : Reached s →
      (∀ c, s.user c ≠ some p) →
      (∀ q, s.Live q → q ≠ p → Apart (k.trapframe p) (k.trapframe q) sizeofTrapframe) →
      Saved mem (k.trapframe p) f → SameElsewhere (k.trapframe p) s.mem mem →
      Reached { s with mem := mem, left := Function.update s.left p (some f) }
  /-- The kernel frees a process that is in the kernel. -/
  | free {s : Users Cpu Proc} {p : Proc} : Reached s →
      Reached { s with left := Function.update s.left p none }
  /-- A CPU runs the code of a process, which cannot write into a trapframe. -/
  | run {s : Users Cpu Proc} {c : Cpu} {p : Proc} {f : UserRegs} {mem : Word → Word} : Reached s →
      s.user c = some p → (∀ q, s.Live q → SameTrapframe (k.trapframe q) s.mem mem) →
      Reached { s with
        mem := mem
        harts := Function.update s.harts c { s.harts c with regs := f.regs, pc := f.epc } }
  /-- A trap, of a process on the CPU `c`, to `uservec`.  The process may have been killed. -/
  | trap {s : Users Cpu Proc} {c : Cpu} {p : Proc} {cause : Word} {killed : Bool} {s₁ s₂ : State} : Reached s →
      s.user c = some p → ((State.mk (s.harts c) s.mem).trap cause).pc = k.uservec →
      Assembly.run s.mmu (Xv6pp.uservec k.userret) ((State.mk (s.harts c) s.mem).trap cause) = some s₁ →
      user_interrupt k (k.trapframe p) killed s₁ = some (.serve s₂) →
      Reached { s with
        mem := s₂.mem
        harts := Function.update s.harts c s₂.toHart
        user := Function.update s.user c none
        left := Function.update s.left p (some
          ⟨(State.mk (s.harts c) s.mem).get, if cause = 8 then (s.harts c).pc + 4 else (s.harts c).pc⟩) }
  /-- A trap of a process that exits then: it has no registers to go back to. -/
  | exit {s : Users Cpu Proc} {c : Cpu} {p : Proc} {cause : Word} {killed : Bool} {s₁ s₂ : State} : Reached s →
      s.user c = some p → ((State.mk (s.harts c) s.mem).trap cause).pc = k.uservec →
      Assembly.run s.mmu (Xv6pp.uservec k.userret) ((State.mk (s.harts c) s.mem).trap cause) = some s₁ →
      user_interrupt k (k.trapframe p) killed s₁ = some (.exit s₂) →
      Reached { s with
        mem := s₂.mem
        harts := Function.update s.harts c s₂.toHart
        user := Function.update s.user c none }
  /-- A process goes back to its code, on the CPU `c`, with the page table `satp`. -/
  | back {s : Users Cpu Proc} {c : Cpu} {p : Proc} {f : UserRegs} {satp : Word} {s' : State} : Reached s →
      s.user c = none → s.left p = some f →
      Maps s.mmu satp trapframeAddress (k.trapframe p) sizeofTrapframe →
      Assembly.run s.mmu Xv6pp.userret
        ((prepare_return k (k.trapframe p) (k.kstack p) (State.mk (s.harts c) s.mem)).set .a0 satp) = some s' →
      Reached { s with
        mem := s'.mem
        harts := Function.update s.harts c s'.toHart
        user := Function.update s.user c (some p)
        left := Function.update s.left p none }

/-- A CPU that runs the code of the process `p`: the next trap finds the kernel. -/
structure UserHart (mem : Word → Word) (mmu : Mmu) (c : Cpu) (p : Proc) (h : Hart) : Prop where
  mode : h.mode = .user
  stvec : h.csrs .stvec = k.uservec
  maps : Maps mmu (h.csrs .satp) trapframeAddress (k.trapframe p) sizeofTrapframe
  satp : mem (slot (k.trapframe p) 0) = k.satp
  sp : mem (slot (k.trapframe p) 8) = k.kstack p + 4096
  trap : mem (slot (k.trapframe p) 16) = k.usertrap
  hartid : mem (slot (k.trapframe p) 32) = k.hartid c

/-- What is true of every state. -/
structure Inv (s : Users Cpu Proc) : Prop where
  kernel : ∀ c, s.user c = none → KernelHart k c (s.harts c)
  user : ∀ c p, s.user c = some p → UserHart k s.mem s.mmu c p (s.harts c)
  alone : ∀ c p, s.user c = some p → s.left p = none
  once : ∀ c c' p, s.user c = some p → s.user c' = some p → c = c'
  apart : ∀ p q, s.Live p → s.Live q → p ≠ q → Apart (k.trapframe p) (k.trapframe q) sizeofTrapframe
  holds : ∀ p f, s.left p = some f → Saved s.mem (k.trapframe p) f

/-! ### A trap, and the way back -/

section
variable {k : KernelMap Cpu Proc} {mem mem' : Word → Word} {mmu mmu' : Mmu} {area area' : Word} {f : UserRegs}
variable {c : Cpu} {p : Proc} {h : Hart}

omit [DecidableEq Cpu] [DecidableEq Proc]

theorem UserHart.same (hu : UserHart k mem mmu c p h) (hsame : SameTrapframe (k.trapframe p) mem mem') :
    UserHart k mem' mmu c p h :=
  { hu with
    satp := (hsame 0 (by decide)).trans hu.satp
    sp := (hsame 8 (by decide)).trans hu.sp
    trap := (hsame 16 (by decide)).trans hu.trap
    hartid := (hsame 32 (by decide)).trans hu.hartid }

/-- What `user_interrupt` makes of a trap of user code: `stvec` leads to the kernel, and `epc` has its value. -/
structure Entered (k : KernelMap Cpu Proc) (area : Word) (s s' : State) (epc : Word) : Prop where
  toHart : s'.toHart = (s.setCsr .stvec k.kernelvec).toHart
  mem : s'.mem = Function.update s.mem (slot area 24) epc

/-- A trap of user code is served, and a system call behind its instruction; a killed process exits instead. -/
theorem user_interrupt_entered {s : State} (killed : Bool) (hspp : ¬(s.csrs .sstatus).getLsbD spp = true) :
    (¬(killed = true ∧ s.csrs .scause = 8) → ∃ s', user_interrupt k area killed s = some (.serve s') ∧
      Entered k area s s' (if s.csrs .scause = 8 then s.csrs .sepc + 4 else s.csrs .sepc)) ∧
    (killed = true ∧ s.csrs .scause = 8 → ∃ s', user_interrupt k area killed s = some (.exit s') ∧
      Entered k area s s' (s.csrs .sepc)) := by
  have hcause : (s.setCsr .stvec k.kernelvec).csrs .scause = s.csrs .scause := rfl
  rw [user_interrupt, if_neg hspp]
  dsimp only
  rw [hcause]
  constructor
  · rintro hk
    by_cases hcall : s.csrs .scause = 8
    · rw [if_pos hcall, if_neg fun h => hk ⟨h, hcall⟩]
      refine ⟨_, rfl, rfl, ?_⟩
      dsimp only
      rw [Function.update_self, Function.update_idem, if_pos hcall]
      rfl
    · rw [if_neg hcall]
      refine ⟨_, rfl, rfl, ?_⟩
      rw [if_neg hcall]
      rfl
  · rintro ⟨hk, hcall⟩
    rw [if_pos hcall, if_pos hk]
    exact ⟨_, rfl, rfl, rfl⟩

/-- What is left of a trap in the state `s` of the CPU `c`: the kernel is ready for its own traps, and the
registers of the process are in its trapframe. -/
structure Left (k : KernelMap Cpu Proc) (mem : Word → Word) (c : Cpu) (p : Proc) (f : UserRegs) (s : State) :
    Prop where
  kernel : KernelHart k c s.toHart
  stvec : s.csrs .stvec = k.kernelvec
  saved : Saved s.mem (k.trapframe p) f
  elsewhere : SameElsewhere (k.trapframe p) mem s.mem

/-- The registers of the process were saved by `uservec`, its program counter is saved by `user_interrupt`. -/
theorem Entered.left {s s' : State} {epc : Word} (he : Entered k (k.trapframe p) s s' epc)
    (hk : KernelHart k c s.toHart) (hregs : HoldsUser s.mem (k.trapframe p) f.regs) (hepc : f.epc = epc)
    (helse : SameElsewhere (k.trapframe p) mem s.mem) : Left k mem c p f s' where
  kernel := by
    rw [he.toHart]
    exact ⟨hk.mode, hk.satp, hk.hartid⟩
  stvec := by
    rw [he.toHart]
    exact Function.update_self Csr.stvec k.kernelvec s.csrs
  saved := by
    refine ⟨fun q hq => ?_, ?_⟩
    · have hne : slot (k.trapframe p) q.2 ≠ slot (k.trapframe p) 24 :=
        slot_ne_slot (userFrame.place q hq).1 (by decide) fun heq => epc_not_mem (heq ▸ List.mem_map_of_mem hq)
      rw [he.mem, Function.update_of_ne hne]
      exact hregs q hq
    · rw [he.mem, Function.update_self, hepc]
  elsewhere := by
    rw [he.mem]
    exact helse.update (by decide) _

/-- **A trap finds the kernel**: the CPU runs `usertrap` on the kernel stack of the process, with the page
table of the kernel and the number of the CPU, and will return to `userret`; `user_interrupt` does not
panic; and the registers of the process are in its trapframe. -/
theorem UserHart.trapped (hu : UserHart k mem mmu c p h) (cause : Word) (killed : Bool) :
    ∃ s₁, ((State.mk h mem).trap cause).pc = k.uservec ∧
      Assembly.run mmu (Xv6pp.uservec k.userret) ((State.mk h mem).trap cause) = some s₁ ∧
      s₁.pc = k.usertrap ∧ s₁.get .ra = k.userret ∧ s₁.get .sp = k.kstack p + 4096 ∧
      KernelHart k c s₁.toHart ∧ (s₁.csrs .sstatus).getLsbD sie = false ∧
      (¬(killed = true ∧ cause = 8) → ∃ s₂, user_interrupt k (k.trapframe p) killed s₁ = some (.serve s₂) ∧
        Left k mem c p ⟨(State.mk h mem).get, if cause = 8 then h.pc + 4 else h.pc⟩ s₂) ∧
      (killed = true ∧ cause = 8 → ∃ s₂, user_interrupt k (k.trapframe p) killed s₁ = some (.exit s₂) ∧
        Left k mem c p ⟨(State.mk h mem).get, h.pc⟩ s₂) := by
  obtain ⟨s₁, hrun, hregs, hsame, hsp, htp, hpc, hra, hsatp, hcsrs, hmode⟩ :=
    run_uservec (s := (State.mk h mem).trap cause) k.userret hu.maps
  have hstatus : s₁.csrs .sstatus = trapStatus .user (h.csrs .sstatus) :=
    (hcsrs .sstatus (by decide) (by decide)).trans (hu.mode ▸ rfl)
  have hsepc : s₁.csrs .sepc = h.pc := hcsrs .sepc (by decide) (by decide)
  have hcause : s₁.csrs .scause = cause := hcsrs .scause (by decide) (by decide)
  have hkernel : KernelHart k c s₁.toHart := ⟨hmode, hsatp.trans hu.satp, htp.trans hu.hartid⟩
  have hspp : ¬(s₁.csrs .sstatus).getLsbD spp = true := by
    rw [hstatus, spp_trapStatus]
    decide
  have hsie : (s₁.csrs .sstatus).getLsbD sie = false := by rw [hstatus, sie_trapStatus]
  have helse : SameElsewhere (k.trapframe p) mem s₁.mem := fun a ha =>
    hsame a fun q hq => ha q.2 (userFrame.place q hq).1
  obtain ⟨hserve, hexit⟩ := @user_interrupt_entered _ _ k (k.trapframe p) s₁ killed hspp
  rw [hcause] at hserve hexit
  refine ⟨s₁, hu.stvec, hrun, hpc.trans hu.trap, hra, hsp.trans hu.sp, hkernel, hsie, fun hk => ?_, fun hk => ?_⟩
  · obtain ⟨s₂, henter, he⟩ := hserve hk
    exact ⟨s₂, henter, he.left hkernel hregs (by rw [hsepc]) helse⟩
  · obtain ⟨s₂, henter, he⟩ := hexit hk
    exact ⟨s₂, henter, he.left hkernel hregs hsepc.symm helse⟩

/-- What `prepare_return` writes. -/
theorem prepare_return_mem {kstack : Word} {s : State} : (prepare_return k area kstack s).mem =
    Function.update (Function.update (Function.update (Function.update s.mem (slot area 0) (s.csrs .satp))
      (slot area 8) (kstack + 4096)) (slot area 16) k.usertrap) (slot area 32) (s.get .tp) := rfl

/-- The fields for the next trap. -/
theorem prepare_return_fields (k : KernelMap Cpu Proc) (area kstack : Word) (s : State) :
    (prepare_return k area kstack s).mem (slot area 0) = s.csrs .satp ∧
      (prepare_return k area kstack s).mem (slot area 8) = kstack + 4096 ∧
      (prepare_return k area kstack s).mem (slot area 16) = k.usertrap ∧
      (prepare_return k area kstack s).mem (slot area 32) = s.get .tp := by
  have hne : ∀ {o o'}, o < sizeofTrapframe → o' < sizeofTrapframe → o ≠ o' → slot area o ≠ slot area o' :=
    slot_ne_slot
  rw [prepare_return_mem]
  refine ⟨?_, ?_, ?_, Function.update_self ..⟩
  · rw [Function.update_of_ne (hne (by decide) (by decide) (by decide)),
      Function.update_of_ne (hne (by decide) (by decide) (by decide)),
      Function.update_of_ne (hne (by decide) (by decide) (by decide)), Function.update_self]
  · rw [Function.update_of_ne (hne (by decide) (by decide) (by decide)),
      Function.update_of_ne (hne (by decide) (by decide) (by decide)), Function.update_self]
  · rw [Function.update_of_ne (hne (by decide) (by decide) (by decide)), Function.update_self]

/-- The fields that `prepare_return` does not write. -/
theorem prepare_return_same {kstack : Word} {s : State} {o : Nat} (ho : o < sizeofTrapframe) (h0 : o ≠ 0)
    (h8 : o ≠ 8) (h16 : o ≠ 16) (h32 : o ≠ 32) :
    (prepare_return k area kstack s).mem (slot area o) = s.mem (slot area o) := by
  rw [prepare_return_mem, Function.update_of_ne (slot_ne_slot ho (by decide) h32),
    Function.update_of_ne (slot_ne_slot ho (by decide) h16), Function.update_of_ne (slot_ne_slot ho (by decide) h8),
    Function.update_of_ne (slot_ne_slot ho (by decide) h0)]

theorem prepare_return_saved {kstack : Word} {s : State} (hf : Saved s.mem area f) :
    Saved (prepare_return k area kstack s).mem area f where
  regs q hq := by
    have hfields : ∀ q ∈ (Reg.a0, 112) :: trapframe, q.2 ≠ 0 ∧ q.2 ≠ 8 ∧ q.2 ≠ 16 ∧ q.2 ≠ 32 := by decide
    obtain ⟨h0, h8, h16, h32⟩ := hfields q hq
    rw [prepare_return_same (userFrame.place q hq).1 h0 h8 h16 h32]
    exact hf.regs q hq
  epc := by
    rw [prepare_return_same (by decide) (by decide) (by decide) (by decide) (by decide)]
    exact hf.epc

/-- The status with which `prepare_return` leaves: a return from a trap of user code, to enabled interrupts. -/
theorem prepare_return_status {kstack : Word} {s : State} :
    ((prepare_return k area kstack s).csrs .sstatus).getLsbD spp = false ∧
      ((prepare_return k area kstack s).csrs .sstatus).getLsbD spie = true := by
  have hstatus : (prepare_return k area kstack s).csrs .sstatus =
    withBit (withBit (withBit (s.csrs .sstatus) sie false) spp false) spie true := rfl
  rw [hstatus]
  constructor
  · rw [getLsbD_withBit (by decide), if_neg (by decide), getLsbD_withBit (by decide), if_pos rfl]
  · rw [getLsbD_withBit (by decide), if_pos rfl]

/-- **The way back**: the CPU runs the code of the process with its registers and its page table, interrupts
enabled, and the next trap will find the kernel. -/
theorem KernelHart.back (hk : KernelHart k c h) (hf : Saved mem (k.trapframe p) f) {satp : Word}
    (hm : Maps mmu satp trapframeAddress (k.trapframe p) sizeofTrapframe) :
    ∃ s', Assembly.run mmu Xv6pp.userret
        ((prepare_return k (k.trapframe p) (k.kstack p) (State.mk h mem)).set .a0 satp) = some s' ∧
      s'.mode = .user ∧ s'.pc = f.epc ∧ (∀ r, r ≠ .zero → s'.get r = f.regs r) ∧ s'.csrs .satp = satp ∧
      (s'.csrs .sstatus).getLsbD sie = true ∧ UserHart k s'.mem mmu c p s'.toHart ∧
      SameElsewhere (k.trapframe p) mem s'.mem := by
  obtain ⟨s₁, hs₁⟩ : ∃ s₁, s₁ = prepare_return k (k.trapframe p) (k.kstack p) (State.mk h mem) := ⟨_, rfl⟩
  have hsaved₁ : Saved s₁.mem (k.trapframe p) f := hs₁ ▸ prepare_return_saved hf
  obtain ⟨hspp₁, hspie₁⟩ : (s₁.csrs .sstatus).getLsbD spp = false ∧ (s₁.csrs .sstatus).getLsbD spie = true :=
    hs₁ ▸ prepare_return_status
  have hsepc₁ : s₁.csrs .sepc = f.epc := by
    rw [← hsaved₁.epc, hs₁]
    rfl
  have hstvec₁ : s₁.csrs .stvec = k.uservec := hs₁ ▸ rfl
  have hm₁ : Maps mmu ((s₁.set .a0 satp).get .a0) trapframeAddress (k.trapframe p) sizeofTrapframe := by
    rwa [State.get_set_self (by decide)]
  obtain ⟨s₂, hrun, hregs, hmem, hcsrs⟩ := run_userret hm₁
  rw [State.get_set_self (by decide), State.set_csrs] at hcsrs
  rw [State.set_mem] at hregs hmem
  have hstatus₂ : s₂.csrs .sstatus = s₁.csrs .sstatus := by rw [hcsrs, Function.update_of_ne (by decide)]
  rw [← hs₁]
  refine ⟨s₂.sret, hrun, ?_, ?_, fun r hr => ?_, ?_, ?_, ?_, ?_⟩
  · rw [State.sret_mode, hstatus₂, hspp₁, if_neg (by decide)]
  · rw [State.sret_pc, hcsrs, Function.update_of_ne (by decide), hsepc₁]
  · obtain ⟨q, hq, rfl⟩ := List.mem_map.1 (mem_userRegs r hr)
    rw [State.sret_get, ← hregs q hq]
    exact hsaved₁.regs q hq
  · rw [State.sret_csrs, Function.update_of_ne (by decide), hcsrs, Function.update_self]
  · rw [State.sret_csrs, Function.update_self, sie_sretStatus, hstatus₂, hspie₁]
  · obtain ⟨hsatp, hsp, htrap, htp⟩ := prepare_return_fields k (k.trapframe p) (k.kstack p) (State.mk h mem)
    rw [← hs₁] at hsatp hsp htrap htp
    refine ⟨?_, ?_, ?_, ?_, ?_, ?_, ?_⟩
    · rw [State.sret_mode, hstatus₂, hspp₁, if_neg (by decide)]
    · rw [State.sret_csrs, Function.update_of_ne (by decide), hcsrs, Function.update_of_ne (by decide), hstvec₁]
    · rw [State.sret_csrs, Function.update_of_ne (by decide), hcsrs, Function.update_self]
      exact hm
    · rw [State.sret_mem, hmem, hsatp]
      exact hk.satp
    · rw [State.sret_mem, hmem, hsp]
    · rw [State.sret_mem, hmem, htrap]
    · rw [State.sret_mem, hmem, htp]
      exact hk.hartid
  · rw [State.sret_mem, hmem, hs₁, prepare_return_mem]
    exact (((SameElsewhere.refl.update (by decide) _).update (by decide) _).update (by decide) _).update
      (by decide) _

end

/-! ### Every step -/

section
variable {k : KernelMap Cpu Proc} {s : Users Cpu Proc} {c : Cpu} {p : Proc} {f : UserRegs} {h : Hart}
variable {mem : Word → Word} {mmu : Mmu}

omit [DecidableEq Cpu] [DecidableEq Proc] in
theorem live_of_user (hu : s.user c = some p) : s.Live p := .inr ⟨c, hu⟩

omit [DecidableEq Cpu] [DecidableEq Proc] in
theorem live_of_left (hf : s.left p = some f) : s.Live p := .inl (hf ▸ Option.some_ne_none f)

omit [DecidableEq Proc] in
theorem Inv.work (hi : Inv k s) (hc : s.user c = none) (hk : KernelHart k c h)
    (hsame : ∀ p, s.Live p → SameTrapframe (k.trapframe p) s.mem mem)
    (hmaps : ∀ c' p, s.user c' = some p →
      Maps s.mmu ((s.harts c').csrs .satp) trapframeAddress (k.trapframe p) sizeofTrapframe →
      Maps mmu ((s.harts c').csrs .satp) trapframeAddress (k.trapframe p) sizeofTrapframe) :
    Inv k { s with mem := mem, mmu := mmu, harts := Function.update s.harts c h } where
  kernel c' hc' := by
    dsimp only
    by_cases hcc : c' = c
    · subst hcc
      rwa [Function.update_self]
    · rw [Function.update_of_ne hcc]
      exact hi.kernel c' hc'
  user c' p hp := by
    have hcc : c' ≠ c := fun heq => by
      have hnone : s.user c' = none := heq ▸ hc
      exact absurd (hnone.symm.trans hp) (by simp)
    have hu := hi.user c' p hp
    have hu' : UserHart k mem mmu c' p (s.harts c') :=
      { hu.same (hsame p (live_of_user hp)) with maps := hmaps c' p hp hu.maps }
    dsimp only
    rwa [Function.update_of_ne hcc]
  alone := hi.alone
  once := hi.once
  apart := hi.apart
  holds p f hf := (hi.holds p f hf).same (hsame p (live_of_left hf))

omit [DecidableEq Cpu] in
theorem Inv.give (hi : Inv k s) (hp : ∀ c, s.user c ≠ some p)
    (hapart : ∀ q, s.Live q → q ≠ p → Apart (k.trapframe p) (k.trapframe q) sizeofTrapframe)
    (hf : Saved mem (k.trapframe p) f) (hsame : SameElsewhere (k.trapframe p) s.mem mem) :
    Inv k { s with mem := mem, left := Function.update s.left p (some f) } := by
  have hother : ∀ q, s.Live q → q ≠ p → SameTrapframe (k.trapframe q) s.mem mem := fun q hq hne =>
    hsame.trapframe (hapart q hq hne).symm
  have hlive : ∀ q, Live { s with mem := mem, left := Function.update s.left p (some f) } q → q ≠ p → s.Live q := by
    rintro q (hq | hq) hne
    · exact .inl ((Function.update_of_ne (f := s.left) hne ..) ▸ hq)
    · exact .inr hq
  have huser : ∀ c q, s.user c = some q → q ≠ p := fun c q hq heq => hp c (heq ▸ hq)
  refine ⟨hi.kernel, fun c q hq => ?_, fun c q hq => ?_, hi.once, fun q q' hq hq' hne => ?_, fun q g hg => ?_⟩
  · exact (hi.user c q hq).same (hother q (live_of_user hq) (huser c q hq))
  · dsimp only
    rw [Function.update_of_ne (huser c q hq)]
    exact hi.alone c q hq
  · by_cases hqp : q = p
    · subst hqp
      exact hapart q' (hlive q' hq' hne.symm) hne.symm
    by_cases hqp' : q' = p
    · subst hqp'
      exact (hapart q (hlive q hq hne) hne).symm
    · exact hi.apart q q' (hlive q hq hqp) (hlive q' hq' hqp') hne
  · dsimp only at hg ⊢
    by_cases hqp : q = p
    · subst hqp
      rw [Function.update_self] at hg
      cases hg
      exact hf
    · rw [Function.update_of_ne hqp] at hg
      exact (hi.holds q g hg).same (hother q (live_of_left hg) hqp)

omit [DecidableEq Cpu] in
theorem Inv.free (hi : Inv k s) : Inv k { s with left := Function.update s.left p none } := by
  have hleft : ∀ q, Function.update s.left p none q = none ∨ Function.update s.left p none q = s.left q :=
    fun q => by
      by_cases hqp : q = p
      · exact .inl (hqp ▸ Function.update_self ..)
      · exact .inr (Function.update_of_ne hqp ..)
  have hlive : ∀ q, Live { s with left := Function.update s.left p none } q → s.Live q := by
    rintro q (hq | hq)
    · exact .inl ((hleft q).resolve_left hq ▸ hq)
    · exact .inr hq
  refine ⟨hi.kernel, hi.user, fun c q hq => ?_, hi.once, fun q q' hq hq' => ?_, fun q g hg => ?_⟩
  · rcases hleft q with h | h
    · exact h
    · exact h.trans (hi.alone c q hq)
  · exact hi.apart q q' (hlive q hq) (hlive q' hq')
  · rcases hleft q with h | h
    · exact absurd (h.symm.trans hg) (by simp)
    · exact hi.holds q g (h.symm.trans hg)

omit [DecidableEq Proc] in
theorem Inv.run (hi : Inv k s) (hp : s.user c = some p)
    (hsame : ∀ q, s.Live q → SameTrapframe (k.trapframe q) s.mem mem) :
    Inv k { s with
      mem := mem
      harts := Function.update s.harts c { s.harts c with regs := f.regs, pc := f.epc } } where
  kernel c' hc' := by
    have hcc : c' ≠ c := fun heq => absurd (hc'.symm.trans (heq ▸ hp)) (by simp)
    dsimp only
    rw [Function.update_of_ne hcc]
    exact hi.kernel c' hc'
  user c' q hq := by
    have hu := (hi.user c' q hq).same (hsame q (live_of_user hq))
    dsimp only
    by_cases hcc : c' = c
    · subst hcc
      rw [Function.update_self]
      exact { hu with }
    · rwa [Function.update_of_ne hcc]
  alone := hi.alone
  once := hi.once
  apart := hi.apart
  holds q g hg := (hi.holds q g hg).same (hsame q (live_of_left hg))

omit [DecidableEq Proc] in
/-- The CPU `c` does not run the code of a process any more. -/
theorem Inv.stop (hi : Inv k s) (hk : KernelHart k c h) :
    Inv k { s with harts := Function.update s.harts c h, user := Function.update s.user c none } := by
  have huser : ∀ {c' q}, Function.update s.user c none c' = some q → c' ≠ c ∧ s.user c' = some q := by
    intro c' q hq
    have hcc : c' ≠ c := fun heq => absurd ((Function.update_self ..).symm.trans (heq ▸ hq)) (by simp)
    exact ⟨hcc, (Function.update_of_ne hcc ..).symm.trans hq⟩
  have hlive : ∀ q, Live { s with harts := Function.update s.harts c h
                                  user := Function.update s.user c none } q → s.Live q := by
    rintro q (hq | ⟨c', hq⟩)
    · exact .inl hq
    · exact .inr ⟨c', (huser hq).2⟩
  refine ⟨fun c' hc' => ?_, fun c' q hq => ?_, fun c' q hq => hi.alone c' q (huser hq).2,
    fun c₁ c₂ q h₁ h₂ => hi.once c₁ c₂ q (huser h₁).2 (huser h₂).2,
    fun q q' hq hq' => hi.apart q q' (hlive q hq) (hlive q' hq'), hi.holds⟩
  · dsimp only at hc' ⊢
    by_cases hcc : c' = c
    · subst hcc
      rwa [Function.update_self]
    · rw [Function.update_of_ne hcc] at hc' ⊢
      exact hi.kernel c' hc'
  · obtain ⟨hcc, hq⟩ := huser hq
    dsimp only
    rw [Function.update_of_ne hcc]
    exact hi.user c' q hq

/-- The process `p` comes from the CPU `c` into the kernel. -/
theorem Inv.trap (hi : Inv k s) (hp : s.user c = some p) (hk : KernelHart k c h)
    (hf : Saved mem (k.trapframe p) f) (hsame : SameElsewhere (k.trapframe p) s.mem mem) :
    Inv k { s with
      mem := mem
      harts := Function.update s.harts c h
      user := Function.update s.user c none
      left := Function.update s.left p (some f) } := by
  refine (hi.stop hk).give (fun c' hc' => ?_) (fun q hq hne => ?_) hf hsame
  · dsimp only at hc'
    have hcc : c' ≠ c := fun heq => absurd ((Function.update_self ..).symm.trans (heq ▸ hc')) (by simp)
    rw [Function.update_of_ne hcc] at hc'
    exact hcc (hi.once c' c p hc' hp)
  · refine hi.apart p q (live_of_user hp) ?_ hne.symm
    rcases hq with hq | ⟨c', hq⟩
    · exact .inl hq
    · dsimp only at hq
      by_cases hcc : c' = c
      · subst hcc
        rw [Function.update_self] at hq
        exact absurd hq (by simp)
      · rw [Function.update_of_ne hcc] at hq
        exact live_of_user hq

/-- The process `p` comes from the CPU `c` into the kernel, and does not go back. -/
theorem Inv.exit (hi : Inv k s) (hp : s.user c = some p) (hk : KernelHart k c h)
    (hf : Saved mem (k.trapframe p) f) (hsame : SameElsewhere (k.trapframe p) s.mem mem) :
    Inv k { s with
      mem := mem
      harts := Function.update s.harts c h
      user := Function.update s.user c none } := by
  have hleft : Function.update (Function.update s.left p (some f)) p none = s.left := by
    rw [Function.update_idem, ← hi.alone c p hp, Function.update_eq_self]
  have hfree := (hi.trap hp hk hf hsame).free (p := p)
  dsimp only at hfree
  rwa [hleft] at hfree

/-- The process `p` goes from the kernel to the CPU `c`. -/
theorem Inv.back (hi : Inv k s) (hc : s.user c = none) (hp : s.left p = some f)
    (hu : UserHart k mem s.mmu c p h) (hsame : SameElsewhere (k.trapframe p) s.mem mem) :
    Inv k { s with
      mem := mem
      harts := Function.update s.harts c h
      user := Function.update s.user c (some p)
      left := Function.update s.left p none } := by
  have hfree := hi.free (p := p)
  -- no CPU runs the code of the process yet
  have hnone : ∀ c', s.user c' ≠ some p := fun c' hc' => absurd ((hi.alone c' p hc').symm.trans hp) (by simp)
  have huser : ∀ {c' q}, Function.update s.user c (some p) c' = some q →
      c' = c ∧ q = p ∨ c' ≠ c ∧ s.user c' = some q ∧ q ≠ p := by
    intro c' q hq
    by_cases hcc : c' = c
    · subst hcc
      rw [Function.update_self] at hq
      exact .inl ⟨rfl, (Option.some.inj hq).symm⟩
    · rw [Function.update_of_ne hcc] at hq
      exact .inr ⟨hcc, hq, fun heq => hnone c' (heq ▸ hq)⟩
  have hleft : ∀ {q g}, Function.update s.left p none q = some g → q ≠ p ∧ s.left q = some g := by
    intro q g hg
    have hqp : q ≠ p := fun heq => absurd ((Function.update_self ..).symm.trans (heq ▸ hg)) (by simp)
    exact ⟨hqp, (Function.update_of_ne hqp ..).symm.trans hg⟩
  have hother : ∀ q, s.Live q → q ≠ p → SameTrapframe (k.trapframe q) s.mem mem := fun q hq hne =>
    hsame.trapframe (hi.apart q p hq (live_of_left hp) hne)
  have hlive : ∀ q, Live { s with
      mem := mem
      harts := Function.update s.harts c h
      user := Function.update s.user c (some p)
      left := Function.update s.left p none } q → s.Live q := by
    rintro q (hq | ⟨c', hq⟩)
    · obtain ⟨g, hg⟩ := Option.ne_none_iff_exists'.1 hq
      exact live_of_left (hleft hg).2
    · rcases huser hq with ⟨-, rfl⟩ | ⟨-, hq, -⟩
      · exact live_of_left hp
      · exact live_of_user hq
  refine ⟨fun c' hc' => ?_, fun c' q hq => ?_, fun c' q hq => ?_, fun c₁ c₂ q h₁ h₂ => ?_,
    fun q q' hq hq' => hi.apart q q' (hlive q hq) (hlive q' hq'), fun q g hg => ?_⟩
  · dsimp only at hc' ⊢
    have hcc : c' ≠ c := fun heq => absurd ((Function.update_self ..).symm.trans (heq ▸ hc')) (by simp)
    rw [Function.update_of_ne hcc] at hc' ⊢
    exact hi.kernel c' hc'
  · dsimp only
    rcases huser hq with ⟨rfl, rfl⟩ | ⟨hcc, hq, hne⟩
    · rwa [Function.update_self]
    · rw [Function.update_of_ne hcc]
      exact (hi.user c' q hq).same (hother q (live_of_user hq) hne)
  · dsimp only
    rcases huser hq with ⟨-, rfl⟩ | ⟨-, hq, hne⟩
    · exact Function.update_self ..
    · rw [Function.update_of_ne hne]
      exact hi.alone c' q hq
  · rcases huser h₁ with ⟨rfl, rfl⟩ | ⟨-, h₁, hne⟩
    · rcases huser h₂ with ⟨rfl, -⟩ | ⟨-, -, hne⟩
      · rfl
      · exact absurd rfl hne
    · rcases huser h₂ with ⟨-, rfl⟩ | ⟨-, h₂, -⟩
      · exact absurd rfl hne
      · exact hi.once c₁ c₂ q h₁ h₂
  · obtain ⟨hne, hg⟩ := hleft hg
    exact (hi.holds q g hg).same (hother q (live_of_left hg) hne)

/-- **The invariant holds in every state.** -/
theorem Reached.inv (hs : Reached k s) : Inv k s := by
  induction hs with
  | boot huser hleft hkernel =>
    refine ⟨fun c _ => hkernel c, fun c p hp => ?_, fun c p _ => hleft p, fun c _ p hp => ?_, fun p _ hp => ?_,
      fun p f hf => ?_⟩
    · exact absurd ((huser c).symm.trans hp) (by simp)
    · exact absurd ((huser c).symm.trans hp) (by simp)
    · rcases hp with hp | ⟨c, hp⟩
      · exact absurd (hleft p) hp
      · exact absurd ((huser c).symm.trans hp) (by simp)
    · exact absurd ((hleft p).symm.trans hf) (by simp)
  | work _ hc hk hsame hmaps ih => exact ih.work hc hk hsame hmaps
  | give _ hp hapart hf hsame ih => exact ih.give hp hapart hf hsame
  | free _ ih => exact ih.free
  | run _ hp hsame ih => exact ih.run hp hsame
  | @trap s c p cause killed s₁ s₂ _ hp _ hrun henter ih =>
    obtain ⟨s₁', -, hrun', -, -, -, -, -, hserve, hexit⟩ := (ih.user c p hp).trapped cause killed
    cases hrun.symm.trans hrun'
    by_cases hk : killed = true ∧ cause = 8
    · obtain ⟨s₂', henter', -⟩ := hexit hk
      cases henter.symm.trans henter'
    · obtain ⟨s₂', henter', hleft⟩ := hserve hk
      cases henter.symm.trans henter'
      exact ih.trap hp hleft.kernel hleft.saved hleft.elsewhere
  | @exit s c p cause killed s₁ s₂ _ hp _ hrun henter ih =>
    obtain ⟨s₁', -, hrun', -, -, -, -, -, hserve, hexit⟩ := (ih.user c p hp).trapped cause killed
    cases hrun.symm.trans hrun'
    by_cases hk : killed = true ∧ cause = 8
    · obtain ⟨s₂', henter', hleft⟩ := hexit hk
      cases henter.symm.trans henter'
      exact ih.exit hp hleft.kernel hleft.saved hleft.elsewhere
    · obtain ⟨s₂', henter', -⟩ := hserve hk
      cases henter.symm.trans henter'
  | @back s c p f satp s' _ hc hp hm hrun ih =>
    obtain ⟨s₁, hrun', -, -, -, -, -, hu, hsame⟩ := (ih.kernel c hc).back (ih.holds p f hp) hm
    cases hrun.symm.trans hrun'
    exact ih.back hc hp hu hsame

end

end Users

/-! ## Processes and traps -/

section
variable [DecidableEq Cpu] [DecidableEq Proc] {k : KernelMap Cpu Proc} {s : Users Cpu Proc} {c : Cpu} {p : Proc}

/-- **A trap of user code finds the kernel**, in every state and whatever its cause.  It goes to `uservec`, which
saves the registers of the process in its trapframe and calls `usertrap` on the kernel stack of the process,
with the page table of the kernel, the number of the CPU in `tp`, and interrupts disabled.  `user_interrupt`
does not panic.  It serves the trap, with the program counter saved too, behind the instruction of a system
call; but a process that was killed exits instead of its system call. -/
theorem user_trap_finds_kernel (hs : s.Reached k) (hp : s.user c = some p) (cause : Word) (killed : Bool) :
    ∃ s₁, ((State.mk (s.harts c) s.mem).trap cause).pc = k.uservec ∧
      run s.mmu (uservec k.userret) ((State.mk (s.harts c) s.mem).trap cause) = some s₁ ∧
      s₁.pc = k.usertrap ∧ s₁.get .ra = k.userret ∧ s₁.get .sp = k.kstack p + 4096 ∧ s₁.get .tp = k.hartid c ∧
      s₁.csrs .satp = k.satp ∧ s₁.mode = .supervisor ∧ (s₁.csrs .sstatus).getLsbD sie = false ∧
      (¬(killed = true ∧ cause = 8) → ∃ s₂, user_interrupt k (k.trapframe p) killed s₁ = some (.serve s₂) ∧
        s₂.csrs .stvec = k.kernelvec ∧ Saved s₂.mem (k.trapframe p)
          ⟨(State.mk (s.harts c) s.mem).get, if cause = 8 then (s.harts c).pc + 4 else (s.harts c).pc⟩) ∧
      (killed = true ∧ cause = 8 → ∃ s₂, user_interrupt k (k.trapframe p) killed s₁ = some (.exit s₂) ∧
        s₂.csrs .stvec = k.kernelvec ∧
        Saved s₂.mem (k.trapframe p) ⟨(State.mk (s.harts c) s.mem).get, (s.harts c).pc⟩) := by
  obtain ⟨s₁, hstvec, hrun, hpc, hra, hsp, hk, hsie, hserve, hexit⟩ :=
    (hs.inv.user c p hp).trapped cause killed
  refine ⟨s₁, hstvec, hrun, hpc, hra, hsp, hk.hartid, hk.satp, hk.mode, hsie, fun hkilled => ?_, fun hkilled => ?_⟩
  · obtain ⟨s₂, henter, hleft⟩ := hserve hkilled
    exact ⟨s₂, henter, hleft.stvec, hleft.saved⟩
  · obtain ⟨s₂, henter, hleft⟩ := hexit hkilled
    exact ⟨s₂, henter, hleft.stvec, hleft.saved⟩

/-- **A process goes on with its registers**: the ones with which it came into the kernel, unless the kernel gave
it others, and where it was; whatever the kernel and the other processes have done in between, and on
whatever CPU.  It runs in user mode, with its own page table and with interrupts enabled. -/
theorem user_goes_on (hs : s.Reached k) (hc : s.user c = none) {f : UserRegs} (hp : s.left p = some f)
    {satp : Word} (hm : Maps s.mmu satp trapframeAddress (k.trapframe p) sizeofTrapframe) :
    ∃ s', run s.mmu userret
        ((prepare_return k (k.trapframe p) (k.kstack p) (State.mk (s.harts c) s.mem)).set .a0 satp) = some s' ∧
      s'.mode = .user ∧ s'.pc = f.epc ∧ (∀ r, r ≠ .zero → s'.get r = f.regs r) ∧ s'.csrs .satp = satp ∧
      (s'.csrs .sstatus).getLsbD sie = true := by
  obtain ⟨s', hrun, hmode, hpc, hregs, hsatp, hsie, -, -⟩ :=
    (hs.inv.kernel c hc).back (hs.inv.holds p f hp) hm
  exact ⟨s', hrun, hmode, hpc, hregs, hsatp, hsie⟩

end

end

/-- A kernel for two CPUs and one process. -/
def oneProcess : KernelMap Bool Unit where
  kernelvec := 0x80005000
  uservec := 0x3ffffff000
  userret := 0x3ffffff090
  usertrap := 0x80002000
  satp := 0x8000000000087fff
  hartid c := if c then 1 else 0
  trapframe _ := 0x87f76000
  kstack _ := 0x3fffffd000

/-- The registers of the process: each has the address of its place in the trapframe. -/
def firstRegs (r : Reg) : Word :=
  ((((Reg.a0, 112) :: trapframe).lookup r).map (slot 0x87f76000)).getD 0

/-- The CPUs have started, and the process has been made. -/
def oneProcessMade : Users Bool Unit where
  mem a := a
  mmu _ va := some (0x87f76000 + (va - trapframeAddress))
  harts c := ⟨fun r => if r = .tp then oneProcess.hartid c else 0, fun r => if r = .satp then oneProcess.satp else 0,
    .supervisor, 0⟩
  user _ := none
  left := Function.update (fun _ => none) () (some ⟨firstRegs, 0x87f76018⟩)

theorem oneProcessMade_saved : Saved oneProcessMade.mem (oneProcess.trapframe ()) ⟨firstRegs, 0x87f76018⟩ where
  regs := by
    have hplaces : ∀ q ∈ (Reg.a0, 112) :: trapframe, slot 0x87f76000 q.2 = firstRegs q.1 := by decide
    exact hplaces
  epc := by decide

theorem oneProcessMade_reached : oneProcessMade.Reached oneProcess := by
  refine .give (s := { oneProcessMade with left := fun _ => none }) (.boot ?_ ?_ ?_) ?_ ?_ oneProcessMade_saved ?_
  · exact fun _ => rfl
  · exact fun _ => rfl
  · exact fun _ => ⟨rfl, rfl, rfl⟩
  · exact fun _ h => absurd h (Option.some_ne_none ()).symm
  · exact fun _ _ hne => absurd rfl hne
  · exact fun _ _ => rfl

theorem oneProcessMade_maps (satp : Word) :
    Maps oneProcessMade.mmu satp trapframeAddress (oneProcess.trapframe ()) sizeofTrapframe where
  aligned := by decide
  page o _ _ := by
    have hoff : trapframeAddress + BitVec.ofNat 64 o - trapframeAddress = BitVec.ofNat 64 o := by
      rw [BitVec.add_comm, BitVec.add_sub_cancel]
    exact congrArg (fun w => some (0x87f76000 + w)) hoff

/-- The registers after some code of the process. -/
def nextRegs (r : Reg) : Word := if r = .zero then 0 else firstRegs r + 1

/-- The process has run on a CPU, to an `ecall`. -/
theorem oneProcess_ran : ∃ s : Users Bool Unit, s.Reached oneProcess ∧ s.mmu = oneProcessMade.mmu ∧
    s.user false = some () ∧ s.user true = none ∧ (State.mk (s.harts false) s.mem).get = nextRegs ∧
    (s.harts false).pc = 0x1000 := by
  obtain ⟨s', hrun, -⟩ := (oneProcessMade_reached.inv.kernel false rfl).back
    (oneProcessMade_reached.inv.holds () ⟨firstRegs, 0x87f76018⟩ rfl) (oneProcessMade_maps 0x8000000000087f00)
  refine ⟨_, .run (c := false) (p := ()) (f := ⟨nextRegs, 0x1000⟩)
    (.back oneProcessMade_reached rfl rfl (oneProcessMade_maps _) hrun) rfl fun _ _ _ _ => rfl, rfl, rfl, rfl, ?_, rfl⟩
  funext r
  cases r <;> rfl

theorem user_trap_finds_kernel_first :
    ∃ s : Users Bool Unit, s.user false = some () ∧
      (∃ s₁ s₂, run s.mmu (uservec oneProcess.userret) ((State.mk (s.harts false) s.mem).trap 8) = some s₁ ∧
        s₁.pc = 0x80002000 ∧ user_interrupt oneProcess 0x87f76000 false s₁ = some (.serve s₂) ∧
        Saved s₂.mem 0x87f76000 ⟨nextRegs, 0x1004⟩) ∧
      (∃ s₁ s₂, run s.mmu (uservec oneProcess.userret) ((State.mk (s.harts false) s.mem).trap 8) = some s₁ ∧
        s₁.pc = 0x80002000 ∧ user_interrupt oneProcess 0x87f76000 true s₁ = some (.exit s₂) ∧
        Saved s₂.mem 0x87f76000 ⟨nextRegs, 0x1000⟩) := by
  obtain ⟨s, hs, -, hp, -, hregs, hpc⟩ := oneProcess_ran
  refine ⟨s, hp, ?_, ?_⟩
  · obtain ⟨s₁, -, hrun, hpc₁, -, -, -, -, -, -, hserve, -⟩ := user_trap_finds_kernel hs hp 8 false
    obtain ⟨s₂, henter, -, hsaved⟩ := hserve (by decide)
    rw [hregs, hpc] at hsaved
    exact ⟨s₁, s₂, hrun, hpc₁, henter, hsaved⟩
  · obtain ⟨s₁, -, hrun, hpc₁, -, -, -, -, -, -, -, hexit⟩ := user_trap_finds_kernel hs hp 8 true
    obtain ⟨s₂, henter, -, hsaved⟩ := hexit (by decide)
    rw [hregs, hpc] at hsaved
    exact ⟨s₁, s₂, hrun, hpc₁, henter, hsaved⟩

/-- The `ecall` is served. -/
theorem oneProcess_called : ∃ s : Users Bool Unit, s.Reached oneProcess ∧ s.mmu = oneProcessMade.mmu ∧
    s.user true = none ∧ s.left () = some ⟨nextRegs, 0x1004⟩ := by
  obtain ⟨s, hs, hmmu, hp, hother, hregs, hpc⟩ := oneProcess_ran
  obtain ⟨s₁, hstvec, hrun, -, -, -, -, -, hserve, -⟩ := (hs.inv.user false () hp).trapped 8 false
  obtain ⟨s₂, henter, -⟩ := hserve (by decide)
  refine ⟨_, .trap hs hp hstvec hrun henter, hmmu, ?_, ?_⟩
  · have hne : true ≠ false := by decide
    dsimp only
    rw [Function.update_of_ne hne, hother]
  · dsimp only
    rw [Function.update_self, if_pos rfl, hregs, hpc]
    rfl

theorem user_goes_on_first :
    ∃ s : Users Bool Unit, s.Reached oneProcess ∧ s.left () = some ⟨nextRegs, 0x1004⟩ ∧
      ∃ s', run s.mmu userret
          ((prepare_return oneProcess 0x87f76000 0x3fffffd000
            (State.mk (s.harts true) s.mem)).set .a0 0x8000000000087f00) = some s' ∧
        s'.mode = .user ∧ s'.pc = 0x1004 ∧ (∀ r, r ≠ .zero → s'.get r = nextRegs r) ∧
        s'.csrs .satp = 0x8000000000087f00 ∧ (s'.csrs .sstatus).getLsbD sie = true := by
  obtain ⟨s, hs, hmmu, hc, hleft⟩ := oneProcess_called
  exact ⟨s, hs, hleft, user_goes_on hs hc hleft (hmmu ▸ oneProcessMade_maps 0x8000000000087f00)⟩

end Xv6pp
