import Xv6pp.Lib.Assembly

/-!
# Interrupts of the kernel

`kernel/kernelvec.S`, `kernel/flag_guard.h`, and `kernel_interrupt` and `device_interrupt` of
`kernel/interrupt_manager.cpp`.  An interrupt can come between any two instructions of the kernel, and `yield`
may then give the CPU away for long: the code that was interrupted goes on with every register as it was, but
for `tp`, which names the CPU.  A CPU serves one interrupt of the kernel at a time; the flag `hkintr`, which
checks this, is clear again when `yield` is called.
-/

set_option autoImplicit false

namespace Xv6pp

open Assembly

/-- `kernelvec` up to the call of `kerneltrap`. -/
def kernelvecSave : List Instr :=
  [.addi .sp .sp (-256),
    .sd .ra 0 .sp, .sd .gp 16 .sp, .sd .tp 24 .sp, .sd .t0 32 .sp, .sd .t1 40 .sp, .sd .t2 48 .sp,
    .sd .a0 72 .sp, .sd .a1 80 .sp, .sd .a2 88 .sp, .sd .a3 96 .sp, .sd .a4 104 .sp, .sd .a5 112 .sp,
    .sd .a6 120 .sp, .sd .a7 128 .sp, .sd .t3 216 .sp, .sd .t4 224 .sp, .sd .t5 232 .sp, .sd .t6 240 .sp]

/-- `kernelvec` from there on. -/
def kernelvecRestore : List Instr :=
  [.ld .ra 0 .sp, .ld .gp 16 .sp, .ld .t0 32 .sp, .ld .t1 40 .sp, .ld .t2 48 .sp, .ld .a0 72 .sp,
    .ld .a1 80 .sp, .ld .a2 88 .sp, .ld .a3 96 .sp, .ld .a4 104 .sp, .ld .a5 112 .sp, .ld .a6 120 .sp,
    .ld .a7 128 .sp, .ld .t3 216 .sp, .ld .t4 224 .sp, .ld .t5 232 .sp, .ld .t6 240 .sp,
    .addi .sp .sp 256,
    .sret]

/-- A CPU with the memory, and the flags `hkintr` of the CPUs, by their numbers. -/
structure TrapState where
  state : State
  /-- Is the CPU handling a kernel interrupt? -/
  hkintr : Word → Bool

/-- The flag of the CPU that runs, `kernel.cpus.cpu().hkintr`: `tp` is its number. -/
def TrapState.handling (s : TrapState) : Bool := s.hkintr (s.state.get .tp)

/-- `flag_guard::flag_guard` on the flag of the CPU `cpu`.  There is no result if the flag is already set, and
it panics. -/
def flag_guard (cpu : Word) (s : TrapState) : Option TrapState :=
  if s.hkintr cpu = true then none else some { s with hkintr := Function.update s.hkintr cpu true }

/-- `flag_guard::~flag_guard`.  There is no result if the flag was already cleared, and it panics. -/
def flag_guard_end (cpu : Word) (s : TrapState) : Option TrapState :=
  if s.hkintr cpu = true then some { s with hkintr := Function.update s.hkintr cpu false } else none

/-- The parts of the kernel that serve an interrupt. -/
structure Handlers where
  /-- Ask the PLIC, and call the handler of the device. -/
  external : TrapState → Option TrapState
  clock_tick : TrapState → Option TrapState
  /-- Give up the CPU, if there is a process. -/
  yield : TrapState → Option TrapState

/-- `interrupt_manager::device_interrupt`. -/
def device_interrupt (k : Handlers) (s : TrapState) : Option (TrapState × Nat) :=
  if s.state.csrs .scause = 0x8000000000000009 then (k.external s).map fun s => (s, 1)
  else if s.state.csrs .scause = 0x8000000000000005 then (k.clock_tick s).map fun s => (s, 2)
  else some (s, 0)

/-- `interrupt_manager::kernel_interrupt`.  There is no result if it panics. -/
def kernel_interrupt (k : Handlers) (s : TrapState) : Option TrapState :=
  let sepc := s.state.csrs .sepc
  let sstatus := s.state.csrs .sstatus
  let cpu := s.state.get .tp
  (flag_guard cpu s).bind fun s =>
    if sstatus.getLsbD spp = false then none
    else if (s.state.csrs .sstatus).getLsbD sie = true then none
    else (device_interrupt k s).bind fun d =>
      if d.2 = 0 then none
      else (flag_guard_end cpu d.1).bind fun s =>
        -- the guard is gone before `yield`, which another interrupt can follow
        (if d.2 = 2 then k.yield s else some s).map fun s =>
          { s with state := (s.state.setCsr .sepc sepc).setCsr .sstatus sstatus }

/-- `kernelvec`; `next` is the address of the instruction after the call. -/
def kernelvec (mmu : Mmu) (k : Handlers) (next : Word) (s : TrapState) : Option TrapState :=
  (run mmu kernelvecSave s.state).bind fun saved =>
    (kernel_interrupt k { s with state := saved.set .ra next }).bind fun s =>
      (run mmu kernelvecRestore s.state).map fun restored => { s with state := restored }

/-! ## What compiled code keeps -/

/-- The registers that compiled code gives back as they were. -/
def calleeSaved : List Reg := [.sp, .s0, .s1, .s2, .s3, .s4, .s5, .s6, .s7, .s8, .s9, .s10, .s11]

/-- What a call of compiled code keeps, if the 256 bytes at the stack pointer are at `frame`: what belongs
to its caller. -/
structure Keeps (frame : Word) (s s' : State) : Prop where
  saved : ∀ r ∈ calleeSaved, s'.get r = s.get r
  satp : s'.csrs .satp = s.csrs .satp
  mode : s'.mode = s.mode
  stack : ∀ o < 256, s'.mem (slot frame o) = s.mem (slot frame o)

/-- **The calling convention**, for the handler of a device or of the clock: code that is called returns, and
keeps what belongs to its caller.  Interrupts are disabled, so that it stays on its CPU, and no other interrupt
of the kernel is served there. -/
def Conventional (mmu : Mmu) (f : TrapState → Option TrapState) : Prop :=
  ∀ s frame, Maps mmu (s.state.csrs .satp) (s.state.get .sp) frame 256 →
    ∃ s', f s = some s' ∧ Keeps frame s.state s'.state ∧ s'.state.get .tp = s.state.get .tp ∧
      s'.handling = s.handling

/-- **The calling convention**, for `yield`: it may come back on another CPU, and other interrupts may have been
served in between.  Like each of them, it leaves the flag of the CPU clear. -/
def Yielding (mmu : Mmu) (f : TrapState → Option TrapState) : Prop :=
  ∀ s frame, Maps mmu (s.state.csrs .satp) (s.state.get .sp) frame 256 → s.handling = false →
    ∃ s', f s = some s' ∧ Keeps frame s.state s'.state ∧ s'.handling = false

theorem Keeps.trans {frame : Word} {s₁ s₂ s₃ : State} (h : Keeps frame s₁ s₂) (h' : Keeps frame s₂ s₃) :
    Keeps frame s₁ s₃ where
  saved r hr := (h'.saved r hr).trans (h.saved r hr)
  satp := h'.satp.trans h.satp
  mode := h'.mode.trans h.mode
  stack o ho := (h'.stack o ho).trans (h.stack o ho)

theorem Keeps.refl (frame : Word) (s : State) : Keeps frame s s where
  saved _ _ := rfl
  satp := rfl
  mode := rfl
  stack _ _ := rfl

/-- The stack is still where it was. -/
theorem Keeps.maps {mmu : Mmu} {frame : Word} {s s' : State} (h : Keeps frame s s')
    (hm : Maps mmu (s.csrs .satp) (s.get .sp) frame 256) : Maps mmu (s'.csrs .satp) (s'.get .sp) frame 256 := by
  rwa [h.satp, h.saved .sp (by decide)]

section
variable {mmu : Mmu} {k : Handlers} {s : TrapState} {frame cpu : Word}

theorem flag_guard_eq (hflag : s.hkintr cpu = false) :
    flag_guard cpu s = some { s with hkintr := Function.update s.hkintr cpu true } :=
  if_neg (by rw [hflag]; decide)

theorem flag_guard_end_eq (hflag : s.hkintr cpu = true) :
    flag_guard_end cpu s = some { s with hkintr := Function.update s.hkintr cpu false } :=
  if_pos hflag

/-- The device of an interrupt is served; the timer's is followed by `yield`. -/
theorem device_interrupt_keeps (hext : Conventional mmu k.external) (htick : Conventional mmu k.clock_tick)
    (hm : Maps mmu (s.state.csrs .satp) (s.state.get .sp) frame 256)
    (hcause : s.state.csrs .scause = 0x8000000000000009 ∨ s.state.csrs .scause = 0x8000000000000005) :
    ∃ s' n, device_interrupt k s = some (s', n) ∧ n ≠ 0 ∧ Keeps frame s.state s'.state ∧
      s'.state.get .tp = s.state.get .tp ∧ s'.handling = s.handling := by
  rcases hcause with hcause | hcause
  · obtain ⟨s', hs', hkeeps⟩ := hext s frame hm
    exact ⟨s', 1, by rw [device_interrupt, if_pos hcause, hs']; rfl, by decide, hkeeps⟩
  · obtain ⟨s', hs', hkeeps⟩ := htick s frame hm
    refine ⟨s', 2, ?_, by decide, hkeeps⟩
    rw [device_interrupt, if_neg (by rw [hcause]; decide), if_pos hcause, hs']
    rfl

/-- **`kernel_interrupt`** does not panic for a device's or the timer's interrupt of the kernel, if the CPU serves
no other, and gives back `sepc` and `sstatus`; the CPU can serve the next one. -/
theorem kernel_interrupt_keeps (hext : Conventional mmu k.external) (htick : Conventional mmu k.clock_tick)
    (hyield : Yielding mmu k.yield) (hm : Maps mmu (s.state.csrs .satp) (s.state.get .sp) frame 256)
    (hcause : s.state.csrs .scause = 0x8000000000000009 ∨ s.state.csrs .scause = 0x8000000000000005)
    (hspp : (s.state.csrs .sstatus).getLsbD spp = true) (hsie : (s.state.csrs .sstatus).getLsbD sie = false)
    (hflag : s.handling = false) :
    ∃ s', kernel_interrupt k s = some s' ∧ Keeps frame s.state s'.state ∧
      s'.state.csrs .sepc = s.state.csrs .sepc ∧ s'.state.csrs .sstatus = s.state.csrs .sstatus ∧
      s'.handling = false := by
  obtain ⟨s₀, hs₀⟩ : ∃ s₀ : TrapState, s₀ =
    { s with hkintr := Function.update s.hkintr (s.state.get .tp) true } := ⟨_, rfl⟩
  have hstate₀ : s₀.state = s.state := hs₀ ▸ rfl
  have hflag₀ : s₀.handling = true := by
    rw [hs₀]
    exact Function.update_self ..
  obtain ⟨s₁, n, hdev, hn, hkeeps₁, htp₁, hflag₁⟩ := device_interrupt_keeps (s := s₀) hext htick
    (by rwa [hstate₀]) (by rwa [hstate₀])
  rw [hstate₀] at hkeeps₁ htp₁
  -- the handlers leave the flag set
  have hset₁ : s₁.hkintr (s.state.get .tp) = true := by
    rw [← htp₁]
    exact hflag₁.trans hflag₀
  obtain ⟨s₂, hs₂⟩ : ∃ s₂ : TrapState, s₂ =
    { s₁ with hkintr := Function.update s₁.hkintr (s.state.get .tp) false } := ⟨_, rfl⟩
  have hstate₂ : s₂.state = s₁.state := hs₂ ▸ rfl
  have hflag₂ : s₂.handling = false := by
    rw [TrapState.handling, hstate₂, htp₁, hs₂]
    exact Function.update_self ..
  obtain ⟨s₃, hserve, hkeeps₃, hflag₃⟩ : ∃ s₃, (if n = 2 then k.yield s₂ else some s₂) = some s₃ ∧
      Keeps frame s₂.state s₃.state ∧ s₃.handling = false := by
    by_cases hn2 : n = 2
    · rw [if_pos hn2]
      exact hyield s₂ frame (hstate₂ ▸ hkeeps₁.maps hm) hflag₂
    · rw [if_neg hn2]
      exact ⟨s₂, rfl, .refl .., hflag₂⟩
  have hkeeps := hkeeps₁.trans (hstate₂ ▸ hkeeps₃)
  refine ⟨{ s₃ with state := (s₃.state.setCsr .sepc (s.state.csrs .sepc)).setCsr .sstatus (s.state.csrs .sstatus) },
    ?_, ⟨hkeeps.saved, hkeeps.satp, hkeeps.mode, hkeeps.stack⟩, rfl, rfl, hflag₃⟩
  rw [kernel_interrupt, flag_guard_eq hflag, Option.bind_some, ← hs₀, hstate₀,
    if_neg (by rw [hspp]; decide), if_neg (by rw [hsie]; decide), hdev, Option.bind_some, if_neg hn,
    flag_guard_end_eq hset₁, Option.bind_some, ← hs₂, hserve]
  rfl

end

/-! ## `kernelvec` -/

/-- The registers that `kernelvec` restores, and their places on the stack. -/
def kernelvecRestored : List (Reg × Nat) :=
  [(.ra, 0), (.gp, 16), (.t0, 32), (.t1, 40), (.t2, 48), (.a0, 72), (.a1, 80), (.a2, 88), (.a3, 96), (.a4, 104),
    (.a5, 112), (.a6, 120), (.a7, 128), (.t3, 216), (.t4, 224), (.t5, 232), (.t6, 240)]

/-- The registers that it saves. -/
def kernelvecSaved : List (Reg × Nat) :=
  [(.ra, 0), (.gp, 16), (.tp, 24), (.t0, 32), (.t1, 40), (.t2, 48), (.a0, 72), (.a1, 80), (.a2, 88), (.a3, 96),
    (.a4, 104), (.a5, 112), (.a6, 120), (.a7, 128), (.t3, 216), (.t4, 224), (.t5, 232), (.t6, 240)]

theorem kernelvecSave_eq : kernelvecSave = .addi .sp .sp (-256) :: stores .sp kernelvecSaved := rfl

theorem kernelvecRestore_eq :
    kernelvecRestore = loads .sp kernelvecRestored ++ [.addi .sp .sp 256, .sret] := rfl

theorem kernelvecSaved_frame : Frame kernelvecSaved 256 where
  nodup := by decide
  place := by decide
  size := by decide

theorem kernelvecRestored_frame : Frame kernelvecRestored 256 where
  nodup := by decide
  place := by decide
  size := by decide

theorem mem_saved_of_restored : ∀ p ∈ kernelvecRestored, p ∈ kernelvecSaved := by decide

theorem sp_not_saved : Reg.sp ∉ kernelvecSaved.map Prod.fst := by decide

/-- A register is restored by `kernelvec`, or by the code that it calls, or it is `tp`. -/
theorem restored_or_saved (r : Reg) (htp : r ≠ .tp) :
    r ∈ kernelvecRestored.map Prod.fst ∨ r = .zero ∨ r ∈ calleeSaved := by
  cases r <;> first | exact absurd rfl htp | decide

section
variable {mmu : Mmu} {k : Handlers} {s : State} {frame : Word}

/-- The registers are saved, below the stack pointer. -/
theorem run_kernelvecSave (hm : Maps mmu (s.csrs .satp) (s.get .sp + BitVec.ofInt 64 (-256)) frame 256) :
    ∃ s', run mmu kernelvecSave s = some s' ∧ s'.csrs = s.csrs ∧ s'.mode = s.mode ∧
      s'.get .sp = s.get .sp + BitVec.ofInt 64 (-256) ∧ (∀ r, r ≠ .sp → s'.get r = s.get r) ∧
      Holds s'.mem frame kernelvecSaved s.get := by
  obtain ⟨s₀, hs₀⟩ : ∃ s₀, s₀ = s.set .sp (s.get .sp + BitVec.ofInt 64 (-256)) := ⟨_, rfl⟩
  have hsp : s₀.get .sp = s.get .sp + BitVec.ofInt 64 (-256) := by
    rw [hs₀]
    exact State.get_set_self (by decide)
  have hget : ∀ r, r ≠ .sp → s₀.get r = s.get r := fun r hr => by
    rw [hs₀]
    exact State.get_set_ne (by decide) hr
  have hcsrs : s₀.csrs = s.csrs := by rw [hs₀, State.set_csrs]
  have hmode : s₀.mode = s.mode := by rw [hs₀, State.set_mode]
  obtain ⟨mem, hstores, hsaved, -⟩ := run_stores (s := s₀) (by rwa [hsp, hcsrs]) kernelvecSaved_frame
  refine ⟨{ s₀ with mem := mem }, ?_, hcsrs, hmode, hsp, hget, fun p hp => ?_⟩
  · rw [kernelvecSave_eq, run_cons exec_addi, ← hs₀]
    exact hstores
  · exact (hsaved p hp).trans (hget _ fun heq => sp_not_saved (heq ▸ List.mem_map_of_mem hp))

/-- The registers are loaded from there. -/
theorem run_kernelvecRestore (hm : Maps mmu (s.csrs .satp) (s.get .sp) frame 256) :
    ∃ s' : State, run mmu kernelvecRestore s = some s'.sret ∧ s'.csrs = s.csrs ∧ s'.mem = s.mem ∧
      s'.get .sp = s.get .sp + BitVec.ofInt 64 256 ∧ Holds s.mem frame kernelvecRestored s'.get ∧
      ∀ r, r ≠ .sp → r ∉ kernelvecRestored.map Prod.fst → s'.get r = s.get r := by
  obtain ⟨s₁, hloads, hmem, hcsrs, -, hloaded, hsame⟩ :=
    run_loads hm kernelvecRestored_frame (by decide) (by decide) (by decide)
  have hsp : s₁.get .sp = s.get .sp := hsame .sp (by decide)
  refine ⟨s₁.set .sp (s.get .sp + BitVec.ofInt 64 256), ?_, State.set_csrs.trans hcsrs,
    State.set_mem.trans hmem, State.get_set_self (by decide), fun p hp => ?_, fun r hr hnot => ?_⟩
  · rw [kernelvecRestore_eq, run_append_some hloads, run_cons exec_addi, hsp, run_cons exec_sret, run]
  · have hne : p.1 ≠ .sp := fun heq =>
      sp_not_saved (heq ▸ List.mem_map_of_mem (mem_saved_of_restored p hp))
    rw [State.get_set_ne (by decide) hne]
    exact hloaded p hp
  · rw [State.get_set_ne (by decide) hr]
    exact hsame r hnot

end

section
variable {mmu : Mmu} {k : Handlers} {s : TrapState} {frame : Word}

/-- **`kernelvec`**, with the 256 bytes below the stack pointer at `frame`. -/
theorem run_kernelvec (next : Word) (hext : Conventional mmu k.external) (htick : Conventional mmu k.clock_tick)
    (hyield : Yielding mmu k.yield)
    (hm : Maps mmu (s.state.csrs .satp) (s.state.get .sp + BitVec.ofInt 64 (-256)) frame 256)
    (hcause : s.state.csrs .scause = 0x8000000000000009 ∨ s.state.csrs .scause = 0x8000000000000005)
    (hspp : (s.state.csrs .sstatus).getLsbD spp = true) (hsie : (s.state.csrs .sstatus).getLsbD sie = false)
    (hflag : s.handling = false) :
    ∃ (st : State) (hkintr : Word → Bool), kernelvec mmu k next s = some ⟨st.sret, hkintr⟩ ∧
      st.csrs .sepc = s.state.csrs .sepc ∧ st.csrs .sstatus = s.state.csrs .sstatus ∧
      st.csrs .satp = s.state.csrs .satp ∧ (∀ r, r ≠ .tp → st.get r = s.state.get r) ∧
      hkintr (st.get .tp) = false := by
  obtain ⟨s₁, hsave, hcsrs₁, -, hsp₁, hget₁, hsaved⟩ := run_kernelvecSave hm
  -- the handlers run on the stack below
  have hget₂ : ∀ r, r ≠ .ra → (s₁.set .ra next).get r = s₁.get r := fun r hr =>
    State.get_set_ne (by decide) hr
  have hm₂ : Maps mmu ((s₁.set .ra next).csrs .satp) ((s₁.set .ra next).get .sp) frame 256 := by
    rwa [State.set_csrs, hcsrs₁, hget₂ .sp (by decide), hsp₁]
  have hcsrs₂ : (s₁.set .ra next).csrs = s.state.csrs := State.set_csrs.trans hcsrs₁
  have hflag₂ : TrapState.handling { s with state := s₁.set .ra next } = false := by
    rw [TrapState.handling, hget₂ .tp (by decide), hget₁ .tp (by decide)]
    exact hflag
  obtain ⟨s₃, hserve, hkeeps, hsepc, hstatus, hflag₃⟩ := kernel_interrupt_keeps
    (s := { s with state := s₁.set .ra next }) hext htick hyield hm₂
    (hcsrs₂ ▸ hcause) (hcsrs₂ ▸ hspp) (hcsrs₂ ▸ hsie) hflag₂
  rw [hcsrs₂] at hsepc hstatus
  obtain ⟨s₄, hrestore, hcsrs₄, -, hsp₄, hloaded, hsame⟩ := run_kernelvecRestore (hkeeps.maps hm₂)
  have hsp₃ : s₃.state.get .sp = s.state.get .sp + BitVec.ofInt 64 (-256) := by
    rw [hkeeps.saved .sp (by decide), hget₂ .sp (by decide), hsp₁]
  refine ⟨s₄, s₃.hkintr, ?_, by rw [hcsrs₄, hsepc], by rw [hcsrs₄, hstatus], ?_, fun r htp => ?_, ?_⟩
  · rw [kernelvec, hsave, Option.bind_some, hserve, Option.bind_some, hrestore]
    rfl
  · rw [hcsrs₄, hkeeps.satp, hcsrs₂]
  · rcases restored_or_saved r htp with hr | rfl | hr
    · -- what was saved was not overwritten
      obtain ⟨p, hp, rfl⟩ := List.mem_map.1 hr
      rw [← hloaded p hp, hkeeps.stack _ (kernelvecRestored_frame.place p hp).1, State.set_mem]
      exact hsaved p (mem_saved_of_restored p hp)
    · rfl
    · by_cases hsp : r = .sp
      · subst hsp
        have hback : BitVec.ofInt 64 (-256) + BitVec.ofInt 64 256 = 0#64 := by decide
        rw [hsp₄, hsp₃, BitVec.add_assoc, hback, BitVec.add_zero]
      · have hnot : r ∉ kernelvecRestored.map Prod.fst := by
          revert hr
          cases r <;> decide
        have hra : r ≠ .ra := by
          rintro rfl
          exact hnot (by decide)
        rw [hsame r hsp hnot, hkeeps.saved r hr, hget₂ r hra, hget₁ r hsp]
  · rw [hsame .tp (by decide) (by decide)]
    exact hflag₃

/-- **An interrupt of the kernel is transparent.**  If the kernel is interrupted by a device or by the timer, and
its CPU serves no interrupt of the kernel yet, then `kernel_interrupt` does not panic, and the kernel goes on
where it was, in supervisor mode, with interrupts enabled if they were, and with every register as it was,
except for `tp`; its CPU can be interrupted again. -/
theorem kernel_interrupt_transparent (next : Word) (hext : Conventional mmu k.external)
    (htick : Conventional mmu k.clock_tick) (hyield : Yielding mmu k.yield) (hmode : s.state.mode = .supervisor)
    (hm : Maps mmu (s.state.csrs .satp) (s.state.get .sp + BitVec.ofInt 64 (-256)) frame 256)
    (hflag : s.handling = false) {cause : Word}
    (hcause : cause = 0x8000000000000009 ∨ cause = 0x8000000000000005) :
    ∃ s', kernelvec mmu k next { s with state := s.state.trap cause } = some s' ∧ s'.state.pc = s.state.pc ∧
      s'.state.mode = .supervisor ∧
      (s'.state.csrs .sstatus).getLsbD sie = (s.state.csrs .sstatus).getLsbD sie ∧
      s'.state.csrs .satp = s.state.csrs .satp ∧ (∀ r, r ≠ .tp → s'.state.get r = s.state.get r) ∧
      s'.handling = false := by
  have hstatus : (s.state.trap cause).csrs .sstatus = trapStatus .supervisor (s.state.csrs .sstatus) :=
    hmode ▸ rfl
  have hspp : ((s.state.trap cause).csrs .sstatus).getLsbD spp = true := by
    rw [hstatus, spp_trapStatus]
    rfl
  have hsie : ((s.state.trap cause).csrs .sstatus).getLsbD sie = false := by rw [hstatus, sie_trapStatus]
  obtain ⟨st, hkintr, hrun, hsepc, hstatus', hsatp, hregs, hflag'⟩ :=
    run_kernelvec (s := { s with state := s.state.trap cause }) next hext htick hyield hm hcause hspp hsie hflag
  refine ⟨⟨st.sret, hkintr⟩, hrun, hsepc, ?_, ?_, hsatp, hregs, hflag'⟩
  · rw [State.sret, hstatus', hspp]
    rfl
  · have hsret : st.sret.csrs .sstatus = sretStatus (st.csrs .sstatus) := rfl
    rw [hsret, sie_sretStatus, hstatus', hstatus, spie_trapStatus]

/-- The CPU 3 runs the kernel with its stack pointer at 4096 and interrupts enabled, while the CPU 5 serves an
interrupt. -/
def kernelHart : TrapState where
  state := ⟨⟨fun r => if r = .sp then 4096 else if r = .tp then 3 else 0, fun c => if c = .sstatus then 2 else 0,
    .supervisor, 0x80000000⟩, fun _ => 0⟩
  hkintr cpu := cpu = 5

/-- Nothing is to be done. -/
theorem conventional_some {mmu : Mmu} : Conventional mmu some := fun s _ _ => ⟨s, rfl, .refl .., rfl, rfl⟩

/-- The thread goes on on another CPU, if that one serves no interrupt. -/
def yieldTo (cpu : Word) (s : TrapState) : Option TrapState :=
  if s.hkintr cpu = true then some s else some { s with state := s.state.set .tp cpu }

theorem yieldTo_yielding {mmu : Mmu} (cpu : Word) : Yielding mmu (yieldTo cpu) := by
  intro s frame _ hflag
  by_cases hcpu : s.hkintr cpu = true
  · exact ⟨s, if_pos hcpu, .refl .., hflag⟩
  · refine ⟨_, if_neg hcpu, ⟨fun r hr => ?_, ?_, ?_, fun o _ => ?_⟩, ?_⟩
    · refine State.get_set_ne (by decide) ?_
      rintro rfl
      exact absurd hr (by decide)
    · rw [State.set_csrs]
    · rw [State.set_mode]
    · rw [State.set_mem]
    · rw [TrapState.handling, State.get_set_self (by decide)]
      exact Bool.eq_false_iff.2 hcpu

theorem kernelHart_stack : Maps (fun _ => some) (kernelHart.state.csrs .satp)
    (kernelHart.state.get .sp + BitVec.ofInt 64 (-256)) (kernelHart.state.get .sp + BitVec.ofInt 64 (-256)) 256 where
  aligned := by decide
  page _ _ _ := rfl

theorem kernel_interrupt_transparent_timer :
    ∃ s', kernelvec (fun _ => some) ⟨some, some, yieldTo 1⟩ 0
        { kernelHart with state := kernelHart.state.trap 0x8000000000000005 } = some s' ∧
      s'.state.pc = kernelHart.state.pc ∧ s'.state.mode = .supervisor ∧
      (s'.state.csrs .sstatus).getLsbD sie = (kernelHart.state.csrs .sstatus).getLsbD sie ∧
      s'.state.csrs .satp = kernelHart.state.csrs .satp ∧
      (∀ r, r ≠ .tp → s'.state.get r = kernelHart.state.get r) ∧ s'.handling = false :=
  kernel_interrupt_transparent 0 conventional_some conventional_some (yieldTo_yielding 1) rfl kernelHart_stack
    (by decide) (Or.inr (Eq.refl 0x8000000000000005))

end

end Xv6pp
