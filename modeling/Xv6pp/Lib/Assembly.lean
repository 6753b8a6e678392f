import Mathlib.Algebra.Ring.Nat
import Mathlib.Logic.Function.Basic

/-!
# Assembly code

Code of a 64-bit RISC-V machine in supervisor mode that does not branch, and how the machine enters and
leaves that mode.  Memory is accessed in doublewords, through the page table that `satp` selects; an access
that is not aligned or not mapped is an exception, and the code does not go on.

Most of such code saves registers in a block of memory or loads them from one: `run_stores` and
`run_loads` say what that does, for any block and any list of registers.
-/

set_option autoImplicit false

namespace Assembly

/-- A doubleword, or an address. -/
abbrev Word : Type := BitVec 64

/-- The integer registers. -/
inductive Reg
  | zero | ra | sp | gp | tp | t0 | t1 | t2 | s0 | s1 | a0 | a1 | a2 | a3 | a4 | a5 | a6 | a7 | s2 | s3 | s4 | s5
  | s6 | s7 | s8 | s9 | s10 | s11 | t3 | t4 | t5 | t6
  deriving DecidableEq

/-- Control and status registers. -/
inductive Csr
  | satp | sepc | sscratch | stvec | scause | sstatus
  deriving DecidableEq

/-- The privilege of the code that runs. -/
inductive Mode
  | user | supervisor
  deriving DecidableEq

/-- A hart. -/
structure Hart where
  regs : Reg → Word
  csrs : Csr → Word
  mode : Mode
  /-- Where the code that is left goes on. -/
  pc : Word

/-- A hart and the memory. -/
structure State extends Hart where
  /-- The doublewords of the memory, by physical address. -/
  mem : Word → Word

namespace State

/-- Read a register. -/
def get (s : State) (r : Reg) : Word := if r = .zero then 0 else s.regs r

/-- Write a register. -/
def set (s : State) (r : Reg) (w : Word) : State :=
  if r = .zero then s else { s with regs := Function.update s.regs r w }

section
variable {s : State} {r q : Reg} {w : Word}

theorem get_set (hr : r ≠ .zero) : (s.set r w).get q = if q = r then w else s.get q := by
  rw [set, if_neg hr, get, get]
  by_cases hq : q = r
  · subst hq
    rw [if_neg hr, if_pos rfl]
    exact Function.update_self ..
  · rw [if_neg hq]
    split
    · rfl
    · exact Function.update_of_ne hq ..

theorem get_set_self (hr : r ≠ .zero) : (s.set r w).get r = w := by rw [get_set hr, if_pos rfl]

theorem get_set_ne (hr : r ≠ .zero) (hq : q ≠ r) : (s.set r w).get q = s.get q := by
  rw [get_set hr, if_neg hq]

@[simp] theorem set_mem : (s.set r w).mem = s.mem := by
  rw [set]
  split <;> rfl

@[simp] theorem set_csrs : (s.set r w).csrs = s.csrs := by
  rw [set]
  split <;> rfl

@[simp] theorem set_pc : (s.set r w).pc = s.pc := by
  rw [set]
  split <;> rfl

@[simp] theorem set_mode : (s.set r w).mode = s.mode := by
  rw [set]
  split <;> rfl

end

/-- Write a control and status register. -/
def setCsr (s : State) (c : Csr) (w : Word) : State := { s with csrs := Function.update s.csrs c w }

section
variable {s : State} {c : Csr} {w : Word}

@[simp] theorem setCsr_get {r : Reg} : (s.setCsr c w).get r = s.get r := rfl

@[simp] theorem setCsr_mem : (s.setCsr c w).mem = s.mem := rfl

@[simp] theorem setCsr_mode : (s.setCsr c w).mode = s.mode := rfl

@[simp] theorem setCsr_csrs : (s.setCsr c w).csrs = Function.update s.csrs c w := rfl

end

end State

/-! ## Entering and leaving supervisor mode -/

/-- Set or clear a bit of a word. -/
def withBit (w : Word) (i : Nat) (b : Bool) : Word :=
  if b then w ||| BitVec.twoPow 64 i else w &&& ~~~BitVec.twoPow 64 i

theorem getLsbD_withBit {w : Word} {i j : Nat} {b : Bool} (hi : i < 64) :
    (withBit w i b).getLsbD j = if j = i then b else w.getLsbD j := by
  by_cases hj : j = i
  · subst hj
    cases b <;> simp [withBit, hi]
  · cases b <;> simp [withBit, hj, Ne.symm hj]
    exact BitVec.lt_of_getLsbD

/-- The bits of `sstatus`: whether interrupts are enabled, whether they were before the trap, and whether the
trap was one of supervisor mode. -/
def sie : Nat := 1

@[inherit_doc sie] def spie : Nat := 5

@[inherit_doc sie] def spp : Nat := 8

/-- What a trap does to `sstatus`. -/
def trapStatus (mode : Mode) (status : Word) : Word :=
  withBit (withBit (withBit status spie (status.getLsbD sie)) sie false) spp (mode == .supervisor)

section
variable {mode : Mode} {status : Word}

theorem spp_trapStatus : (trapStatus mode status).getLsbD spp = (mode == .supervisor) := by
  rw [trapStatus, getLsbD_withBit (by decide), if_pos rfl]

theorem sie_trapStatus : (trapStatus mode status).getLsbD sie = false := by
  rw [trapStatus, getLsbD_withBit (by decide), if_neg (by decide), getLsbD_withBit (by decide), if_pos rfl]

theorem spie_trapStatus : (trapStatus mode status).getLsbD spie = status.getLsbD sie := by
  rw [trapStatus, getLsbD_withBit (by decide), if_neg (by decide), getLsbD_withBit (by decide),
    if_neg (by decide), getLsbD_withBit (by decide), if_pos rfl]

end

/-- A trap. -/
def State.trap (s : State) (cause : Word) : State :=
  { ((s.setCsr .sepc s.pc).setCsr .scause cause).setCsr .sstatus (trapStatus s.mode (s.csrs .sstatus)) with
    mode := .supervisor
    pc := s.csrs .stvec }

/-- What the return from a trap does to `sstatus`. -/
def sretStatus (status : Word) : Word :=
  withBit (withBit (withBit status sie (status.getLsbD spie)) spie true) spp false

theorem sie_sretStatus {status : Word} : (sretStatus status).getLsbD sie = status.getLsbD spie := by
  rw [sretStatus, getLsbD_withBit (by decide), if_neg (by decide), getLsbD_withBit (by decide),
    if_neg (by decide), getLsbD_withBit (by decide), if_pos rfl]

/-- The return from a trap. -/
def State.sret (s : State) : State :=
  { s.setCsr .sstatus (sretStatus (s.csrs .sstatus)) with
    mode := if (s.csrs .sstatus).getLsbD spp then .supervisor else .user
    pc := s.csrs .sepc }

namespace State
variable {s : State}

@[simp] theorem sret_get {r : Reg} : s.sret.get r = s.get r := rfl

@[simp] theorem sret_mem : s.sret.mem = s.mem := rfl

@[simp] theorem sret_pc : s.sret.pc = s.csrs .sepc := rfl

@[simp] theorem sret_csrs :
    s.sret.csrs = Function.update s.csrs .sstatus (sretStatus (s.csrs .sstatus)) := rfl

@[simp] theorem sret_mode :
    s.sret.mode = if (s.csrs .sstatus).getLsbD spp then .supervisor else .user := rfl

end State

/-- The page tables: where an address leads if `satp` has a value. -/
abbrev Mmu : Type := Word → Word → Option Word

/-- Instructions.  `jalr` names the address of the instruction after it. -/
inductive Instr
  | sd (rs : Reg) (off : Nat) (base : Reg)
  | ld (rd : Reg) (off : Nat) (base : Reg)
  | addi (rd rs : Reg) (imm : Int)
  | li (rd : Reg) (imm : Word)
  | csrw (c : Csr) (rs : Reg)
  | csrr (rd : Reg) (c : Csr)
  | sfence
  | jalr (rs : Reg) (next : Word)
  | ret
  | sret

section
variable (mmu : Mmu)

/-- The physical address of an access to memory. -/
def access (s : State) (va : Word) : Option Word :=
  if va.toNat % 8 = 0 then mmu (s.csrs .satp) va else none

/-- Execute an instruction. -/
def Instr.exec (s : State) : Instr → Option State
  | .sd rs off base =>
    (access mmu s (s.get base + BitVec.ofNat 64 off)).map fun a =>
      { s with mem := Function.update s.mem a (s.get rs) }
  | .ld rd off base =>
    (access mmu s (s.get base + BitVec.ofNat 64 off)).map fun a => s.set rd (s.mem a)
  | .addi rd rs imm => some (s.set rd (s.get rs + BitVec.ofInt 64 imm))
  | .li rd imm => some (s.set rd imm)
  | .csrw c rs => some (s.setCsr c (s.get rs))
  | .csrr rd c => some (s.set rd (s.csrs c))
  | .sfence => some s
  | .jalr rs next => some ({ s with pc := s.get rs }.set .ra next)
  | .ret => some { s with pc := s.get .ra }
  | .sret => some s.sret

/-- Execute instructions one after the other. -/
def run : List Instr → State → Option State
  | [], s => some s
  | i :: is, s => (i.exec mmu s).bind (run is)

end

section
variable {mmu : Mmu} {s s' : State} {base : Reg} {va pa satp : Word} {n : Nat} {l : List (Reg × Nat)}

theorem run_cons {i : Instr} {is : List Instr} (h : i.exec mmu s = some s') :
    run mmu (i :: is) s = run mmu is s' := by
  rw [run, h]
  rfl

/-! Instructions that do not access memory. -/

theorem exec_addi {rd rs : Reg} {imm : Int} :
    (Instr.addi rd rs imm).exec mmu s = some (s.set rd (s.get rs + BitVec.ofInt 64 imm)) := rfl

theorem exec_li {rd : Reg} {imm : Word} : (Instr.li rd imm).exec mmu s = some (s.set rd imm) := rfl

theorem exec_csrw {c : Csr} {rs : Reg} : (Instr.csrw c rs).exec mmu s = some (s.setCsr c (s.get rs)) := rfl

theorem exec_csrr {rd : Reg} {c : Csr} : (Instr.csrr rd c).exec mmu s = some (s.set rd (s.csrs c)) := rfl

theorem exec_sfence : Instr.sfence.exec mmu s = some s := rfl

theorem exec_jalr {rs : Reg} {next : Word} :
    (Instr.jalr rs next).exec mmu s = some ({ s with pc := s.get rs }.set .ra next) := rfl

theorem exec_sret : Instr.sret.exec mmu s = some s.sret := rfl

theorem run_append (is js : List Instr) : run mmu (is ++ js) s = (run mmu is s).bind (run mmu js) := by
  induction is generalizing s with
  | nil => rfl
  | cons i is ih =>
    rw [List.cons_append, run, run]
    cases h : i.exec mmu s with
    | none => rfl
    | some s' => exact ih

theorem run_append_some {is js : List Instr} (h : run mmu is s = some s') :
    run mmu (is ++ js) s = run mmu js s' := by
  rw [run_append, h]
  rfl

/-! ## Blocks of memory -/

/-- The block of `n` bytes at `va` is the one at the physical address `pa`. -/
structure Maps (mmu : Mmu) (satp va pa : Word) (n : Nat) : Prop where
  aligned : va.toNat % 8 = 0
  page : ∀ o < n, o % 8 = 0 → mmu satp (va + BitVec.ofNat 64 o) = some (pa + BitVec.ofNat 64 o)

/-- The address of a doubleword in a block. -/
def slot (pa : Word) (o : Nat) : Word := pa + BitVec.ofNat 64 o

theorem slot_inj {o o' : Nat} (ho : o < 2 ^ 64) (ho' : o' < 2 ^ 64) (h : slot pa o = slot pa o') : o = o' := by
  rw [slot, slot, BitVec.add_right_inj] at h
  have hnat := congrArg BitVec.toNat h
  rwa [BitVec.toNat_ofNat, BitVec.toNat_ofNat, Nat.mod_eq_of_lt ho, Nat.mod_eq_of_lt ho'] at hnat

/-- Two blocks of `n` bytes do not overlap. -/
def Apart (pa pa' : Word) (n : Nat) : Prop := ∀ o < n, ∀ o' < n, slot pa o ≠ slot pa' o'

theorem Apart.symm {pa' : Word} (h : Apart pa pa' n) : Apart pa' pa n := fun o ho o' ho' heq =>
  h o' ho' o ho heq.symm

/-- A doubleword of the block can be accessed. -/
theorem Maps.access (h : Maps mmu (s.csrs .satp) va pa n) {o : Nat} (ho : o < n) (halign : o % 8 = 0) :
    access mmu s (va + BitVec.ofNat 64 o) = some (slot pa o) := by
  have hva := h.aligned
  rw [Assembly.access, if_pos, h.page o ho halign, slot]
  rw [BitVec.toNat_add, BitVec.toNat_ofNat]
  omega

theorem Maps.exec_ld (h : Maps mmu (s.csrs .satp) (s.get base) pa n) (rd : Reg) {o : Nat} (ho : o < n)
    (halign : o % 8 = 0) : (Instr.ld rd o base).exec mmu s = some (s.set rd (s.mem (slot pa o))) := by
  rw [Instr.exec, h.access ho halign]
  rfl

theorem Maps.exec_sd (h : Maps mmu (s.csrs .satp) (s.get base) pa n) (rs : Reg) {o : Nat} (ho : o < n)
    (halign : o % 8 = 0) : (Instr.sd rs o base).exec mmu s =
      some { s with mem := Function.update s.mem (slot pa o) (s.get rs) } := by
  rw [Instr.exec, h.access ho halign]
  rfl

/-- A place in a block of `n` bytes for each of the registers of a list. -/
structure Frame (l : List (Reg × Nat)) (n : Nat) : Prop where
  nodup : (l.map Prod.snd).Nodup
  place : ∀ p ∈ l, p.2 < n ∧ p.2 % 8 = 0
  size : n ≤ 2 ^ 64

theorem Frame.tail {p : Reg × Nat} (h : Frame (p :: l) n) : Frame l n where
  nodup := (List.nodup_cons.1 h.nodup).2
  place q hq := h.place q (List.mem_cons_of_mem p hq)
  size := h.size

theorem Frame.slot_ne {p q : Reg × Nat} (h : Frame (p :: l) n) (hq : q ∈ l) :
    slot pa q.2 ≠ slot pa p.2 := fun heq => by
  have hp := (h.place p List.mem_cons_self).1
  have hq' := (h.place q (List.mem_cons_of_mem p hq)).1
  have hoff := slot_inj (Nat.lt_of_lt_of_le hq' h.size) (Nat.lt_of_lt_of_le hp h.size) heq
  exact (List.nodup_cons.1 h.nodup).1 (List.mem_map.2 ⟨q, hq, hoff⟩)

/-- Save registers in the block at `base`. -/
def stores (base : Reg) (l : List (Reg × Nat)) : List Instr := l.map fun p => .sd p.1 p.2 base

/-- Load registers from the block at `base`. -/
def loads (base : Reg) (l : List (Reg × Nat)) : List Instr := l.map fun p => .ld p.1 p.2 base

/-- The block holds the values `f` of the registers. -/
def Holds (mem : Word → Word) (pa : Word) (l : List (Reg × Nat)) (f : Reg → Word) : Prop :=
  ∀ p ∈ l, mem (slot pa p.2) = f p.1

/-- Outside of the block the memory is the same. -/
def SameOutside (pa : Word) (l : List (Reg × Nat)) (mem mem' : Word → Word) : Prop :=
  ∀ a, (∀ p ∈ l, a ≠ slot pa p.2) → mem' a = mem a

/-- **Saving registers.** -/
theorem run_stores (hm : Maps mmu (s.csrs .satp) (s.get base) pa n) (hl : Frame l n) :
    ∃ mem, run mmu (stores base l) s = some { s with mem := mem } ∧ Holds mem pa l s.get ∧
      SameOutside pa l s.mem mem := by
  induction l generalizing s with
  | nil => exact ⟨s.mem, rfl, fun p hp => absurd hp List.not_mem_nil, fun a _ => rfl⟩
  | cons p l ih =>
    obtain ⟨ho, halign⟩ := hl.place p List.mem_cons_self
    obtain ⟨mem, hrun, hholds, hsame⟩ := @ih
      { s with mem := Function.update s.mem (slot pa p.2) (s.get p.1) } hm hl.tail
    refine ⟨mem, (run_cons (hm.exec_sd p.1 ho halign)).trans hrun, fun q hq => ?_, fun a ha => ?_⟩
    · rcases List.mem_cons.1 hq with rfl | hq
      · rw [hsame _ fun r hr => (hl.slot_ne hr).symm]
        exact Function.update_self ..
      · exact hholds q hq
    · rw [hsame a fun q hq => ha q (List.mem_cons_of_mem p hq)]
      exact Function.update_of_ne (ha p List.mem_cons_self) ..

/-- **Loading registers**, none of them the one that points to the block. -/
theorem run_loads (hm : Maps mmu (s.csrs .satp) (s.get base) pa n) (hl : Frame l n)
    (hregs : (l.map Prod.fst).Nodup) (hbase : base ∉ l.map Prod.fst) (hzero : .zero ∉ l.map Prod.fst) :
    ∃ s', run mmu (loads base l) s = some s' ∧ s'.mem = s.mem ∧ s'.csrs = s.csrs ∧ s'.mode = s.mode ∧
      Holds s.mem pa l s'.get ∧ ∀ r, r ∉ l.map Prod.fst → s'.get r = s.get r := by
  induction l generalizing s with
  | nil => exact ⟨s, rfl, rfl, rfl, rfl, fun p hp => absurd hp List.not_mem_nil, fun r _ => rfl⟩
  | cons p l ih =>
    obtain ⟨ho, halign⟩ := hl.place p List.mem_cons_self
    rw [List.map_cons, List.mem_cons, not_or] at hbase hzero
    obtain ⟨hp, hregs⟩ := List.nodup_cons.1 hregs
    have hset : ∀ {q w}, q ≠ p.1 → (s.set p.1 w).get q = s.get q := fun hq =>
      State.get_set_ne (Ne.symm hzero.1) hq
    obtain ⟨s', hrun, hmem, hcsrs, hmode, hholds, hsame⟩ := @ih (s.set p.1 (s.mem (slot pa p.2)))
      (by rw [State.set_csrs, hset hbase.1]; exact hm) hl.tail hregs hbase.2 hzero.2
    rw [State.set_mem] at hmem hholds
    refine ⟨s', (run_cons (hm.exec_ld p.1 ho halign)).trans hrun, hmem, hcsrs.trans State.set_csrs,
      hmode.trans State.set_mode, fun q hq => ?_, fun r hr => ?_⟩
    · rcases List.mem_cons.1 hq with rfl | hq
      · rw [hsame _ hp, State.get_set_self (Ne.symm hzero.1)]
      · exact hholds q hq
    · rw [List.map_cons, List.mem_cons, not_or] at hr
      rw [hsame r hr.2, hset hr.1]

end

end Assembly
