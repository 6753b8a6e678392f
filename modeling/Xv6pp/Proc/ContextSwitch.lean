import Xv6pp.Lib.Assembly

/-!
# Switching between kernel threads

`kernel/swtch.S`.  A kernel thread gives up its CPU by calling `swtch`, and goes on when some CPU calls
`swtch` with its context, with the registers that it had: whatever the other threads did in between, and on
however many CPUs.
-/

set_option autoImplicit false

namespace Xv6pp

open Assembly

/-! ## `swtch` -/

/-- `struct context`. -/
def context : List (Reg × Nat) :=
  [(.ra, 0), (.sp, 8), (.s0, 16), (.s1, 24), (.s2, 32), (.s3, 40), (.s4, 48), (.s5, 56), (.s6, 64), (.s7, 72),
    (.s8, 80), (.s9, 88), (.s10, 96), (.s11, 104)]

/-- The size of a `struct context`. -/
def sizeofContext : Nat := 112

/-- `swtch`. -/
def swtch : List Instr :=
  [.sd .ra 0 .a0, .sd .sp 8 .a0, .sd .s0 16 .a0, .sd .s1 24 .a0, .sd .s2 32 .a0, .sd .s3 40 .a0,
    .sd .s4 48 .a0, .sd .s5 56 .a0, .sd .s6 64 .a0, .sd .s7 72 .a0, .sd .s8 80 .a0, .sd .s9 88 .a0,
    .sd .s10 96 .a0, .sd .s11 104 .a0,
    .ld .ra 0 .a1, .ld .sp 8 .a1, .ld .s0 16 .a1, .ld .s1 24 .a1, .ld .s2 32 .a1, .ld .s3 40 .a1,
    .ld .s4 48 .a1, .ld .s5 56 .a1, .ld .s6 64 .a1, .ld .s7 72 .a1, .ld .s8 80 .a1, .ld .s9 88 .a1,
    .ld .s10 96 .a1, .ld .s11 104 .a1,
    .ret]

theorem swtch_eq : swtch = stores .a0 context ++ (loads .a1 context ++ [.ret]) := rfl

theorem context_frame : Frame context sizeofContext where
  nodup := by decide
  place := by decide
  size := by decide

section
variable {mmu : Mmu} {s : State} {old new : Word}

/-- **`swtch`** saves the registers in one context and loads them from the other. -/
theorem run_swtch (hold : Maps mmu (s.csrs .satp) (s.get .a0) old sizeofContext)
    (hnew : Maps mmu (s.csrs .satp) (s.get .a1) new sizeofContext) (hapart : Apart new old sizeofContext) :
    ∃ s', run mmu swtch s = some s' ∧ Holds s'.mem old context s.get ∧ SameOutside old context s.mem s'.mem ∧
      Holds s.mem new context s'.get ∧ s'.pc = s.mem (slot new 0) ∧ s'.csrs = s.csrs ∧
      ∀ r, r ∉ context.map Prod.fst → s'.get r = s.get r := by
  obtain ⟨mem, hstores, hsaved, hsame⟩ := run_stores hold context_frame
  obtain ⟨s', hloads, hmem, hcsrs, -, hloaded, hregs⟩ := run_loads (s := { s with mem := mem }) hnew context_frame
    (by decide) (by decide) (by decide)
  -- the context that is loaded is not the one that was saved
  have hkept : ∀ p ∈ context, mem (slot new p.2) = s.mem (slot new p.2) := fun p hp =>
    hsame _ fun q hq => hapart _ (context_frame.place p hp).1 _ (context_frame.place q hq).1
  have hholds : Holds s.mem new context s'.get := fun p hp => (hkept p hp).symm.trans (hloaded p hp)
  refine ⟨{ s' with pc := s'.get .ra }, ?_, ?_, ?_, hholds, ?_, hcsrs, hregs⟩
  · rw [swtch_eq, run_append_some hstores, run_append_some hloads]
    rfl
  · show Holds s'.mem old context s.get
    rw [hmem]
    exact hsaved
  · show SameOutside old context s.mem s'.mem
    rw [hmem]
    exact hsame
  · exact (hholds (.ra, 0) (by decide)).symm

end

/-! ## Threads -/

section
variable {Cpu Thread : Type} [DecidableEq Cpu] [DecidableEq Thread]

/-- The CPUs, the memory, and the registers with which the threads that are not running have left. -/
structure Harts (Cpu Thread : Type) where
  mem : Word → Word
  harts : Cpu → Hart
  left : Thread → Option (Reg → Word)

/-- The states of the system whose page tables are `mmu`, if the contexts of the threads are at the
addresses `area`. -/
inductive Harts.Reached (mmu : Mmu) (area : Thread → Word) : Harts Cpu Thread → Prop
  /-- No thread has left yet. -/
  | boot {s : Harts Cpu Thread} : (∀ t, s.left t = none) → Reached mmu area s
  /-- A CPU runs anything but `swtch`, which leaves the contexts alone. -/
  | work {s : Harts Cpu Thread} {c : Cpu} {h : Hart} {mem : Word → Word} : Reached mmu area s →
      (∀ t, ∀ o < sizeofContext, mem (slot (area t) o) = s.mem (slot (area t) o)) →
      Reached mmu area { s with mem := mem, harts := Function.update s.harts c h }
  /-- A thread is made that is to begin with the registers `f`. -/
  | make {s : Harts Cpu Thread} {t : Thread} {f : Reg → Word} {mem : Word → Word} : Reached mmu area s →
      Holds mem (area t) context f → SameOutside (area t) context s.mem mem →
      Reached mmu area { s with mem := mem, left := Function.update s.left t (some f) }
  /-- The thread `t`, on the CPU `c`, calls `swtch` with the context of the thread `u`. -/
  | switch {s : Harts Cpu Thread} {c : Cpu} {t u : Thread} {s' : State} : Reached mmu area s → t ≠ u →
      Maps mmu ((s.harts c).csrs .satp) ((State.mk (s.harts c) s.mem).get .a0) (area t) sizeofContext →
      Maps mmu ((s.harts c).csrs .satp) ((State.mk (s.harts c) s.mem).get .a1) (area u) sizeofContext →
      run mmu swtch (State.mk (s.harts c) s.mem) = some s' →
      Reached mmu area { mem := s'.mem, harts := Function.update s.harts c s'.toHart,
                         left := Function.update (Function.update s.left u none) t
                           (some (State.mk (s.harts c) s.mem).get) }

variable {mmu : Mmu} {area : Thread → Word} {s : Harts Cpu Thread}

/-- Nothing is written into the context of another thread. -/
theorem holds_other {pa pa' : Word} {mem mem' : Word → Word} {f : Reg → Word} (h : Holds mem pa context f)
    (hapart : Apart pa pa' sizeofContext) (hsame : SameOutside pa' context mem mem') :
    Holds mem' pa context f := fun p hp => by
  rw [hsame _ fun q hq => hapart _ (context_frame.place p hp).1 _ (context_frame.place q hq).1]
  exact h p hp

/-- The context of a thread that has left holds the registers with which it left. -/
theorem Harts.Reached.holds (hs : s.Reached mmu area)
    (hapart : ∀ t u, t ≠ u → Apart (area t) (area u) sizeofContext) {t : Thread} {f : Reg → Word}
    (hf : s.left t = some f) : Holds s.mem (area t) context f := by
  induction hs generalizing t f with
  | boot h =>
    rw [h t] at hf
    cases hf
  | work _ hkept ih =>
    intro p hp
    exact (hkept t p.2 (context_frame.place p hp).1).trans (ih hf p hp)
  | @make s u g mem _ hholds hsame ih =>
    by_cases htu : t = u
    · subst htu
      cases (Function.update_self ..).symm.trans hf
      exact hholds
    · have hf' : s.left t = some f := (Function.update_of_ne htu ..).symm.trans hf
      exact holds_other (ih hf') (hapart t u htu) hsame
  | @switch s c v u s' _ hne hold hnew hrun ih =>
    obtain ⟨s₁, hrun₁, hsaved, hsame, -⟩ :=
      run_swtch (s := State.mk (s.harts c) s.mem) hold hnew (hapart u v hne.symm)
    cases hrun.symm.trans hrun₁
    by_cases htv : t = v
    · subst htv
      cases (Function.update_self ..).symm.trans hf
      exact hsaved
    · have hf' := (Function.update_of_ne htv ..).symm.trans hf
      by_cases htu : t = u
      · subst htu
        cases (Function.update_self ..).symm.trans hf'
      · exact holds_other (ih ((Function.update_of_ne htu ..).symm.trans hf')) (hapart t v htv) hsame

/-- **A thread goes on with the registers with which it left**, and where it left: on whatever CPU, and
whatever the CPUs and the other threads have done in between. -/
theorem swtch_resumes (hs : s.Reached mmu area)
    (hapart : ∀ t u, t ≠ u → Apart (area t) (area u) sizeofContext) {c : Cpu} {t u : Thread} (hne : t ≠ u)
    (hold : Maps mmu ((s.harts c).csrs .satp) ((State.mk (s.harts c) s.mem).get .a0) (area t) sizeofContext)
    (hnew : Maps mmu ((s.harts c).csrs .satp) ((State.mk (s.harts c) s.mem).get .a1) (area u) sizeofContext)
    {f : Reg → Word} (hf : s.left u = some f) :
    ∃ s', run mmu swtch (State.mk (s.harts c) s.mem) = some s' ∧ s'.pc = f .ra ∧
      (∀ p ∈ context, s'.get p.1 = f p.1) ∧ s'.csrs = (s.harts c).csrs ∧
      ∀ r, r ∉ context.map Prod.fst → s'.get r = (State.mk (s.harts c) s.mem).get r := by
  have hu := hs.holds hapart hf
  obtain ⟨s', hrun, -, -, hloaded, hpc, hcsrs, hregs⟩ :=
    run_swtch (s := State.mk (s.harts c) s.mem) hold hnew (hapart u t hne.symm)
  refine ⟨s', hrun, hpc.trans (hu (.ra, 0) (by decide)), fun p hp => ?_, hcsrs, hregs⟩
  exact (hloaded p hp).symm.trans (hu p hp)

end

/-! ## Two threads -/

/-- One CPU, on which the thread `false` runs; the thread `true` has been made, with its stack at 16384. -/
def twoThreads : Harts Unit Bool where
  mem a := if a = slot 8192 8 then 16384 else 0
  harts _ := ⟨fun r => if r = .a0 then 4096 else if r = .a1 then 8192 else 0, fun _ => 0, .supervisor, 0⟩
  left := Function.update (fun _ => none) true (some fun r => if r = .sp then 16384 else 0)

/-- The contexts of the two threads. -/
def twoAreas (t : Bool) : Word := if t then 8192 else 4096

theorem twoAreas_apart (t u : Bool) (hne : t ≠ u) : Apart (twoAreas t) (twoAreas u) sizeofContext := by
  have hapart : Apart 4096 8192 sizeofContext := fun o ho o' ho' heq => by
    have hnat := congrArg BitVec.toNat heq
    rw [slot, slot, BitVec.toNat_add, BitVec.toNat_add, BitVec.toNat_ofNat, BitVec.toNat_ofNat] at hnat
    simp only [sizeofContext] at ho ho'
    have h4096 : (4096 : Word).toNat = 4096 := rfl
    have h8192 : (8192 : Word).toNat = 8192 := rfl
    omega
  cases t <;> cases u
  · exact absurd rfl hne
  · exact hapart
  · exact hapart.symm
  · exact absurd rfl hne

theorem twoThreads_reached : twoThreads.Reached (fun _ => some) twoAreas := by
  have hholds : ∀ p ∈ context, (if slot (8192 : Word) p.2 = slot 8192 8 then (16384 : Word) else 0) =
      if p.1 = Reg.sp then 16384 else 0 := by decide
  refine .make (s := { twoThreads with mem := fun _ => 0, left := fun _ => none }) (.boot fun _ => rfl) ?_ ?_
  · exact hholds
  · exact fun a ha => if_neg (ha (.sp, 8) (by decide))

theorem swtch_resumes_second :
    ∃ s', run (fun _ => some) swtch (State.mk (twoThreads.harts ()) twoThreads.mem) = some s' ∧ s'.pc = 0 ∧
      (∀ p ∈ context, s'.get p.1 = if p.1 = .sp then 16384 else 0) ∧
      s'.csrs = (twoThreads.harts ()).csrs ∧
      ∀ r, r ∉ context.map Prod.fst →
        s'.get r = (State.mk (twoThreads.harts ()) twoThreads.mem).get r :=
  swtch_resumes twoThreads_reached twoAreas_apart (t := false) (u := true) (by decide)
    { aligned := by decide
      page := fun _ _ _ => rfl }
    { aligned := by decide
      page := fun _ _ _ => rfl } rfl

end Xv6pp
