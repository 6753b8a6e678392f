import Xv6pp.Proc.Ownership
import Xv6pp.Vm.Resizing

/-!
# What `sbrk` returns

`sys_sbrk` returns the old size of the process, or `-1` when memory cannot be grown.  The size that
it asks `alloc` or `dealloc` for is computed modulo `2 ^ 64`: when a process gives back more than it
has, that size is huge, `dealloc` takes it for growth and does nothing, and `sys_sbrk` reports
success.  `sbrk_means_iff` shows that this is the only request whose result is wrong.
-/

set_option autoImplicit false

namespace Xv6pp

open Prog VirtualMemory

/-- What the result `res` of `sbrk(n)` promises: `-1` says that size and mappings are as they were,
and the old size that the new one is larger by `n` and that exactly its pages are mapped. -/
def SbrkMeans [KernelImage] (k k' : Kernel) (p : Pid) (r : Nat) (n res : Int) : Prop :=
  (res = -1 ∧ (k'.procs p).sz = (k.procs p).sz ∧
      translation k'.memory r = translation k.memory r) ∨
  (res = (k.procs p).sz ∧ ((k'.procs p).sz : Int) = (k.procs p).sz + n ∧
      ∃ T, AddressSpace k'.memory r (k'.procs p).sz T)

/-! ## Sizes as 64-bit numbers -/

section
variable {sz : Nat} {n : Int}

theorem toInt_range (v : Nat) : -2 ^ 31 ≤ toInt (v % 2 ^ 32) ∧ toInt (v % 2 ^ 32) < 2 ^ 31 := by
  have hlt : v % 2 ^ 32 < 2 ^ 32 := Nat.mod_lt _ (by decide)
  rw [toInt]
  split <;> omega

/-- A size that is not negative is computed as it is. -/
theorem toUnsigned_size (hsz : sz ≤ TRAPFRAME) (hn : n < 2 ^ 31) (h0 : 0 ≤ sz + n) :
    (toUnsigned 64 (sz + n) : Int) = sz + n := by
  have hlt : (sz : Int) + n < 2 ^ 64 := by
    have htop : TRAPFRAME < 2 ^ 63 := by decide
    omega
  rw [toUnsigned, Int.emod_eq_of_lt h0 hlt, Int.toNat_of_nonneg h0]

/-- A negative size becomes a huge one. -/
theorem toUnsigned_negative (hsz : sz ≤ TRAPFRAME) (hn : -2 ^ 31 ≤ n) (h0 : (sz : Int) + n < 0) :
    sz ≤ toUnsigned 64 (sz + n) := by
  have htop : TRAPFRAME < 2 ^ 63 := by decide
  have hmod : ((sz : Int) + n) % 2 ^ 64 = sz + n + 2 ^ 64 := by
    rw [← Int.add_emod_right, Int.emod_eq_of_lt (by omega) (by omega)]
  rw [toUnsigned, hmod]
  omega

theorem pgRoundUp_mono {a b : Nat} (h : a ≤ b) (hb : b ≤ MAXVA) : pgRoundUp a ≤ pgRoundUp b := by
  rw [pgRoundUp_eq hb, pgRoundUp_eq (h.trans hb)]
  exact Nat.mul_le_mul_right _ (pages_mono h)

end

/-! ## `grow` and `sbrk` -/

section
variable [KernelImage] {E : Panic → Prop} {k : Kernel} {p : Pid} {r : Nat} {T : Multiset Nat}
  {n : Int}

/-- **`grow`** to a size that is not negative: memory has that size then, or nothing has changed. -/
theorem wp_grow_exact (hpt : (k.procs p).pagetable = some r)
    (h : AddressSpace k.memory r (k.procs p).sz T) (hsz : (k.procs p).sz ≤ TRAPFRAME)
    (hn : n < 2 ^ 31) (h0 : 0 ≤ (k.procs p).sz + n) :
    wp (Process.grow p n) E (fun res k' =>
      (res = -1 ∧ (k'.procs p).sz = (k.procs p).sz ∧
        translation k'.memory r = translation k.memory r) ∨
      (res = 0 ∧ ((k'.procs p).sz : Int) = (k.procs p).sz + n ∧
        ∃ T', AddressSpace k'.memory r (k'.procs p).sz T')) k := by
  have hnew := toUnsigned_size hsz hn h0
  generalize hm : toUnsigned 64 ((k.procs p).sz + n) = newsz at hnew
  obtain ⟨m, hround, f, hmaps⟩ :
      ∃ m, m * PGSIZE = pgRoundUp (k.procs p).sz ∧ ∃ f, Maps k.memory r m T f :=
    ⟨_, pgRoundUp_div _, h.maps⟩
  rw [Process.grow]
  simp only [wp_bind, wp_proc, hpt, wp_deref_some, wp_ite, wp_vm, wp_updateProc, wp_pure, hm]
  refine ⟨fun hpos => ?_, fun hpos => ⟨fun hneg => ?_, fun hneg => ?_⟩⟩
  · refine wp_imp (hmaps.wp_alloc hround (by omega) (by decide)) ?_
    rintro res s' ⟨T', f', ⟨j, -, hj, rfl, hmaps', -⟩ | ⟨rfl, hmaps', hkept⟩⟩
    · refine ⟨fun hzero => absurd hzero (by omega), fun _ => .inr ⟨trivial, ?_, T', ?_⟩⟩
      · rw [Function.update_self]
        exact hnew
      · rw [Function.update_self]
        exact hmaps'.addressSpace hj
    · exact ⟨fun _ => .inl ⟨trivial, trivial, (hkept.unchanged hmaps hmaps').1⟩,
        fun hne => absurd rfl hne⟩
  · have hlt : newsz < (k.procs p).sz := by omega
    have hmono := pgRoundUp_mono hlt.le (hsz.trans (by decide))
    have hk : pgRoundUp newsz / PGSIZE * PGSIZE =
        min (pgRoundUp newsz) (pgRoundUp (k.procs p).sz) := by
      rw [min_eq_left hmono, pgRoundUp_div]
    refine wp_imp (hmaps.wp_dealloc hround hlt hk) ?_
    rintro res s' ⟨rfl, hmaps', -⟩
    refine .inr ⟨trivial, ?_, T, ?_⟩
    · rw [Function.update_self]
      exact hnew
    · rw [Function.update_self]
      exact hmaps'.addressSpace (pgRoundUp_div _)
  · exact .inr ⟨trivial, by omega, T, h⟩

/-- **`grow`** to a negative size reports success and does nothing. -/
theorem wp_grow_negative (hpt : (k.procs p).pagetable = some r)
    (hsz : (k.procs p).sz ≤ TRAPFRAME) (hn : -2 ^ 31 ≤ n) (h0 : (k.procs p).sz + n < 0) :
    wp (Process.grow p n) E (fun res k' => res = 0 ∧ (k'.procs p).sz = (k.procs p).sz) k := by
  have hge := toUnsigned_negative hsz hn h0
  rw [Process.grow]
  simp only [wp_bind, wp_proc, hpt, wp_deref_some, wp_ite, wp_vm, wp_updateProc, wp_pure]
  refine ⟨fun hpos => absurd hpos (by omega), fun _ => ⟨fun _ => ?_, fun _ => ⟨trivial, trivial⟩⟩⟩
  rw [dealloc, if_pos hge]
  exact ⟨trivial, by rw [Function.update_self]⟩

end

/-- **`sbrk` means what it returns** exactly when the process does not give back more memory than it
has. -/
theorem sbrk_means_iff [KernelImage] (k : Kernel) (p : Pid) (r a0 : Nat) (T : Multiset Nat)
    (hpt : (k.procs p).pagetable = some r) (h : AddressSpace k.memory r (k.procs p).sz T)
    (hsz : (k.procs p).sz ≤ TRAPFRAME) :
    wp (Syscall.sbrk p a0) (fun _ => False) (fun res k' =>
      SbrkMeans k k' p r (toInt (a0 % 2 ^ 32)) res ↔
        0 ≤ (k.procs p).sz + toInt (a0 % 2 ^ 32)) k := by
  obtain ⟨hlow, hhigh⟩ := toInt_range a0
  rw [Syscall.sbrk]
  simp only [wp_bind, wp_proc, wp_ite, wp_pure]
  by_cases h0 : 0 ≤ (k.procs p).sz + toInt (a0 % 2 ^ 32)
  · refine wp_imp (wp_grow_exact hpt h hsz hhigh h0) ?_
    rintro res k' (⟨rfl, hsame, htr⟩ | ⟨rfl, hnew, hspace⟩)
    · exact ⟨fun _ => iff_of_true (.inl ⟨rfl, hsame, htr⟩) h0, fun hc => absurd (by decide) hc⟩
    · exact ⟨fun hc => absurd hc (by decide), fun _ => iff_of_true (.inr ⟨rfl, hnew, hspace⟩) h0⟩
  · refine wp_imp (wp_grow_negative hpt hsz hlow (Int.not_le.1 h0)) ?_
    rintro res k' ⟨rfl, hsame⟩
    refine ⟨fun hc => absurd hc (by decide), fun _ => iff_of_false ?_ h0⟩
    rintro (⟨hneg, -⟩ | ⟨-, hnew, -⟩)
    · omega
    · omega

/-! ## A process of one byte -/

/-- A kernel whose processes all have one byte of memory and the same page table. -/
def oneByteKernel (s : Memory) : Kernel where
  memory := s
  procs := fun _ =>
    { state := .running, killed := false, xstate := 0, pid := 1, parent := none, sz := 1
      pagetable := some emptyRoot, trapframe := none, waiting := none, name := [] }
  nextPid := 2
  initprocess := none
  first := false

/-- Giving back the only byte leaves an empty process. -/
theorem sbrk_means_iff_back : ∃ s k' res,
    (@Syscall.sbrk smallImage ⟨0, NPROC_pos⟩ (2 ^ 32 - 1)).run (oneByteKernel s) = .ok (res, k') ∧
    @SbrkMeans smallImage (oneByteKernel s) k' ⟨0, NPROC_pos⟩ emptyRoot (-1) res := by
  obtain ⟨s, T, h⟩ := oneTable_addressSpace
  obtain ⟨res, k', hrun, hiff⟩ := wp_total (@sbrk_means_iff smallImage (oneByteKernel s)
    ⟨0, NPROC_pos⟩ emptyRoot (2 ^ 32 - 1) T rfl h (show 1 ≤ TRAPFRAME by decide))
  have hsize : (0 : Int) ≤ (1 : Nat) + toInt ((2 ^ 32 - 1) % 2 ^ 32) := by decide
  exact ⟨s, k', res, hrun, hiff.2 hsize⟩

/-- Giving back two bytes of one is reported as done, and nothing has happened. -/
theorem sbrk_negative_size : ∃ s T, @AddressSpace smallImage s emptyRoot 1 T ∧ ∃ k',
    (@Syscall.sbrk smallImage ⟨0, NPROC_pos⟩ (2 ^ 32 - 2)).run (oneByteKernel s) = .ok (1, k') ∧
    (k'.procs ⟨0, NPROC_pos⟩).sz = 1 ∧
    ¬ @SbrkMeans smallImage (oneByteKernel s) k' ⟨0, NPROC_pos⟩ emptyRoot (-2) 1 := by
  obtain ⟨s, T, h⟩ := oneTable_addressSpace
  refine ⟨s, T, h, _, rfl, rfl, ?_⟩
  rintro (⟨hneg, -⟩ | ⟨-, hnew, -⟩)
  · exact absurd hneg (by decide)
  · have hnew : ((1 : Nat) : Int) = (1 : Nat) + -2 := hnew
    exact absurd hnew (by decide)

end Xv6pp
