import Xv6pp.Proc.ProcessMachine

/-!
# Tearing a page table down

`freewalk` returns the pages of a table to the allocator while it is still reading the table, and
`free_pagetable` does so with the table and the user memory of a process.  A page that is freed has
its first word overwritten by the link of the free list, so that a page freed too early would lose
part of the table, and a page freed twice would close the list to a ring.

`freewalk_returns` and `freePagetable_returns` say which pages go back: those of the tree, and those
of the tree and of user memory, each of them once.
-/

set_option autoImplicit false

namespace Xv6pp
namespace VirtualMemory

open Prog Radix

attribute [local irreducible] freewalk

/-- The program returns, and on the way hands exactly the pages `A` to the allocator, each of them
once.  The list of free pages grows only by what is handed to `free`, and keeps its threading. -/
def Returns (m : VmM Unit) (s : Memory) (A : Multiset Nat) : Prop :=
  ∃ s' freed, m.run s = .ok ((), s') ∧ s'.freeList = freed ++ s.freeList ∧
    (freed : Multiset Nat) = A ∧ freed.Nodup ∧ (∀ p, p ∉ A → s'.mem p = s.mem p) ∧
    (Threaded s s.freeList → Threaded s' s'.freeList)

variable [KernelImage]

/-- The page table `r` on the pages `T` maps `n` pages of user memory, the trapframe and the
trampoline, and nothing else.  None of its pages, of the user pages and of the trapframe is free or
used twice. -/
structure ProcessTable (s : Memory) (r n : Nat) (T : Multiset Nat) (f : Nat → Nat) : Prop where
  table : Table s 2 r T f
  range : n ≤ trapPage
  user : ∀ v < n, Mapping (f v)
  trapframe : Mapping (f trapPage)
  trampoline : Mapping (f (trapPage + 1))
  trampoline_page : pte2pa (f (trapPage + 1)) = KernelImage.trampoline
  rest : ∀ v < sv39.width ^ 3, n ≤ v → v ≠ trapPage → v ≠ trapPage + 1 → has (f v) PTE_V = false
  owned : Owned s (pte2pa (f trapPage) ::ₘ (T + mapped f 0 n))

section
variable {E : Panic → Prop} {s s' : Memory} {r n tf sz : Nat} {u : Bool} {T A O : Multiset Nat}
  {f : Nat → Nat}

theorem returns_of_frees {m : VmM Unit} (ho : Owned s A)
    (h : wp m (fun _ => False) (fun _ s' => Frees s A s' 0) s) : Returns m s A := by
  obtain ⟨⟨⟩, s', hrun, hfrees⟩ := wp_total h
  obtain ⟨freed, hlist, hA⟩ := hfrees.pushed
  rw [add_zero] at hA
  refine ⟨s', freed, hrun, hlist, hA.symm, ?_, hfrees.frame, hfrees.threaded⟩
  rw [← Multiset.coe_nodup, ← hA]
  exact ho.nodup_right

/-- The address space of a process is such a table. -/
theorem ProcessTable.of_userSpace (h : UserSpace s r u n tf O) (htf : PageOk tf)
    (ho : Owned s (tf ::ₘ O)) : ∃ T f, ProcessTable s r n T f ∧ pte2pa (f trapPage) = tf := by
  obtain ⟨hn, T, f, htab, rfl, hleaf, hhigh⟩ := h
  have htrap : f trapPage = trapframePte tf := by
    rw [hhigh trapPage hn (by decide), high, if_pos rfl]
  have htramp : f (trapPage + 1) = trampolinePte := by
    rw [hhigh (trapPage + 1) (by omega) (by decide), high, if_neg (by omega), if_pos rfl]
  have hpa : pte2pa (f trapPage) = tf := by
    have hassoc : trapframePte tf = pa2pte tf ||| ((PTE_R ||| PTE_W) ||| PTE_V) := Nat.or_assoc _ _ _
    rw [htrap, hassoc]
    exact pte2pa_pa2pte_or htf.aligned htf.lt (by decide)
  refine ⟨T, f, ⟨htab, hn, fun v hv => (hleaf v hv).toLeaf.mapping, ?_, ?_, ?_, ?_, ?_⟩, hpa⟩
  · rw [htrap]
    exact (leaf_trapframePte htf).mapping
  · rw [htramp]
    exact leaf_trampolinePte.mapping
  · have hassoc : trampolinePte = pa2pte KernelImage.trampoline ||| ((PTE_R ||| PTE_X) ||| PTE_V) :=
      Nat.or_assoc _ _ _
    rw [htramp, hassoc]
    exact pte2pa_pa2pte_or KernelImage.trampoline_aligned trampoline_lt_phystop (by decide)
  · intro v hv hnv hne hne'
    rw [hhigh v hnv hv, high, if_neg hne, if_neg hne']
    rfl
  · rwa [hpa]

/-- One of the two pages above user memory is unmapped; its page stays. -/
theorem wp_unmap_one {v : Nat} (h : Table s 2 r T f) (ho : Owned s T)
    (hv : v * PGSIZE + PGSIZE ≤ MAXVA) (hl : Mapping (f v)) :
    wp (unmap r (v * PGSIZE) 1 false) E (fun _ s' =>
      Table s' 2 r T (unmapped f v 1) ∧ Frees s T s' T) s := by
  have hdiv : v * PGSIZE / PGSIZE = v := Nat.mul_div_cancel _ (by decide)
  have hun := wp_unmap_frees (E := E) (v * PGSIZE) 1 false h (by simpa using ho)
    (Nat.mul_mod_left _ _) (by rwa [Nat.one_mul]) (by
      intro i hi
      rwa [hdiv, Nat.lt_one_iff.1 hi, Nat.add_zero])
  rw [hdiv] at hun
  simpa only [Bool.false_eq_true, if_false, add_zero] using hun

set_option maxRecDepth 2048 in
/-- **`free`** frees the first `n` pages that a table maps, and its own pages when it maps nothing
else. -/
theorem wp_free_frees_table (h : Table s 2 r T f) (hn : pgRoundUp sz / PGSIZE ≤ trapPage)
    (ho : Owned s (T + mapped f 0 (pgRoundUp sz / PGSIZE)))
    (huser : ∀ v < pgRoundUp sz / PGSIZE, Mapping (f v))
    (hrest : ∀ v < sv39.width ^ 3, pgRoundUp sz / PGSIZE ≤ v → has (f v) PTE_V = false) :
    wp (VirtualMemory.free r sz) E (fun _ s' =>
      Frees s (T + mapped f 0 (pgRoundUp sz / PGSIZE)) s' 0) s := by
  rw [VirtualMemory.free]
  simp only [wp_bind, wp_ite]
  refine ⟨fun _ => ?_, fun h0 => ?_⟩
  · have hun := wp_unmap_frees (E := E) 0 (pgRoundUp sz / PGSIZE) true h
      (by simpa using ho) rfl
      (by simp only [trapPage, TRAPFRAME, TRAMPOLINE, MAXVA, PGSIZE] at *; omega)
      (by simpa using huser)
    simp only [if_true, Nat.zero_div] at hun
    refine wp_imp hun ?_
    rintro _ s₁ ⟨htab, hfrees⟩
    refine wp_imp (wp_freewalk_frees htab (ho.moves hfrees.moves) fun v hv => ?_) fun _ s₂ hfrees' =>
      hfrees.trans hfrees'
    rw [unmapped]
    split
    · rfl
    · exact hrest v hv (by omega)
  · obtain rfl : sz = 0 := by omega
    have hzero : pgRoundUp 0 / PGSIZE = 0 := rfl
    rw [hzero, mapped_zero, add_zero] at ho ⊢
    exact wp_freewalk_frees h ho fun v hv => hrest v hv (Nat.zero_le v)

/-- **`free_pagetable`** frees the pages of the table and of user memory. -/
theorem wp_freePagetable_frees (h : ProcessTable s r (pgRoundUp sz / PGSIZE) T f) :
    wp (ProcessManager.freePagetable r sz) E (fun _ s' =>
      Frees s (T + mapped f 0 (pgRoundUp sz / PGSIZE)) s' 0) s := by
  have ho : Owned s (T + mapped f 0 (pgRoundUp sz / PGSIZE)) :=
    h.owned.of_le (Multiset.le_cons_self _ _)
  have hn := h.range
  rw [ProcessManager.freePagetable, trampoline_eq, trapframe_eq]
  refine wp_seq (wp_unmap_one h.table (ho.of_le (Multiset.le_add_right _ _)) (by decide)
    h.trampoline) ?_
  rintro _ s₁ ⟨htab₁, hfrees₁⟩
  have hfrees₁' := hfrees₁.add (mapped f 0 (pgRoundUp sz / PGSIZE))
  have ho₁ := ho.moves hfrees₁'.moves
  have htrap : Mapping (unmapped f (trapPage + 1) 1 trapPage) := by
    rw [unmapped, if_neg (by omega)]
    exact h.trapframe
  refine wp_seq (wp_unmap_one htab₁ (ho₁.of_le (Multiset.le_add_right _ _)) (by decide) htrap) ?_
  rintro _ s₂ ⟨htab₂, hfrees₂⟩
  have hfrees₂' := hfrees₁'.trans (hfrees₂.add (mapped f 0 (pgRoundUp sz / PGSIZE)))
  -- below the two pages the map is still the same
  have hlow : ∀ v < trapPage, unmapped (unmapped f (trapPage + 1) 1) trapPage 1 v = f v := by
    intro v hv
    rw [unmapped, if_neg (by omega), unmapped, if_neg (by omega)]
  have hsame : mapped (unmapped (unmapped f (trapPage + 1) 1) trapPage 1) 0 (pgRoundUp sz / PGSIZE)
      = mapped f 0 (pgRoundUp sz / PGSIZE) :=
    mapped_congr fun i hi => hlow _ (by omega)
  have hfree := wp_free_frees_table (E := E) htab₂ hn
    (by rw [hsame]; exact ho.moves hfrees₂'.moves)
    (fun v hv => by rw [hlow v (by omega)]; exact h.user v hv) (fun v hv hnv => by
      rw [unmapped]
      split
      · rfl
      · rw [unmapped]
        split
        · rfl
        · exact h.rest v hv hnv (by omega) (by omega))
  rw [hsame] at hfree
  exact wp_imp hfree fun _ s₃ hfrees₃ => hfrees₂'.trans hfrees₃

end

/-! ## Main result -/

/-- **Page-table teardown.**  `freewalk` of a table without mappings hands the pages of the tree to
the allocator, each of them once, and no other page; `free_pagetable` hands over the pages of the
tree and of user memory, among which are neither the trapframe nor the trampoline. -/
theorem teardown :
    (∀ s r T f, Table s 2 r T f → Owned s T → (∀ v < sv39.width ^ 3, has (f v) PTE_V = false) →
      Returns (freewalk 3 r) s T) ∧
    ∀ s r sz T f, ProcessTable s r (pgRoundUp sz / PGSIZE) T f →
      Returns (ProcessManager.freePagetable r sz) s (T + mapped f 0 (pgRoundUp sz / PGSIZE)) ∧
      pte2pa (f trapPage) ∉ T + mapped f 0 (pgRoundUp sz / PGSIZE) ∧
      KernelImage.trampoline ∉ T + mapped f 0 (pgRoundUp sz / PGSIZE) := by
  refine ⟨fun s r T f h ho hempty => returns_of_frees ho (wp_freewalk_frees h ho hempty),
    fun s r sz T f h => ⟨?_, ?_, fun hmem => ?_⟩⟩
  · exact returns_of_frees (h.owned.of_le (Multiset.le_cons_self _ _)) (wp_freePagetable_frees h)
  · exact (Multiset.nodup_cons.1 h.owned.nodup_right).1
  · have hok := (h.owned.of_le (Multiset.le_cons_self _ _)).pageOk hmem
    exact absurd KernelImage.trampoline_lt (Nat.not_lt.2 hok.ge)

/-- The trapframe of a process on the small machine. -/
def firstPage : Nat := KERNBASE + 2 * PGSIZE

/-- Nine pages of memory, all but the first of them free. -/
def nineMemory : Memory := { smallMemory with
  freeList := (List.range 8).map fun i => KERNBASE + (3 + i) * PGSIZE }

/-- An address space with one page of user memory. -/
def buildTable : VmM (Nat × Nat) := do
  match ← ProcessManager.createPagetable firstPage with
  | none => pure (0, 0)
  | some r => pure (r, ← alloc r 0 1 PTE_W)

omit [KernelImage] in
theorem firstPage_ok : @PageOk smallImage firstPage :=
  @PageOk.mk smallImage _ (by decide) (by decide) (by decide)

omit [KernelImage] in
theorem nineMemory_owned : @Owned smallImage nineMemory {firstPage} := by
  have hnodup : ((nineMemory.freeList : Multiset Nat) + {firstPage}).Nodup := by decide
  refine @Owned.mk smallImage _ _ hnodup ?_
  have hall : ∀ p ∈ (nineMemory.freeList : Multiset Nat) + {firstPage},
      p % PGSIZE = 0 ∧ smallImage.kernelEnd ≤ p ∧ p < PHYSTOP := by decide
  exact fun p hp => @PageOk.mk smallImage p (hall p hp).1 (hall p hp).2.1 (hall p hp).2.2

omit [KernelImage] in
theorem buildTable_runs : ∃ r s, (@buildTable smallImage).run nineMemory = .ok ((r, 1), s) :=
  ⟨_, _, rfl⟩

omit [KernelImage] in
theorem buildTable_table : ∃ s r T f, @ProcessTable smallImage s r 1 T f := by
  let _ := smallImage
  have hwp : wp buildTable (fun _ => True) (fun res s' => res.2 = 1 →
      ∃ O, UserSpace s' res.1 true 1 firstPage O ∧ Owned s' (firstPage ::ₘ O)) nineMemory := by
    refine wp_seq (wp_createPagetable firstPage_ok nineMemory_owned) ?_
    rintro res s₁ (⟨rfl, -⟩ | ⟨r, O, rfl, hsp, hm⟩)
    · exact fun h01 => absurd h01 (by decide)
    have ho₁ := nineMemory_owned.moves hm
    have hsp₁ : UserSpace s₁ r true (pages 0) firstPage O := hsp
    refine wp_seq (wp_vmAlloc hsp₁ (ho₁.of_le (Multiset.le_add_right _ _)) (by decide)) ?_
    rintro sz s₂ ⟨O₂, hm₂, hres⟩ (rfl : sz = 1)
    rcases hres with ⟨-, hsp₂⟩ | ⟨h10, -⟩
    · refine ⟨O₂, hsp₂, ?_⟩
      have ho₂ := ho₁.moves (hm₂.add _)
      rwa [add_comm, Multiset.singleton_add] at ho₂
    · exact absurd h10 (by decide)
  obtain ⟨r, s, hrun⟩ := buildTable_runs
  obtain ⟨O, hsp, ho⟩ := wp_ok hwp hrun rfl
  obtain ⟨T, f, htable, -⟩ := ProcessTable.of_userSpace hsp firstPage_ok ho
  exact ⟨s, r, T, f, htable⟩

omit [KernelImage] in
/-- Teardown of a table that is empty, and of one with a page of user memory. -/
theorem teardown_nine : Returns (@freewalk smallImage 3 firstPage) nineMemory {firstPage} ∧
    ∃ s r T f, Returns (@ProcessManager.freePagetable smallImage r 1) s (T + mapped f 0 1) := by
  have htab : Table nineMemory 2 firstPage {firstPage} fun _ => 0 :=
    Tab.empty fun k _ => Bytes.num_zero 8 _
  obtain ⟨s, r, T, f, htable⟩ := buildTable_table
  refine ⟨(@teardown smallImage).1 _ _ _ _ htab nineMemory_owned fun _ _ => rfl, s, r, T, f, ?_⟩
  exact ((@teardown smallImage).2 s r 1 T f htable).1

end VirtualMemory
end Xv6pp
