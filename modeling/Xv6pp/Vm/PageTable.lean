import Mathlib.Data.Nat.Bitwise
import Xv6pp.Lib.Radix
import Xv6pp.Vm.VirtualMemory

/-!
# Page tables as radix trees

A three-level page table is a radix tree of height 2 over the pages of the memory (`Table`), and
the functions of `virtual_memory` are operations on the map it represents: `walk` finds the word of
an index, `mappages` and `unmap` change it.  Each function has one lemma here, which says what it
does to the map, that together with the free list the table keeps its pages
(`s'.freeList + T' = s.freeList + T`), that no other page is touched, and that it does not panic.
-/

set_option autoImplicit false

namespace Xv6pp
namespace VirtualMemory

open Prog Radix

/-! ## Page-table entries -/

/-- A page the allocator may hold: aligned, and after the kernel. -/
structure PageOk [KernelImage] (p : Nat) : Prop where
  aligned : p % PGSIZE = 0
  ge : KernelImage.kernelEnd ≤ p
  lt : p < PHYSTOP

theorem PageOk.pos [KernelImage] {p : Nat} (h : PageOk p) : 0 < p :=
  lt_of_lt_of_le (lt_of_lt_of_le (by decide) (KernelImage.kernbase_le.trans
    KernelImage.trampoline_lt.le)) h.ge

theorem has_eq_testBit (pte i : Nat) : has pte (2 ^ i) = pte.testBit i := by
  rw [has, Nat.and_two_pow]
  cases h : pte.testBit i <;> simp

/-- The page of an entry and its flags do not overlap. -/
theorem pa2pte_and (pa : Nat) {fl : Nat} (hfl : fl < 1024) : pa2pte pa &&& fl = 0 := by
  refine Nat.eq_of_testBit_eq fun i => ?_
  rw [Nat.testBit_and, pa2pte, Nat.testBit_shiftLeft, Nat.zero_testBit]
  rcases Nat.lt_or_ge i 10 with hi | hi
  · simp [Nat.not_le.2 hi]
  · have hlt : fl < 2 ^ i :=
      lt_of_lt_of_le (show fl < 2 ^ 10 from hfl) (Nat.pow_le_pow_right (by decide) hi)
    simp [Nat.testBit_lt_two_pow hlt]

/-- The flags of an entry are those it was made with. -/
theorem has_pa2pte_or (pa perm : Nat) {fl : Nat} (hfl : fl < 1024) :
    has (pa2pte pa ||| perm) fl = has perm fl := by
  rw [has, has, Nat.and_or_distrib_right, pa2pte_and pa hfl, Nat.zero_or]

/-- An entry made from a page and flags is their sum. -/
theorem pa2pte_or (pa : Nat) {perm : Nat} (hperm : perm < 1024) :
    pa2pte pa ||| perm = pa / PGSIZE * 1024 + perm := by
  have h : pa >>> 12 <<< 10 ||| perm = pa >>> 12 <<< 10 + perm :=
    (Nat.shiftLeft_add_eq_or_of_lt (by simpa using hperm) _).symm
  rw [pa2pte, h, Nat.shiftRight_eq_div_pow, Nat.shiftLeft_eq]
  rfl

theorem phystop_eq : PHYSTOP = 2281701376 := rfl

/-- The page of an entry is the one it was made with, for every aligned 64-bit address. -/
theorem pte2pa_pa2pte {pa perm : Nat} (hpa : pa % PGSIZE = 0) (hlt : pa < 2 ^ 64)
    (hperm : perm < 1024) : pte2pa (pa2pte pa ||| perm) = pa := by
  have h1 : (pa / PGSIZE * 1024 + perm) >>> 10 <<< 12 = pa := by
    rw [Nat.shiftRight_eq_div_pow, Nat.shiftLeft_eq]
    simp only [PGSIZE] at *
    omega
  rw [pa2pte_or pa hperm, pte2pa, h1, Nat.mod_eq_of_lt hlt]

theorem pte2pa_pa2pte_or {pa perm : Nat} (hpa : pa % PGSIZE = 0) (hlt : pa < PHYSTOP)
    (hperm : perm < 1024) : pte2pa (pa2pte pa ||| perm) = pa :=
  pte2pa_pa2pte hpa (hlt.trans (by decide)) hperm

theorem pa2pte_lt {pa perm : Nat} (hlt : pa < 2 ^ 64) (hperm : perm < 1024) :
    pa2pte pa ||| perm < 2 ^ 64 := by
  rw [pa2pte_or pa hperm]
  simp only [PGSIZE]
  omega

theorem pa2pte_or_lt {pa perm : Nat} (hlt : pa < PHYSTOP) (hperm : perm < 1024) :
    pa2pte pa ||| perm < 2 ^ 64 :=
  pa2pte_lt (hlt.trans (by decide)) hperm

theorem pteFlags_eq (pte : Nat) : pteFlags pte = pte % 1024 :=
  Nat.and_two_pow_sub_one_eq_mod pte 10

/-- The flags of an entry are the ones it was made with. -/
theorem pteFlags_pa2pte (pa : Nat) {perm : Nat} (hperm : perm < 1024) :
    pteFlags (pa2pte pa ||| perm) = perm := by
  rw [pteFlags_eq, pa2pte_or pa hperm]
  omega

theorem pteFlags_lt (pte : Nat) : pteFlags pte < 1024 := by
  rw [pteFlags_eq]
  exact Nat.mod_lt _ (by decide)

/-- A flag of an entry is a flag of its flags. -/
theorem has_pteFlags (pte : Nat) {fl : Nat} (hfl : fl < 1024) : has (pteFlags pte) fl = has pte fl := by
  have h : pte &&& fl = pteFlags pte &&& fl := by
    rw [pteFlags, Nat.and_assoc, Nat.and_comm 0x3FF fl, Nat.and_two_pow_sub_one_eq_mod fl 10,
      Nat.mod_eq_of_lt hfl]
  rw [has, has, h]

/-- A readable entry is not taken for a pointer to a page-table page. -/
theorem pteFlags_ne_V {pte : Nat} (h : has pte PTE_R) : pteFlags pte ≠ PTE_V := by
  intro he
  rw [← has_pteFlags pte (by decide), he] at h
  exact absurd h (by decide)

/-- An entry that `clear` has made inaccessible to the user. -/
def cleared (pte : Nat) : Nat := pte &&& (2 ^ 64 - 1 - PTE_U)

theorem cleared_testBit {pte : Nat} (hpte : pte < 2 ^ 64) (i : Nat) :
    (cleared pte).testBit i = (pte.testBit i && !decide (i = 4)) := by
  have hmask : (2 ^ 64 - 1 - PTE_U).testBit i = (decide (i < 64) && !PTE_U.testBit i) :=
    Nat.testBit_two_pow_sub_succ (x := PTE_U) (n := 64) (by decide) i
  have hU : PTE_U.testBit i = decide (i = 4) := by
    rw [PTE_U, Nat.one_shiftLeft, Nat.testBit_two_pow]
    simp [eq_comm]
  rw [cleared, Nat.testBit_and, hmask, hU]
  by_cases hi : i < 64
  · simp [hi]
  · have hlt : pte < 2 ^ i := lt_of_lt_of_le hpte (Nat.pow_le_pow_right (by decide) (by omega))
    simp [Nat.testBit_lt_two_pow hlt]

theorem has_cleared {pte i : Nat} (hpte : pte < 2 ^ 64) (hi : i ≠ 4) :
    has (cleared pte) (2 ^ i) = has pte (2 ^ i) := by
  rw [has_eq_testBit, has_eq_testBit, cleared_testBit hpte]
  simp [hi]

theorem pte2pa_cleared {pte : Nat} (hpte : pte < 2 ^ 64) : pte2pa (cleared pte) = pte2pa pte := by
  have h : cleared pte >>> 10 = pte >>> 10 := by
    refine Nat.eq_of_testBit_eq fun i => ?_
    rw [Nat.testBit_shiftRight, Nat.testBit_shiftRight, cleared_testBit hpte]
    simp [show 10 + i ≠ 4 by omega]
  rw [pte2pa, pte2pa, h]

theorem cleared_lt {pte : Nat} (hpte : pte < 2 ^ 64) : cleared pte < 2 ^ 64 :=
  lt_of_le_of_lt Nat.and_le_left hpte

/-! ## Tables -/

/-- Page tables as radix trees: 512 words a page, and a valid word without the flags of a leaf
points to the page-table page one level lower. -/
def sv39 : Format Nat Nat where
  width := 512
  width_pos := by decide
  null := 0
  dead w := has w PTE_V = false
  ptr w c := has w PTE_V = true ∧ has w (PTE_R ||| PTE_W ||| PTE_X) = false ∧ pte2pa w = c
  dead_null := by decide
  not_dead h hd := by rw [hd] at h; exact absurd h.1 (by decide)
  ptr_unique h h' := h.2.2.symm.trans h'.2.2

/-- The page `r` is the root of a page table of height `l` on the pages `T` that maps page numbers
to the words `f`. -/
abbrev Table (s : Memory) (l r : Nat) (T : Multiset Nat) (f : Nat → Nat) : Prop :=
  Tab sv39 s.word l r T f

theorem word_congr {s s' : Memory} {p : Nat} (h : s'.mem p = s.mem p) : s'.word p = s.word p := by
  funext k
  rw [Memory.word, Memory.word, h]

/-- A table depends on the content of its pages only. -/
theorem Table.frame {s s' : Memory} {l r : Nat} {T : Multiset Nat} {f : Nat → Nat}
    (h : Table s l r T f) (hs : ∀ p ∈ T, s'.mem p = s.mem p) : Table s' l r T f :=
  Tab.frame h fun p hp => word_congr (hs p hp)

/-- The content of a page after a store to one of its words. -/
theorem word_storeWord (s : Memory) {p k w j : Nat} (hk : k < 512) (hj : j < 512) (hw : w < 2 ^ 64) :
    (s.store p ((s.mem p).setU64 (8 * k) w)).word p j = if j = k then w else s.word p j := by
  rw [Memory.word, Memory.store_mem_self]
  split
  · next h =>
    subst h
    exact Bytes.u64_setU64_same (by simp only [PGSIZE]; omega) hw
  · exact Bytes.u64_setU64_disjoint (by omega)

theorem word_zero (s : Memory) (p k : Nat) : (s.store p (Bytes.zero PGSIZE)).word p k = 0 := by
  rw [Memory.word, Memory.store_mem_self]
  exact Bytes.num_zero 8 _

/-- The index of an address at a level. -/
theorem px_eq (level va : Nat) : px level va = va / PGSIZE / 512 ^ level % 512 := by
  have h : va >>> (12 + 9 * level) = va / PGSIZE / 512 ^ level := by
    rw [Nat.shiftRight_eq_div_pow, pow_add, pow_mul, Nat.div_div_eq_div_mul]
    rfl
  rw [px, h]
  exact Nat.and_two_pow_sub_one_eq_mod _ 9

/-- The part of an address that the levels up to `l` translate. -/
def vpn (l va : Nat) : Nat := va / PGSIZE % 512 ^ (l + 1)

theorem vpn_lt (l va : Nat) : vpn l va < sv39.width ^ (l + 1) :=
  Nat.mod_lt _ (pow_pos (by decide) _)

theorem vpn_div (l va : Nat) : vpn (l + 1) va / sv39.width ^ (l + 1) = px (l + 1) va := by
  rw [px_eq, vpn, pow_succ 512 (l + 1)]
  exact Nat.mod_mul_right_div_self _ _ _

theorem vpn_mod (l va : Nat) : vpn (l + 1) va % sv39.width ^ (l + 1) = vpn l va :=
  Nat.mod_mod_of_dvd _ (pow_dvd_pow _ (by omega))

theorem px_lt (level va : Nat) : px level va < 512 := by
  rw [px_eq]
  exact Nat.mod_lt _ (by decide)

/-- The word a page number leads to, from an address. -/
theorem slot_succ {mem : Nat → Nat → Nat} {l r va c q k : Nat}
    (hc : sv39.ptr (mem r (px (l + 1) va)) c) (hs : Radix.Slot sv39 mem l c (vpn l va) q k) :
    Radix.Slot sv39 mem (l + 1) r (vpn (l + 1) va) q k := by
  refine ⟨c, ?_, ?_⟩
  · rwa [vpn_div]
  · rwa [vpn_mod]

/-! ## The page allocator -/

section
variable {E : Panic → Prop} {s : Memory}

/-- `alloc` finds no page, or takes the first of the list. -/
theorem wp_alloc {Q : Option Nat → Memory → Prop}
    (hnone : ∀ s', s'.freeList = s.freeList → s'.mem = s.mem → Q none s')
    (hsome : ∀ p rest s', s.freeList = p :: rest → s'.freeList = rest → s'.mem = s.mem →
      Q (some p) s') : wp PageAllocator.alloc E Q s := by
  simp only [PageAllocator.alloc, wp_bind, wp_get, wp_ite, wp_set, wp_pure]
  refine ⟨fun _ => hnone _ rfl rfl, fun _ => ?_⟩
  split
  · exact hnone _ rfl rfl
  · next p rest h => exact hsome p rest _ h rfl rfl

@[simp] theorem wp_loadWord {Q : Nat → Memory → Prop} {p k : Nat} :
    wp (loadWord p k) E Q s ↔ Q (s.word p k) s := Iff.rfl

@[simp] theorem wp_storeWord {Q : PUnit → Memory → Prop} {p k w : Nat} :
    wp (storeWord p k w) E Q s ↔ Q ⟨⟩ (s.store p ((s.mem p).setU64 (8 * k) w)) := Iff.rfl

@[simp] theorem wp_memsetZero {Q : PUnit → Memory → Prop} {p : Nat} :
    wp (memsetZero p) E Q s ↔ Q ⟨⟩ (s.store p (Bytes.zero PGSIZE)) := Iff.rfl

/-- `free` puts the page at the head of the list and changes no other page. -/
theorem wp_free [KernelImage] {Q : PUnit → Memory → Prop} {p : Nat} (hp : PageOk p)
    (h : ∀ s', s'.freeList = p :: s.freeList → (∀ q, q ≠ p → s'.mem q = s.mem q) → Q ⟨⟩ s') :
    wp (PageAllocator.free p) E Q s := by
  have hrange : ¬ (p < KernelImage.kernelEnd ∨ PHYSTOP ≤ p) := by
    have := hp.ge
    have := hp.lt
    omega
  rw [PageAllocator.free, if_neg (not_not.2 hp.aligned), if_neg hrange]
  exact h _ rfl fun q hq => Memory.store_mem_of_ne s _ hq

end

/-! ## Owned pages -/

/-- The pages `A` are in use, none of them twice and none of them free. -/
structure Owned [KernelImage] (s : Memory) (A : Multiset Nat) : Prop where
  nodup : ((s.freeList : Multiset Nat) + A).Nodup
  ok : ∀ p ∈ (s.freeList : Multiset Nat) + A, PageOk p

/-- Between the two states pages went back and forth between the free list and the pages `A`, which
became `A'`; no other page was touched. -/
structure Moves (s : Memory) (A : Multiset Nat) (s' : Memory) (A' : Multiset Nat) : Prop where
  conserve : (s'.freeList : Multiset Nat) + A' = s.freeList + A
  frame : ∀ p, p ∉ (s.freeList : Multiset Nat) + A → s'.mem p = s.mem p

section
variable {s s' s'' : Memory} {A A' A'' X : Multiset Nat}

theorem Moves.refl (s : Memory) (A : Multiset Nat) : Moves s A s A := ⟨rfl, fun _ _ => rfl⟩

theorem Moves.of_eq (hf : s'.freeList = s.freeList) (hm : s'.mem = s.mem) : Moves s A s' A :=
  ⟨by rw [hf], fun _ _ => by rw [hm]⟩

theorem Moves.trans (h : Moves s A s' A') (h' : Moves s' A' s'' A'') : Moves s A s'' A'' where
  conserve := h'.conserve.trans h.conserve
  frame p hp := (h'.frame p (h.conserve ▸ hp)).trans (h.frame p hp)

/-- Pages that are not involved may be added on both sides. -/
theorem Moves.add (h : Moves s A s' A') (X : Multiset Nat) : Moves s (A + X) s' (A' + X) where
  conserve := by rw [← add_assoc, ← add_assoc, h.conserve]
  frame p hp := h.frame p fun hA => hp (by
    rw [← add_assoc]
    exact Multiset.mem_add.2 (.inl hA))

theorem Moves.mem_eq (h : Moves s A s' A') (hX : ((s.freeList : Multiset Nat) + (A + X)).Nodup)
    {p : Nat} (hp : p ∈ X) : s'.mem p = s.mem p := by
  rw [← add_assoc] at hX
  exact h.frame p fun hA => Multiset.disjoint_left.1 (Multiset.nodup_add.1 hX).2.2 hA hp

/-- A page leaves the free list. -/
theorem Moves.pop {p : Nat} {rest : List Nat} (hf : s.freeList = p :: rest)
    (hf' : s'.freeList = rest) (hm : ∀ q, q ∉ (s.freeList : Multiset Nat) + A → s'.mem q = s.mem q) :
    Moves s A s' (p ::ₘ A) where
  conserve := by
    rw [hf, hf', ← Multiset.cons_coe, Multiset.add_cons, Multiset.cons_add]
  frame := hm

/-- A page comes back to the free list. -/
theorem Moves.push {p : Nat} (hf : s'.freeList = p :: s.freeList)
    (hm : ∀ q, q ≠ p → s'.mem q = s.mem q) : Moves s (p ::ₘ A) s' A where
  conserve := by
    rw [hf, ← Multiset.cons_coe, Multiset.add_cons, Multiset.cons_add]
  frame q hq := hm q fun e => hq (by simp [e])

variable [KernelImage]

theorem Owned.moves (h : Owned s A) (hm : Moves s A s' A') : Owned s' A' :=
  ⟨hm.conserve ▸ h.nodup, hm.conserve ▸ h.ok⟩

theorem Owned.nodup_right (h : Owned s A) : A.Nodup := (Multiset.nodup_add.1 h.nodup).2.1

theorem Owned.pageOk (h : Owned s A) {p : Nat} (hp : p ∈ A) : PageOk p :=
  h.ok p (Multiset.mem_add.2 (.inr hp))

theorem Owned.not_mem_free (h : Owned s A) {p : Nat} (hp : p ∈ A) : p ∉ s.freeList := fun hf =>
  Multiset.disjoint_left.1 (Multiset.nodup_add.1 h.nodup).2.2 hf hp

theorem Owned.of_le (h : Owned s A) (hX : X ≤ A) : Owned s X :=
  ⟨Multiset.nodup_of_le (add_le_add_right hX _) h.nodup,
    fun p hp => h.ok p (Multiset.mem_of_le (add_le_add_right hX _) hp)⟩

end

/-! ## Freeing pages -/

/-- A list of free pages is threaded through the pages: the first word of each is the address of the
next one. -/
def Threaded (s : Memory) : List Nat → Prop
  | [] => True
  | p :: rest => s.word p 0 = rest.headD 0 ∧ Threaded s rest

/-- Between the two states some of the pages `A` were handed to the allocator, each of them once, and
`A'` are left; the list of free pages grew by these pages and only the pages `A` were written. -/
structure Frees (s : Memory) (A : Multiset Nat) (s' : Memory) (A' : Multiset Nat) : Prop where
  pushed : ∃ freed : List Nat, s'.freeList = freed ++ s.freeList ∧ A = freed + A'
  frame : ∀ p, p ∉ A → s'.mem p = s.mem p
  threaded : Threaded s s.freeList → Threaded s' s'.freeList

section
variable {s s' s'' : Memory} {A A' A'' X : Multiset Nat}

theorem Threaded.frame {ps : List Nat} (h : Threaded s ps) (hs : ∀ p ∈ ps, s'.mem p = s.mem p) :
    Threaded s' ps := by
  induction ps with
  | nil => trivial
  | cons p rest ih =>
    obtain ⟨hp, hrest⟩ := h
    refine ⟨?_, ih hrest fun q hq => hs q (by simp [hq])⟩
    rw [word_congr (hs p (by simp)), hp]

theorem Frees.refl (s : Memory) (A : Multiset Nat) : Frees s A s A :=
  ⟨⟨[], rfl, (zero_add A).symm⟩, fun _ _ => rfl, id⟩

theorem Frees.le (h : Frees s A s' A') : A' ≤ A := by
  obtain ⟨freed, -, rfl⟩ := h.pushed
  exact Multiset.le_add_left _ _

theorem Frees.trans (h : Frees s A s' A') (h' : Frees s' A' s'' A'') : Frees s A s'' A'' where
  pushed := by
    obtain ⟨freed, hlist, rfl⟩ := h.pushed
    obtain ⟨freed', hlist', rfl⟩ := h'.pushed
    refine ⟨freed' ++ freed, ?_, ?_⟩
    · rw [hlist', hlist, List.append_assoc]
    · rw [← Multiset.coe_add, add_assoc]
      exact add_left_comm _ _ _
  frame p hp := by
    rw [h'.frame p fun hp' => hp (Multiset.mem_of_le h.le hp'), h.frame p hp]
  threaded hs := h'.threaded (h.threaded hs)

/-- Pages that are not involved may be added on both sides. -/
theorem Frees.add (h : Frees s A s' A') (X : Multiset Nat) : Frees s (A + X) s' (A' + X) where
  pushed := by
    obtain ⟨freed, hlist, rfl⟩ := h.pushed
    exact ⟨freed, hlist, add_assoc _ _ _⟩
  frame p hp := h.frame p fun hA => hp (Multiset.mem_add.2 (.inl hA))
  threaded := h.threaded

theorem Frees.mem_eq (h : Frees s A s' A') (hX : (A + X).Nodup) {p : Nat} (hp : p ∈ X) :
    s'.mem p = s.mem p :=
  h.frame p fun hA => Multiset.disjoint_left.1 (Multiset.nodup_add.1 hX).2.2 hA hp

/-- Freeing is one way of moving pages. -/
theorem Frees.moves (h : Frees s A s' A') : Moves s A s' A' where
  conserve := by
    obtain ⟨freed, hlist, rfl⟩ := h.pushed
    rw [hlist, ← Multiset.coe_add, add_comm (freed : Multiset Nat), add_assoc]
  frame p hp := h.frame p fun hA => hp (Multiset.mem_add.2 (.inr hA))

variable [KernelImage]

/-- A page that is in use is written. -/
theorem Frees.store {q : Nat} (ho : Owned s A) (hq : q ∈ A) (b : Bytes PGSIZE) :
    Frees s A (s.store q b) A where
  pushed := ⟨[], rfl, (zero_add A).symm⟩
  frame _ hp := Memory.store_mem_of_ne s b fun e => hp (e ▸ hq)
  threaded hs := hs.frame fun _ hp => Memory.store_mem_of_ne s b fun e =>
    ho.not_mem_free hq (e ▸ hp)

/-- **`free`** hands one page to the allocator. -/
theorem wp_free_frees {E : Panic → Prop} {p : Nat} (ho : Owned s (p ::ₘ A)) :
    wp (PageAllocator.free p) E (fun _ s' => Frees s (p ::ₘ A) s' A) s := by
  have hp : PageOk p := ho.pageOk (by simp)
  have hrange : ¬ (p < KernelImage.kernelEnd ∨ PHYSTOP ≤ p) := by
    have := hp.ge
    have := hp.lt
    omega
  have hhead : s.freeList.headD 0 < 2 ^ 64 := by
    cases hf : s.freeList with
    | nil => decide
    | cons q rest => exact (ho.ok q (by simp [hf])).lt.trans (by decide)
  have hfree : p ∉ s.freeList := ho.not_mem_free (by simp)
  rw [PageAllocator.free, if_neg (not_not.2 hp.aligned), if_neg hrange]
  refine ⟨⟨[p], rfl, rfl⟩, fun q hq => Memory.store_mem_of_ne s _ fun e => hq (by simp [e]),
    fun hs => ⟨?_, ?_⟩⟩
  · have hword := word_storeWord s (p := p) (k := 0) (j := 0) (by decide) (by decide) hhead
    rwa [if_pos rfl] at hword
  · refine Threaded.frame hs fun q hq => Memory.store_mem_of_ne s _ ?_
    rintro rfl
    exact hfree hq

end

/-! ## `walk` -/

section
variable [KernelImage] {E : Panic → Prop} {s : Memory} {l r : Nat} {T : Multiset Nat}
  {f : Nat → Nat} {va : Nat}

/-- An entry that points to a page-table page. -/
theorem ptr_pa2pte {c : Nat} (hc : PageOk c) : sv39.ptr (pa2pte c ||| PTE_V) c := by
  refine ⟨?_, ?_, pte2pa_pa2pte_or hc.aligned hc.lt (by decide)⟩
  · rw [has_pa2pte_or c _ (by decide)]; decide
  · rw [has_pa2pte_or c _ (by decide)]; decide

omit [KernelImage] in
/-- A new page-table page: the page `child` has been zeroed, and word `k` of the page `r` points to
it. -/
structure Linked (s s' : Memory) (r k child : Nat) : Prop where
  mem : ∀ p, p ≠ r → p ≠ child → s'.mem p = s.mem p
  word : ∀ j < 512, s'.word r j = if j = k then pa2pte child ||| PTE_V else s.word r j
  zero : ∀ j, s'.word child j = 0

theorem Linked.of_store {s₁ : Memory} {k child : Nat} (hm : s₁.mem = s.mem) (hk : k < 512)
    (hrc : r ≠ child) (hchild : PageOk child) :
    Linked s ((s₁.store child (Bytes.zero PGSIZE)).store r
      (((s₁.store child (Bytes.zero PGSIZE)).mem r).setU64 (8 * k) (pa2pte child ||| PTE_V)))
      r k child where
  mem p hpr hpc := by
    rw [Memory.store_mem_of_ne _ _ hpr, Memory.store_mem_of_ne _ _ hpc, hm]
  word j hj := by
    rw [word_storeWord _ hk hj (pa2pte_or_lt hchild.lt (by decide)),
      word_congr ((Memory.store_mem_of_ne s₁ _ hrc).trans (congrFun hm r))]
  zero j := by
    rw [word_congr (Memory.store_mem_of_ne _ _ hrc.symm), word_zero]

/-- **`walk` with allocation** keeps the map of the table; a page number whose page-table pages are
all there, or could be allocated, leads to its word. -/
theorem wp_walkFrom_alloc (h : Table s l r T f) (ho : Owned s T) :
    wp (walkFrom l r va true) E (fun res s' => ∃ T', Table s' l r T' f ∧ Moves s T s' T' ∧
      ∀ q k, res = some (q, k) → Radix.Slot sv39 s'.word l r (vpn l va) q k) s := by
  induction l generalizing r T f s with
  | zero =>
    refine ⟨T, h, Moves.refl s T, ?_⟩
    rintro q k ⟨⟩
    refine ⟨rfl, ?_⟩
    rw [px_eq, vpn, pow_zero, Nat.div_one, zero_add, pow_one]
  | succ l ih =>
    have hk : px (l + 1) va < sv39.width := px_lt (l + 1) va
    obtain ⟨Tk, Ts, rfl, he, hrest⟩ := Tab.split h hk
    have hcons : Tk + (r ::ₘ Ts) = r ::ₘ (Tk + Ts) := Multiset.add_cons r Tk Ts
    rw [← hcons] at ho ⊢
    have hr : PageOk r := ho.pageOk (by simp)
    have hnodup := ho.nodup_right
    have hrTs : r ∉ Ts := (Multiset.nodup_cons.1 (Multiset.nodup_add.1 hnodup).2.1).1
    -- putting the subtree at this index back into the table
    have hjoin : ∀ {s' : Memory} {Tk' : Multiset Nat},
        Entry sv39 s'.word l (s'.word r (px (l + 1) va)) Tk' (block sv39 l (px (l + 1) va) f) →
        (∀ j < 512, j ≠ px (l + 1) va → s'.word r j = s.word r j) →
        (∀ p ∈ Ts, s'.mem p = s.mem p) → Table s' (l + 1) r (Tk' + (r ::ₘ Ts)) f := by
      intro s' Tk' hentry hword hmem
      rw [Multiset.add_cons]
      exact Tab.join hk hentry
        (hrest.frame hword (fun p hp => word_congr (hmem p hp)) fun _ _ _ _ _ => rfl)
    rw [walkFrom, if_neg (by have := hr.pos; omega)]
    simp only [wp_bind, wp_loadWord, wp_ite]
    refine ⟨fun hV => ?_, fun hV => ⟨fun _ => ?_, fun hfalse => absurd trivial hfalse⟩⟩
    · -- the entry is valid: go on in the subtree
      rcases he with ⟨hdead, -⟩ | ⟨c, hc, hchild⟩
      · exact absurd (hdead.symm.trans hV) (by decide)
      rw [hc.2.2]
      refine wp_imp (ih hchild (ho.of_le (Multiset.le_add_right _ _))) ?_
      rintro res s' ⟨Tk', htab, hmoves, hslot⟩
      have hsame : ∀ p ∈ r ::ₘ Ts, s'.mem p = s.mem p := fun p hp => hmoves.mem_eq ho.nodup hp
      have hword : s'.word r = s.word r := word_congr (hsame r (by simp))
      refine ⟨Tk' + (r ::ₘ Ts), hjoin ?_ (fun j _ _ => by rw [hword])
        (fun p hp => hsame p (by simp [hp])), hmoves.add _, fun q k hres => ?_⟩
      · rw [hword]
        exact .inr ⟨c, hc, htab⟩
      · exact slot_succ (by rw [hword]; exact hc) (hslot q k hres)
    · -- the entry is not valid: a new page-table page
      rcases he with ⟨-, rfl, hnull⟩ | ⟨c, hc, -⟩
      swap
      · exact absurd hc.1 hV
      rw [zero_add] at ho ⊢
      refine wp_alloc (fun s' hf hm => ?_) fun child rest s₁ hf hf₁ hm₁ => ?_
      · refine ⟨r ::ₘ Ts, ?_, Moves.of_eq hf hm, fun q k hres => by cases hres⟩
        rw [← zero_add (r ::ₘ Ts)]
        have hdead : sv39.dead (s'.word r (px (l + 1) va)) := by
          rw [word_congr (congrFun hm r)]
          exact Bool.eq_false_iff.2 hV
        exact hjoin (.inl ⟨hdead, rfl, hnull⟩) (fun j _ _ => by rw [word_congr (congrFun hm r)])
          (fun p _ => by rw [hm])
      · have hchildOk : PageOk child := ho.ok child (by simp [hf])
        have hchild : child ∉ r ::ₘ Ts := fun hc => ho.not_mem_free hc (by simp [hf])
        have hrc : r ≠ child := fun e => hchild (by simp [e])
        simp only [wp_bind, wp_memsetZero, wp_storeWord]
        set s₂ := (s₁.store child (Bytes.zero PGSIZE)).store r
          (((s₁.store child (Bytes.zero PGSIZE)).mem r).setU64 (8 * px (l + 1) va)
            (pa2pte child ||| PTE_V)) with hs₂
        have hfree₂ : s₂.freeList = rest := hf₁
        obtain ⟨hmem₂, hwordr, hzero⟩ : Linked s s₂ r (px (l + 1) va) child :=
          .of_store hm₁ (px_lt _ _) hrc hchildOk
        have hmoves₂ : Moves s (r ::ₘ Ts) s₂ (child ::ₘ r ::ₘ Ts) := by
          refine Moves.pop hf hfree₂ fun q hq => hmem₂ q ?_ ?_
          · exact fun e => hq (by simp [e])
          · exact fun e => hq (by simp [e, hf])
        have ho₂ := ho.moves hmoves₂
        have hempty : Table s₂ l child {child} fun _ => sv39.null :=
          Tab.empty fun k _ => hzero k
        refine wp_imp (ih hempty (ho₂.of_le (by simp))) ?_
        rintro res s' ⟨Tk', htab, hmoves, hslot⟩
        have hsame : ∀ p ∈ r ::ₘ Ts, s'.mem p = s₂.mem p :=
          fun p hp => hmoves.mem_eq (X := r ::ₘ Ts) ho₂.nodup hp
        have hword : s'.word r = s₂.word r := word_congr (hsame r (by simp))
        have hptr : sv39.ptr (s'.word r (px (l + 1) va)) child := by
          rw [hword, hwordr _ (px_lt _ _), if_pos rfl]
          exact ptr_pa2pte hchildOk
        refine ⟨Tk' + (r ::ₘ Ts), hjoin (.inr ⟨child, hptr, ?_⟩) ?_ ?_, ?_, ?_⟩
        · exact Tab.congr_map htab fun v hv => (hnull v hv).symm
        · intro j hj hjk
          rw [hword, hwordr j hj, if_neg hjk]
        · intro p hp
          have hpr : p ≠ r := fun e => hrTs (e ▸ hp)
          have hpc : p ≠ child := fun e => hchild (by simp [← e, hp])
          rw [hsame p (by simp [hp]), hmem₂ p hpr hpc]
        · exact hmoves₂.trans (hmoves.add (r ::ₘ Ts))
        · exact fun q k hres => slot_succ hptr (hslot q k hres)

/-- `walk` with allocation keeps the valid words of the pages in use. -/
theorem wp_walkFrom_keeps (h : Table s l r T f) (ho : Owned s T) :
    wp (walkFrom l r va true) E (fun _ s' => ∀ p, p ∉ s.freeList → ∀ k < 512,
      has (s.word p k) PTE_V → s'.word p k = s.word p k) s := by
  induction l generalizing r T f s with
  | zero => exact fun _ _ _ _ _ => rfl
  | succ l ih =>
    have hr : PageOk r := ho.pageOk h.root_mem
    obtain ⟨Tk, Ts, rfl, he, -⟩ := Tab.split h (px_lt (l + 1) va)
    rw [walkFrom, if_neg (by have := hr.pos; omega)]
    simp only [wp_bind, wp_loadWord, wp_ite]
    refine ⟨fun hV => ?_, fun hV => ⟨fun _ => ?_, fun hfalse => absurd trivial hfalse⟩⟩
    · rcases he with ⟨hdead, -⟩ | ⟨c, hc, hchild⟩
      · exact absurd (hdead.symm.trans hV) (by decide)
      rw [hc.2.2]
      exact ih hchild (ho.of_le ((Multiset.le_add_right Tk Ts).trans (Multiset.le_cons_self _ r)))
    · refine wp_alloc (fun s' hf hm p _ k _ _ => by rw [word_congr (congrFun hm p)])
        fun child rest s₁ hf hf₁ hm₁ => ?_
      have hchildOk : PageOk child := ho.ok child (by simp [hf])
      have hrc : r ≠ child := fun e => ho.not_mem_free h.root_mem (by simp [hf, e])
      have hnd : (child :: rest).Nodup := by
        have := (Multiset.nodup_add.1 ho.nodup).1
        rwa [hf, Multiset.coe_nodup] at this
      simp only [wp_bind, wp_memsetZero, wp_storeWord]
      set s₂ := (s₁.store child (Bytes.zero PGSIZE)).store r
        (((s₁.store child (Bytes.zero PGSIZE)).mem r).setU64 (8 * px (l + 1) va)
          (pa2pte child ||| PTE_V)) with hs₂
      have hfree₂ : s₂.freeList = rest := hf₁
      obtain ⟨hmem₂, hwordr, hzero⟩ : Linked s s₂ r (px (l + 1) va) child :=
        .of_store hm₁ (px_lt _ _) hrc hchildOk
      have hempty : Table s₂ l child {child} fun _ => sv39.null := Tab.empty fun k _ => hzero k
      have ho₂ : Owned s₂ {child} := by
        have hperm : (s₂.freeList : Multiset Nat) + {child} = s.freeList := by
          rw [hf, hfree₂, ← Multiset.cons_coe, ← Multiset.singleton_add, add_comm]
        refine ⟨?_, fun p hp => ho.ok p (Multiset.mem_add.2 (.inl (hperm ▸ hp)))⟩
        rw [hperm, hf]
        exact Multiset.coe_nodup.2 hnd
      refine wp_imp (ih hempty ho₂) fun _ s' hkeep p hp k hk hVk => ?_
      have hpc : p ≠ child := fun e => hp (by simp [hf, e])
      have hword : s₂.word p k = s.word p k := by
        by_cases hpr : p = r
        · rw [hpr, hwordr k hk, if_neg]
          rintro rfl
          rw [hpr] at hVk
          exact hV hVk
        · exact congrFun (word_congr (hmem₂ p hpr hpc)) k
      rw [← hword] at hVk ⊢
      refine hkeep p ?_ k hk hVk
      rw [hfree₂]
      exact fun hmem => hp (by simp [hf, hmem])

/-- **`walk` without allocation** only looks; a page number without a word is not mapped. -/
theorem wp_walkFrom_find (h : Table s l r T f) (hT : ∀ p ∈ T, PageOk p) :
    wp (walkFrom l r va false) E (fun res s' => s' = s ∧
      (∀ q k, res = some (q, k) → Radix.Slot sv39 s.word l r (vpn l va) q k) ∧
      (res = none → f (vpn l va) = 0)) s := by
  induction l generalizing r T f with
  | zero =>
    refine ⟨rfl, ?_, fun hnone => by cases hnone⟩
    rintro q k ⟨⟩
    refine ⟨rfl, ?_⟩
    rw [px_eq, vpn, pow_zero, Nat.div_one, zero_add, pow_one]
  | succ l ih =>
    have hr := hT r (Tab.root_mem h)
    have hblock : block sv39 l (px (l + 1) va) f (vpn l va) = f (vpn (l + 1) va) := by
      have hb := block_div_mod (R := sv39) (f := f) l (vpn (l + 1) va)
      rwa [vpn_div, vpn_mod] at hb
    obtain ⟨Tk, Ts, rfl, he, -⟩ := Tab.split h (px_lt (l + 1) va)
    rw [walkFrom, if_neg (by have := hr.pos; omega)]
    simp only [wp_bind, wp_loadWord, wp_ite]
    refine ⟨fun hV => ?_, fun hV => ⟨(by rintro ⟨⟩), fun _ => ?_⟩⟩
    · rcases he with ⟨hdead, -⟩ | ⟨c, hc, hchild⟩
      · exact absurd (hdead.symm.trans hV) (by decide)
      rw [hc.2.2]
      refine wp_imp (ih hchild fun p hp => hT p (by simp [hp])) ?_
      rintro res s' ⟨rfl, hslot, hnone⟩
      exact ⟨rfl, fun q k hres => slot_succ hc (hslot q k hres),
        fun hres => hblock ▸ hnone hres⟩
    · rcases he with ⟨-, -, hnull⟩ | ⟨c, hc, -⟩
      · exact ⟨rfl, (by rintro _ _ ⟨⟩), fun _ => hblock ▸ hnull _ (vpn_lt l va)⟩
      · exact absurd hc.1 hV

end

end VirtualMemory
end Xv6pp
