import Mathlib.Order.Interval.Finset.Nat
import Xv6pp.Vm.Mapping

/-!
# User address spaces

The shape of a user page table: the first `n` pages are user memory, two pages at the top are the
trapframe and the trampoline, and nothing else is mapped (`Space`).  The functions that grow,
shrink, copy and free user memory keep this shape, also when they run out of pages half-way, and
together with the free list an address space keeps its pages.  All panics of these functions are
excluded: the number of pages of the machine bounds the size of an address space below the
trapframe.
-/

set_option autoImplicit false

namespace Xv6pp
namespace VirtualMemory

open Prog Radix

/-! ## Sizes -/

/-- The number of pages of `sz` bytes. -/
def pages (sz : Nat) : Nat := (sz + PGSIZE - 1) / PGSIZE

/-- The page number of the trapframe; the trampoline is the next one. -/
def trapPage : Nat := TRAPFRAME / PGSIZE

theorem pages_mul (n : Nat) : pages (n * PGSIZE) = n := by
  simp only [pages, PGSIZE]
  omega

theorem pages_mono {a b : Nat} (h : a ≤ b) : pages a ≤ pages b := by
  simp only [pages, PGSIZE]
  omega

theorem pgRoundUp_eq {sz : Nat} (h : sz ≤ MAXVA) : pgRoundUp sz = pages sz * PGSIZE := by
  rw [pgRoundUp, pages, Nat.mod_eq_of_lt]
  simp only [PGSIZE, MAXVA] at *
  omega

/-- The bytes of a size that is below the trapframe. -/
theorem le_of_pages_le {sz n : Nat} (h : pages sz ≤ n) : sz ≤ n * PGSIZE := by
  simp only [pages, PGSIZE] at *
  omega

section
variable [KernelImage]

/-- The machine has at most `2 ^ 15` pages. -/
theorem card_le_of_pageOk {A : Multiset Nat} (hA : A.Nodup) (hok : ∀ p ∈ A, PageOk p) :
    A.card ≤ 32768 := by
  have hlow : ∀ p ∈ A, KERNBASE ≤ p := fun p hp =>
    KernelImage.kernbase_le.trans (KernelImage.trampoline_lt.le.trans (hok p hp).ge)
  have hinj : (A.map (· / PGSIZE)).Nodup := by
    refine hA.map_on fun p hp q hq hpq => ?_
    have h1 := (hok p hp).aligned
    have h2 := (hok q hq).aligned
    simp only [PGSIZE] at *
    omega
  have hsub : A.map (· / PGSIZE) ⊆ (Finset.Ico (KERNBASE / PGSIZE) (PHYSTOP / PGSIZE)).val := by
    intro k hk
    obtain ⟨p, hp, rfl⟩ := Multiset.mem_map.1 hk
    have h1 := hlow p hp
    have h2 := (hok p hp).lt
    have h3 := (hok p hp).aligned
    rw [phystop_eq] at h2
    simp only [Finset.mem_val, Finset.mem_Ico, phystop_eq]
    simp only [KERNBASE, PGSIZE] at *
    omega
  calc A.card = (A.map (· / PGSIZE)).card := (Multiset.card_map _ _).symm
    _ ≤ (Finset.Ico (KERNBASE / PGSIZE) (PHYSTOP / PGSIZE)).val.card :=
        Multiset.card_le_card ((Multiset.le_iff_subset hinj).2 hsub)
    _ = 32768 := by rw [Finset.card_val, Nat.card_Ico]; rfl

theorem Owned.card_le {s : Memory} {A : Multiset Nat} (h : Owned s A) :
    s.freeList.length + A.card ≤ 32768 := by
  have := card_le_of_pageOk h.nodup h.ok
  rwa [Multiset.card_add, Multiset.coe_card] at this

end

/-! ## The shape of an address space -/

/-- The words above the user memory: `a` for the trapframe, `b` for the trampoline. -/
def high (a b v : Nat) : Nat := if v = trapPage then a else if v = trapPage + 1 then b else 0

/-- A word that maps user memory.  While `exec` builds an address space all of it is accessible to
the user, which `u` says; later the guard page below the stack is not. -/
structure UserLeaf (u : Bool) (w : Nat) : Prop extends Leaf w where
  user : u = true → has w PTE_U

/-- The page table `r` maps the first `n` page numbers to user pages, the trapframe and the
trampoline by the words `a` and `b`, and nothing else; its own pages and the user pages are `O`. -/
def Space (s : Memory) (r : Nat) (u : Bool) (n a b : Nat) (O : Multiset Nat) : Prop :=
  n ≤ trapPage ∧ ∃ T f, Table s 2 r T f ∧ O = T + mapped f 0 n ∧ (∀ v < n, UserLeaf u (f v)) ∧
    ∀ v, n ≤ v → v < sv39.width ^ 3 → f v = high a b v

section
variable {s s' : Memory} {r : Nat} {u : Bool} {n a b : Nat} {O O' : Multiset Nat}

theorem high_of_lt {v : Nat} (h : v < trapPage) : high a b v = 0 := by
  rw [high, if_neg (by omega), if_neg (by omega)]

/-- An address space depends on the content of its pages only. -/
theorem Space.frame (h : Space s r u n a b O) (hs : ∀ p ∈ O, s'.mem p = s.mem p) :
    Space s' r u n a b O := by
  obtain ⟨hn, T, f, htab, rfl, hleaf, hhigh⟩ := h
  exact ⟨hn, T, f, htab.frame fun p hp => hs p (by simp [hp]), rfl, hleaf, hhigh⟩

/-- An address space is not affected by what moves elsewhere. -/
theorem Space.moves {A A' : Multiset Nat} (h : Space s r u n a b O) (hm : Moves s A s' A')
    (hO : ((s.freeList : Multiset Nat) + (A + O)).Nodup) : Space s' r u n a b O :=
  h.frame fun _ hp => hm.mem_eq hO hp

theorem Space.root_mem (h : Space s r u n a b O) : r ∈ O := by
  obtain ⟨-, T, f, htab, rfl, -⟩ := h
  exact Multiset.mem_add.2 (.inl (Tab.root_mem htab))

/-- Every user page is a page of its own. -/
theorem Space.le_card (h : Space s r u n a b O) : n ≤ O.card := by
  obtain ⟨-, T, f, -, rfl, -, -⟩ := h
  rw [Multiset.card_add, mapped, Multiset.card_map, Multiset.card_range]
  omega

/-- A store to a page that is mapped for the user does not change the address space. -/
theorem Table.storeUser {T : Multiset Nat} {f : Nat → Nat} (htab : Table s 2 r T f)
    (hO : (T + mapped f 0 n).Nodup) {v : Nat} (hv : v < n) (bytes : Bytes PGSIZE) :
    Table (s.store (pte2pa (f v)) bytes) 2 r T f := by
  refine htab.frame fun p hp => Memory.store_mem_of_ne s _ ?_
  rintro rfl
  refine Multiset.disjoint_left.1 (Multiset.nodup_add.1 hO).2.2 hp ?_
  have := mem_mapped (f := f) (v := 0) hv
  rwa [Nat.zero_add] at this

end

/-! ## Shrinking -/

theorem mapped_add (f : Nat → Nat) (m k : Nat) :
    mapped f 0 (m + k) = mapped f 0 m + mapped f m k := by
  induction k with
  | zero => simp [mapped_zero]
  | succ k ih => rw [← Nat.add_assoc, mapped_succ, ih, mapped_succ, Multiset.add_cons, Nat.zero_add]

theorem intToU64_of_lt {k : Nat} (h : k < 2 ^ 31) : intToU64 k = k := by
  have hmod : k % 2 ^ 32 = k := Nat.mod_eq_of_lt (h.trans (by decide))
  rw [intToU64, hmod, if_pos h]

section
variable [KernelImage] {E : Panic → Prop} {s s' : Memory} {r : Nat} {u : Bool} {n a b : Nat}
  {O O' : Multiset Nat}

/-- Removing the user pages from page number `m` on. -/
theorem wp_unmap_user {m : Nat} (h : Space s r u n a b O) (ho : Owned s O) (hm : m ≤ n) :
    wp (unmap r (m * PGSIZE) (n - m) true) E (fun _ s' =>
      ∃ O', Space s' r u m a b O' ∧ Moves s O s' O') s := by
  obtain ⟨hn, T, f, htab, rfl, hleaf, hhigh⟩ := h
  have hdiv : m * PGSIZE / PGSIZE = m := Nat.mul_div_cancel _ (by decide)
  obtain ⟨k, rfl⟩ := Nat.exists_eq_add_of_le hm
  rw [Nat.add_sub_cancel_left]
  have hsplit : T + mapped f 0 (m + k) = (T + mapped f m k) + mapped f 0 m := by
    rw [mapped_add, add_comm (mapped f 0 m), add_assoc]
  rw [hsplit] at ho ⊢
  have hun := wp_unmap (E := E) (m * PGSIZE) k true htab
    (by rw [hdiv]; exact ho.of_le (Multiset.le_add_right _ _)) (Nat.mul_mod_left _ _)
    (by simp only [trapPage, TRAPFRAME, TRAMPOLINE, MAXVA, PGSIZE] at *; omega)
    (by rw [hdiv]; exact fun i hi => (hleaf _ (by omega)).toLeaf.mapping)
  rw [hdiv] at hun
  refine wp_imp hun ?_
  rintro _ s' ⟨htab', hmoves⟩
  have hsame : mapped (unmapped f m k) 0 m = mapped f 0 m :=
    mapped_congr fun i hi => by rw [unmapped, if_neg (by omega)]
  refine ⟨T + mapped f 0 m, ⟨by omega, T, unmapped f m k, htab', by rw [hsame], ?_, ?_⟩,
    hmoves.add _⟩
  · intro v hv
    rw [unmapped, if_neg (by omega)]
    exact hleaf v (by omega)
  · intro v hv hlt
    rw [unmapped]
    split
    · rw [high_of_lt (by omega)]
    · exact hhigh v (by omega) hlt

/-- **`dealloc`** shrinks an address space. -/
theorem wp_dealloc (oldsz newsz : Nat) (h : Space s r u (pages oldsz) a b O) (ho : Owned s O) :
    wp (dealloc r oldsz newsz) E (fun res s' => res = min oldsz newsz ∧
      ∃ O', Space s' r u (pages (min oldsz newsz)) a b O' ∧ Moves s O s' O') s := by
  have hold := h.1
  have hold' : oldsz ≤ MAXVA := by
    refine (le_of_pages_le hold).trans ?_
    decide
  rw [dealloc]
  split
  · next hle =>
    rw [min_eq_left hle]
    exact ⟨rfl, O, h, Moves.refl s O⟩
  · next hlt =>
    have hle : newsz ≤ oldsz := by omega
    have hmono := pages_mono hle
    rw [min_eq_right hle, pgRoundUp_eq hold', pgRoundUp_eq (hle.trans hold')]
    split
    · next hcmp =>
      have hcount : (pages oldsz * PGSIZE - pages newsz * PGSIZE) / PGSIZE
          = pages oldsz - pages newsz := by
        rw [← Nat.sub_mul, Nat.mul_div_cancel _ (by decide)]
      have hbound : pages oldsz - pages newsz < 2 ^ 31 := by
        have : trapPage < 2 ^ 31 := by decide
        omega
      rw [hcount, intToU64_of_lt hbound]
      refine wp_seq (wp_unmap_user h ho hmono) ?_
      rintro _ s' hpost
      exact ⟨rfl, hpost⟩
    · next hcmp =>
      have heq : pages newsz = pages oldsz := by
        simp only [PGSIZE] at hcmp
        omega
      rw [heq]
      exact ⟨rfl, O, h, Moves.refl s O⟩

/-! ## Growing -/

/-- The entry of a page that was allocated for the user. -/
theorem leaf_mkPte {p perm : Nat} (hp : PageOk p) (hperm : perm < 1024) (hR : has perm PTE_R)
    (hU : u = true → has perm PTE_U) :
    UserLeaf u (mkPte p perm) ∧ pte2pa (mkPte p perm) = p := by
  have hor : perm ||| PTE_V < 1024 := Nat.or_lt_two_pow (n := 10) hperm (by decide)
  have hassoc : mkPte p perm = pa2pte p ||| (perm ||| PTE_V) := Nat.or_assoc _ _ _
  have hhas : ∀ fl < 1024, has (mkPte p perm) fl = has (perm ||| PTE_V) fl := fun fl hfl => by
    rw [hassoc, has_pa2pte_or p _ hfl]
  have hbit : ∀ i, has (perm ||| PTE_V) (2 ^ i) = (has perm (2 ^ i) || has PTE_V (2 ^ i)) := by
    intro i
    rw [has_eq_testBit, has_eq_testBit, has_eq_testBit, Nat.testBit_or]
  refine ⟨⟨⟨?_, ?_, ?_⟩, fun hu => ?_⟩, ?_⟩
  · rw [hhas PTE_V (by decide)]
    exact (hbit 0).trans (Bool.or_eq_true_iff.2 (.inr rfl))
  · rw [hhas PTE_R (by decide)]
    exact (hbit 1).trans (Bool.or_eq_true_iff.2 (.inl hR))
  · rw [hassoc]
    exact pa2pte_or_lt hp.lt hor
  · rw [hhas PTE_U (by decide)]
    exact (hbit 4).trans (Bool.or_eq_true_iff.2 (.inl (hU hu)))
  · rw [hassoc]
    exact pte2pa_pa2pte_or hp.aligned hp.lt hor

/-- Mapping a page at the end of the user memory. -/
theorem wp_map_user {mem perm : Nat} (h : Space s r u n a b O) (ho : Owned s (mem ::ₘ O))
    (hperm : perm < 1024) (hR : has perm PTE_R) (hU : u = true → has perm PTE_U) :
    wp (mappages r (n * PGSIZE) PGSIZE mem perm) E (fun res s' =>
      (res = 0 ∧ ∃ O', Space s' r u (n + 1) a b O' ∧ Moves s (mem ::ₘ O) s' O') ∨
      (res = -1 ∧ ∃ O', Space s' r u n a b O' ∧ Moves s (mem ::ₘ O) s' (mem ::ₘ O'))) s := by
  -- the pages of the machine do not reach up to the trapframe
  have hn : n < trapPage := by
    have h1 := h.le_card
    have h2 := ho.card_le
    have h3 : 32768 ≤ trapPage := by decide
    rw [Multiset.card_cons] at h2
    omega
  obtain ⟨-, T, f, htab, rfl, hleaf, hhigh⟩ := h
  have hdiv : n * PGSIZE / PGSIZE = n := Nat.mul_div_cancel _ (by decide)
  have hva : n * PGSIZE < MAXVA := by
    simp only [trapPage, TRAPFRAME, TRAMPOLINE, MAXVA, PGSIZE] at *
    omega
  have hlt : n < sv39.width ^ 3 := by
    have := page_lt hva
    rwa [hdiv] at this
  have hf : f n = 0 := by rw [hhigh n le_rfl hlt, high_of_lt hn]
  obtain ⟨hl, hpa⟩ := leaf_mkPte (ho.pageOk (Multiset.mem_cons_self mem _)) hperm hR hU
  have hmem : mem ::ₘ (T + mapped f 0 n) = T + (mem ::ₘ mapped f 0 n) :=
    (Multiset.add_cons _ _ _).symm
  rw [hmem] at ho ⊢
  have hmap := wp_mappages (E := E) (n * PGSIZE) mem perm htab
    (ho.of_le (Multiset.le_add_right _ _)) (Nat.mul_mod_left _ _) hva
    (by rw [hdiv, hf]; rfl) hl.lt
  rw [hdiv] at hmap
  refine wp_imp hmap ?_
  rintro res s' ⟨T', hmoves, ⟨hres, htab'⟩ | ⟨hres, htab'⟩⟩
  · refine .inr ⟨hres, T' + mapped f 0 n, ⟨hn.le, T', f, htab', rfl, hleaf, hhigh⟩, ?_⟩
    rw [← Multiset.add_cons]
    exact hmoves.add _
  · refine .inl ⟨hres, T' + (mem ::ₘ mapped f 0 n), ⟨hn, T', _, htab', ?_, ?_, ?_⟩, hmoves.add _⟩
    · have hsame : mapped (Function.update f n (mkPte mem perm)) 0 n = mapped f 0 n :=
        mapped_congr fun i hi => by rw [Function.update_of_ne (by omega)]
      rw [mapped_succ, hsame, Nat.zero_add, Function.update_self, hpa]
    · intro v hv
      rcases Nat.lt_succ_iff_lt_or_eq.1 hv with hvn | rfl
      · rw [Function.update_of_ne (by omega)]
        exact hleaf v hvn
      · rw [Function.update_self]
        exact hl
    · intro v hv hlt'
      rw [Function.update_of_ne (by omega)]
      exact hhigh v (by omega) hlt'

/-- Giving a page back to the allocator. -/
theorem wp_free_page {mem : Nat} {A : Multiset Nat} (ho : Owned s (mem ::ₘ A))
    {Q : PUnit → Memory → Prop}
    (hQ : ∀ s', Moves s (mem ::ₘ A) s' A → (∀ p ∈ A, s'.mem p = s.mem p) → Q ⟨⟩ s') :
    wp (PageAllocator.free mem) E Q s := by
  refine wp_free (ho.pageOk (by simp)) fun s' hf hm => hQ s' (Moves.push hf hm) fun p hp => hm p ?_
  rintro rfl
  exact (Multiset.nodup_cons.1 ho.nodup_right).1 hp

/-- Taking a page from the allocator. -/
theorem wp_alloc_page {A : Multiset Nat} (ho : Owned s A) {Q : Option Nat → Memory → Prop}
    (hnone : ∀ s', Moves s A s' A → s'.mem = s.mem → Q none s')
    (hsome : ∀ p s', Moves s A s' (p ::ₘ A) → s'.mem = s.mem → p ∉ A → Q (some p) s') :
    wp PageAllocator.alloc E Q s := by
  refine wp_alloc (fun s' hf hm => hnone s' (Moves.of_eq hf hm) hm) fun p rest s' hf hf' hm => ?_
  refine hsome p s' (Moves.pop hf hf' fun _ _ => by rw [hm]) hm fun hp => ?_
  exact ho.not_mem_free hp (by simp [hf])

/-- **The loop of `alloc`**: the pages are added, or all of them are given back. -/
theorem wp_allocFrom {m k newsz xperm : Nat} (h : Space s r u n a b O) (ho : Owned s O)
    (hk : k ≤ n) (hx : xperm < 1024) :
    wp (allocFrom r (k * PGSIZE) newsz xperm m (n * PGSIZE)) E (fun res s' => ∃ O', Moves s O s' O' ∧
      (res = newsz ∧ Space s' r u (n + m) a b O' ∨ res = 0 ∧ Space s' r u k a b O')) s := by
  have hperm : PTE_R ||| PTE_U ||| xperm < 1024 := Nat.or_lt_two_pow (n := 10) (by decide) hx
  have hbit : ∀ i, (PTE_R ||| PTE_U).testBit i → has (PTE_R ||| PTE_U ||| xperm) (2 ^ i) := by
    intro i hi
    rw [has_eq_testBit, Nat.testBit_or, hi, Bool.true_or]
  have hR : has (PTE_R ||| PTE_U ||| xperm) PTE_R := hbit 1 (by decide)
  have hU : has (PTE_R ||| PTE_U ||| xperm) PTE_U := hbit 4 (by decide)
  induction m generalizing n s O with
  | zero => exact ⟨O, Moves.refl s O, .inl ⟨rfl, h⟩⟩
  | succ m ih =>
    -- giving everything back
    have hback : ∀ s₁ O₁, Space s₁ r u n a b O₁ → Moves s O s₁ O₁ →
        wp (dealloc r (n * PGSIZE) (k * PGSIZE) >>= fun _ => pure 0) E (fun res s' => ∃ O',
          Moves s O s' O' ∧ (res = newsz ∧ Space s' r u (n + (m + 1)) a b O' ∨
            res = 0 ∧ Space s' r u k a b O')) s₁ := by
      intro s₁ O₁ h₁ hm₁
      have hmin : min (n * PGSIZE) (k * PGSIZE) = k * PGSIZE :=
        min_eq_right (Nat.mul_le_mul_right _ hk)
      have hd := wp_dealloc (E := E) (n * PGSIZE) (k * PGSIZE)
        (by rw [pages_mul]; exact h₁) (ho.moves hm₁)
      rw [hmin, pages_mul] at hd
      refine wp_seq hd ?_
      rintro _ s' ⟨-, O', hsp, hm'⟩
      exact ⟨O', hm₁.trans hm', .inr ⟨rfl, hsp⟩⟩
    rw [allocFrom]
    refine wp_bind.2 (wp_alloc_page ho (fun s₁ hm₁ heq => ?_) fun p s₁ hm₁ heq hp => ?_)
    · exact hback s₁ O (h.frame fun q _ => by rw [heq]) hm₁
    · rw [wp_bind, wp_memsetZero]
      have hzero : Moves s₁ (p ::ₘ O) (s₁.store p (Bytes.zero PGSIZE)) (p ::ₘ O) :=
        Moves.storeWord (by simp) _
      have hsp : Space (s₁.store p (Bytes.zero PGSIZE)) r u n a b O := by
        refine h.frame fun q hq => ?_
        have hqp : q ≠ p := fun e => hp (e ▸ hq)
        rw [Memory.store_mem_of_ne _ _ hqp, heq]
      have hm₂ := hm₁.trans hzero
      refine wp_seq (wp_map_user hsp (ho.moves hm₂) hperm hR fun _ => hU) ?_
      rintro res s₂ (⟨rfl, O₂, hsp₂, hm₃⟩ | ⟨rfl, O₂, hsp₂, hm₃⟩)
      · rw [if_neg (by decide)]
        have hih := ih hsp₂ (ho.moves (hm₂.trans hm₃)) (by omega)
        rw [Nat.add_mul, Nat.one_mul] at hih
        refine wp_imp hih ?_
        rintro res s₃ ⟨O₃, hm₄, hor⟩
        refine ⟨O₃, (hm₂.trans hm₃).trans hm₄, ?_⟩
        rwa [Nat.add_assoc, Nat.add_comm 1 m] at hor
      · rw [if_pos (by decide)]
        have hm₃' := hm₂.trans hm₃
        refine wp_bind.2 (wp_free_page (ho.moves hm₃') fun s₃ hm₄ hsame => ?_)
        exact hback s₃ O₂ (hsp₂.frame hsame) (hm₃'.trans hm₄)

/-- **`alloc`** grows an address space, or fails and leaves it as it was. -/
theorem wp_vmAlloc {oldsz newsz xperm : Nat} (h : Space s r u (pages oldsz) a b O) (ho : Owned s O)
    (hx : xperm < 1024) :
    wp (alloc r oldsz newsz xperm) E (fun res s' => ∃ O', Moves s O s' O' ∧
      (res = max oldsz newsz ∧ Space s' r u (pages (max oldsz newsz)) a b O' ∨
        res = 0 ∧ Space s' r u (pages oldsz) a b O')) s := by
  have hold : oldsz ≤ MAXVA := (le_of_pages_le h.1).trans (by decide)
  rw [alloc]
  split
  · next hlt =>
    rw [max_eq_left hlt.le]
    exact ⟨O, Moves.refl s O, .inl ⟨rfl, h⟩⟩
  · next hge =>
    have hle : oldsz ≤ newsz := Nat.not_lt.1 hge
    have hcount : pages oldsz + (newsz - pages oldsz * PGSIZE + PGSIZE - 1) / PGSIZE
        = pages newsz := by
      simp only [pages, PGSIZE]
      omega
    rw [max_eq_right hle, pgRoundUp_eq hold, ← hcount]
    exact wp_allocFrom h ho le_rfl hx

/-! ## Copying an address space -/

/-- **The loop of `copy`**: `i` pages have been copied, `m` are to come. -/
theorem wp_copyFrom {old newpt m i a' b' : Nat} {u' : Bool} {P : Multiset Nat}
    (hold : Space s old u' n a' b' P) (hnew : Space s newpt false i a b O) (ho : Owned s (O + P))
    (hi : i + m ≤ n) :
    wp (copyFrom old newpt m (i * PGSIZE)) E (fun res s' => ∃ O', Moves s O s' O' ∧
      (res = 0 ∧ Space s' newpt false (i + m) a b O' ∨ res = -1 ∧ Space s' newpt false 0 a b O')) s := by
  induction m generalizing i s O with
  | zero => exact ⟨O, Moves.refl s O, .inl ⟨rfl, hnew⟩⟩
  | succ m ih =>
    have hoO : Owned s O := ho.of_le (Multiset.le_add_right _ _)
    have hdiv : i * PGSIZE / PGSIZE = i := Nat.mul_div_cancel _ (by decide)
    -- giving everything back
    have hback : ∀ s₁ O₁, Space s₁ newpt false i a b O₁ → Moves s O s₁ O₁ →
        wp (unmap newpt 0 (i * PGSIZE / PGSIZE) true >>= fun _ => pure (-1)) E (fun res s' => ∃ O',
          Moves s O s' O' ∧ (res = 0 ∧ Space s' newpt false (i + (m + 1)) a b O' ∨
            res = -1 ∧ Space s' newpt false 0 a b O')) s₁ := by
      intro s₁ O₁ h₁ hm₁
      have hun := wp_unmap_user (E := E) h₁ (hoO.moves hm₁) (Nat.zero_le i)
      rw [Nat.zero_mul, Nat.sub_zero] at hun
      rw [hdiv]
      refine wp_seq hun ?_
      rintro _ s' ⟨O', hsp, hm'⟩
      exact ⟨O', hm₁.trans hm', .inr ⟨rfl, hsp⟩⟩
    obtain ⟨hn, T, f, htab, rfl, hleaf, hhigh⟩ := hold
    have hva : i * PGSIZE < MAXVA := by
      simp only [trapPage, TRAPFRAME, TRAMPOLINE, MAXVA, PGSIZE] at *
      omega
    have hl : Leaf (f (i * PGSIZE / PGSIZE)) := by
      rw [hdiv]
      exact (hleaf i (by omega)).toLeaf
    rw [copyFrom]
    refine wp_bind.2 (wp_walk_valid htab (fun p hp => ho.pageOk (by simp [hp])) hva hl.valid
      fun q k hs => ?_)
    have hword : s.word q k = f (i * PGSIZE / PGSIZE) := Tab.slot_read htab (page_lt hva) hs
    simp only [wp_bind, wp_loadWord, wp_ite, hword, hl.valid]
    refine ⟨nofun, fun _ => wp_alloc_page hoO (fun s₁ hm₁ heq => ?_) fun p s₁ hm₁ heq hp => ?_⟩
    · exact hback s₁ O (hnew.frame fun _ _ => by rw [heq]) hm₁
    · rw [wp_bind, wp_modify]
      set s₂ := s₁.store p (s₁.mem (pte2pa (f (i * PGSIZE / PGSIZE)))) with hs₂
      have hstore : Moves s₁ (p ::ₘ O) s₂ (p ::ₘ O) := Moves.storeWord (by simp) _
      have hm₂ := hm₁.trans hstore
      have hsp : Space s₂ newpt false i a b O := by
        refine hnew.frame fun q hq => ?_
        have hqp : q ≠ p := fun e => hp (e ▸ hq)
        rw [hs₂, Memory.store_mem_of_ne _ _ hqp, heq]
      have hR : has (pteFlags (f (i * PGSIZE / PGSIZE))) PTE_R := by
        rw [has_pteFlags _ (by decide)]
        exact hl.readable
      refine wp_seq (wp_map_user hsp (hoO.moves hm₂) (pteFlags_lt _) hR nofun) ?_
      rintro res s₃ (⟨rfl, O₃, hsp₃, hm₃⟩ | ⟨rfl, O₃, hsp₃, hm₃⟩)
      · rw [if_neg (by decide)]
        have hm₃' := hm₂.trans hm₃
        have hold₃ : Space s₃ old u' n a' b' (T + mapped f 0 n) :=
          Space.moves ⟨hn, T, f, htab, rfl, hleaf, hhigh⟩ hm₃' ho.nodup
        have hih := ih hold₃ hsp₃ (ho.moves (hm₃'.add _)) (by omega)
        rw [Nat.add_mul, Nat.one_mul] at hih
        refine wp_imp hih ?_
        rintro res s₄ ⟨O₄, hm₄, hor⟩
        refine ⟨O₄, hm₃'.trans hm₄, ?_⟩
        rwa [Nat.add_assoc, Nat.add_comm 1 m] at hor
      · rw [if_pos (by decide)]
        have hm₃' := hm₂.trans hm₃
        refine wp_bind.2 (wp_free_page (hoO.moves hm₃') fun s₄ hm₄ hsame => ?_)
        exact hback s₄ O₃ (hsp₃.frame hsame) (hm₃'.trans hm₄)

/-- **`copy`** fills an empty address space with copies of the user pages of another one, or gives
all pages back. -/
theorem wp_copy {old newpt sz a' b' : Nat} {u' : Bool} {P : Multiset Nat}
    (hold : Space s old u' (pages sz) a' b' P) (hnew : Space s newpt false 0 a b O)
    (ho : Owned s (O + P)) :
    wp (copy old newpt sz) E (fun res s' => ∃ O', Moves s O s' O' ∧
      (res = 0 ∧ Space s' newpt false (pages sz) a b O' ∨ res = -1 ∧ Space s' newpt false 0 a b O')) s := by
  have hcopy := wp_copyFrom (E := E) (m := pages sz) hold hnew ho (by omega)
  rwa [Nat.zero_mul, Nat.zero_add] at hcopy

/-! ## Freeing an address space -/

set_option maxRecDepth 2048 in
/-- **`free`** gives back all pages of an address space without trapframe and trampoline. -/
theorem wp_vmFree {sz : Nat} (h : Space s r u (pages sz) 0 0 O) (ho : Owned s O) :
    wp (free r sz) E (fun _ s' => Moves s O s' 0) s := by
  have hsz : sz ≤ MAXVA := (le_of_pages_le h.1).trans (by decide)
  have hdiv : pgRoundUp sz / PGSIZE = pages sz := by
    rw [pgRoundUp_eq hsz, Nat.mul_div_cancel _ (by decide)]
  -- with no user page left, nothing is mapped
  have hwalk : ∀ s₁ O₁, Space s₁ r u 0 0 0 O₁ → Moves s O s₁ O₁ →
      wp (freewalk 3 r) E (fun _ s' => Moves s O s' 0) s₁ := by
    rintro s₁ O₁ ⟨-, T, f, htab, rfl, -, hhigh⟩ hm₁
    rw [mapped_zero, add_zero] at hm₁
    refine wp_imp (wp_freewalk htab (ho.moves hm₁) fun v hv => ?_) fun _ s' hm' => hm₁.trans hm'
    rw [hhigh v (Nat.zero_le v) hv, high, ite_self, ite_self]
    rfl
  rw [free]
  simp only [wp_bind, wp_ite, hdiv]
  refine ⟨fun _ => ?_, fun h0 => ?_⟩
  · have hun := wp_unmap_user (E := E) h ho (Nat.zero_le _)
    rw [Nat.zero_mul, Nat.sub_zero] at hun
    refine wp_imp hun ?_
    rintro _ s₁ ⟨O₁, hsp, hm₁⟩
    exact hwalk s₁ O₁ hsp hm₁
  · obtain rfl : sz = 0 := by omega
    exact hwalk s O h (Moves.refl s O)

/-! ## The trapframe and the trampoline -/

/-- Mapping one of the two pages above the user memory. -/
theorem wp_map_high {v pa perm a' b' : Nat} (h : Space s r u n a b O) (ho : Owned s O)
    (hv : trapPage ≤ v) (hv' : v * PGSIZE < MAXVA) (hfree : high a b v = 0)
    (hw : mkPte pa perm < 2 ^ 64)
    (hhigh' : high a' b' = Function.update (high a b) v (mkPte pa perm)) :
    wp (mappages r (v * PGSIZE) PGSIZE pa perm) E (fun res s' => ∃ O', Moves s O s' O' ∧
      (res = -1 ∧ Space s' r u n a b O' ∨ res = 0 ∧ Space s' r u n a' b' O')) s := by
  obtain ⟨hn, T, f, htab, rfl, hleaf, hhigh⟩ := h
  have hdiv : v * PGSIZE / PGSIZE = v := Nat.mul_div_cancel _ (by decide)
  have hlt : v < sv39.width ^ 3 := by
    have := page_lt hv'
    rwa [hdiv] at this
  have hmap := wp_mappages (E := E) (v * PGSIZE) pa perm htab
    (ho.of_le (Multiset.le_add_right _ _)) (Nat.mul_mod_left _ _) hv'
    (by rw [hdiv, hhigh v (hn.trans hv) hlt, hfree]; rfl) hw
  rw [hdiv] at hmap
  refine wp_imp hmap ?_
  rintro res s' ⟨T', hmoves, ⟨hres, htab'⟩ | ⟨hres, htab'⟩⟩
  · exact ⟨T' + mapped f 0 n, hmoves.add _, .inl ⟨hres, hn, T', f, htab', rfl, hleaf, hhigh⟩⟩
  · have hsame : mapped (Function.update f v (mkPte pa perm)) 0 n = mapped f 0 n :=
      mapped_congr fun i hi => by rw [Function.update_of_ne (by omega)]
    refine ⟨T' + mapped f 0 n, hmoves.add _, .inr ⟨hres, hn, T', _, htab', by rw [hsame], ?_, ?_⟩⟩
    · intro i hi
      rw [Function.update_of_ne (by omega)]
      exact hleaf i hi
    · intro i hi hi'
      rw [hhigh', Function.update_apply, Function.update_apply]
      split
      · rfl
      · exact hhigh i hi hi'

/-- Unmapping one of the two pages above the user memory. -/
theorem wp_unmap_high {v a' b' : Nat} (h : Space s r u n a b O) (ho : Owned s O)
    (hv : trapPage ≤ v) (hv' : v * PGSIZE + PGSIZE ≤ MAXVA) (hl : Leaf (high a b v))
    (hhigh' : high a' b' = Function.update (high a b) v 0) :
    wp (unmap r (v * PGSIZE) 1 false) E (fun _ s' => Space s' r u n a' b' O ∧ Moves s O s' O) s := by
  obtain ⟨hn, T, f, htab, rfl, hleaf, hhigh⟩ := h
  have hdiv : v * PGSIZE / PGSIZE = v := Nat.mul_div_cancel _ (by decide)
  have hlt : v < sv39.width ^ 3 := by
    have hva : v * PGSIZE < MAXVA :=
      lt_of_lt_of_le (Nat.lt_add_of_pos_right (by decide)) hv'
    have := page_lt hva
    rwa [hdiv] at this
  have hun := wp_unmap (E := E) (v * PGSIZE) 1 false htab
    (by simpa using ho.of_le (Multiset.le_add_right _ _)) (Nat.mul_mod_left _ _)
    (by rw [Nat.one_mul]; exact hv') (by
      intro i hi
      rw [hdiv, Nat.lt_one_iff.1 hi, Nat.add_zero, hhigh v (hn.trans hv) hlt]
      exact hl.mapping)
  rw [hdiv] at hun
  simp only [Bool.false_eq_true, if_false, add_zero] at hun
  refine wp_imp hun ?_
  rintro _ s' ⟨htab', hmoves⟩
  have hsame : mapped (unmapped f v 1) 0 n = mapped f 0 n :=
    mapped_congr fun i hi => by rw [unmapped, if_neg (by omega)]
  refine ⟨⟨hn, T, _, htab', by rw [hsame], ?_, ?_⟩, hmoves.add _⟩
  · intro i hi
    rw [unmapped, if_neg (by omega)]
    exact hleaf i hi
  · intro i hi hi'
    rw [hhigh', Function.update_apply, unmapped]
    split
    · rw [if_pos (by omega)]
    · rw [if_neg (by omega)]
      exact hhigh i hi hi'

/-! ## Access to user memory -/

/-- Neither the trapframe nor the trampoline is accessible to the user. -/
structure HighHidden (a b : Nat) : Prop where
  left : has a PTE_U = false
  right : has b PTE_U = false

omit [KernelImage] in
theorem HighHidden.high (h : HighHidden a b) (v : Nat) : has (high a b v) PTE_U = false := by
  rw [VirtualMemory.high]
  split
  · exact h.left
  · split
    · exact h.right
    · rfl

omit [KernelImage] in
theorem Space.weaken (h : Space s r u n a b O) : Space s r false n a b O := by
  obtain ⟨hn, T, f, htab, rfl, hleaf, hhigh⟩ := h
  exact ⟨hn, T, f, htab, rfl, fun v hv => ⟨(hleaf v hv).toLeaf, nofun⟩, hhigh⟩

/-- **`clear`** on an address space. -/
theorem wp_clear_user {v : Nat} (h : Space s r u n a b O) (ho : Owned s O) (hv : v < n) :
    wp (clear r (v * PGSIZE)) E (fun _ s' => Space s' r false n a b O ∧ Moves s O s' O) s := by
  obtain ⟨hn, T, f, htab, rfl, hleaf, hhigh⟩ := h
  have hdiv : v * PGSIZE / PGSIZE = v := Nat.mul_div_cancel _ (by decide)
  have hva : v * PGSIZE < MAXVA := by
    simp only [trapPage, TRAPFRAME, TRAMPOLINE, MAXVA, PGSIZE] at *
    omega
  have hl := (hleaf v hv).toLeaf
  have hc := wp_clear (E := E) (v * PGSIZE) htab (ho.of_le (Multiset.le_add_right _ _)) hva
    (by rw [hdiv]; exact hl)
  rw [hdiv] at hc
  refine wp_imp hc ?_
  rintro _ s' ⟨htab', hmoves⟩
  refine ⟨⟨hn, T, _, htab', ?_, ?_, ?_⟩, hmoves.add _⟩
  · congr 1
    refine Multiset.map_congr rfl fun i _ => ?_
    rw [Nat.zero_add, Function.update_apply]
    split
    · next he => rw [he, pte2pa_cleared hl.lt]
    · rfl
  · intro i hi
    rw [Function.update_apply]
    split
    · exact ⟨hl.cleared, (by rintro ⟨⟩)⟩
    · exact ⟨(hleaf i hi).toLeaf, (by rintro ⟨⟩)⟩
  · intro i hi hi'
    rw [Function.update_of_ne (by omega)]
    exact hhigh i hi hi'

omit [KernelImage] in
/-- A page number that is accessible to the user is one of the first `n`. -/
theorem lt_of_has_U {f : Nat → Nat} (hab : HighHidden a b)
    (hhigh : ∀ v, n ≤ v → v < sv39.width ^ 3 → f v = high a b v) {v : Nat}
    (hv : v < sv39.width ^ 3) (hU : has (f v) PTE_U) : v < n := by
  by_contra hge
  rw [hhigh v (by omega) hv, hab.high] at hU
  exact absurd hU (by decide)

/-- **`walkaddr`** on an address space: the page it finds may be overwritten, and while all of the
user memory is accessible it finds every page of it. -/
theorem wp_walkaddr_user {va : Nat} (h : Space s r u n a b O) (ho : Owned s O)
    (hab : HighHidden a b) :
    wp (walkaddr r va) E (fun res s' => s' = s ∧
      (∀ pa, res = some pa → pa ∈ O ∧ ∀ bytes, Space (s.store pa bytes) r u n a b O) ∧
      (u = true → va / PGSIZE < n → res ≠ none)) s := by
  obtain ⟨hn, T, f, htab, rfl, hleaf, hhigh⟩ := h
  refine wp_imp (wp_walkaddr htab fun p hp => ho.pageOk (by simp [hp])) ?_
  rintro res s' ⟨rfl, hsome, hfound⟩
  refine ⟨rfl, fun pa hpa => ?_, fun hu hlt => ?_⟩
  · obtain ⟨hva, -, hU, rfl⟩ := hsome pa hpa
    have hlt := lt_of_has_U hab hhigh (page_lt hva) hU
    have hmem := mem_mapped (f := f) (v := 0) hlt
    rw [Nat.zero_add] at hmem
    exact ⟨Multiset.mem_add.2 (.inr hmem), fun bytes =>
      ⟨hn, T, f, htab.storeUser ho.nodup_right hlt bytes, rfl, hleaf, hhigh⟩⟩
  · have hl := hleaf _ hlt
    have hmem := mem_mapped (f := f) (v := 0) hlt
    rw [Nat.zero_add] at hmem
    refine hfound ?_ hl.valid (hl.user hu) (ho.pageOk (Multiset.mem_add.2 (.inr hmem))).pos.ne'
    simp only [trapPage, TRAPFRAME, TRAMPOLINE, MAXVA, PGSIZE] at *
    omega

/-- **`copyout`** changes only user memory. -/
theorem wp_copyout_user {dstva : Nat} {src : List UInt8} (h : Space s r u n a b O) (ho : Owned s O)
    (hab : HighHidden a b) :
    wp (copyout r dstva src) E (fun _ s' => Space s' r u n a b O ∧ Moves s O s' O) s := by
  rw [copyout]
  generalize src.length = fuel
  induction fuel generalizing dstva src s with
  | zero => exact ⟨h, Moves.refl s O⟩
  | succ fuel ih =>
    rw [copyoutFrom]
    split
    · exact ⟨h, Moves.refl s O⟩
    split
    · exact ⟨h, Moves.refl s O⟩
    · next hge =>
      have hva := Nat.not_le.1 hge
      have hsp := h
      obtain ⟨hn, T, f, htab, rfl, hleaf, hhigh⟩ := h
      refine wp_seq (wp_walk_find htab (fun p hp => ho.pageOk (by simp [hp])) hva) ?_
      rintro (_ | ⟨q, k⟩) s' ⟨rfl, hslot, -⟩
      · exact ⟨hsp, Moves.refl _ _⟩
      · have hword : s'.word q k = f (pgRoundDown dstva / PGSIZE) :=
          Tab.slot_read htab (page_lt hva) (hslot q k rfl)
        simp only [wp_bind, wp_loadWord, wp_ite, wp_modify, hword]
        refine ⟨fun _ => ⟨hsp, Moves.refl _ _⟩, fun hflags => ?_⟩
        have hU : has (f (pgRoundDown dstva / PGSIZE)) PTE_U := by
          simp only [Bool.or_eq_true, Bool.not_eq_true', not_or, Bool.not_eq_false] at hflags
          exact hflags.1.2
        have hlt := lt_of_has_U hab hhigh (page_lt hva) hU
        have hmem := mem_mapped (f := f) (v := 0) hlt
        rw [Nat.zero_add] at hmem
        have hstore : ∀ bytes, Moves s' (T + mapped f 0 n)
            (s'.store (pte2pa (f (pgRoundDown dstva / PGSIZE))) bytes) (T + mapped f 0 n) :=
          fun bytes => Moves.storeWord (Multiset.mem_add.2 (.inr hmem)) bytes
        refine wp_imp (ih ⟨hn, T, f, htab.storeUser ho.nodup_right hlt _, rfl, hleaf, hhigh⟩
          (ho.moves (hstore _))) ?_
        rintro _ s'' ⟨hsp'', hmoves⟩
        exact ⟨hsp'', (hstore _).trans hmoves⟩

/-- Looking up a user page changes nothing. -/
theorem wp_walkaddr_pure {va : Nat} (h : Space s r u n a b O) (ho : Owned s O) :
    wp (walkaddr r va) E (fun _ s' => s' = s) s := by
  obtain ⟨-, T, f, htab, rfl, -, -⟩ := h
  exact wp_imp (wp_walkaddr htab fun p hp => ho.pageOk (by simp [hp])) fun _ _ hpost => hpost.1

/-- Reading user memory changes nothing. -/
theorem wp_copyin_user {srcva len : Nat} (h : Space s r u n a b O) (ho : Owned s O) :
    wp (copyin r srcva len) E (fun _ s' => s' = s) s := by
  suffices hfrom : ∀ fuel srcva len, wp (copyinFrom r fuel srcva len) E (fun _ s' => s' = s) s from
    hfrom len srcva len
  intro fuel
  induction fuel with
  | zero => exact fun _ _ => rfl
  | succ fuel ih =>
    intro srcva len
    rw [copyinFrom]
    split
    · rfl
    · refine wp_seq (wp_walkaddr_pure h ho) ?_
      rintro (_ | pa) s' rfl
      · rfl
      · simp only [wp_bind, wp_get]
        exact wp_imp (ih _ _) fun _ _ hs => hs

/-- Reading a string from user memory changes nothing. -/
theorem wp_copyinstr_user {srcva max : Nat} (h : Space s r u n a b O) (ho : Owned s O) :
    wp (copyinstr r srcva max) E (fun _ s' => s' = s) s := by
  suffices hfrom : ∀ fuel srcva max, wp (copyinstrFrom r fuel srcva max) E (fun _ s' => s' = s) s
    from hfrom max srcva max
  intro fuel
  induction fuel with
  | zero => exact fun _ _ => rfl
  | succ fuel ih =>
    intro srcva max
    rw [copyinstrFrom]
    split
    · rfl
    · refine wp_seq (wp_walkaddr_pure h ho) ?_
      rintro (_ | pa) s' rfl
      · rfl
      · simp only [wp_bind, wp_get, wp_ite, wp_pure]
        exact ⟨fun _ => trivial, fun _ => wp_imp (ih _ _) fun _ _ hs => hs⟩

end

end VirtualMemory
end Xv6pp
