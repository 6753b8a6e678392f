import Xv6pp.Vm.AddressSpace
import Xv6pp.Vm.PageMap

/-!
# Growing and shrinking user memory, exactly

`AddressSpace` says that user memory keeps its shape; here is what becomes of every single page.
`Maps s r n T f` is a page table with the pages `T` and the words `f` that maps the first `n` page
numbers and nothing else below the trapframe, and `Kept k` compares two of them: the first `k` pages
have their words and their bytes, the words from the trapframe on are the same, and pages moved only
between the free list, the table and the user's memory.

Both loops that extend user memory, of `alloc` and of `copy`, take a page, fill it, map it, and
remove what they have mapped so far when there is no page left; `Maps.wp_mapFilled` and
`Maps.wp_unmapTail` are these steps.  `resizing_exact` puts together what `alloc` and `dealloc` do.
-/

set_option autoImplicit false

namespace Xv6pp
namespace VirtualMemory

open Prog Radix

/-! ## The free list only shrinks in `walk` -/

section
variable {s : Memory} {l r va n pa perm : Nat} {alloc : Bool}

theorem wp_walkFrom_suffix :
    wp (walkFrom l r va alloc) (fun _ => True) (fun _ s' => s'.freeList <:+ s.freeList) s := by
  induction l generalizing r s with
  | zero => exact List.suffix_refl _
  | succ l ih =>
    rw [walkFrom]
    split
    · trivial
    · simp only [wp_bind, wp_loadWord, wp_ite]
      refine ⟨fun _ => ih, fun _ => ⟨fun _ => ?_, fun _ => List.suffix_refl _⟩⟩
      refine wp_alloc (fun s' hf _ => ?_) fun p rest s' hf hf' _ => ?_
      · rw [wp_pure, hf]
      · simp only [wp_bind, wp_memsetZero, wp_storeWord]
        refine wp_imp ih fun _ s'' hsuf => hsuf.trans ?_
        rw [Memory.store_freeList, Memory.store_freeList, hf', hf]
        exact List.suffix_cons p rest

theorem wp_mapFrom_suffix :
    wp (mapFrom r perm n va pa) (fun _ => True) (fun _ s' => s'.freeList <:+ s.freeList) s := by
  induction n generalizing va pa s with
  | zero => exact List.suffix_refl _
  | succ n ih =>
    rw [mapFrom, walk]
    split
    · trivial
    · refine wp_seq wp_walkFrom_suffix ?_
      rintro (_ | ⟨q, k⟩) s₁ hsuf
      · exact hsuf
      · simp only [wp_bind, wp_loadWord, wp_ite, wp_throw, wp_storeWord]
        exact ⟨fun _ => trivial, fun _ => wp_imp ih fun _ _ hsuf' => hsuf'.trans hsuf⟩

theorem wp_mappages_suffix {size : Nat} :
    wp (mappages r va size pa perm) (fun _ => True) (fun _ s' => s'.freeList <:+ s.freeList) s := by
  rw [mappages]
  split
  · trivial
  split
  · trivial
  split
  · trivial
  exact wp_mapFrom_suffix

end

/-! ## Address spaces, word by word -/

section
variable [KernelImage] {s s₁ s' s'' : Memory} {r n n' n'' k p perm : Nat} {T T' T'' : Multiset Nat}
  {f f' f'' : Nat → Nat} {E : Panic → Prop}

/-- The page table `r` maps the first `n` page numbers, each to a page of its own, and nothing else
below the trapframe; `T` are its pages and `f` its words. -/
structure Maps (s : Memory) (r n : Nat) (T : Multiset Nat) (f : Nat → Nat) : Prop where
  le : n ≤ trapPage
  table : Table s 2 r T f
  owned : Owned s (T + mapped f 0 n)
  mapping : ∀ v < n, Mapping (f v)
  free : ∀ v, n ≤ v → v < trapPage → has (f v) PTE_V = false

omit [KernelImage] in
/-- The first `k` pages are as they were, and so are the words from the trapframe on. -/
structure Kept (k : Nat) (s : Memory) (n : Nat) (T : Multiset Nat) (f : Nat → Nat) (s' : Memory)
    (n' : Nat) (T' : Multiset Nat) (f' : Nat → Nat) : Prop where
  moves : Moves s (T + mapped f 0 n) s' (T' + mapped f' 0 n')
  words : ∀ v, v < k ∨ trapPage ≤ v → f' v = f v
  data : ∀ q ∈ mapped f 0 k, s'.mem q = s.mem q

omit [KernelImage] in
theorem Kept.refl (k : Nat) (s : Memory) (n : Nat) (T : Multiset Nat) (f : Nat → Nat) :
    Kept k s n T f s n T f :=
  ⟨Moves.refl _ _, fun _ _ => rfl, fun _ _ => rfl⟩

omit [KernelImage] in
/-- The first pages are mapped to the same memory. -/
theorem Kept.mapped_eq (h : Kept k s n T f s' n' T' f') : mapped f' 0 k = mapped f 0 k :=
  mapped_congr fun i hi => by
    rw [Nat.zero_add]
    exact h.words i (.inl hi)

omit [KernelImage] in
theorem Kept.trans (h : Kept k s n T f s' n' T' f') (h' : Kept k s' n' T' f' s'' n'' T'' f'') :
    Kept k s n T f s'' n'' T'' f'' where
  moves := h.moves.trans h'.moves
  words v hv := (h'.words v hv).trans (h.words v hv)
  data q hq := (h'.data q (h.mapped_eq ▸ hq)).trans (h.data q hq)

omit [KernelImage] in
/-- Fewer pages are kept as well. -/
theorem Kept.mono {j : Nat} (h : Kept k s n T f s' n' T' f') (hj : j ≤ k) :
    Kept j s n T f s' n' T' f' where
  moves := h.moves
  words v hv := h.words v (hv.imp_left fun hlt => lt_of_lt_of_le hlt hj)
  data q hq := by
    refine h.data q ?_
    obtain ⟨i, hi, rfl⟩ := Multiset.mem_map.1 hq
    exact mem_mapped (lt_of_lt_of_le (Multiset.mem_range.1 hi) hj)

theorem Maps.nodup (h : Maps s r n T f) : (T + mapped f 0 n).Nodup := h.owned.nodup_right

/-- The machine has fewer pages than there are below the trapframe. -/
theorem Maps.lt (h : Maps s r n T f) : n < trapPage := by
  have hcard := h.owned.card_le
  have hroot := Multiset.card_pos_iff_exists_mem.2 ⟨r, Tab.root_mem h.table⟩
  have htop : 32768 ≤ trapPage := by decide
  rw [Multiset.card_add, mapped, Multiset.card_map, Multiset.card_range] at hcard
  omega

omit [KernelImage] in
/-- The pages of a range, from those of its parts. -/
theorem mapped_split (f : Nat → Nat) (hk : k ≤ n) :
    mapped f 0 n = mapped f 0 k + mapped f k (n - k) := by
  obtain ⟨m, rfl⟩ := Nat.exists_eq_add_of_le hk
  rw [mapped_add, Nat.add_sub_cancel_left]

/-- The words of an address space, below the trapframe and above it. -/
theorem Space.maps {u : Bool} {a b : Nat} {O : Multiset Nat} (h : Space s r u n a b O)
    (ho : Owned s O) : ∃ P f, O = P + mapped f 0 n ∧ Maps s r n P f ∧
      ∀ v, n ≤ v → v < sv39.width ^ 3 → f v = high a b v := by
  obtain ⟨hn, P, f, htab, rfl, hleaf, hhigh⟩ := h
  refine ⟨P, f, rfl, ⟨hn, htab, ho, fun v hv => (hleaf v hv).toLeaf.mapping, fun v hv hlt => ?_⟩,
    hhigh⟩
  rw [hhigh v hv (lt_of_lt_of_le hlt (by decide)), high_of_lt hlt]
  rfl

/-- **Removing the tail** of user memory. -/
theorem Maps.wp_unmapTail (h : Maps s r n T f) (hk : k ≤ n) :
    wp (unmap r (k * PGSIZE) (n - k) true) E (fun _ s' =>
      Maps s' r k T (unmapped f k (n - k)) ∧ Kept k s n T f s' k T (unmapped f k (n - k))) s := by
  have hdiv : k * PGSIZE / PGSIZE = k := Nat.mul_div_cancel _ (by decide)
  have hn := h.le
  have hsplit : T + mapped f 0 n = (T + mapped f k (n - k)) + mapped f 0 k := by
    rw [mapped_split f hk, add_comm (mapped f 0 k), add_assoc]
  have hun := wp_unmap (E := E) (k * PGSIZE) (n - k) true h.table
    (by rw [hdiv]; exact (hsplit ▸ h.owned).of_le (Multiset.le_add_right _ _))
    (Nat.mul_mod_left _ _)
    (by simp only [trapPage, TRAPFRAME, TRAMPOLINE, MAXVA, PGSIZE] at *; omega)
    (by rw [hdiv]; exact fun i hi => h.mapping _ (by omega))
  rw [hdiv] at hun
  refine wp_imp hun ?_
  rintro _ s' ⟨htab', hmoves⟩
  have hsame : mapped (unmapped f k (n - k)) 0 k = mapped f 0 k :=
    mapped_congr fun i hi => by rw [unmapped, if_neg (by omega)]
  have hmoves' : Moves s (T + mapped f 0 n) s' (T + mapped (unmapped f k (n - k)) 0 k) := by
    rw [hsame, hsplit]
    exact hmoves.add _
  refine ⟨⟨hk.trans hn, htab', h.owned.moves hmoves', fun v hv => ?_, fun v hv hlt => ?_⟩,
    hmoves', fun v hv => ?_, fun q hq => ?_⟩
  · rw [unmapped, if_neg (by omega)]
    exact h.mapping v (by omega)
  · rw [unmapped]
    split
    · rfl
    · exact h.free v (by omega) hlt
  · rw [unmapped, if_neg (by omega)]
  · exact hmoves.mem_eq (by rw [if_pos rfl, ← hsplit]; exact h.owned.nodup) hq

/-! ## One more page -/

/-- The entry of a page of the allocator. -/
theorem mkPte_pageOk (hp : PageOk p) (hperm : perm < 1024) (hne : perm ||| PTE_V ≠ PTE_V) :
    Mapping (mkPte p perm) ∧ pte2pa (mkPte p perm) = p ∧ mkPte p perm < 2 ^ 64 := by
  have hor : perm ||| PTE_V < 1024 := Nat.or_lt_two_pow (n := 10) hperm (by decide)
  obtain ⟨hV, hpa, hflags⟩ :=
    entry_eq_some.1 (entry_mkPte hp.aligned (hp.lt.trans (by decide)) hperm)
  refine ⟨⟨hV, ?_⟩, hpa, ?_⟩
  · rwa [hflags]
  · rw [mkPte, Nat.or_assoc]
    exact pa2pte_or_lt hp.lt hor

/-- **Taking a page, filling it and mapping it** behind the user memory: it is mapped, or there was
no page for the table and giving the page back leaves the address space as it was. -/
theorem Maps.wp_mapFilled (h : Maps s r n T f) (hperm : perm < 1024) (hne : perm ||| PTE_V ≠ PTE_V)
    (hm : Moves s (T + mapped f 0 n) s₁ (p ::ₘ (T + mapped f 0 n))) (heq : s₁.mem = s.mem)
    (hp : p ∉ T + mapped f 0 n) (b : Bytes PGSIZE) :
    wp (mappages r (n * PGSIZE) PGSIZE p perm) E (fun res s₃ => ∃ T',
      (res = 0 ∧ Maps s₃ r (n + 1) T' (Function.update f n (mkPte p perm)) ∧
        Kept n s n T f s₃ (n + 1) T' (Function.update f n (mkPte p perm)) ∧ s₃.mem p = b) ∨
      (res = -1 ∧ wp (PageAllocator.free p) E
        (fun _ s₄ => Maps s₄ r n T' f ∧ Kept n s n T f s₄ n T' f) s₃)) (s₁.store p b) := by
  have hn := h.lt
  have hdiv : n * PGSIZE / PGSIZE = n := Nat.mul_div_cancel _ (by decide)
  have hva : n * PGSIZE < MAXVA := by
    simp only [trapPage, TRAPFRAME, TRAMPOLINE, MAXVA, PGSIZE] at *
    omega
  -- the page is filled
  have hfill : Moves s (T + mapped f 0 n) (s₁.store p b) (p ::ₘ (T + mapped f 0 n)) :=
    hm.trans (Moves.storeWord (by simp) b)
  have hother : ∀ q ∈ T + mapped f 0 n, (s₁.store p b).mem q = s.mem q := fun q hq => by
    have hqp : q ≠ p := fun e => hp (e ▸ hq)
    rw [Memory.store_mem_of_ne _ _ hqp, heq]
  have hown : Owned (s₁.store p b) (T + (p ::ₘ mapped f 0 n)) := by
    rw [Multiset.add_cons]
    exact h.owned.moves hfill
  have htab : Table (s₁.store p b) 2 r T f := h.table.frame fun q hq =>
    hother q (Multiset.mem_add.2 (.inl hq))
  have hpage : PageOk p := hown.pageOk (by simp)
  obtain ⟨hmapping, hpa, hlt⟩ := mkPte_pageOk hpage hperm hne
  have hmap := wp_mappages (E := E) (n * PGSIZE) p perm htab
    (hown.of_le (Multiset.le_add_right _ _)) (Nat.mul_mod_left _ _) hva
    (by rw [hdiv]; exact h.free n le_rfl hn) hlt
  rw [hdiv] at hmap
  refine wp_imp hmap ?_
  rintro res s₃ ⟨T', hmoves, hres⟩
  have hkeep : ∀ q ∈ p ::ₘ mapped f 0 n, s₃.mem q = (s₁.store p b).mem q := fun q hq =>
    hmoves.mem_eq hown.nodup hq
  have hdata : ∀ q ∈ mapped f 0 n, s₃.mem q = s.mem q := fun q hq =>
    (hkeep q (Multiset.mem_cons_of_mem hq)).trans (hother q (Multiset.mem_add.2 (.inr hq)))
  have htotal : Moves s (T + mapped f 0 n) s₃ (T' + (p ::ₘ mapped f 0 n)) := by
    refine hfill.trans ?_
    rw [← Multiset.add_cons]
    exact hmoves.add _
  refine ⟨T', hres.symm.imp ?_ ?_⟩
  · rintro ⟨rfl, htab'⟩
    have hsame : mapped (Function.update f n (mkPte p perm)) 0 n = mapped f 0 n :=
      mapped_congr fun i hi => by rw [Function.update_of_ne (by omega)]
    have hnew : mapped (Function.update f n (mkPte p perm)) 0 (n + 1) = p ::ₘ mapped f 0 n := by
      rw [mapped_succ, hsame, Nat.zero_add, Function.update_self, hpa]
    rw [← hnew] at htotal
    refine ⟨rfl, ⟨hn, htab', h.owned.moves htotal, fun v hv => ?_, fun v hv hlt => ?_⟩,
      ⟨htotal, fun v hv => ?_, hdata⟩, ?_⟩
    · rcases Nat.lt_succ_iff_lt_or_eq.1 hv with hvn | rfl
      · rw [Function.update_of_ne (by omega)]
        exact h.mapping v hvn
      · rwa [Function.update_self]
    · rw [Function.update_of_ne (by omega)]
      exact h.free v (by omega) hlt
    · rw [Function.update_of_ne (by omega)]
    · rw [hkeep p (Multiset.mem_cons_self _ _), Memory.store_mem_self]
  · rintro ⟨rfl, htab'⟩
    rw [Multiset.add_cons] at htotal
    refine ⟨rfl, wp_free_page (h.owned.moves htotal) fun s₄ hpush hsame => ?_⟩
    have hall := htotal.trans hpush
    exact ⟨⟨h.le, htab'.frame fun q hq => hsame q (Multiset.mem_add.2 (.inl hq)),
      h.owned.moves hall, h.mapping, h.free⟩, hall, fun _ _ => rfl,
      fun q hq => (hsame q (Multiset.mem_add.2 (.inr hq))).trans (hdata q hq)⟩

/-! ## `dealloc` and `alloc` -/

/-- **`dealloc`** removes the pages between the rounded sizes. -/
theorem Maps.wp_dealloc {oldsz newsz : Nat} (h : Maps s r n T f) (hn : n * PGSIZE = pgRoundUp oldsz)
    (hlt : newsz < oldsz) (hk : k * PGSIZE = min (pgRoundUp newsz) (pgRoundUp oldsz)) :
    wp (dealloc r oldsz newsz) E (fun res s' => res = newsz ∧
      Maps s' r k T (unmapped f k (n - k)) ∧ Kept k s n T f s' k T (unmapped f k (n - k))) s := by
  have hle := h.le
  rw [dealloc, if_neg (Nat.not_le.2 hlt)]
  split
  · next hcmp =>
    rw [min_eq_left hcmp.le] at hk
    have hkn : k < n := by
      rw [← hn, ← hk] at hcmp
      exact Nat.lt_of_mul_lt_mul_right hcmp
    have hcount : (pgRoundUp oldsz - pgRoundUp newsz) / PGSIZE = n - k := by
      rw [← hn, ← hk, ← Nat.sub_mul, Nat.mul_div_cancel _ (by decide)]
    have hbound : n - k < 2 ^ 31 := by
      have : trapPage < 2 ^ 31 := by decide
      omega
    rw [hcount, intToU64_of_lt hbound, ← hk]
    refine wp_seq (h.wp_unmapTail hkn.le) ?_
    rintro _ s' hpost
    exact ⟨rfl, hpost⟩
  · next hcmp =>
    obtain rfl : k = n := by
      rw [min_eq_right (Nat.not_lt.1 hcmp), ← hn] at hk
      exact Nat.eq_of_mul_eq_mul_right (by decide) hk
    rw [Nat.sub_self, unmapped_zero]
    exact ⟨rfl, h, Kept.refl k s k T f⟩

/-- A word that maps a page which was free before and is filled with zeros now. -/
def Fresh (s s' : Memory) (perm w : Nat) : Prop :=
  ∃ p ∈ s.freeList, w = mkPte p perm ∧ s'.mem p = Bytes.zero PGSIZE

omit [KernelImage] in
/-- The permissions that `alloc` maps with. -/
theorem alloc_perm {xperm : Nat} (hx : xperm < 1024) : PTE_R ||| PTE_U ||| xperm < 1024 ∧
    (PTE_R ||| PTE_U ||| xperm) ||| PTE_V ≠ PTE_V := by
  refine ⟨Nat.or_lt_two_pow (n := 10) (by decide) hx, fun he => ?_⟩
  have hbit := congrArg (fun w => w.testBit 1) he
  have hR : PTE_R.testBit 1 = true := rfl
  have hV : PTE_V.testBit 1 = false := rfl
  simp only [Nat.testBit_or, hR, hV, Bool.true_or] at hbit
  exact absurd hbit (by decide)

omit [KernelImage] in
/-- The size of whole pages below the trapframe. -/
theorem pgRoundUp_mul (hn : n ≤ trapPage) : pgRoundUp (n * PGSIZE) = n * PGSIZE := by
  rw [pgRoundUp_eq, pages_mul]
  simp only [trapPage, TRAPFRAME, TRAMPOLINE, MAXVA, PGSIZE] at *
  omega

/-- **The loop of `alloc`**: `k` pages were there before, `n` are there now and `m` are to come. -/
theorem Maps.wp_allocFrom {m newsz xperm : Nat} (h : Maps s r n T f) (hk : k ≤ n)
    (hx : xperm < 1024) :
    wp (allocFrom r (k * PGSIZE) newsz xperm m (n * PGSIZE)) E (fun res s' => ∃ T' f',
      (res = newsz ∧ Maps s' r (n + m) T' f' ∧ Kept n s n T f s' (n + m) T' f' ∧
        ∀ v, n ≤ v → v < n + m → Fresh s s' (PTE_R ||| PTE_U ||| xperm) (f' v)) ∨
      (res = 0 ∧ Maps s' r k T' f' ∧ Kept k s n T f s' k T' f')) s := by
  obtain ⟨hperm, hne⟩ := alloc_perm hx
  induction m generalizing n s T f with
  | zero =>
    exact ⟨T, f, .inl ⟨rfl, h, Kept.refl n s n T f, fun v hv hlt => absurd hlt (Nat.not_lt.2 hv)⟩⟩
  | succ m ih =>
    -- removing what has been mapped
    have hback : ∀ s₁ T₁, Maps s₁ r n T₁ f → Kept n s n T f s₁ n T₁ f →
        wp (dealloc r (n * PGSIZE) (k * PGSIZE) >>= fun _ => pure 0) E (fun res s' => ∃ T' f',
          (res = newsz ∧ Maps s' r (n + (m + 1)) T' f' ∧ Kept n s n T f s' (n + (m + 1)) T' f' ∧
            ∀ v, n ≤ v → v < n + (m + 1) → Fresh s s' (PTE_R ||| PTE_U ||| xperm) (f' v)) ∨
          (res = 0 ∧ Maps s' r k T' f' ∧ Kept k s n T f s' k T' f')) s₁ := by
      intro s₁ T₁ h₁ hkept
      rcases Nat.lt_or_eq_of_le hk with hlt | rfl
      · refine wp_seq (h₁.wp_dealloc (k := k) ?_ (Nat.mul_lt_mul_of_pos_right hlt (by decide)) ?_) ?_
        · rw [pgRoundUp_mul h.le]
        · rw [pgRoundUp_mul h.le, pgRoundUp_mul (hk.trans h.le),
            min_eq_left (Nat.mul_le_mul_right _ hk)]
        · rintro _ s' ⟨-, h', hkept'⟩
          exact ⟨_, _, .inr ⟨rfl, h', (hkept.mono hk).trans hkept'⟩⟩
      · rw [dealloc, if_pos le_rfl]
        exact ⟨_, _, .inr ⟨rfl, h₁, hkept⟩⟩
    rw [allocFrom]
    refine wp_bind.2 (wp_alloc (fun s₁ hf heq => ?_) fun p rest s₁ hf hf' heq => ?_)
    · have hmoves : Moves s (T + mapped f 0 n) s₁ (T + mapped f 0 n) := Moves.of_eq hf heq
      exact hback s₁ T ⟨h.le, h.table.frame fun q _ => by rw [heq], h.owned.moves hmoves, h.mapping,
        h.free⟩ ⟨hmoves, fun _ _ => rfl, fun q _ => by rw [heq]⟩
    · have hp : p ∉ T + mapped f 0 n := fun hmem => h.owned.not_mem_free hmem (by simp [hf])
      have hpop : Moves s (T + mapped f 0 n) s₁ (p ::ₘ (T + mapped f 0 n)) :=
        Moves.pop hf hf' fun _ _ => by rw [heq]
      rw [wp_bind, wp_memsetZero]
      refine wp_seq (wp_and (h.wp_mapFilled hperm hne hpop heq hp (Bytes.zero PGSIZE))
        wp_mappages_suffix) ?_
      rintro res s₃ ⟨⟨T₃, ⟨rfl, h₃, hkept, hzero⟩ | ⟨rfl, hfree⟩⟩, hsuf⟩
      · rw [if_neg (by decide)]
        have hih := ih h₃ (by omega)
        rw [Nat.add_mul, Nat.one_mul] at hih
        refine wp_imp hih ?_
        rintro res s₄ ⟨T₄, f₄, ⟨rfl, h₄, hkept₄, hfresh⟩ | ⟨rfl, h₄, hkept₄⟩⟩
        · rw [show n + 1 + m = n + (m + 1) by omega] at h₄ hkept₄ hfresh
          refine ⟨T₄, f₄, .inl ⟨rfl, h₄, hkept.trans (hkept₄.mono (by omega)), fun v hv hlt => ?_⟩⟩
          rcases Nat.lt_or_eq_of_le hv with hvn | rfl
          · obtain ⟨q, hq, hword, hq0⟩ := hfresh v hvn hlt
            have hq₁ : q ∈ s₁.freeList := hsuf.subset hq
            exact ⟨q, by rw [hf]; exact List.mem_cons_of_mem p (hf' ▸ hq₁), hword, hq0⟩
          · have hword := hkept₄.words n (.inl (Nat.lt_succ_self n))
            rw [Function.update_self] at hword
            have hpage := (mkPte_pageOk ((h.owned.moves hpop).pageOk (Multiset.mem_cons_self p _))
              hperm hne).2.1
            have hmem := mem_mapped (f := Function.update f n
              (mkPte p (PTE_R ||| PTE_U ||| xperm))) (v := 0) (Nat.lt_succ_self n)
            rw [Nat.zero_add, Function.update_self, hpage] at hmem
            exact ⟨p, by simp [hf], hword, (hkept₄.data p hmem).trans hzero⟩
        · exact ⟨T₄, f₄, .inr ⟨rfl, h₄, (hkept.mono hk).trans hkept₄⟩⟩
      · rw [if_pos (by decide)]
        exact wp_seq hfree fun _ s₄ hpost => hback s₄ T₃ hpost.1 hpost.2

omit [KernelImage] in
/-- A size whose pages lie below the trapframe. -/
theorem size_le {newsz : Nat} (h : n + (newsz - n * PGSIZE + PGSIZE - 1) / PGSIZE ≤ trapPage) :
    newsz ≤ MAXVA := by
  simp only [trapPage, TRAPFRAME, TRAMPOLINE, MAXVA, PGSIZE] at h ⊢
  omega

omit [KernelImage] in
/-- The pages up to a size, and those that are missing to a larger one. -/
theorem pages_grown {oldsz newsz : Nat} (hn : n * PGSIZE = pages oldsz * PGSIZE)
    (hle : oldsz ≤ newsz) :
    (n + (newsz - n * PGSIZE + PGSIZE - 1) / PGSIZE) * PGSIZE = pages newsz * PGSIZE := by
  obtain rfl : n = pages oldsz := Nat.eq_of_mul_eq_mul_right (by decide) hn
  have hcount : pages oldsz + (newsz - pages oldsz * PGSIZE + PGSIZE - 1) / PGSIZE = pages newsz := by
    simp only [pages, PGSIZE]
    omega
  rw [hcount]

/-- **`alloc`** grows the user memory by fresh pages, or leaves it as it was. -/
theorem Maps.wp_alloc {oldsz newsz xperm : Nat} (h : Maps s r n T f)
    (hn : n * PGSIZE = pgRoundUp oldsz) (hle : oldsz ≤ newsz) (hx : xperm < 1024) :
    wp (alloc r oldsz newsz xperm) E (fun res s' => ∃ T' f',
      (∃ k, n ≤ k ∧ k * PGSIZE = pgRoundUp newsz ∧ res = newsz ∧ Maps s' r k T' f' ∧
        Kept n s n T f s' k T' f' ∧
        ∀ v, n ≤ v → v < k → Fresh s s' (PTE_R ||| PTE_U ||| xperm) (f' v)) ∨
      (res = 0 ∧ Maps s' r n T' f' ∧ Kept n s n T f s' n T' f')) s := by
  rw [alloc, if_neg (Nat.not_lt.2 hle), ← hn]
  refine wp_imp (h.wp_allocFrom le_rfl hx) ?_
  rintro res s' ⟨T', f', ⟨hres, h', hkept, hfresh⟩ | hfail⟩
  · refine ⟨T', f', .inl ⟨_, Nat.le_add_right _ _, ?_, hres, h', hkept, hfresh⟩⟩
    have htop := h'.le
    have hnew : newsz ≤ MAXVA := size_le htop
    rw [pgRoundUp_eq (hle.trans hnew)] at hn
    rw [pgRoundUp_eq hnew]
    exact pages_grown hn hle
  · exact ⟨T', f', .inr hfail⟩

end

/-! ## Address spaces as maps -/

/-- The page table `r` maps exactly the pages below `PGROUNDUP(sz)` under the trapframe: each of them
to a page of its own that is in use and is no page of the table, and with some permission. -/
structure AddressSpace [KernelImage] (s : Memory) (r sz : Nat) (T : Multiset Nat) : Prop
    extends PageTree s r T where
  below : ∀ va, va % PGSIZE = 0 → va < pgRoundUp sz →
    ∃ pa flags, translation s r va = some (pa, flags) ∧ flags ≠ PTE_V
  above : ∀ va, pgRoundUp sz ≤ va → va < TRAPFRAME → translation s r va = none
  inUse : Owned s (T + (translation s r).pages 0 (pgRoundUp sz / PGSIZE))

section
variable [KernelImage] {s s' : Memory} {r sz n n' k : Nat} {T T' : Multiset Nat} {f f' : Nat → Nat}

omit [KernelImage] in
theorem PageMap.pages_zero (m : PageMap) (va : Nat) : m.pages va 0 = 0 := rfl

omit [KernelImage] in
theorem pgRoundUp_div (sz : Nat) : pgRoundUp sz / PGSIZE * PGSIZE = pgRoundUp sz := by
  rw [pgRoundUp, Nat.mul_div_cancel _ (by decide)]

omit [KernelImage] in
/-- A page below `MAXVA`, from its number. -/
theorem page_mul {v : Nat} (hv : v < trapPage) :
    v * PGSIZE % PGSIZE = 0 ∧ v * PGSIZE < TRAPFRAME ∧ v * PGSIZE < MAXVA ∧
      v * PGSIZE / PGSIZE = v := by
  refine ⟨Nat.mul_mod_left _ _, ?_, ?_, Nat.mul_div_cancel _ (by decide)⟩ <;>
    simp only [trapPage, TRAPFRAME, TRAMPOLINE, MAXVA, PGSIZE] at * <;> omega

/-- The words of an address space. -/
theorem AddressSpace.maps (h : AddressSpace s r sz T) :
    ∃ f, Maps s r (pgRoundUp sz / PGSIZE) T f := by
  obtain ⟨f, htab⟩ := h.shape
  have hcard := h.inUse.card_le
  rw [Multiset.card_add, PageMap.pages, Multiset.card_map, Multiset.card_range] at hcard
  have hle : pgRoundUp sz / PGSIZE ≤ trapPage := by
    have htop : 32768 ≤ trapPage := by decide
    omega
  have hround := pgRoundUp_div sz
  have hmapping : ∀ v < pgRoundUp sz / PGSIZE, Mapping (f v) := by
    intro v hv
    obtain ⟨haligned, -, hva, hdiv⟩ := page_mul (lt_of_lt_of_le hv hle)
    have hlt : v * PGSIZE < pgRoundUp sz := by
      rw [← hround]
      exact Nat.mul_lt_mul_of_pos_right hv (by decide)
    obtain ⟨pa, flags, hsome, hne⟩ := h.below _ haligned hlt
    rw [htab.translation_eq haligned hva, hdiv, entry_eq_some] at hsome
    exact ⟨hsome.1, hsome.2.2 ▸ hne⟩
  refine ⟨f, hle, htab, ?_, hmapping, fun v hv hlt => ?_⟩
  · have hend : 0 + pgRoundUp sz / PGSIZE * PGSIZE ≤ MAXVA := by
      simp only [trapPage, TRAPFRAME, TRAMPOLINE, MAXVA, PGSIZE] at hle ⊢
      omega
    have hpages := htab.pages_eq rfl hend fun i hi => by
      rw [Nat.zero_div, Nat.zero_add]
      exact (hmapping i hi).1
    rw [Nat.zero_div] at hpages
    rw [← hpages]
    exact h.inUse
  · obtain ⟨haligned, hframe, hva, hdiv⟩ := page_mul hlt
    have hnone := h.above (v * PGSIZE) (by rw [← hround]; exact Nat.mul_le_mul_right _ hv) hframe
    rwa [htab.translation_eq haligned hva, hdiv, entry_eq_none] at hnone

/-- The user's pages, from the words or from the map. -/
theorem Maps.pages_from (h : Maps s r n T f) (hk : k ≤ n) :
    mapped f k (n - k) = (translation s r).pages (k * PGSIZE) (n - k) := by
  have hle := h.le
  have hdiv : k * PGSIZE / PGSIZE = k := Nat.mul_div_cancel _ (by decide)
  have hend : k * PGSIZE + (n - k) * PGSIZE ≤ MAXVA := by
    simp only [trapPage, TRAPFRAME, TRAMPOLINE, MAXVA, PGSIZE] at hle ⊢
    omega
  have hpages := h.table.pages_eq (Nat.mul_mod_left k PGSIZE) hend fun i hi => by
    rw [hdiv]
    exact (h.mapping _ (by omega)).1
  rw [hpages, hdiv]

/-- All of the user's pages. -/
theorem Maps.pages_eq (h : Maps s r n T f) : mapped f 0 n = (translation s r).pages 0 n := by
  have hfrom := h.pages_from (Nat.zero_le n)
  rwa [Nat.sub_zero, Nat.zero_mul] at hfrom

/-- The words of an address space make it one. -/
theorem Maps.addressSpace (h : Maps s r n T f) (hn : n * PGSIZE = pgRoundUp sz) :
    AddressSpace s r sz T := by
  have hdiv : pgRoundUp sz / PGSIZE = n := by rw [← hn, Nat.mul_div_cancel _ (by decide)]
  refine ⟨⟨⟨f, h.table⟩, h.owned.of_le (Multiset.le_add_right _ _)⟩, fun va haligned hlt => ?_,
    fun va hge hlt => ?_, ?_⟩
  · have hv : va / PGSIZE < n := Nat.div_lt_of_lt_mul (by rw [Nat.mul_comm, hn]; exact hlt)
    have hva : va < MAXVA := by
      have hle := h.le
      simp only [trapPage, TRAPFRAME, TRAMPOLINE, MAXVA, PGSIZE] at *
      omega
    obtain ⟨hV, hne⟩ := h.mapping _ hv
    exact ⟨_, _, by rw [h.table.translation_eq haligned hva, entry, if_pos hV], hne⟩
  · by_cases haligned : va % PGSIZE = 0
    · have hva : va < MAXVA := by
        simp only [TRAPFRAME, TRAMPOLINE, MAXVA, PGSIZE] at *
        omega
      rw [h.table.translation_eq haligned hva, entry_eq_none]
      refine h.free _ ?_ ?_
      · rw [← hdiv]
        exact Nat.div_le_div_right hge
      · simp only [trapPage, TRAPFRAME, TRAMPOLINE, MAXVA, PGSIZE] at *
        omega
    · exact translation_none fun hc => haligned hc.1
  · rw [hdiv, ← h.pages_eq]
    exact h.owned

/-- Where two address spaces agree. -/
theorem Kept.translation_eq (h : Maps s r n T f) (h' : Maps s' r n' T' f')
    (hkept : Kept k s n T f s' n' T' f') {va : Nat}
    (hva : va < k * PGSIZE ∨ n * PGSIZE ≤ va ∧ n' * PGSIZE ≤ va) :
    translation s' r va = translation s r va := by
  by_cases hc : va % PGSIZE = 0 ∧ va < MAXVA
  · obtain ⟨haligned, hlt⟩ := hc
    rw [h.table.translation_eq haligned hlt, h'.table.translation_eq haligned hlt]
    by_cases hv : va / PGSIZE < k ∨ trapPage ≤ va / PGSIZE
    · rw [hkept.words _ hv]
    · have hn : n ≤ va / PGSIZE ∧ n' ≤ va / PGSIZE := by
        simp only [PGSIZE] at *
        omega
      rw [entry_eq_none.2 (h.free _ hn.1 (by omega)), entry_eq_none.2 (h'.free _ hn.2 (by omega))]
  · rw [translation_none hc, translation_none hc]

/-! ## Exact growth and shrinkage -/

/-- The map has gained the pages between the rounded sizes, each of them free before, filled with
zeros and with the flags `perm` and `PTE_V`; the rest of the map is the same. -/
structure Grown (s : Memory) (r oldsz newsz perm : Nat) (s' : Memory) : Prop where
  inside : ∀ va, va % PGSIZE = 0 → pgRoundUp oldsz ≤ va → va < pgRoundUp newsz →
    ∃ p ∈ s.freeList, translation s' r va = some (p, perm ||| PTE_V) ∧ s'.mem p = Bytes.zero PGSIZE
  outside : ∀ va, ¬ (pgRoundUp oldsz ≤ va ∧ va < pgRoundUp newsz) →
    translation s' r va = translation s r va

/-- The words of fresh pages are the pages that the map has gained. -/
theorem Kept.grown {oldsz newsz perm : Nat} (h : Maps s r n T f) (h' : Maps s' r n' T' f')
    (hkept : Kept n s n T f s' n' T' f') (hn : n * PGSIZE = pgRoundUp oldsz)
    (hn' : n' * PGSIZE = pgRoundUp newsz) (hle : n ≤ n') (hperm : perm < 1024)
    (hfresh : ∀ v, n ≤ v → v < n' → Fresh s s' perm (f' v)) : Grown s r oldsz newsz perm s' where
  inside va haligned hge hlt := by
    have hv : va / PGSIZE < n' := Nat.div_lt_of_lt_mul (by rw [Nat.mul_comm, hn']; exact hlt)
    have hvn : n ≤ va / PGSIZE := (Nat.le_div_iff_mul_le (by decide)).2 (by rw [hn]; exact hge)
    obtain ⟨-, -, hva, -⟩ := page_mul (lt_of_lt_of_le hv h'.le)
    rw [Nat.div_mul_cancel (Nat.dvd_of_mod_eq_zero haligned)] at hva
    obtain ⟨p, hp, hword, hzero⟩ := hfresh _ hvn hv
    have hpage : PageOk p := h.owned.ok p (Multiset.mem_add.2 (.inl (by simpa using hp)))
    refine ⟨p, hp, ?_, hzero⟩
    rw [h'.table.translation_eq haligned hva, hword]
    exact entry_mkPte hpage.aligned (hpage.lt.trans (by decide)) hperm
  outside va hva := by
    refine hkept.translation_eq h h' ?_
    have hmono : n * PGSIZE ≤ n' * PGSIZE := Nat.mul_le_mul_right _ hle
    rw [hn, hn'] at *
    omega

omit [KernelImage] in
/-- Memory that is neither free nor a page of the table keeps its content. -/
theorem Kept.mem_eq (hkept : Kept n s n T f s' n' T' f') {q : Nat}
    (hfree : q ∉ s.freeList) (hq : q ∉ T) : s'.mem q = s.mem q := by
  by_cases hdata : q ∈ mapped f 0 n
  · exact hkept.data q hdata
  · refine hkept.moves.frame q ?_
    simp only [Multiset.mem_add, Multiset.mem_coe, not_or]
    exact ⟨hfree, hq, hdata⟩

/-- When as many pages are mapped as before, the map is the same, and the pages that have left the
free list are pages of the table. -/
theorem Kept.unchanged (h : Maps s r n T f) (h' : Maps s' r n T' f')
    (hkept : Kept n s n T f s' n T' f') : translation s' r = translation s r ∧
      (s'.freeList : Multiset Nat) + T' = s.freeList + T := by
  refine ⟨funext fun va => hkept.translation_eq h h' (by omega), ?_⟩
  have hconserve := hkept.moves.conserve
  rw [hkept.mapped_eq, ← add_assoc, ← add_assoc] at hconserve
  exact add_right_cancel hconserve

omit [KernelImage] in
/-- The pages that have been given back. -/
theorem Kept.freed (hkept : Kept k s n T f s' k T f') (hk : k ≤ n) :
    (s'.freeList : Multiset Nat) = s.freeList + mapped f k (n - k) := by
  have hconserve := hkept.moves.conserve
  rw [hkept.mapped_eq, mapped_split f hk, add_comm (mapped f 0 k), ← add_assoc, ← add_assoc,
    ← add_assoc] at hconserve
  have hT := add_right_cancel hconserve
  rw [add_right_comm] at hT
  exact add_right_cancel hT

end

/-- **Growing and shrinking user memory is exact.**  `alloc` returns the new size and has mapped
exactly the pages up to it, fresh and filled with zeros, or it returns `0` and the map is the old one
and all pages that are missing in the free list are pages of the table.  In both cases memory that
is neither free nor a page of the table is the same.  `dealloc` to a smaller size unmaps exactly the
pages down to it and gives them back; after a successful `alloc` it restores the map. -/
theorem resizing_exact [KernelImage] (s : Memory) (r oldsz : Nat) (T : Multiset Nat)
    (h : AddressSpace s r oldsz T) :
    (∀ newsz xperm, xperm < 1024 →
      wp (alloc r oldsz newsz xperm) (fun _ => False) (fun res s' => ∃ T',
        (res = newsz ∨ res = 0 ∨ newsz < oldsz ∧ res = oldsz) ∧
        (res = newsz → oldsz < newsz → AddressSpace s' r newsz T' ∧
          Grown s r oldsz newsz (PTE_R ||| PTE_U ||| xperm) s') ∧
        (res = 0 → AddressSpace s' r oldsz T' ∧ translation s' r = translation s r ∧
          (s'.freeList : Multiset Nat) + T' = s.freeList + T) ∧
        ∀ q, q ∉ s.freeList → q ∉ T → s'.mem q = s.mem q) s) ∧
    (∀ newsz, newsz < oldsz →
      wp (dealloc r oldsz newsz) (fun _ => False) (fun res s' => res = newsz ∧ PageTree s' r T ∧
        (∀ va, translation s' r va =
          if pgRoundUp newsz ≤ va ∧ va < pgRoundUp oldsz then none else translation s r va) ∧
        (s'.freeList : Multiset Nat) = s.freeList + (translation s r).pages (pgRoundUp newsz)
          ((pgRoundUp oldsz - pgRoundUp newsz) / PGSIZE)) s) ∧
    (∀ newsz xperm, xperm < 1024 → oldsz < newsz →
      wp (do
          let res ← alloc r oldsz newsz xperm
          if res = newsz then dealloc r newsz oldsz else pure res)
        (fun _ => False) (fun _ s' => translation s' r = translation s r) s) := by
  obtain ⟨n, hn, f, hmaps⟩ : ∃ n, n * PGSIZE = pgRoundUp oldsz ∧ ∃ f, Maps s r n T f :=
    ⟨_, pgRoundUp_div oldsz, h.maps⟩
  refine ⟨fun newsz xperm hx => ?_, fun newsz hlt => ?_, fun newsz xperm hx hlt => ?_⟩
  · by_cases hcmp : newsz < oldsz
    · rw [alloc, if_pos hcmp]
      exact ⟨T, .inr (.inr ⟨hcmp, rfl⟩), fun _ hlt => absurd hlt (by omega),
        fun h0 => absurd (h0 ▸ hcmp) (Nat.not_lt_zero _), fun _ _ _ => rfl⟩
    refine wp_imp (hmaps.wp_alloc hn (Nat.not_lt.1 hcmp) hx) ?_
    rintro res s' ⟨T', f', ⟨k, hnk, hk, rfl, hmaps', hkept, hfresh⟩ | ⟨rfl, hmaps', hkept⟩⟩
    · refine ⟨T', .inl rfl, fun _ _ => ⟨hmaps'.addressSpace hk, hkept.grown hmaps hmaps' hn hk hnk
        (alloc_perm hx).1 hfresh⟩, fun h0 => ?_, fun q hf hq => hkept.mem_eq hf hq⟩
      have hsame : pgRoundUp res = pgRoundUp oldsz := congrArg pgRoundUp (by omega)
      obtain rfl : k = n := Nat.eq_of_mul_eq_mul_right (by decide) (hk.trans (hsame.trans hn.symm))
      obtain ⟨htr, hconserve⟩ := hkept.unchanged hmaps hmaps'
      exact ⟨hmaps'.addressSpace hn, htr, hconserve⟩
    · obtain ⟨htr, hconserve⟩ := hkept.unchanged hmaps hmaps'
      exact ⟨T', .inr (.inl rfl), fun h0 hlt => absurd (h0 ▸ hlt) (Nat.not_lt_zero _),
        fun _ => ⟨hmaps'.addressSpace hn, htr, hconserve⟩, fun q hf hq => hkept.mem_eq hf hq⟩
  · have hk : min (pgRoundUp newsz) (pgRoundUp oldsz) / PGSIZE * PGSIZE =
        min (pgRoundUp newsz) (pgRoundUp oldsz) := by
      rcases min_choice (pgRoundUp newsz) (pgRoundUp oldsz) with he | he <;>
        rw [he, pgRoundUp_div]
    generalize min (pgRoundUp newsz) (pgRoundUp oldsz) / PGSIZE = k at hk
    refine wp_imp (hmaps.wp_dealloc hn hlt hk) ?_
    rintro res s' ⟨rfl, hmaps', hkept⟩
    have hkn : k ≤ n := by
      refine Nat.le_of_mul_le_mul_right ?_ (show 0 < PGSIZE by decide)
      rw [hk, hn]
      exact min_le_right _ _
    refine ⟨rfl, ⟨⟨_, hmaps'.table⟩, hmaps'.owned.of_le (Multiset.le_add_right _ _)⟩,
      fun va => ?_, ?_⟩
    · split
      · next hin =>
        rw [min_eq_left (hin.1.trans hin.2.le)] at hk
        have hframe := Nat.mul_le_mul_right PGSIZE hmaps.le
        rw [hn] at hframe
        exact (hmaps'.addressSpace hk).above va hin.1 (lt_of_lt_of_le hin.2 hframe)
      · next hout =>
        refine hkept.translation_eq hmaps hmaps' ?_
        rw [hk, hn]
        omega
    · rw [hkept.freed hkn, hmaps.pages_from hkn]
      rcases Nat.lt_or_ge (pgRoundUp res) (pgRoundUp oldsz) with hcmp | hcmp
      · rw [min_eq_left hcmp.le] at hk
        rw [← hk, ← hn, ← Nat.sub_mul, Nat.mul_div_cancel _ (by decide)]
      · obtain rfl : k = n := by
          rw [min_eq_right hcmp, ← hn] at hk
          exact Nat.eq_of_mul_eq_mul_right (by decide) hk
        rw [Nat.sub_self, Nat.sub_eq_zero_of_le hcmp, Nat.zero_div, PageMap.pages_zero,
          PageMap.pages_zero]
  · refine wp_seq (hmaps.wp_alloc hn hlt.le hx) ?_
    rintro res s' ⟨T', f', ⟨k, hnk, hk, rfl, hmaps', hkept, -⟩ | ⟨rfl, hmaps', hkept⟩⟩
    · rw [if_pos rfl]
      have hmin : n * PGSIZE = min (pgRoundUp oldsz) (pgRoundUp res) := by
        rw [hn, min_eq_left]
        rw [← hn, ← hk]
        exact Nat.mul_le_mul_right _ hnk
      refine wp_imp (hmaps'.wp_dealloc hk hlt hmin) ?_
      rintro _ s'' ⟨-, hmaps'', hkept'⟩
      exact ((hkept.trans hkept').unchanged hmaps hmaps'').1
    · rw [if_neg (by omega)]
      exact (hkept.unchanged hmaps hmaps').1

/-! ## Two page tables -/

/-- The root of a second page table. -/
def otherRoot : Nat := KERNBASE + 6 * PGSIZE

/-- Two empty page tables, and twelve free pages. -/
def twoTables : Memory where
  mem := fun _ => Bytes.zero PGSIZE
  freeList := (List.range 12).map fun i => KERNBASE + (7 + i) * PGSIZE
  denied := fun _ => false

theorem twoTables_owned : @Owned smallImage twoTables ({otherRoot} + {emptyRoot}) := by
  let _ := smallImage
  have hall : ∀ p ∈ otherRoot :: emptyRoot :: twoTables.freeList,
      p % PGSIZE = 0 ∧ smallImage.kernelEnd ≤ p ∧ p < PHYSTOP := by decide
  refine ⟨by decide, fun p hp => ?_⟩
  obtain ⟨h1, h2, h3⟩ := hall p (by simpa [or_assoc, or_comm, or_left_comm] using hp)
  exact ⟨h1, h2, h3⟩

theorem twoTables_space (r : Nat) : Space twoTables r true 0 0 0 {r} := by
  refine ⟨Nat.zero_le _, {r}, fun _ => 0, Tab.empty fun k _ => Bytes.num_zero 8 _, ?_,
    fun v hv => absurd hv (Nat.not_lt_zero v), fun v _ _ => ?_⟩
  · rw [mapped_zero, add_zero]
  · rw [high]
    split
    · rfl
    · split <;> rfl

/-- The first page table after it has grown. -/
theorem twoTables_grown {newsz : Nat} {s : Memory} (hpos : newsz ≠ 0)
    (hrun : (@alloc smallImage emptyRoot 0 newsz PTE_W).run twoTables = .ok (newsz, s)) :
    ∃ O, Space s emptyRoot true (pages newsz) 0 0 O ∧ Space s otherRoot true 0 0 0 {otherRoot} ∧
      @Owned smallImage s ({otherRoot} + O) := by
  let _ := smallImage
  have ho := twoTables_owned
  have halloc : wp (alloc emptyRoot 0 newsz PTE_W) (fun _ => False) (fun res s => ∃ O,
      Moves twoTables {emptyRoot} s O ∧
        (res = max 0 newsz ∧ Space s emptyRoot true (pages (max 0 newsz)) 0 0 O ∨
          res = 0 ∧ Space s emptyRoot true (pages 0) 0 0 O)) twoTables :=
    wp_vmAlloc (twoTables_space emptyRoot) (ho.of_le (Multiset.le_add_left _ _)) (by decide)
  obtain ⟨O, hm, ⟨-, hspace⟩ | ⟨h0, -⟩⟩ := wp_ok halloc hrun
  · rw [Nat.zero_max] at hspace
    have hm' := hm.add {otherRoot}
    rw [add_comm, add_comm O] at hm'
    refine ⟨O, hspace, (twoTables_space otherRoot).frame fun p hp => ?_, ho.moves hm'⟩
    exact hm.mem_eq (X := {otherRoot}) (by rw [add_comm ({emptyRoot} : Multiset Nat)]; exact ho.nodup) hp
  · exact absurd h0 hpos

/-- An address space without trapframe and trampoline. -/
theorem Space.addressSpace [KernelImage] {s : Memory} {r sz : Nat} {O : Multiset Nat}
    (h : Space s r true (pages sz) 0 0 O) (ho : Owned s O) :
    ∃ T, O = T + (translation s r).pages 0 (pgRoundUp sz / PGSIZE) ∧ AddressSpace s r sz T := by
  obtain ⟨T, f, rfl, hmaps, -⟩ := h.maps ho
  have hsz : sz ≤ MAXVA := (le_of_pages_le h.1).trans (by decide)
  rw [pgRoundUp_eq hsz, Nat.mul_div_cancel _ (by decide), ← hmaps.pages_eq]
  exact ⟨T, rfl, hmaps.addressSpace (pgRoundUp_eq hsz).symm⟩

/-- Memory in which a page table maps one page for the user. -/
theorem oneTable_addressSpace : ∃ s T, @AddressSpace smallImage s emptyRoot 1 T := by
  let _ := smallImage
  have hgrow : returns (alloc emptyRoot 0 1 PTE_W) twoTables 1 (fun _ => true) = true := by
    decide +kernel
  obtain ⟨s, hrun, -⟩ := of_returns hgrow
  obtain ⟨O, hspace, -, ho⟩ := twoTables_grown (by decide) hrun
  obtain ⟨T, -, h⟩ := Space.addressSpace hspace (ho.of_le (Multiset.le_add_left _ _))
  exact ⟨s, T, h⟩

/-- Growing the first page table to two pages and a byte maps three fresh pages, and two of them are
free again when it shrinks to one byte. -/
theorem resizing_exact_three : ∃ s₁ s₂,
    (@alloc smallImage emptyRoot 0 (2 * PGSIZE + 1) PTE_W).run twoTables =
      .ok (2 * PGSIZE + 1, s₁) ∧
    (∀ va, va % PGSIZE = 0 → va < 3 * PGSIZE → ∃ p ∈ twoTables.freeList,
      translation s₁ emptyRoot va = some (p, PTE_R ||| PTE_U ||| PTE_W ||| PTE_V) ∧
        s₁.mem p = Bytes.zero PGSIZE) ∧
    (@dealloc smallImage emptyRoot (2 * PGSIZE + 1) 1).run s₁ = .ok (1, s₂) ∧
    (∀ va, translation s₂ emptyRoot va =
      if PGSIZE ≤ va ∧ va < 3 * PGSIZE then none else translation s₁ emptyRoot va) ∧
    (s₂.freeList : Multiset Nat) = s₁.freeList + (translation s₁ emptyRoot).pages PGSIZE 2 := by
  have hgrow : returns (@alloc smallImage emptyRoot 0 (2 * PGSIZE + 1) PTE_W) twoTables
      (2 * PGSIZE + 1) (fun _ => true) = true := by decide +kernel
  obtain ⟨s₁, hrun, -⟩ := of_returns hgrow
  have ho : @Owned smallImage twoTables {emptyRoot} := by
    let _ := smallImage
    exact twoTables_owned.of_le (Multiset.le_add_left _ _)
  have hempty : Space twoTables emptyRoot true (pages 0) 0 0 {emptyRoot} := twoTables_space emptyRoot
  obtain ⟨T, -, h⟩ := @Space.addressSpace smallImage _ _ _ _ hempty ho
  obtain ⟨T₁, -, hgrown, -, -⟩ := wp_ok ((@resizing_exact smallImage twoTables emptyRoot 0 T h).1
    (2 * PGSIZE + 1) PTE_W (by decide)) hrun
  obtain ⟨h₁, hnew⟩ := hgrown rfl (by decide)
  obtain ⟨res, s₂, hrun₂, rfl, -, htr, hfree⟩ := wp_total
    ((@resizing_exact smallImage s₁ emptyRoot _ T₁ h₁).2.1 1 (by decide))
  refine ⟨s₁, s₂, hrun, fun va haligned hlt => ?_, hrun₂, htr, hfree⟩
  exact hnew.inside va haligned (Nat.zero_le _) hlt

end VirtualMemory
end Xv6pp
