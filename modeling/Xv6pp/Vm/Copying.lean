import Xv6pp.Vm.Resizing

/-!
# Copying user memory, exactly

What `copy` leaves behind: for each user page of the old page table the new one maps a page that was
free before, with the same bytes and the same flags, or all of them have been given back.  The pages
of the two tables are apart, so that whatever is later stored through one of them is not seen through
the other (`Writes.apart`).
-/

set_option autoImplicit false

namespace Xv6pp
namespace VirtualMemory

open Prog Radix

section
variable [KernelImage] {s s₁ s' : Memory} {r n k m old newpt N : Nat} {T T' P : Multiset Nat}
  {f f' g : Nat → Nat} {E : Panic → Prop}

/-- An address space depends on the free list and on the pages of its table only. -/
theorem Maps.frame (h : Maps s r n T f) (hf : s'.freeList = s.freeList)
    (hT : ∀ p ∈ T, s'.mem p = s.mem p) : Maps s' r n T f where
  le := h.le
  table := h.table.frame hT
  owned := ⟨by rw [hf]; exact h.owned.nodup, by rw [hf]; exact h.owned.ok⟩
  mapping := h.mapping
  free := h.free

/-- An address space is not affected by what moves elsewhere. -/
theorem Maps.moves {A A' : Multiset Nat} (h : Maps s r n T f) (hm : Moves s A s' A')
    (ho : Owned s (A + (T + mapped f 0 n))) : Maps s' r n T f where
  le := h.le
  table := h.table.frame fun p hp => hm.mem_eq ho.nodup (by simp [hp])
  owned := (ho.moves (hm.add _)).of_le (Multiset.le_add_left _ _)
  mapping := h.mapping
  free := h.free

/-! ## The loop -/

omit [KernelImage] in
/-- A word that maps a copy of the page of another word, taken from the free list. -/
def Copied (s s' : Memory) (g w : Nat) : Prop :=
  ∃ p ∈ s.freeList, w = mkPte p (pteFlags g) ∧ s'.mem p = s.mem (pte2pa g)

omit [KernelImage] in
theorem pteFlags_or_V {w : Nat} (h : Mapping w) : pteFlags w ||| PTE_V = pteFlags w := by
  refine Nat.eq_of_testBit_eq fun i => ?_
  rw [Nat.testBit_or]
  by_cases hi : i = 0
  · subst hi
    have hV : has (pteFlags w) (2 ^ 0) := (has_pteFlags w (by decide)).trans h.1
    rw [has_eq_testBit] at hV
    rw [hV, Bool.true_or]
  · have hzero : PTE_V.testBit i = false := by
      rw [PTE_V, Nat.one_shiftLeft, Nat.testBit_two_pow]
      exact decide_eq_false (Ne.symm hi)
    rw [hzero, Bool.or_false]

/-- **The loop of `copy`**: `n` pages have been copied and `m` are to come. -/
theorem Maps.wp_copyFrom (h : Maps s newpt n T f) (hold : Maps s old N P g)
    (ho : Owned s ((T + mapped f 0 n) + (P + mapped g 0 N))) (hN : n + m ≤ N) :
    wp (copyFrom old newpt m (n * PGSIZE)) E (fun res s' => ∃ T' f',
      (res = 0 ∧ Maps s' newpt (n + m) T' f' ∧ Kept n s n T f s' (n + m) T' f' ∧
        ∀ v, n ≤ v → v < n + m → Copied s s' (g v) (f' v)) ∨
      (res = -1 ∧ Maps s' newpt 0 T' f' ∧ Kept 0 s n T f s' 0 T' f')) s := by
  induction m generalizing n s T f with
  | zero =>
    exact ⟨T, f, .inl ⟨rfl, h, Kept.refl n s n T f, fun v hv hlt => absurd hlt (Nat.not_lt.2 hv)⟩⟩
  | succ m ih =>
    have hdiv : n * PGSIZE / PGSIZE = n := Nat.mul_div_cancel _ (by decide)
    -- removing what has been mapped
    have hback : ∀ s₁ T₁, Maps s₁ newpt n T₁ f → Kept n s n T f s₁ n T₁ f →
        wp (unmap newpt 0 (n * PGSIZE / PGSIZE) true >>= fun _ => pure (-1)) E (fun res s' =>
          ∃ T' f', (res = 0 ∧ Maps s' newpt (n + (m + 1)) T' f' ∧
              Kept n s n T f s' (n + (m + 1)) T' f' ∧
              ∀ v, n ≤ v → v < n + (m + 1) → Copied s s' (g v) (f' v)) ∨
            (res = -1 ∧ Maps s' newpt 0 T' f' ∧ Kept 0 s n T f s' 0 T' f')) s₁ := by
      intro s₁ T₁ h₁ hkept
      have hun := h₁.wp_unmapTail (E := E) (Nat.zero_le n)
      rw [Nat.zero_mul, Nat.sub_zero] at hun
      rw [hdiv]
      refine wp_seq hun ?_
      rintro _ s' ⟨h', hkept'⟩
      exact ⟨_, _, .inr ⟨rfl, h', (hkept.mono (Nat.zero_le n)).trans hkept'⟩⟩
    have hn : n < N := by omega
    obtain ⟨-, -, hva, -⟩ := page_mul (lt_of_lt_of_le hn hold.le)
    have hmapping := hold.mapping n hn
    have hV : has (g (n * PGSIZE / PGSIZE)) PTE_V := by
      rw [hdiv]
      exact hmapping.1
    have hoP : Owned s P := hold.owned.of_le (Multiset.le_add_right _ _)
    rw [copyFrom]
    refine wp_bind.2 (wp_walk_valid hold.table (fun p hp => hoP.pageOk hp) hva hV fun q i hs => ?_)
    have hword : s.word q i = g n := by
      rw [Tab.slot_read hold.table (page_lt hva) hs, hdiv]
    simp only [wp_bind, wp_loadWord, wp_ite, hword, hmapping.1]
    refine ⟨(by rintro ⟨⟩), fun _ => VirtualMemory.wp_alloc (fun s₁ hf heq => ?_) fun p rest s₁ hf hf' heq => ?_⟩
    · have hmoves : Moves s (T + mapped f 0 n) s₁ (T + mapped f 0 n) := Moves.of_eq hf heq
      exact hback s₁ T (h.frame hf fun q _ => by rw [heq])
        ⟨hmoves, fun _ _ => rfl, fun q _ => by rw [heq]⟩
    · have hp : p ∉ T + mapped f 0 n := fun hmem => h.owned.not_mem_free hmem (by simp [hf])
      have hpop : Moves s (T + mapped f 0 n) s₁ (p ::ₘ (T + mapped f 0 n)) :=
        Moves.pop hf hf' fun _ _ => by rw [heq]
      have hflags : pteFlags (g n) ||| PTE_V ≠ PTE_V := by
        rw [pteFlags_or_V hmapping]
        exact hmapping.2
      rw [wp_bind, wp_modify]
      refine wp_seq (wp_and (h.wp_mapFilled (pteFlags_lt _) hflags hpop heq hp _)
        wp_mappages_suffix) ?_
      rintro res s₃ ⟨⟨T₃, ⟨rfl, h₃, hkept, hbytes⟩ | ⟨rfl, hfree⟩⟩, hsuf⟩
      · rw [if_neg (by decide)]
        have hold₃ := hold.moves hkept.moves ho
        have hih := ih h₃ hold₃ (ho.moves (hkept.moves.add _)) (by omega)
        rw [Nat.add_mul, Nat.one_mul] at hih
        refine wp_imp hih ?_
        rintro res s₄ ⟨T₄, f₄, ⟨rfl, h₄, hkept₄, hcopied⟩ | ⟨rfl, h₄, hkept₄⟩⟩
        · rw [show n + 1 + m = n + (m + 1) by omega] at h₄ hkept₄ hcopied
          refine ⟨T₄, f₄, .inl ⟨rfl, h₄, hkept.trans (hkept₄.mono (by omega)), fun v hv hlt => ?_⟩⟩
          rcases Nat.lt_or_eq_of_le hv with hvn | rfl
          · obtain ⟨q', hq', hword', hsame⟩ := hcopied v hvn hlt
            have hq₁ : q' ∈ s₁.freeList := hsuf.subset hq'
            have hmem : pte2pa (g v) ∈ P + mapped g 0 N := by
              have hin := mem_mapped (f := g) (v := 0) (show v < N by omega)
              rw [Nat.zero_add] at hin
              exact Multiset.mem_add.2 (.inr hin)
            refine ⟨q', by rw [hf]; exact List.mem_cons_of_mem p (hf' ▸ hq₁), hword', ?_⟩
            rw [hsame, hkept.moves.mem_eq ho.nodup hmem]
          · have hword' := hkept₄.words n (.inl (Nat.lt_succ_self n))
            rw [Function.update_self] at hword'
            have hpage := (mkPte_pageOk ((h.owned.moves hpop).pageOk (Multiset.mem_cons_self p _))
              (pteFlags_lt (g n)) hflags).2.1
            have hmem := mem_mapped (f := Function.update f n (mkPte p (pteFlags (g n)))) (v := 0)
              (Nat.lt_succ_self n)
            rw [Nat.zero_add, Function.update_self, hpage] at hmem
            refine ⟨p, by simp [hf], hword', (hkept₄.data p hmem).trans (hbytes.trans ?_)⟩
            rw [heq]
        · exact ⟨T₄, f₄, .inr ⟨rfl, h₄, (hkept.mono (Nat.zero_le n)).trans hkept₄⟩⟩
      · rw [if_pos (by decide)]
        exact wp_seq hfree fun _ s₄ hpost => hback s₄ T₃ hpost.1 hpost.2

/-! ## Later stores -/

omit [KernelImage] in
/-- From the first state to the second one, pages below `sz` have been stored to through the page
table `r`. -/
inductive Writes (r sz : Nat) : Memory → Memory → Prop
  | refl (s : Memory) : Writes r sz s s
  | store {s s' : Memory} {va q flags : Nat} (h : Writes r sz s s') (b : Bytes PGSIZE)
      (hva : va < pgRoundUp sz) (hq : translation s' r va = some (q, flags)) :
      Writes r sz s (s'.store q b)

omit [KernelImage] in
/-- What is stored through the page table `r` is not seen through `r'`: its map is the same, and so
is the memory of its pages below `sz`. -/
def Apart (s : Memory) (r r' sz : Nat) : Prop :=
  ∀ s', Writes r sz s s' → translation s' r' = translation s r' ∧
    ∀ va q flags, va < pgRoundUp sz → translation s r' va = some (q, flags) → s'.mem q = s.mem q

/-- The page of an address of user memory. -/
theorem Maps.page_mem {sz va q flags : Nat} (h : Maps s r n T f) (hn : n * PGSIZE = pgRoundUp sz)
    (hva : va < pgRoundUp sz) (hq : translation s r va = some (q, flags)) : q ∈ mapped f 0 n := by
  by_cases hc : va % PGSIZE = 0 ∧ va < MAXVA
  · have hv : va / PGSIZE < n := Nat.div_lt_of_lt_mul (by rw [Nat.mul_comm, hn]; exact hva)
    rw [h.table.translation_eq hc.1 hc.2, entry_eq_some] at hq
    rw [← hq.2.1]
    have hmem := mem_mapped (f := f) (v := 0) hv
    rwa [Nat.zero_add] at hmem
  · rw [translation_none hc] at hq
    exact absurd hq (by rintro ⟨⟩)

/-- **Stores through one page table are not seen through another one** when the pages of the two are
apart. -/
theorem Maps.apart {r' n' sz : Nat} (h : Maps s r n T f) (h' : Maps s r' n' T' f')
    (hn : n * PGSIZE = pgRoundUp sz) (hn' : n' * PGSIZE = pgRoundUp sz)
    (ho : (T + mapped f 0 n + (T' + mapped f' 0 n')).Nodup) : Apart s r r' sz := by
  have hsplit := Multiset.nodup_add.1 ho
  -- the pages that are stored to are user pages of the first table
  have hnot : ∀ q ∈ mapped f 0 n, q ∉ T ∧ q ∉ T' + mapped f' 0 n' := fun q hq =>
    ⟨fun hT => Multiset.disjoint_left.1 (Multiset.nodup_add.1 hsplit.1).2.2 hT hq,
      fun hT' => Multiset.disjoint_left.1 hsplit.2.2 (Multiset.mem_add.2 (.inr hq)) hT'⟩
  intro s' hw
  suffices hinv : Maps s' r n T f ∧ Maps s' r' n' T' f' ∧
      ∀ q ∈ T' + mapped f' 0 n', s'.mem q = s.mem q by
    obtain ⟨-, h₂, hsame⟩ := hinv
    refine ⟨?_, fun va q flags hva hq => ?_⟩
    · exact h'.table.translation_congr h₂.table
    · exact hsame q (Multiset.mem_add.2 (.inr (h'.page_mem hn' hva hq)))
  induction hw with
  | refl => exact ⟨h, h', fun _ _ => rfl⟩
  | @store s' va q flags hw b hva hq ih =>
    obtain ⟨h₁, h₂, hsame⟩ := ih
    obtain ⟨hqT, hq'⟩ := hnot q (h₁.page_mem hn hva hq)
    have hother : ∀ p, p ≠ q → (s'.store q b).mem p = s'.mem p := fun p hp =>
      Memory.store_mem_of_ne s' b hp
    refine ⟨h₁.frame rfl fun p hp => hother p fun e => hqT (e ▸ hp),
      h₂.frame rfl fun p hp => hother p fun e => hq' (Multiset.mem_add.2 (.inl (e ▸ hp))),
      fun p hp => ?_⟩
    rw [hother p fun e => hq' (e ▸ hp), hsame p hp]

end

/-! ## `copy` -/

/-- **`fork` copies memory and separates it.**  When `copy` returns `0` the new page table maps each
user page of the old one to a page that was free before, with the same bytes and the same flags; the
pages of both are pairwise distinct, so that nothing that is stored through one of them later is seen
through the other.  When it returns `-1` the new page table maps nothing, as before, and the pages
that have left the free list are pages of that table.  In both cases the map of the old page table is
the same, and so is all memory that was neither free nor a page of the new table. -/
theorem copy_exact [KernelImage] (s : Memory) (old newpt sz : Nat) (P T : Multiset Nat)
    (hsz : sz ≤ MAXVA) (hold : AddressSpace s old sz P) (hnew : AddressSpace s newpt 0 T)
    (ho : Owned s (T + (P + (translation s old).pages 0 (pgRoundUp sz / PGSIZE)))) :
    wp (copy old newpt sz) (fun _ => False) (fun res s' => ∃ T',
      (res = 0 ∧ AddressSpace s' newpt sz T' ∧
        (∀ va pa flags, va < pgRoundUp sz → translation s old va = some (pa, flags) →
          ∃ p ∈ s.freeList, translation s' newpt va = some (p, flags) ∧ s'.mem p = s.mem pa) ∧
        Owned s' (T' + (translation s' newpt).pages 0 (pgRoundUp sz / PGSIZE) +
          (P + (translation s' old).pages 0 (pgRoundUp sz / PGSIZE))) ∧
        Apart s' newpt old sz ∧ Apart s' old newpt sz ∨
      res = -1 ∧ AddressSpace s' newpt 0 T' ∧ translation s' newpt = translation s newpt ∧
        (s'.freeList : Multiset Nat) + T' = s.freeList + T) ∧
      translation s' old = translation s old ∧
      ∀ q, q ∉ s.freeList → q ∉ T → s'.mem q = s.mem q) s := by
  obtain ⟨n, hn, g, hg⟩ : ∃ n, n * PGSIZE = pgRoundUp sz ∧ ∃ g, Maps s old n P g :=
    ⟨_, pgRoundUp_div sz, hold.maps⟩
  have hdiv : pgRoundUp sz / PGSIZE = n := by rw [← hn, Nat.mul_div_cancel _ (by decide)]
  obtain ⟨f, hf⟩ : ∃ f, Maps s newpt 0 T f := hnew.maps
  have hcount : (sz + PGSIZE - 1) / PGSIZE = n := by
    rw [pgRoundUp_eq hsz] at hn
    exact (Nat.eq_of_mul_eq_mul_right (by decide) hn).symm
  have ho' : Owned s (T + mapped f 0 0 + (P + mapped g 0 n)) := by
    rw [hdiv, ← hg.pages_eq] at ho
    rwa [mapped_zero, add_zero]
  have hcopy := hf.wp_copyFrom (E := fun _ => False) (m := n) hg ho' (by omega)
  rw [Nat.zero_mul] at hcopy
  rw [copy, hcount]
  refine wp_imp hcopy ?_
  rintro res s' ⟨T', f', hres⟩
  -- what holds in both cases
  have hframe : ∀ {n' f'} (_ : Kept 0 s 0 T f s' n' T' f'), Maps s' old n P g ∧
      translation s' old = translation s old ∧ ∀ q, q ∉ s.freeList → q ∉ T → s'.mem q = s.mem q := by
    intro n' f' hkept
    have hg' := hg.moves hkept.moves ho'
    exact ⟨hg', hg.table.translation_congr hg'.table, fun q hfree hq => hkept.mem_eq hfree hq⟩
  rcases hres with ⟨rfl, h', hkept, hcopied⟩ | ⟨rfl, h', hkept⟩
  · rw [Nat.zero_add] at h' hkept hcopied
    obtain ⟨hg', htr, hmem⟩ := hframe hkept
    have hown : Owned s' (T' + mapped f' 0 n + (P + mapped g 0 n)) := ho'.moves (hkept.moves.add _)
    refine ⟨T', .inl ⟨rfl, h'.addressSpace hn, fun va pa flags hva hsome => ?_, ?_, ?_, ?_⟩, htr, hmem⟩
    · obtain ⟨haligned, hlt⟩ : va % PGSIZE = 0 ∧ va < MAXVA := by
        by_contra hc
        rw [translation_none hc] at hsome
        exact absurd hsome (by rintro ⟨⟩)
      have hv : va / PGSIZE < n := Nat.div_lt_of_lt_mul (by rw [Nat.mul_comm, hn]; exact hva)
      obtain ⟨p, hp, hword, hbytes⟩ := hcopied _ (Nat.zero_le _) hv
      rw [hg.table.translation_eq haligned hlt, entry_eq_some] at hsome
      obtain ⟨-, rfl, rfl⟩ := hsome
      have hpage : PageOk p := hf.owned.ok p (Multiset.mem_add.2 (.inl (by simpa using hp)))
      refine ⟨p, hp, ?_, hbytes⟩
      rw [h'.table.translation_eq haligned hlt, hword, entry_mkPte hpage.aligned
        (hpage.lt.trans (by decide)) (pteFlags_lt _), pteFlags_or_V (hg.mapping _ hv)]
    · rw [hdiv, ← h'.pages_eq, ← hg'.pages_eq]
      exact hown
    · exact h'.apart hg' hn hn hown.nodup_right
    · exact hg'.apart h' hn hn (by rw [add_comm]; exact hown.nodup_right)
  · obtain ⟨-, htr, hmem⟩ := hframe hkept
    obtain ⟨htr', hconserve⟩ := hkept.unchanged hf h'
    exact ⟨T', .inr ⟨rfl, h'.addressSpace rfl, htr', hconserve⟩, htr, hmem⟩

set_option maxRecDepth 8000 in
/-- A process grows to three pages and writes four bytes across the end of the first one; then its memory
is copied. -/
theorem copy_exact_three : ∃ s₁ s₂ s₃ s₄ pa p flags,
    (@alloc smallImage emptyRoot 0 (2 * PGSIZE + 1) PTE_W).run twoTables =
      .ok (2 * PGSIZE + 1, s₁) ∧
    (copyout emptyRoot (PGSIZE - 2) [1, 2, 3, 4]).run s₁ = .ok (0, s₂) ∧
    (@copy smallImage emptyRoot otherRoot (2 * PGSIZE + 1)).run s₂ = .ok (0, s₃) ∧
    translation s₂ emptyRoot PGSIZE = some (pa, flags) ∧
    translation s₃ otherRoot PGSIZE = some (p, flags) ∧ p ∈ s₂.freeList ∧ s₃.mem p = s₂.mem pa ∧
    Apart s₃ otherRoot emptyRoot (2 * PGSIZE + 1) ∧
    (copyin otherRoot (PGSIZE - 2) 4).run s₃ = .ok (([1, 2, 3, 4], 0), s₄) := by
  have hcheck : returns (@alloc smallImage emptyRoot 0 (2 * PGSIZE + 1) PTE_W) twoTables
      (2 * PGSIZE + 1) (fun s₁ => returns (copyout emptyRoot (PGSIZE - 2) [1, 2, 3, 4]) s₁ 0
        fun s₂ => returns (@copy smallImage emptyRoot otherRoot (2 * PGSIZE + 1)) s₂ 0
          fun s₃ => returns (copyin otherRoot (PGSIZE - 2) 4) s₃ ([1, 2, 3, 4], 0)
            fun _ => true) = true := by decide +kernel
  obtain ⟨s₁, hgrow, hcheck⟩ := of_returns hcheck
  obtain ⟨s₂, hout, hcheck⟩ := of_returns hcheck
  obtain ⟨s₃, hcopy, hcheck⟩ := of_returns hcheck
  obtain ⟨s₄, hin, -⟩ := of_returns hcheck
  let _ := smallImage
  -- the two address spaces before the copy
  obtain ⟨O, hspace, hother, ho⟩ := twoTables_grown (by decide) hgrow
  have hcopyout : wp (copyout emptyRoot (PGSIZE - 2) [1, 2, 3, 4]) (fun _ => False) (fun _ s =>
      Space s emptyRoot true (pages (2 * PGSIZE + 1)) 0 0 O ∧ Moves s₁ O s O) s₁ :=
    wp_copyout_user hspace (ho.of_le (Multiset.le_add_left _ _)) ⟨by decide, by decide⟩
  obtain ⟨hspace₂, hm⟩ := wp_ok hcopyout hout
  have hm' := hm.add {otherRoot}
  rw [add_comm O] at hm'
  have ho₂ := ho.moves hm'
  have hother₂ := hother.frame fun p hp =>
    hm.mem_eq (X := {otherRoot}) (by rw [add_comm O]; exact ho.nodup) hp
  obtain ⟨T, rfl, h⟩ := hspace₂.addressSpace (ho₂.of_le (Multiset.le_add_left _ _))
  have hempty : Space s₂ otherRoot true (pages 0) 0 0 {otherRoot} := hother₂
  obtain ⟨T', hT', h'⟩ := hempty.addressSpace (ho₂.of_le (Multiset.le_add_right _ _))
  rw [show pgRoundUp 0 / PGSIZE = 0 from rfl, PageMap.pages_zero, add_zero] at hT'
  subst hT'
  obtain ⟨T₃, hres, -, -⟩ := wp_ok (@copy_exact smallImage s₂ emptyRoot otherRoot (2 * PGSIZE + 1) T
    {otherRoot} (by decide) h h' ho₂) hcopy
  rcases hres with ⟨-, -, hpages, -, hapart, -⟩ | ⟨hneg, -⟩
  · obtain ⟨pa, flags, hsome, -⟩ := h.below PGSIZE rfl (by decide)
    obtain ⟨p, hp, hnew, hbytes⟩ := hpages PGSIZE pa flags (by decide) hsome
    exact ⟨s₁, s₂, s₃, s₄, pa, p, flags, hgrow, hout, hcopy, hsome, hnew, hp, hbytes, hapart, hin⟩
  · exact absurd hneg (by decide)

end VirtualMemory
end Xv6pp
