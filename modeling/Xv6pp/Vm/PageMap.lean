import Xv6pp.Vm.Supply

/-!
# Page tables refine finite maps

What a page table is for: a partial map from page-aligned virtual addresses to physical pages and
flag bits.  `translation s r` reads this map off the memory as the hardware does, level by level
from the root page `r`.  On a tree of the right shape (`PageTree`: three levels, leaves at the
lowest one only, table pages in use and pairwise distinct) the functions of `virtual_memory` are
operations on the map: `mappages` adds a range (`PageMap.add`), or a prefix of it when it runs out
of page-table pages, `unmap` removes one (`PageMap.remove`), and `walkaddr` looks up.

`unmap` takes a word whose only flag is `PTE_V` for a pointer to a page-table page and panics, so
pages that have been mapped without any permission cannot be unmapped; `page_map_refinement` asks
for another flag, and `unmap_not_a_leaf` shows that it has to.
-/

set_option autoImplicit false

namespace Xv6pp
namespace VirtualMemory

open Prog Radix

/-! ## The map -/

/-- A partial map from virtual addresses to physical pages and flag bits. -/
abbrev PageMap : Type := Nat → Option (Nat × Nat)

/-- The map with the `n` pages from `va` on mapped to the `n` pages from `pa` on. -/
def PageMap.add (m : PageMap) (va pa perm n : Nat) : PageMap := fun a =>
  if a % PGSIZE = 0 ∧ va ≤ a ∧ a < va + n * PGSIZE then some (pa + (a - va), perm ||| PTE_V) else m a

/-- The map without the `n` pages from `va` on. -/
def PageMap.remove (m : PageMap) (va n : Nat) : PageMap := fun a =>
  if va ≤ a ∧ a < va + n * PGSIZE then none else m a

/-- The physical pages that the `n` pages from `va` on are mapped to. -/
def PageMap.pages (m : PageMap) (va n : Nat) : Multiset Nat :=
  (Multiset.range n).map fun i => ((m (va + i * PGSIZE)).map Prod.fst).getD 0

/-- What a word at the lowest level says. -/
def entry (w : Nat) : Option (Nat × Nat) :=
  if has w PTE_V then some (pte2pa w, pteFlags w) else none

/-- The translation of `va` by the page `r` at `level`. -/
def translationFrom (s : Memory) : Nat → Nat → Nat → Option (Nat × Nat)
  | 0, r, va => entry (s.word r (px 0 va))
  | level + 1, r, va =>
    if has (s.word r (px (level + 1) va)) PTE_V then
      translationFrom s level (pte2pa (s.word r (px (level + 1) va))) va
    else
      none

/-- The map that the page table with root `r` represents. -/
def translation (s : Memory) (r : Nat) : PageMap := fun va =>
  if va % PGSIZE = 0 ∧ va < MAXVA then translationFrom s 2 r va else none

/-- A page table: a three-level tree whose words above the lowest level are invalid or point to
table pages, on pages that are in use and pairwise distinct. -/
structure PageTree [KernelImage] (s : Memory) (r : Nat) (T : Multiset Nat) : Prop where
  shape : ∃ f, Table s 2 r T f
  owned : Owned s T

/-! ## Trees and their maps -/

section
variable {s : Memory} {l r va : Nat} {T : Multiset Nat} {f : Nat → Nat}

theorem Table.translationFrom_eq (h : Table s l r T f) :
    translationFrom s l r va = entry (f (vpn l va)) := by
  induction l generalizing r T f with
  | zero =>
    have hvpn : vpn 0 va = px 0 va := by
      rw [px_eq, vpn, pow_zero, Nat.div_one, zero_add, pow_one]
    rw [translationFrom, hvpn, h.2 _ (px_lt 0 va)]
  | succ l ih =>
    have hblock : block sv39 l (px (l + 1) va) f (vpn l va) = f (vpn (l + 1) va) := by
      have hb := @block_div_mod _ _ sv39 f l (vpn (l + 1) va)
      rwa [vpn_div, vpn_mod] at hb
    obtain ⟨Tk, Ts, rfl, he, -⟩ := Tab.split h (px_lt (l + 1) va)
    rw [translationFrom]
    rcases he with ⟨hdead, -, hnull⟩ | ⟨c, hc, hchild⟩
    · rw [if_neg (by rw [show has _ PTE_V = false from hdead]; decide), ← hblock,
        hnull _ (vpn_lt l va)]
      rfl
    · rw [if_pos hc.1, hc.2.2, ih hchild, hblock]

theorem Table.translation_eq (h : Table s 2 r T f) (haligned : va % PGSIZE = 0) (hva : va < MAXVA) :
    translation s r va = entry (f (va / PGSIZE)) := by
  rw [translation, if_pos ⟨haligned, hva⟩, h.translationFrom_eq, vpn_two hva]

/-- The map of a tree after its words have changed. -/
theorem Table.translation_ext {s' : Memory} {r : Nat} {T' : Multiset Nat} {f' : Nat → Nat}
    {m : PageMap} (h' : Table s' 2 r T' f')
    (hm : ∀ va, va % PGSIZE = 0 → va < MAXVA → entry (f' (va / PGSIZE)) = m va)
    (hout : ∀ va, ¬ (va % PGSIZE = 0 ∧ va < MAXVA) → m va = none) : translation s' r = m := by
  funext va
  by_cases hva : va % PGSIZE = 0 ∧ va < MAXVA
  · rw [h'.translation_eq hva.1 hva.2, hm va hva.1 hva.2]
  · rw [translation, if_neg hva, hout va hva]

/-- Two trees with the same words have the same map. -/
theorem Table.translation_congr {s' : Memory} {r' : Nat} {T' : Multiset Nat} (h : Table s 2 r T f)
    (h' : Table s' 2 r' T' f) : translation s' r' = translation s r :=
  h'.translation_ext (fun _ ha hlt => (h.translation_eq ha hlt).symm) fun va ha => by
    rw [translation, if_neg ha]

theorem translation_none (hva : ¬ (va % PGSIZE = 0 ∧ va < MAXVA)) : translation s r va = none := by
  rw [translation, if_neg hva]

theorem entry_mkPte {pa perm : Nat} (hpa : pa % PGSIZE = 0) (hlt : pa < 2 ^ 64)
    (hperm : perm < 1024) : entry (mkPte pa perm) = some (pa, perm ||| PTE_V) := by
  have hor : perm ||| PTE_V < 1024 := Nat.or_lt_two_pow (n := 10) hperm (by decide)
  have hV : has (perm ||| PTE_V) PTE_V := by
    rw [show PTE_V = 2 ^ 0 from rfl, has_eq_testBit, Nat.testBit_or]
    simp
  rw [entry, mkPte, Nat.or_assoc, has_pa2pte_or pa _ (by decide), if_pos hV,
    pte2pa_pa2pte hpa hlt hor, pteFlags_pa2pte pa hor]

theorem entry_eq_none {w : Nat} : entry w = none ↔ has w PTE_V = false := by
  rw [entry]
  split <;> simp_all

theorem entry_eq_some {w pa flags : Nat} :
    entry w = some (pa, flags) ↔ has w PTE_V ∧ pte2pa w = pa ∧ pteFlags w = flags := by
  rw [entry]
  split <;> simp_all

/-- The page number `i` pages after an aligned address. -/
theorem page_add (haligned : va % PGSIZE = 0) (i : Nat) :
    (va + i * PGSIZE) % PGSIZE = 0 ∧ (va + i * PGSIZE) / PGSIZE = va / PGSIZE + i :=
  ⟨by rw [Nat.add_mul_mod_self_right]; exact haligned, Nat.add_mul_div_right _ _ (by decide)⟩

/-- The address of a page of a range, from its number. -/
theorem page_range {a n : Nat} (haligned : va % PGSIZE = 0) (ha : a % PGSIZE = 0) :
    (va / PGSIZE ≤ a / PGSIZE ∧ a / PGSIZE < va / PGSIZE + n) ↔ (va ≤ a ∧ a < va + n * PGSIZE) := by
  simp only [PGSIZE] at *
  omega

/-- Mapping a range of words is mapping a range of addresses. -/
theorem Table.translation_mapAt {s' : Memory} {T' : Multiset Nat} {pa perm n : Nat}
    (h : Table s 2 r T f) (h' : Table s' 2 r T' (mapAt f (va / PGSIZE) pa perm n))
    (haligned : va % PGSIZE = 0) (hpa : pa % PGSIZE = 0) (hva : va + n * PGSIZE ≤ MAXVA)
    (hlt : pa + n * PGSIZE ≤ 2 ^ 64) (hperm : perm < 1024) :
    translation s' r = (translation s r).add va pa perm n := by
  refine h'.translation_ext (fun a ha hlta => ?_) fun a ha => ?_
  · rw [mapAt, PageMap.add]
    by_cases hrange : va ≤ a ∧ a < va + n * PGSIZE
    · have hoff : pa + (a / PGSIZE - va / PGSIZE) * PGSIZE = pa + (a - va) := by
        simp only [PGSIZE] at *
        omega
      have hoffaligned : (pa + (a - va)) % PGSIZE = 0 := by
        simp only [PGSIZE] at *
        omega
      rw [if_pos ((page_range haligned ha).2 hrange), if_pos ⟨ha, hrange⟩, hoff,
        entry_mkPte hoffaligned (by omega) hperm]
    · rw [if_neg (fun hc => hrange ((page_range haligned ha).1 hc)), if_neg (fun hc => hrange hc.2),
        h.translation_eq ha hlta]
  · rw [PageMap.add, if_neg, translation_none ha]
    rintro ⟨ha', -, hlta⟩
    exact ha ⟨ha', lt_of_lt_of_le hlta hva⟩

/-- Unmapping a range of words is unmapping a range of addresses. -/
theorem Table.translation_unmapped {s' : Memory} {T' : Multiset Nat} {n : Nat}
    (h : Table s 2 r T f) (h' : Table s' 2 r T' (unmapped f (va / PGSIZE) n))
    (haligned : va % PGSIZE = 0) : translation s' r = (translation s r).remove va n := by
  refine h'.translation_ext (fun a ha hlta => ?_) fun a ha => ?_
  · rw [unmapped, PageMap.remove]
    by_cases hrange : va ≤ a ∧ a < va + n * PGSIZE
    · rw [if_pos ((page_range haligned ha).2 hrange), if_pos hrange]
      rfl
    · rw [if_neg (fun hc => hrange ((page_range haligned ha).1 hc)), if_neg hrange,
        h.translation_eq ha hlta]
  · rw [PageMap.remove, translation_none ha, ite_self]

/-- The pages that a range is mapped to. -/
theorem Table.pages_eq {n : Nat} (h : Table s 2 r T f) (haligned : va % PGSIZE = 0)
    (hva : va + n * PGSIZE ≤ MAXVA) (hV : ∀ i < n, has (f (va / PGSIZE + i)) PTE_V) :
    (translation s r).pages va n = mapped f (va / PGSIZE) n := by
  refine Multiset.map_congr rfl fun i hi => ?_
  have hi := Multiset.mem_range.1 hi
  obtain ⟨ha, hdiv⟩ := page_add haligned i
  have hlt : va + i * PGSIZE < MAXVA := by
    simp only [PGSIZE] at *
    omega
  rw [h.translation_eq ha hlt, hdiv, entry, if_pos (hV i hi)]
  rfl

end

/-! ## The operations -/

section
variable [KernelImage] {E : Panic → Prop} {s : Memory} {r va : Nat} {T : Multiset Nat}

/-- **`mappages`** adds its range, or a prefix of it. -/
theorem PageTree.wp_mappages {size pa perm : Nat} (h : PageTree s r T) (haligned : va % PGSIZE = 0)
    (hsize : size % PGSIZE = 0) (hpos : 0 < size) (hpa : pa % PGSIZE = 0)
    (hva : va + size ≤ MAXVA) (hlt : pa + size ≤ 2 ^ 56) (hperm : perm < 1024)
    (hfree : ∀ i < size / PGSIZE, translation s r (va + i * PGSIZE) = none) :
    wp (mappages r va size pa perm) E (fun res s' => ∃ T' n, PageTree s' r T' ∧
      translation s' r = (translation s r).add va pa perm n ∧
      (res = 0 ∧ n = size / PGSIZE ∨ res = -1 ∧ n < size / PGSIZE)) s := by
  obtain ⟨⟨f, htab⟩, ho⟩ := h
  have hend : size / PGSIZE * PGSIZE = size := Nat.div_mul_cancel (Nat.dvd_of_mod_eq_zero hsize)
  have hor : perm ||| PTE_V < 1024 := Nat.or_lt_two_pow (n := 10) hperm (by decide)
  rw [mappages, if_neg (by simpa using haligned), if_neg (by simpa using hsize), if_neg hpos.ne']
  refine wp_imp (wp_mapFrom _ va pa perm htab ho haligned (by rwa [hend]) ?_ ?_) ?_
  · intro i hi
    obtain ⟨ha, hdiv⟩ := page_add haligned i
    have hlta : va + i * PGSIZE < MAXVA := by
      simp only [PGSIZE] at *
      omega
    have hnone := hfree i hi
    rwa [htab.translation_eq ha hlta, hdiv, entry_eq_none] at hnone
  · intro i hi
    rw [mkPte, Nat.or_assoc]
    refine pa2pte_lt ?_ hor
    simp only [PGSIZE] at *
    omega
  · rintro res s' ⟨T', n, hmoves, htab', hres⟩
    have hn : n * PGSIZE ≤ size := by
      simp only [PGSIZE] at *
      omega
    refine ⟨T', n, ⟨⟨_, htab'⟩, ho.moves hmoves⟩, ?_, hres⟩
    exact htab.translation_mapAt htab' haligned hpa (by omega) (by omega) hperm

/-- **`unmap`** removes its range. -/
theorem PageTree.wp_unmap {npages : Nat} {doFree : Bool} (h : PageTree s r T)
    (haligned : va % PGSIZE = 0) (hva : va + npages * PGSIZE ≤ MAXVA)
    (hmapped : ∀ i < npages, ∃ pa flags, translation s r (va + i * PGSIZE) = some (pa, flags) ∧
      flags ≠ PTE_V)
    (hfree : doFree → Owned s (T + (translation s r).pages va npages)) :
    wp (unmap r va npages doFree) E (fun _ s' => PageTree s' r T ∧
      translation s' r = (translation s r).remove va npages) s := by
  obtain ⟨⟨f, htab⟩, ho⟩ := h
  have hword : ∀ i < npages, Mapping (f (va / PGSIZE + i)) := by
    intro i hi
    obtain ⟨ha, hdiv⟩ := page_add haligned i
    have hlta : va + i * PGSIZE < MAXVA := by
      simp only [PGSIZE] at *
      omega
    obtain ⟨pa, flags, hsome, hne⟩ := hmapped i hi
    rw [htab.translation_eq ha hlta, hdiv, entry_eq_some] at hsome
    exact ⟨hsome.1, hsome.2.2 ▸ hne⟩
  have ho' : Owned s (T + if doFree then mapped f (va / PGSIZE) npages else 0) := by
    cases doFree with
    | false => simpa using ho
    | true =>
      rw [if_pos rfl, ← htab.pages_eq haligned hva fun i hi => (hword i hi).1]
      exact hfree rfl
  refine wp_imp (VirtualMemory.wp_unmap va npages doFree htab ho' haligned hva hword) ?_
  rintro _ s' ⟨htab', hmoves⟩
  exact ⟨⟨⟨_, htab'⟩, ho'.moves hmoves⟩, htab.translation_unmapped htab' haligned⟩

/-- A word with no flag but `PTE_V` stops `unmap`. -/
theorem PageTree.wp_unmap_pointer {npages pa : Nat} {doFree : Bool} (h : PageTree s r T)
    (haligned : va % PGSIZE = 0) (hva : va + (npages + 1) * PGSIZE ≤ MAXVA)
    (hsome : translation s r va = some (pa, PTE_V)) :
    wp (unmap r va (npages + 1) doFree) (· = .unmapNotALeaf) (fun _ _ => False) s := by
  obtain ⟨⟨f, htab⟩, ho⟩ := h
  have hlt : va < MAXVA := by
    simp only [PGSIZE] at *
    omega
  have hcount : ((va + (npages + 1) * PGSIZE) % 2 ^ 64 - va) / PGSIZE = npages + 1 := by
    rw [Nat.mod_eq_of_lt (lt_of_le_of_lt hva (by decide)), Nat.add_sub_cancel_left,
      Nat.mul_div_cancel _ (by decide)]
  rw [htab.translation_eq haligned hlt, entry_eq_some] at hsome
  rw [unmap, if_neg (by simpa using haligned), hcount, unmapFrom]
  refine wp_bind.2 (wp_walk_valid htab (fun p hp => ho.pageOk hp) hlt hsome.1 fun q k hs => ?_)
  have hword : s.word q k = f (va / PGSIZE) := Tab.slot_read htab (page_lt hlt) hs
  simp only [wp_bind, wp_loadWord, wp_ite, wp_throw, hword, hsome.1, hsome.2.2]
  exact ⟨(by rintro ⟨⟩), fun _ => ⟨fun _ => trivial, fun hne => absurd trivial hne⟩⟩

/-- **`walkaddr`** looks a user page up. -/
theorem PageTree.wp_walkaddr (h : PageTree s r T) (haligned : va % PGSIZE = 0) :
    wp (walkaddr r va) E (fun res s' => s' = s ∧ res.getD 0 =
      match translation s r va with
      | some (pa, flags) => if has flags PTE_U then pa else 0
      | none => 0) s := by
  obtain ⟨⟨f, htab⟩, ho⟩ := h
  refine wp_imp (VirtualMemory.wp_walkaddr htab fun p hp => ho.pageOk hp) ?_
  rintro res s' ⟨rfl, hsome, hfound⟩
  refine ⟨rfl, ?_⟩
  by_cases hva : va < MAXVA
  · rw [htab.translation_eq haligned hva]
    have hU : has (pteFlags (f (va / PGSIZE))) PTE_U = has (f (va / PGSIZE)) PTE_U :=
      has_pteFlags _ (by decide)
    cases res with
    | some pa =>
      obtain ⟨-, hV, hU', rfl⟩ := hsome pa rfl
      simp only [entry, hV, if_true, hU, hU', Option.getD_some]
    | none =>
      simp only [entry, Option.getD_none]
      by_cases hV : has (f (va / PGSIZE)) PTE_V
      · simp only [hV, if_true, hU]
        split
        · next hU' => exact (not_not.1 fun hne => hfound hva hV hU' (Ne.symm hne) rfl)
        · rfl
      · simp only [hV]
        rfl
  · rw [translation_none fun hc => hva hc.2]
    cases res with
    | some pa => exact absurd (hsome pa rfl).1 hva
    | none => rfl

/-- `walk` keeps the tree, and the words that addresses lead to, and finds the word of its own. -/
theorem PageTree.wp_walk {alloc : Bool} (h : PageTree s r T) (hva : va < MAXVA) :
    wp (walk r va alloc) E (fun res s' => ∃ T', PageTree s' r T' ∧
      (∀ v < sv39.width ^ 3, ∀ q k, Radix.Slot sv39 s.word 2 r v q k → Radix.Slot sv39 s'.word 2 r v q k) ∧
      ∀ q k, res = some (q, k) → Radix.Slot sv39 s'.word 2 r (va / PGSIZE) q k) s := by
  obtain ⟨⟨f, htab⟩, ho⟩ := h
  cases alloc with
  | false =>
    refine wp_imp (wp_walk_find htab (fun p hp => ho.pageOk hp) hva) ?_
    rintro res s' ⟨rfl, hslot, -⟩
    exact ⟨T, ⟨⟨f, htab⟩, ho⟩, fun _ _ _ _ hs => hs, hslot⟩
  | true =>
    have hkeeps : wp (walk r va true) E (fun _ s' => ∀ p, p ∉ s.freeList → ∀ k < 512,
        has (s.word p k) PTE_V → s'.word p k = s.word p k) s := by
      rw [walk, if_neg (Nat.not_le.2 hva)]
      exact wp_walkFrom_keeps htab ho
    refine wp_imp (wp_and (wp_walk_alloc htab ho hva) hkeeps) ?_
    rintro res s' ⟨⟨T', htab', hmoves, hslot⟩, hkeep⟩
    refine ⟨T', ⟨⟨f, htab'⟩, ho.moves hmoves⟩, fun v hv q k hs => ?_, hslot⟩
    refine htab.slot_mono hv hs fun p hp i hi c hc => ?_
    rwa [hkeep p (ho.not_mem_free hp) i hi hc.1]

/-- **`walk`** sends different pages to different words. -/
theorem PageTree.wp_walk_walk {va' : Nat} {alloc alloc' : Bool} (h : PageTree s r T)
    (hva : va < MAXVA) (hva' : va' < MAXVA) (hne : va / PGSIZE ≠ va' / PGSIZE) :
    wp (do return (← walk r va alloc, ← walk r va' alloc')) E
      (fun res _ => ∀ slot, res.1 = some slot → res.2 ≠ some slot) s := by
  refine wp_seq (h.wp_walk hva) ?_
  rintro res s₁ ⟨T₁, h₁, -, hslot⟩
  refine wp_seq (h₁.wp_walk hva') ?_
  rintro res' s₂ ⟨T₂, ⟨⟨f, htab⟩, ho⟩, hkeep, hslot'⟩ ⟨q, k⟩ hres hres'
  refine hne (htab.slot_inj ho.nodup_right (page_lt hva) (page_lt hva') ?_ (hslot' q k hres'))
  exact hkeep _ (page_lt hva) q k (hslot q k hres)

end

/-- **Page tables refine finite maps.**  On every page table, `mappages` on addresses that are not
mapped adds exactly its range, or a prefix of it when it returns `-1`; `unmap` removes exactly its
range when every page of it is mapped, with another flag than `PTE_V`, and, when the pages are to be
freed, they are in use and none of them holds a table; `walkaddr` returns the page that is mapped
for the user, or `0`; and `walk` never sends two pages to one word.  None of them panics, and the
tree keeps its shape.  Entries give back the pages and the flags they are made from. -/
theorem page_map_refinement [KernelImage] (s : Memory) (r : Nat) (T : Multiset Nat)
    (h : PageTree s r T) :
    (∀ va size pa perm, va % PGSIZE = 0 → size % PGSIZE = 0 → 0 < size → pa % PGSIZE = 0 →
      va + size ≤ MAXVA → pa + size ≤ 2 ^ 56 → perm < 1024 →
      (∀ i < size / PGSIZE, translation s r (va + i * PGSIZE) = none) →
      wp (mappages r va size pa perm) (fun _ => False) (fun res s' => ∃ T' n, PageTree s' r T' ∧
        translation s' r = (translation s r).add va pa perm n ∧
        (res = 0 ∧ n = size / PGSIZE ∨ res = -1 ∧ n < size / PGSIZE)) s) ∧
    (∀ va npages doFree, va % PGSIZE = 0 → va + npages * PGSIZE ≤ MAXVA →
      (∀ i < npages, ∃ pa flags, translation s r (va + i * PGSIZE) = some (pa, flags) ∧
        flags ≠ PTE_V) →
      (doFree = true → Owned s (T + (translation s r).pages va npages)) →
      wp (unmap r va npages doFree) (fun _ => False) (fun _ s' => PageTree s' r T ∧
        translation s' r = (translation s r).remove va npages) s) ∧
    (∀ va, va % PGSIZE = 0 →
      wp (walkaddr r va) (fun _ => False) (fun res s' => s' = s ∧ res.getD 0 =
        match translation s r va with
        | some (pa, flags) => if has flags PTE_U then pa else 0
        | none => 0) s) ∧
    (∀ va va' alloc alloc', va < MAXVA → va' < MAXVA → va / PGSIZE ≠ va' / PGSIZE →
      wp (do return (← walk r va alloc, ← walk r va' alloc')) (fun _ => False)
        (fun res _ => ∀ slot, res.1 = some slot → res.2 ≠ some slot) s) ∧
    (∀ pa flags, pa % PGSIZE = 0 → pa < 2 ^ 56 → flags < 1024 →
      pte2pa (pa2pte pa ||| flags) = pa ∧ pteFlags (pa2pte pa ||| flags) = flags) := by
  refine ⟨?_, ?_, ?_, ?_, ?_⟩
  · exact fun va size pa perm h1 h2 h3 h4 h5 h6 h7 h8 => h.wp_mappages h1 h2 h3 h4 h5 h6 h7 h8
  · exact fun va npages doFree h1 h2 h3 h4 => h.wp_unmap h1 h2 h3 h4
  · exact fun va h1 => h.wp_walkaddr h1
  · exact fun va va' alloc alloc' h1 h2 h3 => h.wp_walk_walk h1 h2 h3
  · exact fun pa flags h1 h2 h3 =>
      ⟨pte2pa_pa2pte h1 (h2.trans (by decide)) h3, pteFlags_pa2pte pa h3⟩

/-! ## A page mapped without permissions -/

/-- An empty page table in the first page after the kernel, and two more pages. -/
def emptyTable : Memory where
  mem := fun _ => Bytes.zero PGSIZE
  freeList := [KERNBASE + 3 * PGSIZE, KERNBASE + 4 * PGSIZE]
  denied := fun _ => false

/-- Its root page. -/
def emptyRoot : Nat := KERNBASE + 2 * PGSIZE

theorem emptyTable_word (p k : Nat) : emptyTable.word p k = 0 := Bytes.num_zero 8 _

theorem emptyTable_tree : @PageTree smallImage emptyTable emptyRoot {emptyRoot} := by
  let _ := smallImage
  refine ⟨⟨fun _ => 0, Tab.empty fun k _ => emptyTable_word _ k⟩, ⟨?_, fun p hp => ?_⟩⟩
  · decide
  · have hp : p = KERNBASE + 3 * PGSIZE ∨ p = KERNBASE + 4 * PGSIZE ∨ p = emptyRoot := by
      simpa [emptyTable, or_assoc] using hp
    rcases hp with rfl | rfl | rfl <;> exact ⟨by decide, by decide, by decide⟩

theorem emptyTable_translation (va : Nat) : translation emptyTable emptyRoot va = none := by
  by_cases hva : va % PGSIZE = 0 ∧ va < MAXVA
  · have htab : Table emptyTable 2 emptyRoot {emptyRoot} fun _ => 0 :=
      Tab.empty fun k _ => emptyTable_word _ k
    rw [htab.translation_eq hva.1 hva.2]
    rfl
  · exact translation_none hva

/-- Mapping a page into the empty page table succeeds. -/
theorem emptyTable_mappages (pa perm : Nat) (hpa : pa % PGSIZE = 0) (hlt : pa + PGSIZE ≤ 2 ^ 56)
    (hperm : perm < 1024) : ∃ s T, (mappages emptyRoot 0 PGSIZE pa perm).run emptyTable =
      .ok (0, s) ∧ @PageTree smallImage s emptyRoot T ∧
      translation s emptyRoot = PageMap.add (fun _ => none) 0 pa perm 1 := by
  let _ := smallImage
  have htree := emptyTable_tree
  have hgaps : Gaps emptyTable 2 emptyRoot fun _ => 2 := fun v _ =>
    Missing.empty fun k => emptyTable_word _ k
  obtain ⟨f, htab⟩ := htree.shape
  have hmap := htree.wp_mappages (E := fun _ => False) (show 0 % PGSIZE = 0 from rfl)
    (show PGSIZE % PGSIZE = 0 from rfl) (by decide) hpa (by decide) hlt hperm
    fun i _ => emptyTable_translation _
  have hsupply := wp_mappages_supply (v := 0) pa perm htab htree.owned hgaps (by decide)
  rw [Nat.zero_mul] at hsupply
  obtain ⟨res, s, hrun, ⟨T, n, htree', htr, hres⟩, hok⟩ := wp_total (wp_and hmap hsupply)
  have h0 : res = 0 := by
    by_contra hne
    exact hok.2 hne (by decide)
  obtain rfl : n = 1 := by
    rcases hres with ⟨-, hn⟩ | ⟨hneg, -⟩
    · exact hn
    · exact absurd (h0.symm.trans hneg) (by decide)
  refine ⟨s, T, h0 ▸ hrun, htree', ?_⟩
  rw [htr, funext emptyTable_translation]

/-- The page that has been mapped. -/
theorem add_none_zero (pa perm : Nat) :
    PageMap.add (fun _ => none) 0 pa perm 1 0 = some (pa, perm ||| PTE_V) := by
  rw [PageMap.add, if_pos (by decide), Nat.sub_self, Nat.add_zero]

/-- A page that is mapped readable for the user is found, and is gone once it is unmapped. -/
theorem page_map_refinement_one : ∃ s T, @PageTree smallImage s emptyRoot T ∧
    translation s emptyRoot 0 = some (0, PTE_R ||| PTE_U ||| PTE_V) ∧
    ∃ s', (@unmap smallImage emptyRoot 0 1 false).run s = .ok (⟨⟩, s') ∧
      translation s' emptyRoot 0 = none := by
  obtain ⟨s, T, -, htree, hmap⟩ := emptyTable_mappages 0 (PTE_R ||| PTE_U) rfl (by decide) (by decide)
  have htr := (congrFun hmap 0).trans (add_none_zero 0 (PTE_R ||| PTE_U))
  refine ⟨s, T, htree, htr, ?_⟩
  have hun := (@page_map_refinement smallImage s emptyRoot T htree).2.1 0 1 false rfl (by decide)
    (fun i hi => ⟨0, PTE_R ||| PTE_U ||| PTE_V, by rw [Nat.lt_one_iff.1 hi]; exact htr, by decide⟩)
    nofun
  obtain ⟨⟨⟩, s', hrun, -, htr'⟩ := wp_total hun
  refine ⟨s', hrun, ?_⟩
  rw [htr', PageMap.remove, if_pos (by decide)]

/-- A page that has been mapped without permissions cannot be unmapped. -/
theorem unmap_not_a_leaf : ∃ s s' T,
    (mappages emptyRoot 0 PGSIZE 0 0).run s = .ok (0, s') ∧
    @PageTree smallImage s' emptyRoot T ∧ translation s' emptyRoot 0 = some (0, PTE_V) ∧
    (@unmap smallImage emptyRoot 0 1 false).run s' = .error .unmapNotALeaf := by
  obtain ⟨s, T, hrun, htree, hmap⟩ := emptyTable_mappages 0 0 rfl (by decide) (by decide)
  have htr := (congrFun hmap 0).trans (add_none_zero 0 0)
  refine ⟨emptyTable, s, T, hrun, htree, htr, wp_stops ?_⟩
  exact @PageTree.wp_unmap_pointer smallImage s emptyRoot 0 T 0 0 false htree rfl (by decide) htr

end VirtualMemory
end Xv6pp
