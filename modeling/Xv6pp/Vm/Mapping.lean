import Mathlib.Algebra.Order.BigOperators.Group.List
import Mathlib.Data.Multiset.OrderedMonoid
import Xv6pp.Vm.PageTable

/-!
# Mapping, unmapping and tearing down

What `mappages`, `unmap`, `clear`, `walkaddr` and `freewalk` do to the map that a page table
represents.  A table that represents `f` maps the page number `v` exactly when the word `f v` is
valid; the lemmas say which words change, which pages move to or from the free list, and that the
panics of these functions are not reached when the words are as their callers promise.
-/

set_option autoImplicit false

namespace Xv6pp
namespace VirtualMemory

open Prog Radix

variable {E : Panic → Prop} {s : Memory} {r : Nat} {T : Multiset Nat} {f : Nat → Nat} {va : Nat}

/-! ## `walk` from the root -/

theorem vpn_two (hva : va < MAXVA) : vpn 2 va = va / PGSIZE := by
  refine Nat.mod_eq_of_lt ?_
  simp only [MAXVA, PGSIZE] at *
  omega

/-- An address below `MAXVA` is translated by one of the first `2 ^ 26` page numbers. -/
theorem page_lt (hva : va < MAXVA) : va / PGSIZE < sv39.width ^ (2 + 1) := by
  rw [← vpn_two hva]
  exact vpn_lt 2 va

theorem wp_walk_alloc [KernelImage] (h : Table s 2 r T f) (ho : Owned s T) (hva : va < MAXVA) :
    wp (walk r va true) E (fun res s' => ∃ T', Table s' 2 r T' f ∧ Moves s T s' T' ∧
      ∀ q k, res = some (q, k) → Radix.Slot sv39 s'.word 2 r (va / PGSIZE) q k) s := by
  rw [walk, if_neg (Nat.not_le.2 hva), ← vpn_two hva]
  exact wp_walkFrom_alloc h ho

theorem wp_walk_find [KernelImage] (h : Table s 2 r T f) (hT : ∀ p ∈ T, PageOk p) (hva : va < MAXVA) :
    wp (walk r va false) E (fun res s' => s' = s ∧
      (∀ q k, res = some (q, k) → Radix.Slot sv39 s.word 2 r (va / PGSIZE) q k) ∧
      (res = none → f (va / PGSIZE) = 0)) s := by
  rw [walk, if_neg (Nat.not_le.2 hva), ← vpn_two hva]
  exact wp_walkFrom_find h hT

/-- Looking up a valid word. -/
theorem wp_walk_valid [KernelImage] (h : Table s 2 r T f) (hT : ∀ p ∈ T, PageOk p) (hva : va < MAXVA)
    (hV : has (f (va / PGSIZE)) PTE_V) {Q : Option (Nat × Nat) → Memory → Prop}
    (hQ : ∀ q k, Radix.Slot sv39 s.word 2 r (va / PGSIZE) q k → Q (some (q, k)) s) :
    wp (walk r va false) E Q s := by
  refine wp_imp (wp_walk_find h hT hva) ?_
  rintro (_ | ⟨q, k⟩) s' ⟨rfl, hslot, hnone⟩
  · rw [hnone rfl] at hV
    exact absurd hV (by decide)
  · exact hQ q k (hslot q k rfl)

/-- A store to the word of a page number changes the map there. -/
theorem Table.storeWord {q k w : Nat} (h : Table s 2 r T f) (hT : T.Nodup)
    {v : Nat} (hv : v < sv39.width ^ (2 + 1)) (hs : Radix.Slot sv39 s.word 2 r v q k) (hw : w < 2 ^ 64) :
    Table (s.store q ((s.mem q).setU64 (8 * k) w)) 2 r T (Function.update f v w) := by
  have hk : k < 512 := (Tab.slot_mem h hv hs).2
  refine Tab.write h hT hv hs ?_ (fun i hi hik => ?_) fun p hp => ?_
  · rw [word_storeWord s hk hk hw, if_pos rfl]
  · rw [word_storeWord s hk hi hw, if_neg hik]
  · exact word_congr (Memory.store_mem_of_ne s _ hp)

/-- A store to one of its pages moves no page. -/
theorem Moves.storeWord {q : Nat} (hq : q ∈ T) (b : Bytes PGSIZE) : Moves s T (s.store q b) T where
  conserve := rfl
  frame p hp := Memory.store_mem_of_ne s b fun e => hp (by simp [e, hq])

/-! ## `mappages` -/

/-- The entry that maps the page `pa` with the permissions `perm`. -/
def mkPte (pa perm : Nat) : Nat := pa2pte pa ||| perm ||| PTE_V

/-- The map after the page numbers `v, …, v + n - 1` have been mapped to the pages from `pa` on. -/
def mapAt (f : Nat → Nat) (v pa perm n : Nat) : Nat → Nat :=
  fun u => if v ≤ u ∧ u < v + n then mkPte (pa + (u - v) * PGSIZE) perm else f u

theorem mapAt_zero (f : Nat → Nat) (v pa perm : Nat) : mapAt f v pa perm 0 = f := by
  funext u
  rw [mapAt, if_neg (by omega)]

theorem mapAt_succ (f : Nat → Nat) (v pa perm n : Nat) :
    mapAt (Function.update f v (mkPte pa perm)) (v + 1) (pa + PGSIZE) perm n =
      mapAt f v pa perm (n + 1) := by
  funext u
  simp only [mapAt, Function.update_apply]
  split
  · rw [if_pos (by omega), show pa + PGSIZE + (u - (v + 1)) * PGSIZE = pa + (u - v) * PGSIZE by
      simp only [PGSIZE]
      omega]
  · split
    · next h => rw [if_pos (by omega), h, Nat.sub_self, Nat.zero_mul, Nat.add_zero]
    · rw [if_neg (by omega)]

theorem mapAt_one (f : Nat → Nat) (v pa perm : Nat) :
    mapAt f v pa perm 1 = Function.update f v (mkPte pa perm) := by
  rw [← mapAt_succ, mapAt_zero]

/-- **The loop of `mappages`** maps a prefix of its range, all of it when it returns `0`. -/
theorem wp_mapFrom [KernelImage] (n a pa perm : Nat) (h : Table s 2 r T f) (ho : Owned s T)
    (haligned : a % PGSIZE = 0) (hva : a + n * PGSIZE ≤ MAXVA)
    (hfree : ∀ i < n, has (f (a / PGSIZE + i)) PTE_V = false)
    (hw : ∀ i < n, mkPte (pa + i * PGSIZE) perm < 2 ^ 64) :
    wp (mapFrom r perm n a pa) E (fun res s' => ∃ T' j, Moves s T s' T' ∧
      Table s' 2 r T' (mapAt f (a / PGSIZE) pa perm j) ∧ (res = 0 ∧ j = n ∨ res = -1 ∧ j < n)) s := by
  induction n generalizing a pa s T f with
  | zero => exact ⟨T, 0, Moves.refl s T, (mapAt_zero f _ _ _).symm ▸ h, .inl ⟨rfl, rfl⟩⟩
  | succ n ih =>
    have hva' : a < MAXVA := by simp only [PGSIZE] at hva; omega
    have hnext : (a + PGSIZE) / PGSIZE = a / PGSIZE + 1 := Nat.add_div_right a (by decide)
    rw [mapFrom]
    refine wp_seq (wp_walk_alloc h ho hva') ?_
    rintro (_ | ⟨q, k⟩) s₁ ⟨T₁, htab, hmoves, hslot⟩
    · exact ⟨T₁, 0, hmoves, (mapAt_zero f _ _ _).symm ▸ htab, .inr ⟨rfl, Nat.succ_pos n⟩⟩
    · have hs := hslot q k rfl
      have hq := (Tab.slot_mem htab (page_lt hva') hs).1
      have hword : s₁.word q k = f (a / PGSIZE) := Tab.slot_read htab (page_lt hva') hs
      have hfree₀ : has (f (a / PGSIZE)) PTE_V = false := by
        simpa using hfree 0 (Nat.succ_pos n)
      have hw₀ : mkPte pa perm < 2 ^ 64 := by simpa using hw 0 (Nat.succ_pos n)
      have ho₁ := ho.moves hmoves
      have hstore := Moves.storeWord (s := s₁) hq
        ((s₁.mem q).setU64 (8 * k) (pa2pte pa ||| perm ||| PTE_V))
      have htab₂ := Table.storeWord htab ho₁.nodup_right (page_lt hva') hs hw₀
      simp only [wp_bind, wp_loadWord, wp_ite, wp_storeWord, hword, hfree₀]
      refine ⟨(by rintro ⟨⟩), fun _ => ?_⟩
      refine wp_imp (ih (a + PGSIZE) (pa + PGSIZE) htab₂ (ho₁.moves hstore) ?_ ?_ ?_ ?_) ?_
      · rw [Nat.add_mod_right]
        exact haligned
      · rw [Nat.succ_mul] at hva
        omega
      · intro i hi
        rw [hnext, Function.update_of_ne (by omega), Nat.add_right_comm, Nat.add_assoc]
        exact hfree (i + 1) (Nat.succ_lt_succ hi)
      · intro i hi
        have hwi := hw (i + 1) (Nat.succ_lt_succ hi)
        rwa [Nat.succ_mul, Nat.add_comm (i * PGSIZE), ← Nat.add_assoc] at hwi
      · rintro res s' ⟨T', j, hmoves', htab', hres⟩
        rw [hnext, mapAt_succ] at htab'
        exact ⟨T', j + 1, hmoves.trans (hstore.trans hmoves'), htab', by omega⟩

/-- **`mappages` of one page** maps it, or finds no page-table page and changes nothing. -/
theorem wp_mappages [KernelImage] (va pa perm : Nat) (h : Table s 2 r T f) (ho : Owned s T)
    (haligned : va % PGSIZE = 0) (hva : va < MAXVA) (hfree : has (f (va / PGSIZE)) PTE_V = false)
    (hw : mkPte pa perm < 2 ^ 64) :
    wp (mappages r va PGSIZE pa perm) E (fun res s' => ∃ T', Moves s T s' T' ∧
      (res = -1 ∧ Table s' 2 r T' f ∨
        res = 0 ∧ Table s' 2 r T' (Function.update f (va / PGSIZE) (mkPte pa perm)))) s := by
  have hone : PGSIZE / PGSIZE = 1 := rfl
  have hend : va + 1 * PGSIZE ≤ MAXVA := by simp only [PGSIZE, MAXVA] at *; omega
  rw [mappages, if_neg (by simpa using haligned), if_neg (by decide), if_neg (by decide), hone]
  refine wp_imp (wp_mapFrom 1 va pa perm h ho haligned hend ?_ ?_) ?_
  · intro i hi
    rw [Nat.lt_one_iff.1 hi]
    exact hfree
  · intro i hi
    rw [Nat.lt_one_iff.1 hi, Nat.zero_mul]
    exact hw
  · rintro res s' ⟨T', j, hmoves, htab, ⟨hres, rfl⟩ | ⟨hres, hj⟩⟩
    · exact ⟨T', hmoves, .inr ⟨hres, mapAt_one f _ _ _ ▸ htab⟩⟩
    · rw [Nat.lt_one_iff.1 hj, mapAt_zero] at htab
      exact ⟨T', hmoves, .inl ⟨hres, htab⟩⟩

/-! ## `unmap` -/

/-- The pages that the words of the page numbers `v, …, v + n - 1` refer to. -/
def mapped (f : Nat → Nat) (v n : Nat) : Multiset Nat :=
  (Multiset.range n).map fun i => pte2pa (f (v + i))

theorem mapped_zero (f : Nat → Nat) (v : Nat) : mapped f v 0 = 0 := rfl

theorem mapped_succ (f : Nat → Nat) (v n : Nat) :
    mapped f v (n + 1) = pte2pa (f (v + n)) ::ₘ mapped f v n := by
  rw [mapped, Multiset.range_succ, Multiset.map_cons]
  rfl

theorem mapped_congr {f g : Nat → Nat} {v n : Nat} (h : ∀ i < n, f (v + i) = g (v + i)) :
    mapped f v n = mapped g v n :=
  Multiset.map_congr rfl fun i hi => by rw [h i (Multiset.mem_range.1 hi)]

theorem mapped_cons (f : Nat → Nat) (v n : Nat) :
    mapped f v (n + 1) = pte2pa (f v) ::ₘ mapped f (v + 1) n := by
  induction n with
  | zero => rfl
  | succ n ih =>
    rw [mapped_succ, ih, Multiset.cons_swap, mapped_succ f (v + 1)]
    rw [show v + 1 + n = v + (n + 1) by omega]

theorem mem_mapped {f : Nat → Nat} {v n i : Nat} (hi : i < n) : pte2pa (f (v + i)) ∈ mapped f v n :=
  Multiset.mem_map.2 ⟨i, Multiset.mem_range.2 hi, rfl⟩

/-- A word that maps a page: valid, and readable so that it is not taken for a pointer. -/
structure Leaf (w : Nat) : Prop where
  valid : has w PTE_V
  readable : has w PTE_R
  lt : w < 2 ^ 64

/-- A word that `unmap` takes for a mapping: valid, and with another flag. -/
def Mapping (w : Nat) : Prop := has w PTE_V ∧ pteFlags w ≠ PTE_V

theorem Leaf.mapping {w : Nat} (h : Leaf w) : Mapping w := ⟨h.valid, pteFlags_ne_V h.readable⟩

/-- The map after the page numbers `v, …, v + n - 1` have been unmapped. -/
def unmapped (f : Nat → Nat) (v n : Nat) : Nat → Nat :=
  fun u => if v ≤ u ∧ u < v + n then 0 else f u

theorem unmapped_zero (f : Nat → Nat) (v : Nat) : unmapped f v 0 = f := by
  funext u
  rw [unmapped, if_neg (by omega)]

theorem unmapped_succ (f : Nat → Nat) (v n : Nat) :
    unmapped (Function.update f v 0) (v + 1) n = unmapped f v (n + 1) := by
  funext u
  simp only [unmapped, Function.update_apply]
  split
  · rw [if_pos (by omega)]
  · split
    · rw [if_pos (by omega)]
    · rw [if_neg (by omega)]

/-- **`unmap`** removes the mappings, and puts the pages on the free list when it is told to. -/
theorem wp_unmapFrom [KernelImage] (va : Nat) {n : Nat} {doFree : Bool} (h : Table s 2 r T f)
    (ho : Owned s (T + if doFree then mapped f (va / PGSIZE) n else 0))
    (haligned : va % PGSIZE = 0) (hva : va + n * PGSIZE ≤ MAXVA)
    (hleaf : ∀ i < n, Mapping (f (va / PGSIZE + i))) :
    wp (unmapFrom r doFree n va) E (fun _ s' =>
      Table s' 2 r T (unmapped f (va / PGSIZE) n) ∧
      Frees s (T + if doFree then mapped f (va / PGSIZE) n else 0) s' T) s := by
  induction n generalizing va f s with
  | zero =>
    refine ⟨?_, ?_⟩
    · rw [unmapped_zero]
      exact h
    · have hzero : (if doFree then mapped f (va / PGSIZE) 0 else 0) = 0 := by
        rw [mapped_zero, ite_self]
      rw [hzero, add_zero]
      exact Frees.refl s T
  | succ n ih =>
    have hva' : va < MAXVA := by simp only [PGSIZE] at hva; omega
    have hnext : (va + PGSIZE) / PGSIZE = va / PGSIZE + 1 := Nat.add_div_right va (by decide)
    have hl := hleaf 0 (by omega)
    rw [Nat.add_zero] at hl
    have hoT : Owned s T := ho.of_le (Multiset.le_add_right _ _)
    rw [unmapFrom]
    refine wp_bind.2 (wp_walk_valid h (fun p hp => hoT.pageOk hp) hva' hl.1 fun q k hs => ?_)
    have hq := (Tab.slot_mem h (page_lt hva') hs).1
    have hword : s.word q k = f (va / PGSIZE) := Tab.slot_read h (page_lt hva') hs
    -- the word is erased, and the rest of the range is unmapped
    have hrest : ∀ s₁, Table s₁ 2 r T f → Frees s (T + if doFree then mapped f (va / PGSIZE) (n + 1)
          else 0) s₁ (T + if doFree then mapped f (va / PGSIZE + 1) n else 0) →
        Radix.Slot sv39 s₁.word 2 r (va / PGSIZE) q k →
        wp (unmapFrom r doFree n (va + PGSIZE)) E (fun _ s' =>
          Table s' 2 r T (unmapped f (va / PGSIZE) (n + 1)) ∧
          Frees s (T + if doFree then mapped f (va / PGSIZE) (n + 1) else 0) s' T)
          (s₁.store q ((s₁.mem q).setU64 (8 * k) 0)) := by
      intro s₁ h₁ hmoves hs₁
      have ho₁ := ho.moves hmoves.moves
      have hmapped : mapped (Function.update f (va / PGSIZE) 0) (va / PGSIZE + 1) n
          = mapped f (va / PGSIZE + 1) n :=
        mapped_congr fun i _ => by rw [Function.update_of_ne (by omega)]
      have hstore : Frees s₁ (T + if doFree then mapped f (va / PGSIZE + 1) n else 0)
          (s₁.store q ((s₁.mem q).setU64 (8 * k) 0))
          (T + if doFree then mapped f (va / PGSIZE + 1) n else 0) :=
        Frees.store ho₁ (by simp [hq]) _
      have hih := ih (f := Function.update f (va / PGSIZE) 0) (va + PGSIZE)
        (h₁.storeWord (ho₁.of_le (Multiset.le_add_right _ _)).nodup_right (page_lt hva') hs₁
          (by decide))
      rw [hnext, hmapped, unmapped_succ] at hih
      refine wp_imp (hih (ho₁.moves hstore.moves) ?_ ?_ fun i hi => ?_) ?_
      · rw [Nat.add_mod_right]
        exact haligned
      · simp only [PGSIZE] at *
        omega
      · rw [Function.update_of_ne (by omega)]
        have := hleaf (i + 1) (by omega)
        rwa [show va / PGSIZE + 1 + i = va / PGSIZE + (i + 1) by omega]
      · rintro _ s' ⟨htab, hm⟩
        exact ⟨htab, hmoves.trans (hstore.trans hm)⟩
    simp only [wp_bind, wp_loadWord, wp_ite, wp_storeWord, hword, hl.1, hl.2]
    refine ⟨by simp, fun _ => ⟨(by rintro ⟨⟩), fun _ => ?_⟩⟩
    cases doFree with
    | false =>
      simp only [Bool.false_eq_true, if_false, add_zero] at hrest ⊢
      exact ⟨(by rintro ⟨⟩), fun _ => hrest s h (Frees.refl s _) hs⟩
    | true =>
      simp only [if_true, mapped_cons] at ho hrest ⊢
      have hnot : pte2pa (f (va / PGSIZE)) ∉ T + mapped f (va / PGSIZE + 1) n := by
        have hnd := ho.nodup_right
        rw [Multiset.add_cons, Multiset.nodup_cons] at hnd
        exact hnd.1
      refine ⟨fun _ => ?_, fun hfalse => absurd trivial hfalse⟩
      rw [Multiset.add_cons] at ho hrest ⊢
      refine wp_imp (wp_free_frees (A := 0) (ho.of_le (by simp))) fun _ s₁ hfree => ?_
      have hpush := hfree.add (T + mapped f (va / PGSIZE + 1) n)
      rw [zero_add, Multiset.cons_add, zero_add] at hpush
      have hT : ∀ p ∈ T, s₁.mem p = s.mem p := fun p hp =>
        hfree.frame p fun e => hnot (by simp [← Multiset.mem_singleton.1 e, hp])
      refine hrest s₁ (h.frame hT) hpush ?_
      exact Tab.slot_frame h (page_lt hva') hs fun p hp => word_congr (hT p hp)

theorem wp_unmap_frees [KernelImage] (va n : Nat) (doFree : Bool) (h : Table s 2 r T f)
    (ho : Owned s (T + if doFree then mapped f (va / PGSIZE) n else 0))
    (haligned : va % PGSIZE = 0) (hva : va + n * PGSIZE ≤ MAXVA)
    (hleaf : ∀ i < n, Mapping (f (va / PGSIZE + i))) :
    wp (unmap r va n doFree) E (fun _ s' =>
      Table s' 2 r T (unmapped f (va / PGSIZE) n) ∧
      Frees s (T + if doFree then mapped f (va / PGSIZE) n else 0) s' T) s := by
  have hcount : ((va + n * PGSIZE) % 2 ^ 64 - va) / PGSIZE = n := by
    have hlt : va + n * PGSIZE < 2 ^ 64 := lt_of_le_of_lt hva (by decide)
    rw [Nat.mod_eq_of_lt hlt, Nat.add_sub_cancel_left, Nat.mul_div_cancel _ (by decide)]
  rw [unmap, if_neg (by simpa using haligned), hcount]
  exact wp_unmapFrom va h ho haligned hva hleaf

theorem wp_unmap [KernelImage] (va n : Nat) (doFree : Bool) (h : Table s 2 r T f)
    (ho : Owned s (T + if doFree then mapped f (va / PGSIZE) n else 0))
    (haligned : va % PGSIZE = 0) (hva : va + n * PGSIZE ≤ MAXVA)
    (hleaf : ∀ i < n, Mapping (f (va / PGSIZE + i))) :
    wp (unmap r va n doFree) E (fun _ s' =>
      Table s' 2 r T (unmapped f (va / PGSIZE) n) ∧
      Moves s (T + if doFree then mapped f (va / PGSIZE) n else 0) s' T) s :=
  wp_imp (wp_unmap_frees va n doFree h ho haligned hva hleaf) fun _ _ hpost =>
    ⟨hpost.1, hpost.2.moves⟩

/-! ## `clear` and `walkaddr` -/

/-- **`clear`** takes the user's access to one page away. -/
theorem wp_clear [KernelImage] (va : Nat) (h : Table s 2 r T f) (ho : Owned s T) (hva : va < MAXVA)
    (hl : Leaf (f (va / PGSIZE))) :
    wp (clear r va) E (fun _ s' =>
      Table s' 2 r T (Function.update f (va / PGSIZE) (cleared (f (va / PGSIZE)))) ∧
      Moves s T s' T) s := by
  rw [clear]
  refine wp_bind.2 (wp_walk_valid h (fun p hp => ho.pageOk hp) hva hl.valid fun q k hs => ?_)
  have hq := (Tab.slot_mem h (page_lt hva) hs).1
  have hword : s.word q k = f (va / PGSIZE) := Tab.slot_read h (page_lt hva) hs
  simp only [wp_bind, wp_loadWord, wp_storeWord, hword]
  exact ⟨Table.storeWord h ho.nodup_right (page_lt hva) hs (cleared_lt hl.lt),
    Moves.storeWord hq _⟩

theorem Leaf.cleared {w : Nat} (h : Leaf w) : Leaf (cleared w) where
  valid := (has_cleared (i := 0) h.lt (by decide)).trans h.valid
  readable := (has_cleared (i := 1) h.lt (by decide)).trans h.readable
  lt := cleared_lt h.lt

/-- **`walkaddr`** only looks; it finds the pages that are mapped for the user. -/
theorem wp_walkaddr [KernelImage] (h : Table s 2 r T f) (hT : ∀ p ∈ T, PageOk p) :
    wp (walkaddr r va) E (fun res s' => s' = s ∧
      (∀ pa, res = some pa → va < MAXVA ∧ has (f (va / PGSIZE)) PTE_V ∧
        has (f (va / PGSIZE)) PTE_U ∧ pa = pte2pa (f (va / PGSIZE))) ∧
      (va < MAXVA → has (f (va / PGSIZE)) PTE_V → has (f (va / PGSIZE)) PTE_U →
        pte2pa (f (va / PGSIZE)) ≠ 0 → res ≠ none)) s := by
  rw [walkaddr]
  split
  · next hge => exact ⟨rfl, (by rintro _ ⟨⟩), fun hlt => absurd hge (Nat.not_le.2 hlt)⟩
  · next hlt =>
    have hva : va < MAXVA := Nat.not_le.1 hlt
    refine wp_seq (wp_walk_find h hT hva) ?_
    rintro (_ | ⟨q, k⟩) s' ⟨rfl, hslot, hnone⟩
    · refine ⟨rfl, (by rintro _ ⟨⟩), fun _ hV => ?_⟩
      rw [hnone rfl] at hV
      exact absurd hV (by decide)
    · have hword : s'.word q k = f (va / PGSIZE) := Tab.slot_read h (page_lt hva) (hslot q k rfl)
      simp only [wp_bind, wp_loadWord, wp_ite, hword, wp_pure, Bool.not_eq_true',
        Bool.not_eq_false, true_and]
      refine ⟨fun hV => ⟨(by rintro _ ⟨⟩), fun _ hV' => ?_⟩,
        fun hV => ⟨fun hU => ⟨(by rintro _ ⟨⟩), fun _ _ hU' => ?_⟩,
        fun hU => ⟨fun h0 => ⟨(by rintro _ ⟨⟩), fun _ _ _ h0' => absurd h0 h0'⟩, fun _ => ⟨?_, fun _ _ _ _ => by rintro ⟨⟩⟩⟩⟩⟩
      · exact absurd (hV.symm.trans hV') (by decide)
      · exact absurd (hU.symm.trans hU') (by decide)
      · rintro pa ⟨⟩
        exact ⟨hva, hV, hU, rfl⟩

/-! ## `freewalk` -/

set_option maxRecDepth 2048 in
/-- **`freewalk`** frees the pages of a table, each of them once, when nothing is mapped, and panics
when something is. -/
theorem wp_freewalk_or_leaf [KernelImage] {l : Nat} (h : Table s l r T f) (ho : Owned s T)
    (hleaf : ∀ v < sv39.width ^ (l + 1), has (f v) PTE_V → has (f v) (PTE_R ||| PTE_W ||| PTE_X)) :
    wp (freewalk (l + 1) r)
      (fun e => e = .freewalkLeaf ∧ ∃ v < sv39.width ^ (l + 1), has (f v) PTE_V)
      (fun _ s' => Frees s T s' 0 ∧ ∀ v < sv39.width ^ (l + 1), has (f v) PTE_V = false) s := by
  induction l generalizing r T f s with
  | zero =>
    obtain ⟨rfl, hwords⟩ := h
    rw [freewalk]
    generalize hidx : List.range 512 = idx
    have hlt : ∀ i ∈ idx, i < 512 := fun i hi => List.mem_range.1 (hidx ▸ hi)
    let I : List Nat → Memory → Prop := fun rest s' => s' = s ∧ (∀ i ∈ rest, i < 512) ∧
      ∀ i < 512, i ∈ rest ∨ has (f i) PTE_V = false
    refine wp_seq (wp_forM I ⟨rfl, hlt, fun i hi => .inl (hidx ▸ List.mem_range.2 hi)⟩ ?_) ?_
    · rintro i rest s' ⟨rfl, hrest, hdone⟩
      have hi : i < 512 := hrest i (by simp)
      have hrest' : ∀ j ∈ rest, j < 512 := fun j hj => hrest j (by simp [hj])
      simp only [wp_bind, wp_loadWord, wp_ite, wp_throw, wp_pure, hwords i hi, Bool.and_eq_true,
        Bool.not_eq_true', Bool.not_eq_true]
      refine ⟨fun hc => ?_, fun _ => ⟨fun hV => ⟨trivial, i, hi, hV⟩, fun hV => ⟨rfl, hrest', ?_⟩⟩⟩
      · exact absurd (hc.2.symm.trans (hleaf i hi hc.1)) (by decide)
      · intro j hj
        rcases hdone j hj with hmem | hV'
        · rcases List.mem_cons.1 hmem with rfl | hmem
          · exact .inr hV
          · exact .inl hmem
        · exact .inr hV'
    · rintro _ s' ⟨rfl, -, hdone⟩
      refine wp_imp (wp_free_frees (A := 0) ho) fun _ s'' hfree => ⟨hfree, fun v hv => ?_⟩
      rcases hdone v hv with hmem | hV
      · exact absurd hmem List.not_mem_nil
      · exact hV
  | succ l ih =>
    obtain ⟨U, rfl, hU⟩ := h
    rw [freewalk]
    generalize hidx : List.range 512 = idx
    have hlt : ∀ i ∈ idx, i < 512 := fun i hi => List.mem_range.1 (hidx ▸ hi)
    have hsum : ∑ k ∈ Finset.range sv39.width, U k = (idx.map U).sum := by
      rw [← hidx, Finset.sum, Finset.range_val, Multiset.range, Multiset.map_coe, Multiset.sum_coe,
        sv39]
    rw [hsum] at ho ⊢
    -- what is still to be done: the words of the indices `rest` and the subtrees below them
    let I : List Nat → Memory → Prop := fun rest s' => (rest.Nodup ∧ ∀ i ∈ rest, i < 512) ∧
      Frees s (r ::ₘ (idx.map U).sum) s' (r ::ₘ (rest.map U).sum) ∧
      (∀ i ∈ rest, s'.word r i = s.word r i) ∧ (∀ i ∈ rest, ∀ p ∈ U i, s'.mem p = s.mem p) ∧
      ∀ i < 512, i ∈ rest ∨
        ∀ v < sv39.width ^ (l + 1), has (f (i * sv39.width ^ (l + 1) + v)) PTE_V = false
    refine wp_seq (wp_forM I ⟨⟨hidx ▸ List.nodup_range, hlt⟩, Frees.refl _ _, fun _ _ => rfl,
      fun _ _ _ _ => rfl, fun i hi => .inl (hidx ▸ List.mem_range.2 hi)⟩ ?_) ?_
    · rintro i rest s₁ ⟨⟨hnodup, hlt'⟩, hmoves, hwords, hmem, hdone⟩
      have hi : i < 512 := hlt' i (by simp)
      have hrange : rest.Nodup ∧ ∀ j ∈ rest, j < 512 :=
        ⟨(List.nodup_cons.1 hnodup).2, fun j hj => hlt' j (by simp [hj])⟩
      have hcons : r ::ₘ ((i :: rest).map U).sum = U i + (r ::ₘ (rest.map U).sum) := by
        rw [List.map_cons, List.sum_cons, Multiset.add_cons]
      rw [hcons] at hmoves
      have ho₁ := ho.moves hmoves.moves
      -- the subtree at `i` had no mapping
      have hdone' : (∀ v < sv39.width ^ (l + 1),
            has (f (i * sv39.width ^ (l + 1) + v)) PTE_V = false) →
          ∀ j < 512, j ∈ rest ∨
            ∀ v < sv39.width ^ (l + 1), has (f (j * sv39.width ^ (l + 1) + v)) PTE_V = false := by
        intro hnone j hj
        rcases hdone j hj with hj' | hj'
        · rcases List.mem_cons.1 hj' with rfl | hj'
          · exact .inr hnone
          · exact .inl hj'
        · exact .inr hj'
      simp only [wp_bind, wp_loadWord, hwords i (by simp)]
      rcases hU i hi with ⟨hdead, h0, hnull⟩ | ⟨c, ⟨hV, hRWX, hc⟩, htab⟩
      · -- nothing below this word
        have hV : has (s.word r i) PTE_V = false := hdead
        rw [h0, zero_add] at hmoves
        simp only [hV, Bool.false_and, Bool.false_eq_true, if_false, wp_pure]
        refine ⟨hrange, hmoves, fun j hj => hwords j (by simp [hj]),
          fun j hj => hmem j (by simp [hj]), hdone' fun v hv => ?_⟩
        rw [hnull v hv]
        rfl
      · simp only [hV, hRWX, hc, Bool.not_false, Bool.and_self, if_true, wp_bind]
        have hchild : Table s₁ l c (U i) fun v => f (i * sv39.width ^ (l + 1) + v) :=
          Table.frame htab (hmem i (by simp))
        refine wp_mono (ih hchild (ho₁.of_le (Multiset.le_add_right _ _)) fun v hv =>
          hleaf _ (block_lt hi hv)) ?_ ?_
        swap
        · rintro e ⟨rfl, v, hv, hV⟩
          exact ⟨rfl, _, block_lt hi hv, hV⟩
        rintro _ s₂ ⟨hm₂, hnone⟩
        rw [wp_storeWord]
        have hsame : ∀ p ∈ r ::ₘ (rest.map U).sum, s₂.mem p = s₁.mem p := fun p hp =>
          hm₂.mem_eq ho₁.nodup_right hp
        have hmoves₂ : Frees s (r ::ₘ (idx.map U).sum) s₂ (r ::ₘ (rest.map U).sum) := by
          have := hmoves.trans (hm₂.add (r ::ₘ (rest.map U).sum))
          rwa [zero_add] at this
        have ho₂ := ho.moves hmoves₂.moves
        have hr : r ∉ (rest.map U).sum := (Multiset.nodup_cons.1 ho₂.nodup_right).1
        refine ⟨hrange, hmoves₂.trans (Frees.store ho₂ (by simp) _), fun j hj => ?_,
          fun j hj p hp => ?_, hdone' hnone⟩
        · have hji : j ≠ i := fun e => (List.nodup_cons.1 hnodup).1 (e ▸ hj)
          rw [word_storeWord s₂ hi (hrange.2 j hj) (by decide), if_neg hji,
            word_congr (hsame r (by simp)), hwords j (by simp [hj])]
        · have hsub : p ∈ (rest.map U).sum :=
            Multiset.mem_of_le (List.le_sum_of_mem (List.mem_map_of_mem hj)) hp
          have hpr : p ≠ r := fun e => hr (e ▸ hsub)
          rw [Memory.store_mem_of_ne s₂ _ hpr, hsame p (by simp [hsub]),
            hmem j (by simp [hj]) p hp]
    · rintro _ s₁ ⟨-, hmoves, -, -, hdone⟩
      refine wp_imp (wp_free_frees (ho.moves hmoves.moves)) fun _ s₂ hfree =>
        ⟨hmoves.trans hfree, fun v hv => ?_⟩
      rcases hdone _ (div_lt_width hv) with hnil | hnone
      · exact absurd hnil List.not_mem_nil
      · have := hnone (v % sv39.width ^ (l + 1)) (Nat.mod_lt _ (pow_pos sv39.width_pos _))
        rwa [mul_comm, Nat.div_add_mod] at this

set_option maxRecDepth 2048 in
/-- `freewalk` of a table without mappings. -/
theorem wp_freewalk_frees [KernelImage] {l : Nat} (h : Table s l r T f) (ho : Owned s T)
    (hempty : ∀ v < sv39.width ^ (l + 1), has (f v) PTE_V = false) :
    wp (freewalk (l + 1) r) E (fun _ s' => Frees s T s' 0) s := by
  refine wp_mono (wp_freewalk_or_leaf h ho fun v hv hV => ?_) (fun _ _ hpost => hpost.1) ?_
  · exact absurd ((hempty v hv).symm.trans hV) (by decide)
  · rintro e ⟨-, v, hv, hV⟩
    exact absurd ((hempty v hv).symm.trans hV) (by decide)

set_option maxRecDepth 2048 in
theorem wp_freewalk [KernelImage] {l : Nat} (h : Table s l r T f) (ho : Owned s T)
    (hempty : ∀ v < sv39.width ^ (l + 1), has (f v) PTE_V = false) :
    wp (freewalk (l + 1) r) E (fun _ s' => Moves s T s' 0) s :=
  wp_imp (wp_freewalk_frees h ho hempty) fun _ _ hfrees => hfrees.moves

set_option maxRecDepth 2048 in
/-- `freewalk` of a table in which something is mapped. -/
theorem wp_freewalk_leaf [KernelImage] {l : Nat} (h : Table s l r T f) (ho : Owned s T)
    (hleaf : ∀ v < sv39.width ^ (l + 1), has (f v) PTE_V → has (f v) (PTE_R ||| PTE_W ||| PTE_X))
    (hmapped : ∃ v < sv39.width ^ (l + 1), has (f v) PTE_V) {Q : PUnit → Memory → Prop} :
    wp (freewalk (l + 1) r) (· = .freewalkLeaf) Q s := by
  refine wp_mono (wp_freewalk_or_leaf h ho hleaf) ?_ fun e he => he.1
  rintro _ s' ⟨-, hnone⟩
  obtain ⟨v, hv, hV⟩ := hmapped
  exact absurd ((hnone v hv).symm.trans hV) (by decide)

end VirtualMemory
end Xv6pp
