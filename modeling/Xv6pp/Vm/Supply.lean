import Xv6pp.Vm.AddressSpace

/-!
# How many pages the virtual-memory system takes

Whether a function that allocates pages succeeds depends on how many calls of the allocator will be
served (`Supply`) and on which pages of the page table are missing on the way to the page it maps
(`Gaps`).  Each lemma says by how many pages the supply goes down when the function succeeds, and
that the function fails only when there were not as many.
-/

set_option autoImplicit false

namespace Xv6pp
namespace VirtualMemory

open Prog Radix

attribute [local irreducible] freewalk

/-! ## Supply -/

/-- The next `n` calls of the allocator are served. -/
def Supply (s : Memory) (n : Nat) : Prop := n ≤ s.freeList.length ∧ ∀ i < n, s.denied i = false

instance (s : Memory) (n : Nat) : Decidable (Supply s n) := inferInstanceAs (Decidable (_ ∧ _))

/-- The first `n` of the coming calls have been served. -/
def Used (s : Memory) (n : Nat) (s' : Memory) : Prop := ∀ m, Supply s' m ↔ Supply s (n + m)

section
variable {E : Panic → Prop} {s s' s'' : Memory} {n m : Nat}

theorem supply_zero (s : Memory) : Supply s 0 := ⟨Nat.zero_le _, nofun⟩

theorem Supply.le (h : Supply s n) (hm : m ≤ n) : Supply s m :=
  ⟨hm.trans h.1, fun i hi => h.2 i (lt_of_lt_of_le hi hm)⟩

theorem Used.supply (h : Used s n s') : Supply s n := (h 0).1 (supply_zero s')

theorem Used.of_eq (hf : s'.freeList = s.freeList) (hd : s'.denied = s.denied) : Used s 0 s' := by
  intro m
  rw [Supply, Supply, hf, hd, zero_add]

theorem Used.trans (h : Used s n s') (h' : Used s' m s'') : Used s (n + m) s'' := by
  intro j
  rw [h' j, h (m + j), add_assoc]

/-- A call of the allocator is served exactly if there is a supply of one page. -/
theorem wp_alloc_supply {Q : Option Nat → Memory → Prop}
    (hnone : ∀ s', ¬ Supply s 1 → Q none s')
    (hsome : ∀ p rest s', s.freeList = p :: rest → s'.freeList = rest → s'.mem = s.mem →
      Used s 1 s' → Q (some p) s') : wp PageAllocator.alloc E Q s := by
  simp only [PageAllocator.alloc, wp_bind, wp_get, wp_ite, wp_set, wp_pure]
  refine ⟨fun hd => hnone _ fun h => ?_, fun hd => ?_⟩
  · exact absurd (hd.symm.trans (h.2 0 (by decide))) (by decide)
  · split
    · next hf =>
      refine hnone _ fun h => ?_
      have := h.1
      rw [hf] at this
      exact absurd this (by decide)
    · next p rest hf =>
      refine hsome p rest _ hf rfl rfl fun m => ?_
      simp only [Supply, hf, List.length_cons]
      refine and_congr (by omega) ⟨fun h i hi => ?_, fun h i hi => h (i + 1) (by omega)⟩
      cases i with
      | zero => exact Bool.eq_false_iff.2 hd
      | succ i => exact h i (by omega)

end

/-! ## `walk` -/

/-- The page numbers of a page table of height `l` miss as many page-table pages as `d` says. -/
def Gaps (s : Memory) (l r : Nat) (d : Nat → Nat) : Prop :=
  ∀ v < sv39.width ^ (l + 1), Missing sv39 s.word l r v (d v)

/-- The pages missing after the way to `v` has been built. -/
def closed (l v : Nat) (d : Nat → Nat) : Nat → Nat := fun u => min (d u) (apart 512 l u v)

section
variable [KernelImage] {E : Panic → Prop} {s s' : Memory} {l r va : Nat} {T : Multiset Nat}
  {f d : Nat → Nat}

omit [KernelImage] in
theorem Gaps.frame (h : Gaps s l r d) (ht : Table s l r T f) (hs : ∀ p ∈ T, s'.mem p = s.mem p) :
    Gaps s' l r d := fun v hv => (h v hv).frame ht hv fun p hp => word_congr (hs p hp)

omit [KernelImage] in
theorem Gaps.congr {d' : Nat → Nat} (h : Gaps s l r d) (hd : ∀ v < sv39.width ^ (l + 1), d v = d' v) :
    Gaps s l r d' := fun v hv => hd v hv ▸ h v hv

omit [KernelImage] in
/-- The gaps of a subtree. -/
theorem Gaps.child {k c : Nat} (hd : Gaps s (l + 1) r d) (hk : k < sv39.width)
    (hc : sv39.ptr (s.word r k) c) : Gaps s l c (block sv39 l k d) := by
  intro v hv
  have hpos : 0 < sv39.width ^ (l + 1) := pow_pos sv39.width_pos _
  have hdiv : (k * sv39.width ^ (l + 1) + v) / sv39.width ^ (l + 1) = k := by
    rw [mul_comm, Nat.mul_add_div hpos, Nat.div_eq_of_lt hv, add_zero]
  have hmod : (k * sv39.width ^ (l + 1) + v) % sv39.width ^ (l + 1) = v := by
    rw [mul_comm, Nat.mul_add_mod, Nat.mod_eq_of_lt hv]
  have := (hd _ (block_lt hk hv)).child (c := c) (by rwa [hdiv])
  rwa [hmod] at this

omit [KernelImage] in
/-- Putting a subtree back whose gaps have been closed on the way to `v`. -/
theorem Gaps.join {v c k : Nat} {Ts : Multiset Nat} {d' : Nat → Nat} (hd : Gaps s (l + 1) r d)
    (hk : v / sv39.width ^ (l + 1) = k) (ho : Others sv39 s.word l r k Ts f)
    (hc : sv39.ptr (s'.word r k) c)
    (hd' : Gaps s' l c (closed l (v % sv39.width ^ (l + 1)) d'))
    (heq : ∀ u < sv39.width ^ (l + 2), u / sv39.width ^ (l + 1) = k →
      closed l (v % sv39.width ^ (l + 1)) d' (u % sv39.width ^ (l + 1)) =
        min (d u) (apart 512 l (u % sv39.width ^ (l + 1)) (v % sv39.width ^ (l + 1))))
    (hr : ∀ j < 512, j ≠ k → s'.word r j = s.word r j)
    (hTs : ∀ p ∈ Ts, s'.mem p = s.mem p) : Gaps s' (l + 1) r (closed (l + 1) v d) := by
  intro u hu
  have hw : sv39.width = 512 := rfl
  by_cases huk : u / sv39.width ^ (l + 1) = k
  · have hsame : closed (l + 1) v d u =
        closed l (v % sv39.width ^ (l + 1)) d' (u % sv39.width ^ (l + 1)) := by
      rw [heq u hu huk, closed, apart, ← hw, if_pos (huk.trans hk.symm)]
    rw [hsame]
    exact .inr ⟨c, by rwa [huk], hd' _ (Nat.mod_lt _ (pow_pos sv39.width_pos _))⟩
  · have hsame : closed (l + 1) v d u = d u := by
      rw [closed, apart, ← hw, if_neg (by rwa [hk])]
      exact min_eq_left (hd u hu).le
    rw [hsame]
    exact ho.missing hu huk (hd u hu) hr fun p hp => word_congr (hTs p hp)

/-- **`walk` with allocation** takes the pages that are missing on its way. -/
theorem wp_walkFrom_supply (h : Table s l r T f) (ho : Owned s T) (hd : Gaps s l r d) :
    wp (walkFrom l r va true) E (fun res s' =>
      (res = none → ¬ Supply s (d (vpn l va))) ∧
      (res ≠ none → Used s (d (vpn l va)) s' ∧ Gaps s' l r (closed l (vpn l va) d))) s := by
  induction l generalizing r T f s d with
  | zero =>
    have h0 : ∀ v < sv39.width ^ (0 + 1), d v = 0 := fun v hv => hd v hv
    refine ⟨nofun, fun _ => ⟨?_, hd.congr fun v hv => ?_⟩⟩
    · rw [h0 _ (vpn_lt 0 va)]
      exact .of_eq rfl rfl
    · rw [closed, h0 v hv, Nat.zero_min]
  | succ l ih =>
    have hk : px (l + 1) va < sv39.width := px_lt (l + 1) va
    obtain ⟨Tk, Ts, rfl, he, hrest⟩ := Tab.split h hk
    have hcons : Tk + (r ::ₘ Ts) = r ::ₘ (Tk + Ts) := Multiset.add_cons r Tk Ts
    rw [← hcons] at ho
    have hr : PageOk r := ho.pageOk (by simp)
    have hrTs : r ∉ Ts :=
      (Multiset.nodup_cons.1 (Multiset.nodup_add.1 ho.nodup_right).2.1).1
    have hblock : block sv39 l (px (l + 1) va) d (vpn l va) = d (vpn (l + 1) va) := by
      have hb := block_div_mod (R := sv39) (f := d) l (vpn (l + 1) va)
      rwa [vpn_div, vpn_mod] at hb
    rw [walkFrom, if_neg (by have := hr.pos; omega)]
    simp only [wp_bind, wp_loadWord, wp_ite]
    refine ⟨fun hV => ?_, fun hV => ⟨fun _ => ?_, fun hfalse => absurd trivial hfalse⟩⟩
    · -- the entry is valid: the pages are missing in the subtree
      rcases he with ⟨hdead, -⟩ | ⟨c, hc, hchild⟩
      · exact absurd (hdead.symm.trans hV) (by decide)
      rw [hc.2.2]
      have hoc : Owned s Tk := ho.of_le (Multiset.le_add_right _ _)
      refine wp_imp (wp_and (ih hchild hoc (hd.child hk hc)) (wp_walkFrom_alloc (E := E) hchild hoc)) ?_
      rintro res s' ⟨⟨hnone, hsome⟩, Tk', -, hmoves, -⟩
      rw [hblock] at hnone hsome
      refine ⟨hnone, fun hres => ⟨(hsome hres).1, ?_⟩⟩
      have hsame : ∀ p ∈ r ::ₘ Ts, s'.mem p = s.mem p := fun p hp => hmoves.mem_eq ho.nodup hp
      have hword : s'.word r = s.word r := word_congr (hsame r (by simp))
      have hgaps := (hsome hres).2
      rw [← vpn_mod] at hgaps
      refine hd.join (vpn_div l va) hrest (by rwa [hword]) hgaps (fun u _ huk => ?_)
        (fun j _ _ => by rw [hword]) fun p hp => hsame p (by simp [hp])
      have hb := block_div_mod (R := sv39) (f := d) l u
      rw [huk] at hb
      rw [closed, hb]
    · -- the entry is not valid: a new page-table page, with nothing below it
      rcases he with ⟨hdead, rfl, -⟩ | ⟨c, hc, -⟩
      swap
      · exact absurd hc.1 hV
      rw [zero_add] at ho
      have hall : ∀ u < sv39.width ^ (l + 2), u / sv39.width ^ (l + 1) = px (l + 1) va →
          d u = l + 1 := fun u hu huk => (hd u hu).of_dead (by rwa [huk])
      have hdv : d (vpn (l + 1) va) = 1 + l := by
        rw [hall _ (vpn_lt _ _) (vpn_div l va), add_comm]
      rw [hdv]
      refine wp_alloc_supply (fun s' hno => ⟨fun _ hs => hno (hs.le (by omega)), nofun⟩)
        fun child rest s₁ hf hf₁ hm₁ hused => ?_
      have hchildOk : PageOk child := ho.ok child (by simp [hf])
      have hchild : child ∉ r ::ₘ Ts := fun hc => ho.not_mem_free hc (by simp [hf])
      have hrc : r ≠ child := fun e => hchild (by simp [e])
      simp only [wp_bind, wp_memsetZero, wp_storeWord]
      set s₂ := (s₁.store child (Bytes.zero PGSIZE)).store r
        (((s₁.store child (Bytes.zero PGSIZE)).mem r).setU64 (8 * px (l + 1) va)
          (pa2pte child ||| PTE_V)) with hs₂
      have hused₂ : Used s 1 s₂ := hused.trans (.of_eq rfl rfl)
      obtain ⟨hmem₂, hwordr, hzero⟩ : Linked s s₂ r (px (l + 1) va) child :=
        .of_store hm₁ (px_lt _ _) hrc hchildOk
      have hmoves₂ : Moves s (r ::ₘ Ts) s₂ (child ::ₘ r ::ₘ Ts) := by
        refine Moves.pop hf hf₁ fun q hq => hmem₂ q ?_ ?_
        · exact fun e => hq (by simp [e])
        · exact fun e => hq (by simp [e, hf])
      have ho₂ := ho.moves hmoves₂
      have hempty : Table s₂ l child {child} fun _ => sv39.null := Tab.empty fun k _ => hzero k
      have hgaps₂ : Gaps s₂ l child fun _ => l := fun v _ => Missing.empty hzero
      have hoc : Owned s₂ {child} := ho₂.of_le (by simp)
      refine wp_imp (wp_and (ih hempty hoc hgaps₂) (wp_walkFrom_alloc (E := E) hempty hoc)) ?_
      rintro res s' ⟨⟨hnone, hsome⟩, Tk', -, hmoves, -⟩
      refine ⟨fun hres hs => hnone hres ((hused₂ l).2 hs), fun hres => ⟨hused₂.trans (hsome hres).1, ?_⟩⟩
      have hsame : ∀ p ∈ r ::ₘ Ts, s'.mem p = s₂.mem p :=
        fun p hp => hmoves.mem_eq (X := r ::ₘ Ts) ho₂.nodup hp
      have hword : s'.word r = s₂.word r := word_congr (hsame r (by simp))
      have hgaps := (hsome hres).2
      rw [← vpn_mod] at hgaps
      refine hd.join (c := child) (vpn_div l va) hrest ?_ hgaps (fun u hu huk => ?_)
        (fun j hj hjk => ?_) fun p hp => ?_
      · rw [hword, hwordr _ (px_lt _ _), if_pos rfl]
        exact ptr_pa2pte hchildOk
      · have hle := apart_le 512 l (u % sv39.width ^ (l + 1))
          (vpn (l + 1) va % sv39.width ^ (l + 1))
        rw [closed, hall u hu huk, min_eq_right hle, min_eq_right (hle.trans (Nat.le_succ l))]
      · rw [hword, hwordr j hj, if_neg hjk]
      · have hpr : p ≠ r := fun e => hrTs (e ▸ hp)
        have hpc : p ≠ child := fun e => hchild (by simp [← e, hp])
        rw [hsame p (by simp [hp]), hmem₂ p hpr hpc]

/-- **`mappages` of one page** takes the pages that are missing on the way to it. -/
theorem wp_mappages_supply {v : Nat} (pa perm : Nat) (h : Table s 2 r T f) (ho : Owned s T)
    (hd : Gaps s 2 r d) (hv : v * PGSIZE < MAXVA) :
    wp (mappages r (v * PGSIZE) PGSIZE pa perm) (fun _ => True) (fun res s' =>
      (res = 0 → Used s (d v) s' ∧ Gaps s' 2 r (closed 2 v d)) ∧ (res ≠ 0 → ¬ Supply s (d v))) s := by
  have hone : PGSIZE / PGSIZE = 0 + 1 := rfl
  have hdiv : v * PGSIZE / PGSIZE = v := Nat.mul_div_cancel _ (by decide)
  have hwalk : wp (walk r (v * PGSIZE) true) (fun _ => True) (fun res s' =>
      (res = none → ¬ Supply s (d v)) ∧
      (res ≠ none → Used s (d v) s' ∧ Gaps s' 2 r (closed 2 v d))) s := by
    have hsupply : wp (walkFrom 2 r (v * PGSIZE) true) (fun _ => True) _ s :=
      wp_walkFrom_supply h ho hd
    rw [vpn_two hv, hdiv] at hsupply
    rwa [walk, if_neg (Nat.not_le.2 hv)]
  rw [mappages, if_neg (by simp), if_neg (by decide), if_neg (by decide), hone, mapFrom]
  refine wp_seq (wp_and hwalk (wp_walk_alloc (E := fun _ => True) h ho hv)) ?_
  rintro (_ | ⟨q, k⟩) s' ⟨⟨hnone, hsome⟩, T', htab, hmoves, hslot⟩
  · exact ⟨(by rintro ⟨⟩), fun _ => hnone rfl⟩
  · obtain ⟨hused, hgaps⟩ := hsome (by rintro ⟨⟩)
    have hs := hslot q k rfl
    have hlt := page_lt hv
    simp only [wp_bind, wp_loadWord, wp_ite, wp_storeWord]
    refine ⟨fun _ => trivial, fun _ => ⟨fun _ => ⟨hused.trans (.of_eq rfl rfl), ?_⟩,
      fun hne => absurd rfl hne⟩⟩
    intro u hu
    exact (hgaps u hu).write htab (ho.moves hmoves).nodup_right hlt hs
      (fun p hp => word_congr (Memory.store_mem_of_ne s' _ hp)) hu

end

/-! ## `copy` -/

/-- The page-table pages that are missing in the address space of a child to which `i` pages have been
copied. -/
def gaps : Nat → Nat → Nat
  | 0 => fun u => apart 512 2 u trapPage
  | i + 1 => closed 2 i (gaps i)

/-- The pages that `m` more pages of user memory take, when `i` have been copied. -/
def copyCost (i : Nat) : Nat → Nat
  | 0 => 0
  | m + 1 => (1 + gaps i i) + copyCost (i + 1) m

section
variable [KernelImage] {s s' : Memory} {n a b : Nat} {O : Multiset Nat}

theorem wp_copyFrom_supply {old newpt m i a' b' : Nat} {u' : Bool} {P : Multiset Nat}
    (hold : Space s old u' n a' b' P) (hnew : Space s newpt false i a b O) (ho : Owned s (O + P))
    (hi : i + m ≤ n) (hd : Gaps s 2 newpt (gaps i)) :
    wp (copyFrom old newpt m (i * PGSIZE)) (fun _ => True) (fun res s' =>
      (res = 0 → Used s (copyCost i m) s') ∧ (res ≠ 0 → ¬ Supply s (copyCost i m))) s := by
  induction m generalizing i s O with
  | zero => exact ⟨fun _ => .of_eq rfl rfl, fun hne => absurd rfl hne⟩
  | succ m ih =>
    have hoO : Owned s O := ho.of_le (Multiset.le_add_right _ _)
    have hdiv : i * PGSIZE / PGSIZE = i := Nat.mul_div_cancel _ (by decide)
    obtain ⟨hn, T, f, htab, rfl, hleaf, hhigh⟩ := hold
    have hva : i * PGSIZE < MAXVA := by
      simp only [trapPage, TRAPFRAME, TRAMPOLINE, MAXVA, PGSIZE] at *
      omega
    have hl : Leaf (f (i * PGSIZE / PGSIZE)) := by
      rw [hdiv]
      exact (hleaf i (by omega)).toLeaf
    -- too few pages for this page are too few for all of them
    have hfew : ∀ {j}, j ≤ 1 + gaps i i → ¬ Supply s j → ¬ Supply s (copyCost i (m + 1)) :=
      fun hj hno hs => hno (hs.le (hj.trans (Nat.le_add_right _ _)))
    rw [copyFrom]
    refine wp_bind.2 (wp_walk_valid htab (fun p hp => ho.pageOk (by simp [hp])) hva hl.valid
      fun q k hs => ?_)
    have hword : s.word q k = f (i * PGSIZE / PGSIZE) := Tab.slot_read htab (page_lt hva) hs
    simp only [wp_bind, wp_loadWord, wp_ite, hword, hl.valid]
    refine ⟨(by rintro ⟨⟩), fun _ => ?_⟩
    refine wp_alloc_supply (fun s₁ hno => ?_) fun p rest s₁ hf hf₁ heq hused => ?_
    · exact wp_seq (wp_const (hfew (Nat.le_add_right _ _) hno)) fun _ _ hno =>
        ⟨(by rintro ⟨⟩), fun _ => hno⟩
    · have hp : p ∉ O := fun hp => hoO.not_mem_free hp (by simp [hf])
      have hm₁ : Moves s O s₁ (p ::ₘ O) := Moves.pop hf hf₁ fun _ _ => by rw [heq]
      rw [wp_bind, wp_modify]
      set s₂ := s₁.store p (s₁.mem (pte2pa (f (i * PGSIZE / PGSIZE)))) with hs₂
      have hm₂ : Moves s O s₂ (p ::ₘ O) := hm₁.trans (Moves.storeWord (by simp) _)
      have hused₂ : Used s 1 s₂ := hused.trans (.of_eq rfl rfl)
      have hsame : ∀ q ∈ O, s₂.mem q = s.mem q := by
        intro q hq
        have hqp : q ≠ p := fun e => hp (e ▸ hq)
        rw [hs₂, Memory.store_mem_of_ne _ _ hqp, heq]
      have hsp : Space s₂ newpt false i a b O := hnew.frame hsame
      have hR : has (pteFlags (f (i * PGSIZE / PGSIZE))) PTE_R := by
        rw [has_pteFlags _ (by decide)]
        exact hl.readable
      have ho₂ := hoO.moves hm₂
      have hmap : wp (mappages newpt (i * PGSIZE) PGSIZE p (pteFlags (f (i * PGSIZE / PGSIZE))))
          (fun _ => True) (fun res s' => (res = 0 → Used s₂ (gaps i i) s' ∧
            Gaps s' 2 newpt (gaps (i + 1))) ∧ (res ≠ 0 → ¬ Supply s₂ (gaps i i))) s₂ := by
        obtain ⟨-, T', f', htab', rfl, -, -⟩ := hnew
        refine wp_mappages_supply p _ (htab'.frame fun q hq => hsame q (by simp [hq])) ?_ ?_ hva
        · exact ho₂.of_le ((Multiset.le_add_right _ _).trans (Multiset.le_cons_self _ _))
        · exact hd.frame htab' fun q hq => hsame q (by simp [hq])
      refine wp_seq (wp_and hmap
        (wp_map_user (E := fun _ => True) hsp ho₂ (pteFlags_lt _) hR (by rintro ⟨⟩))) ?_
      rintro res s₃ ⟨⟨hzero, hnonzero⟩, ⟨rfl, O₃, hsp₃, hm₃⟩ | ⟨rfl, -⟩⟩
      · rw [if_neg (by decide)]
        obtain ⟨hused₃, hgaps₃⟩ := hzero rfl
        have hm₃' := hm₂.trans hm₃
        have hold₃ : Space s₃ old u' n a' b' (T + mapped f 0 n) :=
          Space.moves ⟨hn, T, f, htab, rfl, hleaf, hhigh⟩ hm₃' ho.nodup
        have hih := ih hold₃ hsp₃ (ho.moves (hm₃'.add _)) (by omega) hgaps₃
        rw [Nat.add_mul, Nat.one_mul] at hih
        refine wp_imp hih ?_
        rintro res s₄ ⟨hres, hres'⟩
        refine ⟨fun h0 => ?_, fun hne hs => ?_⟩
        · exact (hused₂.trans hused₃).trans (hres h0)
        · exact hres' hne (((hused₂.trans hused₃) _).2 hs)
      · rw [if_pos (by decide)]
        have hno : ¬ Supply s (1 + gaps i i) := fun hs => hnonzero (by decide) ((hused₂ _).2 hs)
        exact wp_seq (wp_const hno) fun _ _ hno => wp_seq (wp_const (hfew le_rfl hno)) fun _ _ hno =>
          ⟨(by rintro ⟨⟩), fun _ => hno⟩

end

/-- The page-table pages, below the root, of the first `n` page numbers. -/
def tablePages (n : Nat) : Nat := if n = 0 then 0 else 1 + (n + 511) / 512

theorem apart_low {u v : Nat} (hu : u < 512 ^ 2) (hv : v < 512 ^ 2) :
    apart 512 2 u v = if u / 512 = v / 512 then 0 else 1 := by
  simp only [apart, Nat.div_eq_of_lt hu, Nat.div_eq_of_lt hv, Nat.mod_eq_of_lt hu, Nat.mod_eq_of_lt hv,
    if_true, zero_add, pow_one]

/-- A page number finds its page-table pages if its predecessor has the same. -/
theorem gaps_eq {i u : Nat} (hi : i ≤ u) (hu : u < 512 ^ 2) :
    gaps i u = if i = 0 then 2 else if u / 512 = (i - 1) / 512 then 0 else 1 := by
  induction i with
  | zero =>
    have hne : ¬ u / 512 ^ 2 = trapPage / 512 ^ 2 := by
      rw [Nat.div_eq_of_lt hu]
      decide
    rw [if_pos rfl]
    exact if_neg hne
  | succ i ih =>
    rw [gaps, closed, ih (by omega), apart_low hu (by omega), if_neg (Nat.succ_ne_zero i),
      Nat.add_sub_cancel]
    by_cases h0 : i = 0
    · subst h0
      rw [if_pos rfl]
      split <;> rfl
    · rw [if_neg h0]
      by_cases hlast : u / 512 = (i - 1) / 512
      · rw [if_pos hlast, if_pos (by omega)]
        rfl
      · rw [if_neg hlast]
        split <;> rfl

/-- **The cost of a copy** is a page for every page and for every page-table page. -/
theorem copyCost_add {i m : Nat} (h : i + m ≤ 512 ^ 2) :
    copyCost i m + tablePages i = m + tablePages (i + m) := by
  induction m generalizing i with
  | zero => rfl
  | succ m ih =>
    have hih := ih (i := i + 1) (by omega)
    rw [show i + 1 + m = i + (m + 1) by omega] at hih
    have hstep : gaps i i + tablePages i = tablePages (i + 1) := by
      rw [gaps_eq le_rfl (by omega), tablePages, tablePages, if_neg (Nat.succ_ne_zero i)]
      by_cases h0 : i = 0
      · subst h0
        rfl
      · rw [if_neg h0, if_neg h0]
        split <;> omega
    rw [copyCost]
    omega

end VirtualMemory
end Xv6pp
