import Mathlib.Algebra.BigOperators.Group.Finset.Basic
import Mathlib.Algebra.Order.Group.Multiset
import Mathlib.Data.Multiset.Count
import Mathlib.Tactic.Ring

/-!
# Radix trees laid out in pages

A radix tree of height `l` over a memory of pages is a page of `B` words; at height `0` the words
are the values stored in the tree, and above that each word is either *dead* or a *pointer* to the
page of a tree one level lower.  `Tab mem l r T f` says that the page `r` is the root of a tree of
height `l` which occupies exactly the pages `T` (a multiset, so that a page used twice is counted
twice) and represents the map `f` from indices below `B ^ (l + 1)` to words, an index without a
bottom page being mapped to `null`.

The rules are those of a heap predicate: a tree is not affected by what happens outside of its
pages (`Tab.frame`), it splits at an index of its root into the subtree there and the rest
(`Tab.split`, `Tab.join`), and the word that an index leads to (`Slot`) can be read and overwritten
(`Tab.slot_read`, `Tab.write`).  `Missing` counts the pages that an index would need to have a word.
`Reach` names the position of a page in the tree, and
`Tab.mem_iff_reach` and `Tab.reach_unique` say that the pages of a tree and its positions correspond
to each other.
-/

set_option autoImplicit false

namespace Radix

/-- How the words above the bottom level are read. -/
structure Format (P W : Type) where
  /-- The number of words of a page. -/
  width : Nat
  width_pos : 0 < width
  /-- The value of an index that has no bottom page. -/
  null : W
  /-- The word does not lead anywhere. -/
  dead : W → Prop
  /-- The word leads to a page. -/
  ptr : W → P → Prop
  dead_null : dead null
  not_dead : ∀ {w c}, ptr w c → ¬ dead w
  ptr_unique : ∀ {w c d}, ptr w c → ptr w d → c = d

variable {P W : Type} (R : Format P W)

/-- The page `r` is the root of a tree of height `l` on the pages `T` that represents `f`. -/
def Tab (mem : P → Nat → W) : Nat → P → Multiset P → (Nat → W) → Prop
  | 0, r, T, f => T = {r} ∧ ∀ k < R.width, mem r k = f k
  | l + 1, r, T, f => ∃ U : Nat → Multiset P, T = r ::ₘ ∑ k ∈ Finset.range R.width, U k ∧
      ∀ k < R.width,
        (R.dead (mem r k) ∧ U k = 0 ∧ ∀ v < R.width ^ (l + 1), f (k * R.width ^ (l + 1) + v) = R.null) ∨
        ∃ c, R.ptr (mem r k) c ∧ Tab mem l c (U k) fun v => f (k * R.width ^ (l + 1) + v)

/-- What one word of a page at height `l + 1` may be: dead, or the root of a subtree. -/
def Entry (mem : P → Nat → W) (l : Nat) (w : W) (T : Multiset P) (f : Nat → W) : Prop :=
  (R.dead w ∧ T = 0 ∧ ∀ v < R.width ^ (l + 1), f v = R.null) ∨ ∃ c, R.ptr w c ∧ Tab R mem l c T f

/-- The part of a map that the subtree at index `k` of a page at height `l + 1` represents. -/
def block (l k : Nat) (f : Nat → W) : Nat → W := fun v => f (k * R.width ^ (l + 1) + v)

/-- A page at height `l + 1` without its word at index `k`: the other words and their subtrees. -/
def Others (mem : P → Nat → W) (l : Nat) (r : P) (k : Nat) (T : Multiset P) (f : Nat → W) : Prop :=
  ∃ U : Nat → Multiset P, T = ∑ j ∈ (Finset.range R.width).erase k, U j ∧
    ∀ j < R.width, j ≠ k → Entry R mem l (mem r j) (U j) (block R l j f)

variable {R}
variable {mem mem' : P → Nat → W} {l k : Nat} {r c : P} {T T' : Multiset P} {f g : Nat → W} {w : W}

/-! ## Trees depend only on their pages and on the indices in range -/

/-- The number of indices of a subtree, times the width, is the number of indices of the tree. -/
theorem block_lt {l k v : Nat} (hk : k < R.width) (hv : v < R.width ^ (l + 1)) :
    k * R.width ^ (l + 1) + v < R.width ^ (l + 2) := by
  calc k * R.width ^ (l + 1) + v < k * R.width ^ (l + 1) + R.width ^ (l + 1) := by omega
    _ = (k + 1) * R.width ^ (l + 1) := by ring
    _ ≤ R.width * R.width ^ (l + 1) := Nat.mul_le_mul_right _ hk
    _ = R.width ^ (l + 2) := by ring

theorem div_lt_width {v : Nat} (hv : v < R.width ^ (l + 2)) : v / R.width ^ (l + 1) < R.width := by
  rw [Nat.div_lt_iff_lt_mul (pow_pos R.width_pos _), ← pow_succ']
  exact hv

theorem Tab.congr_map (h : Tab R mem l r T f) (hfg : ∀ v < R.width ^ (l + 1), f v = g v) :
    Tab R mem l r T g := by
  induction l generalizing r T f g with
  | zero => exact ⟨h.1, fun k hk => (h.2 k hk).trans (hfg k (by simpa using hk))⟩
  | succ l ih =>
    obtain ⟨U, rfl, hU⟩ := h
    refine ⟨U, rfl, fun k hk => ?_⟩
    rcases hU k hk with ⟨hd, h0, hnull⟩ | ⟨c, hc, ht⟩
    · exact .inl ⟨hd, h0, fun v hv => (hfg _ (block_lt hk hv)).symm.trans (hnull v hv)⟩
    · exact .inr ⟨c, hc, ih ht fun v hv => hfg _ (block_lt hk hv)⟩

theorem Tab.root_mem (h : Tab R mem l r T f) : r ∈ T := by
  cases l with
  | zero => rw [h.1]; exact Multiset.mem_singleton_self r
  | succ l =>
    obtain ⟨U, rfl, -⟩ := h
    exact Multiset.mem_cons_self _ _

/-- **Frame rule.**  What happens outside of the pages of a tree does not change the tree. -/
theorem Tab.frame (h : Tab R mem l r T f) (hmem : ∀ p ∈ T, mem' p = mem p) :
    Tab R mem' l r T f := by
  induction l generalizing r T f with
  | zero =>
    refine ⟨h.1, fun k hk => ?_⟩
    rw [hmem r h.root_mem]
    exact h.2 k hk
  | succ l ih =>
    have hr := hmem r h.root_mem
    obtain ⟨U, rfl, hU⟩ := h
    refine ⟨U, rfl, fun k hk => ?_⟩
    rw [hr]
    rcases hU k hk with hdead | ⟨c, hc, ht⟩
    · exact .inl hdead
    · refine .inr ⟨c, hc, ih ht fun p hp => hmem p ?_⟩
      exact Multiset.mem_cons_of_mem (Multiset.mem_sum.2 ⟨k, Finset.mem_range.2 hk, hp⟩)

theorem Entry.frame (h : Entry R mem l w T f) (hmem : ∀ p ∈ T, mem' p = mem p) :
    Entry R mem' l w T f := by
  rcases h with hdead | ⟨c, hc, ht⟩
  · exact .inl hdead
  · exact .inr ⟨c, hc, ht.frame hmem⟩

theorem Entry.congr_map (h : Entry R mem l w T f) (hfg : ∀ v < R.width ^ (l + 1), f v = g v) :
    Entry R mem l w T g := by
  rcases h with ⟨hd, h0, hnull⟩ | ⟨c, hc, ht⟩
  · exact .inl ⟨hd, h0, fun v hv => (hfg v hv).symm.trans (hnull v hv)⟩
  · exact .inr ⟨c, hc, ht.congr_map hfg⟩

/-- The memory determines the pages of a tree and its map. -/
theorem Tab.unique (h : Tab R mem l r T f) (h' : Tab R mem l r T' g) :
    T = T' ∧ ∀ v < R.width ^ (l + 1), f v = g v := by
  induction l generalizing r T T' f g with
  | zero =>
    refine ⟨h.1.trans h'.1.symm, fun v hv => ?_⟩
    have hv : v < R.width := by simpa using hv
    rw [← h.2 v hv, h'.2 v hv]
  | succ l ih =>
    obtain ⟨U, rfl, hU⟩ := h
    obtain ⟨U', rfl, hU'⟩ := h'
    have hk : ∀ k < R.width, U k = U' k ∧
        ∀ v < R.width ^ (l + 1), f (k * R.width ^ (l + 1) + v) = g (k * R.width ^ (l + 1) + v) := by
      intro k hk
      rcases hU k hk with ⟨hd, h0, hnull⟩ | ⟨c, hc, ht⟩
      · rcases hU' k hk with ⟨-, h0', hnull'⟩ | ⟨c', hc', -⟩
        · exact ⟨h0.trans h0'.symm, fun v hv => (hnull v hv).trans (hnull' v hv).symm⟩
        · exact absurd hd (R.not_dead hc')
      · rcases hU' k hk with ⟨hd', -⟩ | ⟨c', hc', ht'⟩
        · exact absurd hd' (R.not_dead hc)
        · obtain rfl := R.ptr_unique hc hc'
          exact ih ht ht'
    refine ⟨?_, fun v hv => ?_⟩
    · rw [Finset.sum_congr rfl fun k hk' => (hk k (Finset.mem_range.1 hk')).1]
    · have := (hk _ (div_lt_width hv)).2 _ (Nat.mod_lt v (pow_pos R.width_pos _))
      rwa [mul_comm, Nat.div_add_mod] at this

/-! ## Splitting a tree at an index of its root -/

/-- A tree is its root, the subtree at one index, and the rest. -/
theorem Tab.split (h : Tab R mem (l + 1) r T f) (hk : k < R.width) :
    ∃ Tk Ts, T = r ::ₘ (Tk + Ts) ∧ Entry R mem l (mem r k) Tk (block R l k f) ∧
      Others R mem l r k Ts f := by
  obtain ⟨U, rfl, hU⟩ := h
  refine ⟨U k, ∑ j ∈ (Finset.range R.width).erase k, U j, ?_, hU k hk, U, rfl,
    fun j hj _ => hU j hj⟩
  rw [Finset.add_sum_erase _ _ (Finset.mem_range.2 hk)]

/-- The converse of `Tab.split`. -/
theorem Tab.join {Tk Ts : Multiset P} (hk : k < R.width)
    (h : Entry R mem l (mem r k) Tk (block R l k f)) (ho : Others R mem l r k Ts f) :
    Tab R mem (l + 1) r (r ::ₘ (Tk + Ts)) f := by
  obtain ⟨U, rfl, hU⟩ := ho
  refine ⟨Function.update U k Tk, ?_, fun j hj => ?_⟩
  · rw [← Finset.add_sum_erase _ _ (Finset.mem_range.2 hk), Function.update_self]
    congr 2
    refine Finset.sum_congr rfl fun j hj => ?_
    rw [Function.update_of_ne (Finset.ne_of_mem_erase hj)]
  · by_cases hjk : j = k
    · subst hjk
      rw [Function.update_self]
      exact h
    · rw [Function.update_of_ne hjk]
      exact hU j hj hjk

/-- The rest of a tree is not affected by changes elsewhere, neither in the memory nor in the map. -/
theorem Others.frame (h : Others R mem l r k T f) (hr : ∀ j < R.width, j ≠ k → mem' r j = mem r j)
    (hmem : ∀ p ∈ T, mem' p = mem p)
    (hfg : ∀ j < R.width, j ≠ k → ∀ v < R.width ^ (l + 1), block R l j f v = block R l j g v) :
    Others R mem' l r k T g := by
  obtain ⟨U, rfl, hU⟩ := h
  refine ⟨U, rfl, fun j hj hjk => ?_⟩
  rw [hr j hj hjk]
  refine ((hU j hj hjk).congr_map (hfg j hj hjk)).frame fun p hp => hmem p ?_
  exact Multiset.mem_sum.2 ⟨j, Finset.mem_erase.2 ⟨hjk, Finset.mem_range.2 hj⟩, hp⟩

/-- A page of dead words is a tree that maps every index to `null`. -/
theorem Tab.empty (h : ∀ k < R.width, mem r k = R.null) : Tab R mem l r {r} fun _ => R.null := by
  cases l with
  | zero => exact ⟨rfl, h⟩
  | succ l =>
    refine ⟨fun _ => 0, by simp, fun k hk => .inl ⟨?_, rfl, fun _ _ => rfl⟩⟩
    rw [h k hk]
    exact R.dead_null

/-! ## The word an index leads to -/

variable (R) in
/-- Following the index `v` from the page `r` at height `l` leads to word `k` of page `q`. -/
def Slot (mem : P → Nat → W) : Nat → P → Nat → P → Nat → Prop
  | 0, r, v, q, k => q = r ∧ k = v
  | l + 1, r, v, q, k => ∃ c, R.ptr (mem r (v / R.width ^ (l + 1))) c ∧
      Slot mem l c (v % R.width ^ (l + 1)) q k

theorem block_div_mod (l v : Nat) : block R l (v / R.width ^ (l + 1)) f (v % R.width ^ (l + 1)) = f v := by
  rw [block, mul_comm, Nat.div_add_mod]

/-- The subtree an index leads into. -/
theorem Entry.tab_of_ptr (h : Entry R mem l w T f) (hc : R.ptr w c) : Tab R mem l c T f := by
  rcases h with ⟨hd, -⟩ | ⟨d, hd, ht⟩
  · exact absurd hd (R.not_dead hc)
  · exact R.ptr_unique hd hc ▸ ht

variable {v : Nat} {q : P} {j : Nat}

theorem Tab.slot_mem (h : Tab R mem l r T f) (hv : v < R.width ^ (l + 1))
    (hs : Slot R mem l r v q j) : q ∈ T ∧ j < R.width := by
  induction l generalizing r T f v with
  | zero =>
    obtain ⟨rfl, rfl⟩ := hs
    exact ⟨h.root_mem, by simpa using hv⟩
  | succ l ih =>
    obtain ⟨c, hc, hs⟩ := hs
    obtain ⟨Tk, Ts, rfl, he, -⟩ := h.split (div_lt_width hv)
    obtain ⟨hq, hj⟩ := ih (he.tab_of_ptr hc) (Nat.mod_lt _ (pow_pos R.width_pos _)) hs
    exact ⟨by simp [hq], hj⟩

/-- The word an index leads to is its value. -/
theorem Tab.slot_read (h : Tab R mem l r T f) (hv : v < R.width ^ (l + 1))
    (hs : Slot R mem l r v q j) : mem q j = f v := by
  induction l generalizing r T f v with
  | zero =>
    obtain ⟨rfl, rfl⟩ := hs
    exact h.2 j (by simpa using hv)
  | succ l ih =>
    obtain ⟨c, hc, hs⟩ := hs
    obtain ⟨Tk, Ts, rfl, he, -⟩ := h.split (div_lt_width hv)
    rw [ih (he.tab_of_ptr hc) (Nat.mod_lt _ (pow_pos R.width_pos _)) hs, block_div_mod]

/-- An index with a value other than `null` leads to a word. -/
theorem Tab.slot_of_ne_null (h : Tab R mem l r T f) (hv : v < R.width ^ (l + 1))
    (hf : f v ≠ R.null) : ∃ q j, Slot R mem l r v q j := by
  induction l generalizing r T f v with
  | zero => exact ⟨r, v, rfl, rfl⟩
  | succ l ih =>
    have hmod : v % R.width ^ (l + 1) < R.width ^ (l + 1) := Nat.mod_lt _ (pow_pos R.width_pos _)
    obtain ⟨Tk, Ts, rfl, he, -⟩ := h.split (div_lt_width hv)
    rcases he with ⟨-, -, hnull⟩ | ⟨c, hc, ht⟩
    · rw [← block_div_mod (R := R) (f := f) l v] at hf
      exact absurd (hnull _ hmod) hf
    · obtain ⟨q, j, hs⟩ := ih ht hmod (by rwa [block_div_mod])
      exact ⟨q, j, c, hc, hs⟩

/-- While the pointers in its pages stay, the indices of a tree lead where they did. -/
theorem Tab.slot_mono (h : Tab R mem l r T f) (hv : v < R.width ^ (l + 1))
    (hs : Slot R mem l r v q j)
    (hmem : ∀ p ∈ T, ∀ k < R.width, ∀ c, R.ptr (mem p k) c → R.ptr (mem' p k) c) :
    Slot R mem' l r v q j := by
  induction l generalizing r T f v with
  | zero => exact hs
  | succ l ih =>
    have hk := div_lt_width hv
    have hr := hmem r h.root_mem _ hk
    obtain ⟨c, hc, hs⟩ := hs
    obtain ⟨Tk, Ts, rfl, he, -⟩ := h.split hk
    refine ⟨c, hr c hc, ih (he.tab_of_ptr hc) (Nat.mod_lt _ (pow_pos R.width_pos _)) hs ?_⟩
    exact fun p hp => hmem p (by simp [hp])

/-- What happens outside of the pages of a tree does not change where its indices lead. -/
theorem Tab.slot_frame (h : Tab R mem l r T f) (hv : v < R.width ^ (l + 1))
    (hs : Slot R mem l r v q j) (hmem : ∀ p ∈ T, mem' p = mem p) : Slot R mem' l r v q j :=
  h.slot_mono hv hs fun p hp k _ c hc => by rwa [hmem p hp]

/-- **Different indices lead to different words.** -/
theorem Tab.slot_inj {v' : Nat} (h : Tab R mem l r T f) (hT : T.Nodup) (hv : v < R.width ^ (l + 1))
    (hv' : v' < R.width ^ (l + 1)) (hs : Slot R mem l r v q j) (hs' : Slot R mem l r v' q j) :
    v = v' := by
  induction l generalizing r T f v v' with
  | zero => exact hs.2.symm.trans hs'.2
  | succ l ih =>
    have hpos : 0 < R.width ^ (l + 1) := pow_pos R.width_pos _
    obtain ⟨c, hc, hs⟩ := hs
    obtain ⟨c', hc', hs'⟩ := hs'
    obtain ⟨Tk, Ts, rfl, he, ho⟩ := h.split (div_lt_width hv)
    obtain ⟨hTk, -, hdisj⟩ := Multiset.nodup_add.1 (Multiset.nodup_cons.1 hT).2
    have ht := he.tab_of_ptr hc
    have hdiv : v / R.width ^ (l + 1) = v' / R.width ^ (l + 1) := by
      by_contra hne
      -- the word of `v'` would lie in another subtree
      obtain ⟨U, rfl, hU⟩ := ho
      have hk' := div_lt_width hv'
      have ht' := (hU _ hk' (Ne.symm hne)).tab_of_ptr hc'
      have hq' := (ht'.slot_mem (Nat.mod_lt _ hpos) hs').1
      have hmem : q ∈ ∑ i ∈ (Finset.range R.width).erase (v / R.width ^ (l + 1)), U i :=
        Multiset.mem_sum.2 ⟨_, Finset.mem_erase.2 ⟨Ne.symm hne, Finset.mem_range.2 hk'⟩, hq'⟩
      exact Multiset.disjoint_left.1 hdisj (ht.slot_mem (Nat.mod_lt _ hpos) hs).1 hmem
    have hcc : c = c' := R.ptr_unique hc (hdiv ▸ hc')
    have hmod := ih ht hTk (Nat.mod_lt _ hpos) (Nat.mod_lt _ hpos) hs (hcc ▸ hs')
    rw [← Nat.div_add_mod v (R.width ^ (l + 1)), ← Nat.div_add_mod v' (R.width ^ (l + 1)), hdiv,
      hmod]

/-- The map of a subtree after a change at one index of the whole tree. -/
theorem block_update_self {u : Nat} :
    block R l (v / R.width ^ (l + 1)) (Function.update f v w) u =
      Function.update (block R l (v / R.width ^ (l + 1)) f) (v % R.width ^ (l + 1)) w u := by
  have hpos : 0 < R.width ^ (l + 1) := pow_pos R.width_pos _
  have hdiv := Nat.div_add_mod v (R.width ^ (l + 1))
  simp only [block, Function.update_apply]
  congr 1
  rw [mul_comm] at hdiv
  exact propext ⟨fun h => by omega, fun h => by omega⟩

theorem block_update_of_ne {u : Nat} (hk : k ≠ v / R.width ^ (l + 1)) (hu : u < R.width ^ (l + 1)) :
    block R l k (Function.update f v w) u = block R l k f u := by
  have hpos : 0 < R.width ^ (l + 1) := pow_pos R.width_pos _
  rw [block, block, Function.update_of_ne]
  rintro rfl
  apply hk
  rw [mul_comm, Nat.mul_add_div hpos, Nat.div_eq_of_lt hu, add_zero]

/-- **Overwriting the word an index leads to** changes the value of that index and nothing else. -/
theorem Tab.write (h : Tab R mem l r T f) (hT : T.Nodup) (hv : v < R.width ^ (l + 1))
    (hs : Slot R mem l r v q j) (hq : mem' q j = w)
    (hqj : ∀ i < R.width, i ≠ j → mem' q i = mem q i) (hmem : ∀ p, p ≠ q → mem' p = mem p) :
    Tab R mem' l r T (Function.update f v w) := by
  induction l generalizing r T f v with
  | zero =>
    obtain ⟨rfl, rfl⟩ := hs
    refine ⟨h.1, fun i hi => ?_⟩
    by_cases hij : i = j
    · rw [hij, Function.update_self, hq]
    · rw [Function.update_of_ne hij, hqj i hi hij]
      exact h.2 i hi
  | succ l ih =>
    obtain ⟨c, hc, hs⟩ := hs
    have hmod : v % R.width ^ (l + 1) < R.width ^ (l + 1) := Nat.mod_lt _ (pow_pos R.width_pos _)
    obtain ⟨Tk, Ts, rfl, he, ho⟩ := h.split (div_lt_width hv)
    have ht := he.tab_of_ptr hc
    obtain ⟨hr, hTks⟩ := Multiset.nodup_cons.1 hT
    obtain ⟨hTk, -, hdisj⟩ := Multiset.nodup_add.1 hTks
    -- the word lies in the subtree, so neither the root nor the other subtrees are touched
    have hqk := (ht.slot_mem hmod hs).1
    have hrq : r ≠ q := fun e => hr (Multiset.mem_add.2 (.inl (e ▸ hqk)))
    have hothers : ∀ p ∈ Ts, mem' p = mem p := fun p hp =>
      hmem p fun e => (Multiset.disjoint_left.1 hdisj) hqk (e ▸ hp)
    refine Tab.join (div_lt_width hv) ?_ (ho.frame (fun i _ _ => by rw [hmem r hrq]) hothers ?_)
    · rw [hmem r hrq]
      exact .inr ⟨c, hc, (ih ht hTk hmod hs).congr_map fun u _ => block_update_self.symm⟩
    · exact fun i _ hi u hu => (block_update_of_ne hi hu).symm

/-! ## Missing pages -/

variable (R) in
/-- Following the index `v` from the page `r` at height `l`, the last `n` pages are missing. -/
def Missing (mem : P → Nat → W) : Nat → P → Nat → Nat → Prop
  | 0, _, _, n => n = 0
  | l + 1, r, v, n => (R.dead (mem r (v / R.width ^ (l + 1))) ∧ n = l + 1) ∨
      ∃ c, R.ptr (mem r (v / R.width ^ (l + 1))) c ∧ Missing mem l c (v % R.width ^ (l + 1)) n

/-- The number of pages that the index `u` does not share with the index `v`, in a tree of height
`l`. -/
def apart (B : Nat) : Nat → Nat → Nat → Nat
  | 0, _, _ => 0
  | l + 1, u, v =>
    if u / B ^ (l + 1) = v / B ^ (l + 1) then apart B l (u % B ^ (l + 1)) (v % B ^ (l + 1))
    else l + 1

theorem apart_le (B l u v : Nat) : apart B l u v ≤ l := by
  induction l generalizing u v with
  | zero => exact Nat.zero_le _
  | succ l ih =>
    rw [apart]
    split
    · exact (ih _ _).trans (Nat.le_succ l)
    · exact le_rfl

variable {u n : Nat}

theorem Missing.le (h : Missing R mem l r v n) : n ≤ l := by
  induction l generalizing r v with
  | zero => exact Nat.le_of_eq h
  | succ l ih =>
    rcases h with ⟨-, rfl⟩ | ⟨c, -, h⟩
    · exact le_rfl
    · exact (ih h).trans (Nat.le_succ l)

theorem Missing.child (h : Missing R mem (l + 1) r v n) (hc : R.ptr (mem r (v / R.width ^ (l + 1))) c) :
    Missing R mem l c (v % R.width ^ (l + 1)) n := by
  rcases h with ⟨hd, -⟩ | ⟨c', hc', h⟩
  · exact absurd hd (R.not_dead hc)
  · rwa [R.ptr_unique hc hc']

theorem Missing.of_dead (h : Missing R mem (l + 1) r v n) (hd : R.dead (mem r (v / R.width ^ (l + 1)))) :
    n = l + 1 := by
  rcases h with ⟨-, rfl⟩ | ⟨c', hc', -⟩
  · rfl
  · exact absurd hd (R.not_dead hc')

/-- In a page of dead words every index misses all pages below it. -/
theorem Missing.empty (h : ∀ k, mem r k = R.null) : Missing R mem l r v l := by
  cases l with
  | zero => rfl
  | succ l =>
    refine .inl ⟨?_, rfl⟩
    rw [h]
    exact R.dead_null

/-- What happens outside of the pages of a tree does not change which of them are missing. -/
theorem Missing.frame (h : Tab R mem l r T f) (hv : v < R.width ^ (l + 1))
    (hm : Missing R mem l r v n) (hmem : ∀ p ∈ T, mem' p = mem p) : Missing R mem' l r v n := by
  induction l generalizing r T f v with
  | zero => exact hm
  | succ l ih =>
    have hr := hmem r h.root_mem
    rcases hm with ⟨hd, rfl⟩ | ⟨c, hc, hm⟩
    · exact .inl ⟨by rwa [hr], rfl⟩
    · obtain ⟨Tk, Ts, rfl, he, -⟩ := h.split (div_lt_width hv)
      refine .inr ⟨c, by rwa [hr], ih (he.tab_of_ptr hc) (Nat.mod_lt _ (pow_pos R.width_pos _)) hm ?_⟩
      exact fun p hp => hmem p (by simp [hp])

/-- The same for the part of a tree outside of one subtree. -/
theorem Others.missing (h : Others R mem l r k T f) (hu : u < R.width ^ (l + 2))
    (huk : u / R.width ^ (l + 1) ≠ k) (hm : Missing R mem (l + 1) r u n)
    (hr : ∀ j < R.width, j ≠ k → mem' r j = mem r j) (hmem : ∀ p ∈ T, mem' p = mem p) :
    Missing R mem' (l + 1) r u n := by
  obtain ⟨U, rfl, hU⟩ := h
  have hlt := div_lt_width (R := R) hu
  have hword := hr _ hlt huk
  rcases hm with ⟨hd, rfl⟩ | ⟨c, hc, hm⟩
  · exact .inl ⟨by rwa [hword], rfl⟩
  · refine .inr ⟨c, by rwa [hword], ?_⟩
    refine hm.frame ((hU _ hlt huk).tab_of_ptr hc) (Nat.mod_lt _ (pow_pos R.width_pos _)) ?_
    exact fun p hp => hmem p (Multiset.mem_sum.2 ⟨_, Finset.mem_erase.2
      ⟨huk, Finset.mem_range.2 hlt⟩, hp⟩)

/-- Overwriting the word an index leads to makes no page missing. -/
theorem Missing.write (h : Tab R mem l r T f) (hT : T.Nodup) (hv : v < R.width ^ (l + 1))
    (hs : Slot R mem l r v q j) (hmem : ∀ p, p ≠ q → mem' p = mem p) (hu : u < R.width ^ (l + 1))
    (hm : Missing R mem l r u n) : Missing R mem' l r u n := by
  induction l generalizing r T f v u with
  | zero => exact hm
  | succ l ih =>
    obtain ⟨c, hc, hs⟩ := hs
    have hmod : v % R.width ^ (l + 1) < R.width ^ (l + 1) := Nat.mod_lt _ (pow_pos R.width_pos _)
    obtain ⟨Tk, Ts, rfl, he, ho⟩ := h.split (div_lt_width hv)
    have ht := he.tab_of_ptr hc
    obtain ⟨hr, hTks⟩ := Multiset.nodup_cons.1 hT
    obtain ⟨hTk, -, hdisj⟩ := Multiset.nodup_add.1 hTks
    have hqk := (ht.slot_mem hmod hs).1
    have hrq : r ≠ q := fun e => hr (Multiset.mem_add.2 (.inl (e ▸ hqk)))
    by_cases huk : u / R.width ^ (l + 1) = v / R.width ^ (l + 1)
    · rcases hm with ⟨hd, -⟩ | ⟨c', hc', hm⟩
      · rw [huk] at hd
        exact absurd hd (R.not_dead hc)
      · refine .inr ⟨c', by rwa [hmem r hrq], ?_⟩
        rw [huk] at hc'
        obtain rfl := R.ptr_unique hc hc'
        exact ih ht hTk hmod hs (Nat.mod_lt _ (pow_pos R.width_pos _)) hm
    · refine ho.missing hu huk hm (fun i _ _ => by rw [hmem r hrq]) fun p hp => hmem p fun e => ?_
      exact (Multiset.disjoint_left.1 hdisj) hqk (e ▸ hp)

/-! ## Positions of pages -/

variable (R) in
/-- Following the indices `ks` from the page `r` at height `l` leads to the page `q`. -/
def Reach (mem : P → Nat → W) : Nat → P → List Nat → P → Prop
  | _, r, [], q => q = r
  | 0, _, _ :: _, _ => False
  | l + 1, r, k :: ks, q => k < R.width ∧ ∃ c, R.ptr (mem r k) c ∧ Reach mem l c ks q

/-- The pages of a tree are the pages with a position in it. -/
theorem Tab.mem_iff_reach (h : Tab R mem l r T f) : q ∈ T ↔ ∃ ks, Reach R mem l r ks q := by
  induction l generalizing r T f with
  | zero =>
    rw [h.1, Multiset.mem_singleton]
    refine ⟨fun e => ⟨[], e⟩, ?_⟩
    rintro ⟨_ | ⟨k, ks⟩, hks⟩
    · exact hks
    · exact hks.elim
  | succ l ih =>
    obtain ⟨U, rfl, hU⟩ := h
    rw [Multiset.mem_cons, Multiset.mem_sum]
    constructor
    · rintro (rfl | ⟨k, hk, hq⟩)
      · exact ⟨[], rfl⟩
      · have hk := Finset.mem_range.1 hk
        rcases hU k hk with ⟨-, h0, -⟩ | ⟨c, hc, ht⟩
        · rw [h0] at hq
          exact absurd hq (Multiset.notMem_zero q)
        · obtain ⟨ks, hks⟩ := (ih ht).1 hq
          exact ⟨k :: ks, hk, c, hc, hks⟩
    · rintro ⟨_ | ⟨k, ks⟩, hks⟩
      · exact .inl hks
      · obtain ⟨hk, c, hc, hks⟩ := hks
        exact .inr ⟨k, Finset.mem_range.2 hk, (ih (Entry.tab_of_ptr (hU k hk) hc)).2 ⟨ks, hks⟩⟩

/-- The words of a page above the bottom level are dead or pointers. -/
theorem Tab.inner (h : Tab R mem l r T f) {ks : List Nat} (hks : Reach R mem l r ks q)
    (hlen : ks.length < l) (hk : k < R.width) : R.dead (mem q k) ∨ ∃ c, R.ptr (mem q k) c := by
  induction l generalizing r T f ks with
  | zero => exact absurd hlen (Nat.not_lt_zero _)
  | succ l ih =>
    obtain ⟨U, rfl, hU⟩ := h
    cases ks with
    | nil =>
      obtain rfl := hks
      rcases hU k hk with ⟨hd, -⟩ | ⟨c, hc, -⟩
      · exact .inl hd
      · exact .inr ⟨c, hc⟩
    | cons i ks =>
      obtain ⟨hi, c, hc, hks⟩ := hks
      exact ih (Entry.tab_of_ptr (hU i hi) hc) hks (Nat.lt_of_succ_lt_succ hlen)

/-- A page whose position starts with another index lies in the rest of the tree. -/
theorem Others.mem_of_reach (h : Others R mem l r k T f) {i : Nat} {ks : List Nat} (hi : i ≠ k)
    (hks : Reach R mem (l + 1) r (i :: ks) q) : q ∈ T := by
  obtain ⟨U, rfl, hU⟩ := h
  obtain ⟨hlt, c, hc, hks⟩ := hks
  refine Multiset.mem_sum.2 ⟨i, Finset.mem_erase.2 ⟨hi, Finset.mem_range.2 hlt⟩, ?_⟩
  exact (Entry.tab_of_ptr (hU i hlt hi) hc).mem_iff_reach.2 ⟨ks, hks⟩

/-- A tree that uses no page twice has each of its pages at one position. -/
theorem Tab.reach_unique (h : Tab R mem l r T f) (hT : T.Nodup) {ks ks' : List Nat}
    (hks : Reach R mem l r ks q) (hks' : Reach R mem l r ks' q) : ks = ks' := by
  induction l generalizing r T f ks ks' with
  | zero =>
    cases ks with
    | nil =>
      cases ks' with
      | nil => rfl
      | cons k' ks' => exact hks'.elim
    | cons k ks => exact hks.elim
  | succ l ih =>
    -- a page below the root is not the root itself
    have hroot : ∀ k ks, ¬ Reach R mem (l + 1) r (k :: ks) r := by
      rintro k ks ⟨hk, c, hc, hks⟩
      obtain ⟨Tk, Ts, rfl, he, -⟩ := h.split hk
      refine (Multiset.nodup_cons.1 hT).1 (Multiset.mem_add.2 (.inl ?_))
      exact (he.tab_of_ptr hc).mem_iff_reach.2 ⟨ks, hks⟩
    cases ks with
    | nil =>
      obtain rfl := hks
      cases ks' with
      | nil => rfl
      | cons k' ks' => exact absurd hks' (hroot k' ks')
    | cons k ks =>
      cases ks' with
      | nil =>
        obtain rfl := hks'
        exact absurd hks (hroot k ks)
      | cons k' ks' =>
        have hfull := hks'
        obtain ⟨hk, c, hc, hks⟩ := hks
        obtain ⟨-, c', hc', hks'⟩ := hks'
        obtain ⟨Tk, Ts, rfl, he, ho⟩ := h.split hk
        obtain ⟨hTk, -, hdisj⟩ := Multiset.nodup_add.1 (Multiset.nodup_cons.1 hT).2
        have ht := he.tab_of_ptr hc
        by_cases hkk : k' = k
        · subst hkk
          obtain rfl := R.ptr_unique hc hc'
          rw [ih ht hTk hks hks']
        · refine absurd (ho.mem_of_reach hkk hfull) (Multiset.disjoint_left.1 hdisj ?_)
          exact ht.mem_iff_reach.2 ⟨ks, hks⟩

end Radix
