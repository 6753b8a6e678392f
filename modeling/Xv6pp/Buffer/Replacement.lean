import Xv6pp.Lib.Machine
import Xv6pp.Buffer.BufferCache
import Mathlib.Data.List.Pairwise
import Mathlib.Data.Fintype.Basic

/-!
# Which buffer is recycled

A buffer is used last when `relse` brings its count to zero.  The list of buffers is kept with the most
recent at the front, where `read` moves a buffer and from whose other end it looks for one to recycle; but
`relse` moves the buffer to the back.  So among the buffers without references, those that were never used
come first and those that were used follow in the order of their last use, and `read` recycles the one that
was used *last*.  It recycles the one whose last use is the oldest only if there is no choice, or if all of
them are as they were at boot.
-/

set_option autoImplicit false

namespace Xv6pp

/-- The cache, and when its buffers were used last. -/
structure Usage where
  cache : Cache
  /-- The number of times a count was brought to zero. -/
  clock : Nat
  /-- When each buffer was used last; before boot if it was never used. -/
  last : BufId → Int

/-- A call. -/
inductive UsageAct
  | read (dev block : Nat)
  | relse (i : BufId)

namespace Usage

/-- At boot, the buffer at the back of the list is the oldest. -/
def init : Usage := ⟨.init, 0, fun i => -(i.val : Int) - 1⟩

/-- `buffer_cache::relse`, noting the use. -/
def relse (s : Usage) (i : BufId) : Usage :=
  if ((s.cache.relse i).storage i).refcnt = 0 then
    ⟨s.cache.relse i, s.clock + 1, Function.update s.last i s.clock⟩
  else { s with cache := s.cache.relse i }

/-- One call.  Whoever calls `relse` holds the lock of the buffer, and so a reference. -/
def step (s : Usage) : UsageAct → Option (Except Panic Usage)
  | .read dev block => some ((s.cache.read dev block).map fun r => { s with cache := r.2 })
  | .relse i => if 0 < (s.cache.storage i).refcnt then some (.ok (s.relse i)) else none

/-- The buffers without references, from front to back. -/
def free (s : Usage) : List BufId := s.cache.lru.filter fun i => (s.cache.storage i).refcnt = 0

/-- Of two buffers without references, `i` is nearer to the front: neither was used, and `j` was further
back at boot, or `j` was used after `i`. -/
def Before (s : Usage) (i j : BufId) : Prop :=
  s.last j < s.last i ∧ s.last i < 0 ∨ s.last i < s.last j ∧ 0 ≤ s.last j

/-- The order of the list. -/
structure Ordered (s : Usage) : Prop where
  complete : s.cache.Complete
  past : ∀ i, s.last i < s.clock
  free : s.free.Pairwise s.Before

variable {s s' : Usage} {i j : BufId}

theorem mem_free (h : s.cache.Complete) : i ∈ s.free ↔ (s.cache.storage i).refcnt = 0 := by
  rw [Usage.free, List.mem_filter, decide_eq_true_iff]
  exact and_iff_right (h.2 i)

theorem ordered_init : Ordered init := by
  refine ⟨Cache.complete_init, fun i => ?_, ?_⟩
  · simp only [init]
    omega
  · refine List.Pairwise.sublist List.filter_sublist ?_
    refine (List.pairwise_lt_finRange NBUF).imp fun {i j} hij => .inl ?_
    simp only [init]
    omega

/-- A buffer is taken: the others keep their order. -/
theorem Ordered.take {c : Cache} (h : Ordered s) (hc : c.Complete) (i : BufId)
    (hlru : c.lru = i :: s.cache.lru.erase i) (hi : (c.storage i).refcnt ≠ 0)
    (hothers : ∀ j ≠ i, (c.storage j).refcnt = (s.cache.storage j).refcnt) :
    Ordered { s with cache := c } := by
  refine ⟨hc, h.past, ?_⟩
  have hfree : Usage.free { s with cache := c } = (s.cache.lru.erase i).filter fun j =>
      (s.cache.storage j).refcnt = 0 := by
    rw [Usage.free, hlru, List.filter_cons_of_neg (by simpa using hi)]
    refine List.filter_congr fun j hj => ?_
    have hji : j ≠ i := fun hji => (h.complete.1.not_mem_erase) (hji ▸ hj)
    rw [hothers j hji]
  rw [hfree]
  exact h.free.sublist ((List.erase_sublist).filter _)

theorem Ordered.read {dev block : Nat} {c : Cache} (h : Ordered s)
    (hread : s.cache.read dev block = .ok (i, c)) : Ordered { s with cache := c } := by
  have hlru : ∀ c' : Cache, c'.lru = s.cache.lru → (∀ j, (c'.storage j).refcnt =
      (s.cache.storage j).refcnt) → Ordered { s with cache := c'.take i } := by
    intro c' hlru hrefcnt
    have hcomplete : c'.Complete := h.complete.perm (by rw [hlru])
    refine h.take (hcomplete.take i) i ?_ ?_ fun j hj => ?_
    · rw [Cache.take, hlru]
    · rw [Cache.take_storage, if_pos rfl]
      exact Nat.succ_ne_zero _
    · rw [Cache.take_storage, if_neg hj, hrefcnt]
  obtain ⟨-, -, rfl⟩ | ⟨-, -, rfl⟩ := Cache.read_cases h.complete hread
  · exact hlru _ rfl fun _ => rfl
  · refine hlru _ rfl fun j => ?_
    rw [Cache.assign, Cache.set_storage]
    split
    · next hji => rw [hji]
    · rfl

/-- **The last reference goes**: the buffer is behind all others. -/
theorem Ordered.relse (h : Ordered s) (hi : 0 < (s.cache.storage i).refcnt) :
    Ordered (s.relse i) := by
  have hothers : ∀ j ≠ i, ((s.cache.relse i).storage j).refcnt = (s.cache.storage j).refcnt :=
    fun j hj => by rw [Cache.relse_storage, if_neg hj]
  have hnot : i ∉ s.free := fun hmem => by
    rw [mem_free h.complete] at hmem
    omega
  rw [Usage.relse]
  split
  · next hzero =>
    refine ⟨h.complete.relse i, fun j => ?_, ?_⟩
    · have hj := h.past j
      simp only [Function.update_apply]
      push_cast
      split <;> omega
    · have hfree : Usage.free ⟨s.cache.relse i, s.clock + 1, Function.update s.last i s.clock⟩ =
          (s.cache.lru.erase i).filter (fun j => (s.cache.storage j).refcnt = 0) ++ [i] := by
        have hlru : (s.cache.relse i).lru = s.cache.lru.erase i ++ [i] := by
          rw [Cache.relse_storage, if_pos rfl] at hzero
          rw [Cache.relse, Cache.set_storage, if_pos rfl, if_pos hzero]
          rfl
        rw [Usage.free, hlru, List.filter_append, List.filter_cons_of_pos (by simpa using hzero)]
        refine congrArg (· ++ [i]) (List.filter_congr fun j hj => ?_)
        rw [hothers j fun hji => h.complete.1.not_mem_erase (hji ▸ hj)]
      have hsub : ((s.cache.lru.erase i).filter fun j => (s.cache.storage j).refcnt = 0).Sublist
          s.free := List.erase_sublist.filter _
      have hne : ∀ j ∈ (s.cache.lru.erase i).filter fun j => (s.cache.storage j).refcnt = 0, j ≠ i :=
        fun j hj hji => hnot (hji ▸ hsub.subset hj)
      rw [hfree, List.pairwise_append]
      refine ⟨(h.free.sublist hsub).imp_of_mem fun {j k} hj hk hjk => ?_, List.pairwise_singleton _ _,
        fun j hj k hk => ?_⟩
      · simp only [Before, Function.update_of_ne (hne j hj), Function.update_of_ne (hne k hk)]
        exact hjk
      · rw [List.mem_singleton.1 hk]
        refine .inr ?_
        simp only [Function.update_self, Function.update_of_ne (hne j hj)]
        exact ⟨h.past j, Int.natCast_nonneg _⟩
  · next hzero =>
    refine ⟨h.complete.relse i, h.past, ?_⟩
    have hlru : (s.cache.relse i).lru = s.cache.lru := by
      rw [Cache.relse_storage, if_pos rfl] at hzero
      rw [Cache.relse, Cache.set_storage, if_pos rfl, if_neg hzero]
      rfl
    have hfree : Usage.free { s with cache := s.cache.relse i } = s.free := by
      rw [Usage.free, Usage.free, hlru]
      refine List.filter_congr fun j _ => ?_
      by_cases hj : j = i
      · subst hj
        simp only [hzero, show (s.cache.storage j).refcnt ≠ 0 by omega]
      · rw [hothers j hj]
    rw [hfree]
    exact h.free

theorem Ordered.step {a : UsageAct} (h : Ordered s) (hs : s.step a = some (.ok s')) : Ordered s' := by
  cases a with
  | read dev block =>
    rw [Usage.step] at hs
    cases hread : s.cache.read dev block with
    | error e =>
      rw [hread] at hs
      cases hs
    | ok r =>
      rw [hread] at hs
      cases hs
      exact h.read hread
  | relse i =>
    rw [Usage.step] at hs
    split at hs
    · next hi =>
      cases hs
      exact h.relse hi
    · cases hs

/-- The buffer that is recycled is behind all others without references. -/
theorem Ordered.victim (h : Ordered s) (hi : s.cache.victim = some i)
    (hj : (s.cache.storage j).refcnt = 0) (hji : j ≠ i) : s.Before j i := by
  rw [Cache.victim, List.find?_eq_some_iff_append] at hi
  obtain ⟨hzero, back, front, hlru, hback⟩ := hi
  have hlru : s.cache.lru = front.reverse ++ i :: back.reverse := by
    rw [← List.reverse_reverse s.cache.lru, hlru]
    simp
  have hfree : s.free = (front.reverse.filter fun j => (s.cache.storage j).refcnt = 0) ++ [i] := by
    have hnone : back.reverse.filter (fun j => decide ((s.cache.storage j).refcnt = 0)) = [] := by
      rw [List.filter_eq_nil_iff]
      intro k hk
      simpa using hback k (List.mem_reverse.1 hk)
    rw [Usage.free, hlru, List.filter_append, List.filter_cons_of_pos (by simpa using hzero), hnone]
  have hmem : j ∈ s.free := (mem_free h.complete).2 hj
  have hpairs := h.free
  rw [hfree, List.mem_append, List.mem_singleton] at hmem
  rw [hfree, List.pairwise_append] at hpairs
  exact hpairs.2.2 j (hmem.resolve_right hji) i (List.mem_singleton_self i)

end Usage

/-- A `read` misses and recycles the buffer `i`. -/
def Cache.Recycles (c : Cache) (dev block : Nat) (i : BufId) : Prop :=
  c.lookup dev block = none ∧ ∃ c', c.read dev block = .ok (i, c')

theorem Cache.Recycles.victim {c : Cache} {dev block : Nat} {i : BufId} (h : c.Recycles dev block i) :
    c.victim = some i := by
  obtain ⟨hnone, c', hread⟩ := h
  rw [Cache.read, hnone] at hread
  cases hv : c.victim with
  | none =>
    rw [hv] at hread
    cases hread
  | some j =>
    rw [hv] at hread
    cases hread
    rfl

/-- **The replacement policy**, in every state that calls of `read` and `relse` lead to: a buffer that is
recycled is one whose last use is the oldest if and only if no buffer without references was ever used, or
only one buffer is without references. -/
theorem lru_iff {as : List UsageAct} {s : Usage} (hs : Machine.Run Usage.step .init as s)
    {dev block : Nat} {i : BufId} (hmiss : s.cache.Recycles dev block i) :
    (∀ j, (s.cache.storage j).refcnt = 0 → s.last i ≤ s.last j) ↔
      (∀ j, (s.cache.storage j).refcnt = 0 → s.last j < 0) ∨
      ∀ j k, (s.cache.storage j).refcnt = 0 → (s.cache.storage k).refcnt = 0 → j = k := by
  have hord : s.Ordered := hs.invariant (P := Usage.Ordered) Usage.ordered_init
    fun _ _ _ h hstep => h.step hstep
  have hvictim := hmiss.victim
  have hi := Cache.victim_some hvictim
  constructor
  · intro holdest
    -- a buffer that was used would be younger than the one recycled, unless it is that one
    by_cases hused : ∀ j, (s.cache.storage j).refcnt = 0 → s.last j < 0
    · exact .inl hused
    · obtain ⟨j, hj, hlast⟩ : ∃ j, (s.cache.storage j).refcnt = 0 ∧ 0 ≤ s.last j := by
        by_contra hno
        exact hused fun j hj => lt_of_not_ge fun hge => hno ⟨j, hj, hge⟩
      have honly : ∀ k, (s.cache.storage k).refcnt = 0 → k = i := by
        intro k hk
        by_contra hki
        have hik := holdest k hk
        have hij := holdest j hj
        rcases hord.victim hvictim hk hki with ⟨hlt, hneg⟩ | ⟨hlt, -⟩
        · by_cases hji : j = i
          · subst hji
            omega
          · rcases hord.victim hvictim hj hji with ⟨-, hneg'⟩ | ⟨hlt', -⟩ <;> omega
        · omega
      exact .inr fun k l hk hl => (honly k hk).trans (honly l hl).symm
  · rintro (hnever | honly) j hj
    · by_cases hji : j = i
      · rw [hji]
      · have hneg := hnever i hi
        rcases hord.victim hvictim hj hji with ⟨hlt, -⟩ | ⟨-, hpos⟩ <;> omega
    · rw [honly j i hj hi]

/-- A block is read and released, and another one is read. -/
def readTwo : List UsageAct := [.read 1 5, .relse ⟨29, by decide⟩]

/-- Thirty blocks are read, and one of them is released. -/
def readAll : List UsageAct :=
  (List.range NBUF).map (fun b => .read 1 (5 + b)) ++ [.relse ⟨7, by decide⟩]

theorem readTwo_run : ∃ s, Machine.Run Usage.step .init readTwo s ∧
    s.cache.Recycles 1 6 ⟨29, by decide⟩ ∧ (s.cache.storage ⟨28, by decide⟩).refcnt = 0 ∧
    s.last ⟨29, by decide⟩ = 0 ∧ s.last ⟨28, by decide⟩ = -29 := by
  obtain ⟨s, hs, hrest⟩ : ∃ s, Machine.exec Usage.step readTwo .init = some (.ok s) ∧
      s.cache.Recycles 1 6 ⟨29, by decide⟩ ∧ (s.cache.storage ⟨28, by decide⟩).refcnt = 0 ∧
      s.last ⟨29, by decide⟩ = 0 ∧ s.last ⟨28, by decide⟩ = -29 := by
    refine ⟨_, rfl, ⟨?_, _, rfl⟩, ?_, ?_, ?_⟩ <;> decide +kernel
  exact ⟨s, Machine.run_of_exec hs, hrest⟩

/-- When all other buffers are in use, the one that was released is the oldest; and it is not when there
are others. -/
theorem lru_iff_reads : (∃ s, Machine.Run Usage.step .init readAll s ∧
      s.cache.Recycles 1 4 ⟨7, by decide⟩ ∧
      ∀ j, (s.cache.storage j).refcnt = 0 → s.last ⟨7, by decide⟩ ≤ s.last j) ∧
    ∃ s, Machine.Run Usage.step .init readTwo s ∧ s.cache.Recycles 1 6 ⟨29, by decide⟩ ∧
      ¬ ∀ j, (s.cache.storage j).refcnt = 0 → s.last ⟨29, by decide⟩ ≤ s.last j := by
  constructor
  · obtain ⟨s, hs, hmiss, hall⟩ : ∃ s, Machine.exec Usage.step readAll .init = some (.ok s) ∧
        s.cache.Recycles 1 4 ⟨7, by decide⟩ ∧
        ∀ j, (s.cache.storage j).refcnt = 0 → j = ⟨7, by decide⟩ := by
      refine ⟨_, rfl, ⟨?_, _, rfl⟩, ?_⟩ <;> decide +kernel
    have hrun := Machine.run_of_exec hs
    exact ⟨s, hrun, hmiss, (lru_iff hrun hmiss).2
      (.inr fun j k hj hk => (hall j hj).trans (hall k hk).symm)⟩
  · obtain ⟨s, hrun, hmiss, hfree, h₁, h₂⟩ := readTwo_run
    refine ⟨s, hrun, hmiss, fun holdest => ?_⟩
    rcases (lru_iff hrun hmiss).1 holdest with hnever | honly
    · have hlt := hnever _ (Cache.victim_some hmiss.victim)
      rw [h₁] at hlt
      omega
    · have heq := honly _ _ hfree (Cache.victim_some hmiss.victim)
      exact absurd heq (by decide)

/-- The buffer that was just released is recycled, although the others were never used. -/
theorem recycles_last_used : ¬ ∀ (as : List UsageAct) (s : Usage) (dev block : Nat) (i : BufId),
    Machine.Run Usage.step .init as s → s.cache.Recycles dev block i →
    ∀ j, (s.cache.storage j).refcnt = 0 → s.last i ≤ s.last j := by
  intro h
  obtain ⟨s, hrun, hmiss, hfree, h₁, h₂⟩ := readTwo_run
  have hle := h _ s 1 6 _ hrun hmiss _ hfree
  rw [h₁, h₂] at hle
  omega

end Xv6pp
