import Mathlib.Data.Fintype.Card
import Xv6pp.Buffer.BufferCache
import Xv6pp.Buffer.IntrusiveDlist

/-!
# The buffer cache at pointer level

The sections of `kernel/buffer_cache.cpp` that run under the cache's spin lock, on the links of the
buffers instead of on a sequence of indices.  Where the links stand for the sequence, they do what the
functions of `BufferCache` say, so that whatever is shown of those holds of the linked list.
-/

set_option autoImplicit false

namespace Xv6pp

/-- `class buffer_cache`, with the links. -/
structure LinkedCache where
  storage : BufId → Buf
  cache : IntrusiveDlist BufId

namespace LinkedCache

/-- The constructor pushes the buffers in order. -/
def init : LinkedCache where
  storage _ := ⟨false, 0, 0, 0, Bytes.zero BSIZE⟩
  cache := (List.finRange NBUF).foldl IntrusiveDlist.pushBack IntrusiveDlist.nil

/-- `while (b != nullptr && !found(b)) b = link(b)`, over at most `n` buffers. -/
def search (link : BufId → Option BufId) (found : BufId → Bool) : Nat → Option BufId → Option BufId
  | 0, b => b
  | _ + 1, none => none
  | n + 1, some b => if found b then some b else search link found n (link b)

/-- `b->refcnt++`, then `cache.remove(b); cache.push_front(b)`. -/
def take (c : LinkedCache) (i : BufId) : LinkedCache where
  storage := Function.update c.storage i { c.storage i with refcnt := (c.storage i).refcnt + 1 }
  cache := (c.cache.remove i).pushFront i

/-- The critical section of `buffer_cache::read`. -/
def read (c : LinkedCache) (dev block : Nat) : Except Panic (BufId × LinkedCache) :=
  match search c.cache.next (fun i => (c.storage i).dev == dev && (c.storage i).blockno == block) NBUF
      c.cache.front with
  | some i => .ok (i, c.take i)
  | none =>
    match search c.cache.prev (fun i => (c.storage i).refcnt == 0) NBUF c.cache.back with
    | none => .error .noBuffers
    | some i =>
      let b := { c.storage i with dev := dev, blockno := block, valid := false }
      .ok (i, ({ c with storage := Function.update c.storage i b } : LinkedCache).take i)

/-- The critical section of `buffer_cache::relse`. -/
def relse (c : LinkedCache) (i : BufId) : LinkedCache :=
  let refcnt := Cache.decr (c.storage i).refcnt
  let storage := Function.update c.storage i { c.storage i with refcnt := refcnt }
  if refcnt = 0 then ⟨storage, (c.cache.remove i).pushBack i⟩ else ⟨storage, c.cache⟩

/-! ## Refinement -/

/-- The linked cache is the cache `a`. -/
structure Refines (c : LinkedCache) (a : Cache) : Prop where
  storage : c.storage = a.storage
  cache : c.cache.Represents a.lru

/-- The search follows the chain. -/
theorem search_eq {link : BufId → Option BufId} {found : BufId → Bool} {n : Nat} {o : Option BufId}
    {xs : List BufId} (h : IntrusiveDlist.Chain link o xs none) (hn : xs.length ≤ n) :
    search link found n o = xs.find? found := by
  induction xs generalizing n o with
  | nil =>
    rw [show o = none from h]
    cases n <;> rfl
  | cons x xs ih =>
    obtain ⟨rfl, h⟩ := h
    cases n with
    | zero => exact absurd hn (Nat.not_succ_le_zero _)
    | succ n =>
      rw [search, ih h (Nat.le_of_succ_le_succ hn), List.find?_cons]
      cases found x <;> rfl

/-- The initial cache. -/
theorem init_refines : init.Refines Cache.init := by
  have hpush : ∀ (xs done : List BufId) (s : IntrusiveDlist BufId), s.Represents done →
      (done ++ xs).Nodup → (xs.foldl IntrusiveDlist.pushBack s).Represents (done ++ xs) := by
    intro xs
    induction xs with
    | nil =>
      intro done s h _
      rwa [List.append_nil]
    | cons x xs ih =>
      intro done s h hnodup
      have hx : x ∉ done := fun hm => (List.nodup_append.1 hnodup).2.2 x hm x (List.mem_cons_self ..) rfl
      have hshape : done ++ x :: xs = done ++ [x] ++ xs := by
        rw [List.append_assoc]
        rfl
      rw [hshape] at hnodup ⊢
      exact ih _ _ (h.pushBack hx).1 hnodup
  exact ⟨rfl, hpush _ [] _ IntrusiveDlist.nil_represents (List.nodup_finRange NBUF)⟩

section
variable {c : LinkedCache} {a : Cache}

theorem Refines.take (h : c.Refines a) {i : BufId} (hi : i ∈ a.lru) : (c.take i).Refines (a.take i) := by
  refine ⟨?_, (h.cache.moveFront hi).1⟩
  rw [LinkedCache.take, Cache.take, h.storage]

/-- **`read`** on the links does what it does on the sequence. -/
theorem Refines.read (h : c.Refines a) (ha : a.Complete) (dev block : Nat) :
    (∃ i c' a', c.read dev block = .ok (i, c') ∧ a.read dev block = .ok (i, a') ∧ c'.Refines a') ∨
      c.read dev block = .error .noBuffers ∧ a.read dev block = .error .noBuffers := by
  have hlength : a.lru.length ≤ NBUF := by
    have := List.Nodup.length_le_card ha.1
    rwa [Fintype.card_fin] at this
  have hlength' : a.lru.reverse.length ≤ NBUF := by rwa [List.length_reverse]
  have hfront := @search_eq _ (fun i => (c.storage i).dev == dev && (c.storage i).blockno == block) _ _ _
    h.cache.next hlength
  have hback := @search_eq _ (fun i => (c.storage i).refcnt == 0) _ _ _ h.cache.prev
    hlength'
  have hlookup : a.lookup dev block =
      a.lru.find? fun i => (c.storage i).dev == dev && (c.storage i).blockno == block := by
    rw [h.storage]
    rfl
  have hvictim : a.victim = a.lru.reverse.find? fun i => (c.storage i).refcnt == 0 := by
    rw [h.storage]
    rfl
  rw [LinkedCache.read, Cache.read, IntrusiveDlist.front, IntrusiveDlist.back, hfront, hback, ← hlookup,
    ← hvictim]
  cases a.lookup dev block with
  | some i => exact .inl ⟨i, _, _, rfl, rfl, h.take (ha.2 i)⟩
  | none =>
    cases a.victim with
    | none => exact .inr ⟨rfl, rfl⟩
    | some i =>
      have hassign : Refines ⟨Function.update c.storage i
          { c.storage i with dev := dev, blockno := block, valid := false }, c.cache⟩
          (a.assign i dev block) := by
        refine ⟨?_, h.cache⟩
        rw [Cache.assign, Cache.set, h.storage]
      exact .inl ⟨i, _, _, rfl, rfl, hassign.take (ha.2 i)⟩

/-- **`relse`** on the links does what it does on the sequence. -/
theorem Refines.relse (h : c.Refines a) (ha : a.Complete) (i : BufId) :
    (c.relse i).Refines (a.relse i) := by
  rw [LinkedCache.relse, Cache.relse, Cache.set, h.storage]
  simp only [Function.update_self]
  split
  · exact ⟨rfl, (h.cache.moveBack (ha.2 i)).1⟩
  · exact ⟨rfl, h.cache⟩

end

end LinkedCache

end Xv6pp
