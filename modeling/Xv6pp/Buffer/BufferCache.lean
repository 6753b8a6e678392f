import Xv6pp.Buffer.BufM
import Mathlib.Data.List.Perm.Basic

/-!
# The buffer cache of `kernel/buffer_cache.cpp`

The cache has `NBUF` buffers in static storage, linked into a list whose order decides which buffer
is recycled.  `read` looks the block up from the front of the list; when it is not there it takes
the first unreferenced buffer from the back.  Either way the buffer moves to the front, and `relse`
moves it to the back when its last reference is gone.

The functions here are the sections that run under the cache's spin lock.  The intrusive list is
the list of the buffers' indices, front first.  `refcnt` is an `unsigned int`: counting up is never
near its limit, but counting down from zero wraps, and `decr` says so.
-/

set_option autoImplicit false

namespace Xv6pp

/-- `struct buf`, less the lock and the list links. -/
structure Buf where
  /-- Has data been read from disk? -/
  valid : Bool
  /-- The device. -/
  dev : Nat
  /-- The block number. -/
  blockno : Nat
  /-- How many hold the buffer. -/
  refcnt : Nat
  /-- The data. -/
  data : Block

/-- The index of a buffer in `storage`. -/
abbrev BufId : Type := Fin NBUF

/-- `class buffer_cache`. -/
structure Cache where
  /-- The buffers. -/
  storage : BufId → Buf
  /-- The list of buffers, front first. -/
  lru : List BufId

namespace Cache

/-- `buffer_cache::buffer_cache`: the static storage is zero, and the buffers are pushed in
order. -/
def init : Cache where
  storage _ := ⟨false, 0, 0, 0, Bytes.zero BSIZE⟩
  lru := List.finRange NBUF

/-- Replace buffer `i`. -/
def set (c : Cache) (i : BufId) (b : Buf) : Cache :=
  { c with storage := Function.update c.storage i b }

/-- The buffer that caches `block`, if there is one. -/
def lookup (c : Cache) (dev block : Nat) : Option BufId :=
  c.lru.find? fun i => (c.storage i).dev == dev && (c.storage i).blockno == block

/-- The unreferenced buffer nearest to the back of the list. -/
def victim (c : Cache) : Option BufId := c.lru.reverse.find? fun i => (c.storage i).refcnt == 0

/-- `b->refcnt++`, then `cache.remove(b); cache.push_front(b)`. -/
def take (c : Cache) (i : BufId) : Cache where
  storage := Function.update c.storage i
    { c.storage i with refcnt := (c.storage i).refcnt + 1 }
  lru := i :: c.lru.erase i

/-- `b->dev = device; b->blockno = block; b->valid = 0`. -/
def assign (c : Cache) (i : BufId) (dev block : Nat) : Cache :=
  c.set i { c.storage i with dev := dev, blockno := block, valid := false }

/-- The critical section of `buffer_cache::read`. -/
def read (c : Cache) (dev block : Nat) : Except Panic (BufId × Cache) :=
  match c.lookup dev block with
  | some i => .ok (i, c.take i)
  | none =>
    match c.victim with
    | none => .error .noBuffers
    | some i => .ok (i, (c.assign i dev block).take i)

/-- `n--` on an `unsigned int`. -/
def decr (n : Nat) : Nat := if n = 0 then 2 ^ 32 - 1 else n - 1

/-- The critical section of `buffer_cache::relse`. -/
def relse (c : Cache) (i : BufId) : Cache :=
  let c' := c.set i { c.storage i with refcnt := decr (c.storage i).refcnt }
  if (c'.storage i).refcnt = 0 then { c' with lru := c'.lru.erase i ++ [i] } else c'

/-- `buffer_cache::pin`. -/
def pin (c : Cache) (i : BufId) : Cache :=
  c.set i { c.storage i with refcnt := (c.storage i).refcnt + 1 }

/-- `buffer_cache::unpin`. -/
def unpin (c : Cache) (i : BufId) : Except Panic Cache :=
  if (c.storage i).refcnt = 0 then .error .refcntUnderflow
  else .ok (c.set i { c.storage i with refcnt := decr (c.storage i).refcnt })

/-- The rest of `buffer_cache::read`, under the buffer's sleep lock: read the block from the disk
`disk` unless the buffer is valid. -/
def fill (c : Cache) (i : BufId) (disk : Nat → Block) : Cache :=
  if (c.storage i).valid then c
  else c.set i { c.storage i with valid := true, data := disk (c.storage i).blockno }

/-! ## What the list always looks like -/

/-- The list holds every buffer exactly once. -/
def Complete (c : Cache) : Prop := c.lru.Nodup ∧ ∀ i, i ∈ c.lru

theorem complete_init : Complete init := ⟨List.nodup_finRange NBUF, List.mem_finRange⟩

theorem Complete.perm {c c' : Cache} (h : Complete c) (hp : c'.lru.Perm c.lru) : Complete c' :=
  ⟨hp.nodup_iff.2 h.1, fun i => hp.mem_iff.2 (h.2 i)⟩

theorem Complete.take {c : Cache} (h : Complete c) (i : BufId) : Complete (c.take i) :=
  h.perm (List.perm_cons_erase (h.2 i)).symm

theorem Complete.relse {c : Cache} (h : Complete c) (i : BufId) : Complete (c.relse i) := by
  simp only [Cache.relse]
  split
  · refine h.perm ?_
    show (c.lru.erase i ++ [i]).Perm c.lru
    exact (List.perm_append_singleton i _).trans (List.perm_cons_erase (h.2 i)).symm
  · exact h

/-! ## Looking up -/

theorem lookup_some {c : Cache} {dev block : Nat} {i : BufId} (h : c.lookup dev block = some i) :
    (c.storage i).dev = dev ∧ (c.storage i).blockno = block := by
  have h := List.find?_some h
  simpa using h

theorem lookup_none {c : Cache} (hc : Complete c) {dev block : Nat}
    (h : c.lookup dev block = none) (i : BufId) :
    ¬ ((c.storage i).dev = dev ∧ (c.storage i).blockno = block) := by
  have h := List.find?_eq_none.1 h i (hc.2 i)
  simpa using h

theorem victim_some {c : Cache} {i : BufId} (h : c.victim = some i) :
    (c.storage i).refcnt = 0 := by
  have h := List.find?_some h
  simpa using h

/-- **What `read` does**: it finds the buffer of the block, or turns an unreferenced buffer of
another block into it, and counts one more reference. -/
theorem read_cases {c c' : Cache} (hc : Complete c) {dev block : Nat} {i : BufId}
    (h : c.read dev block = .ok (i, c')) :
    ((c.storage i).dev = dev ∧ (c.storage i).blockno = block ∧ c' = c.take i) ∨
    ((∀ j, ¬ ((c.storage j).dev = dev ∧ (c.storage j).blockno = block)) ∧
      (c.storage i).refcnt = 0 ∧ c' = (c.assign i dev block).take i) := by
  rw [read] at h
  split at h
  · next j hj =>
    cases h
    obtain ⟨hd, hb⟩ := lookup_some hj
    exact Or.inl ⟨hd, hb, rfl⟩
  · next hnone =>
    split at h
    · cases h
    · next j hj =>
      cases h
      exact Or.inr ⟨lookup_none hc hnone, victim_some hj, rfl⟩

/-! ## What the sections do to one buffer -/

theorem take_storage (c : Cache) (i j : BufId) : (c.take i).storage j =
    if j = i then { c.storage i with refcnt := (c.storage i).refcnt + 1 } else c.storage j := by
  simp only [take, Function.update_apply]

theorem set_storage (c : Cache) (i j : BufId) (b : Buf) :
    (c.set i b).storage j = if j = i then b else c.storage j := by
  simp only [set, Function.update_apply]

theorem relse_storage (c : Cache) (i j : BufId) : (c.relse i).storage j =
    if j = i then { c.storage i with refcnt := decr (c.storage i).refcnt } else c.storage j := by
  rw [relse]
  split <;> exact set_storage ..

theorem pin_storage (c : Cache) (i j : BufId) : (c.pin i).storage j =
    if j = i then { c.storage i with refcnt := (c.storage i).refcnt + 1 } else c.storage j :=
  set_storage ..

end Cache

end Xv6pp
