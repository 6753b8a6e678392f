import Xv6pp.Buffer.BufferCache
import Xv6pp.Log.Admission
import Mathlib.Algebra.BigOperators.Group.Finset.Basic
import Mathlib.Algebra.Order.BigOperators.Group.Finset

/-!
# Buffer identity and pinning

Any number of processes use the buffer cache and, through it, the log.  Each section under the
cache's spin lock is one step, and the steps of the processes interleave in any order with the steps
of `LogUsers`.  A process reads and releases buffers as it likes; a `log_write` is made on a buffer
its caller holds, and pins it if its block is new to the header; a pass of `install_trans(false)` is
made with the destination buffer held, and unpins it.  `passed` counts the header entries the
running `install_trans(false)` has gone past.

References to a buffer therefore have two sources: reads that have not been released, and the
header.  `buffer_identity` says that `refcnt` counts exactly these, and what follows from it.
-/

set_option autoImplicit false

namespace Xv6pp

/-- The log, the cache, and the processes using them. -/
structure CacheUsers (ι : Type) where
  /-- The log and its users. -/
  users : LogUsers ι
  /-- The buffer cache. -/
  cache : Cache
  /-- The buffers each process has read and not yet released. -/
  held : ι → List BufId
  /-- How many header entries the running `install_trans(false)` has passed. -/
  passed : Nat

/-- What a process can do. -/
inductive CacheAct (ι : Type)
  /-- A step of the log that touches no buffer. -/
  | log (a : LogAct ι)
  /-- The critical section of `buffer_cache::read`. -/
  | read (p : ι) (block : Nat)
  /-- The rest of `buffer_cache::read`, the disk holding `disk`. -/
  | fill (p : ι) (i : BufId) (disk : Nat → Block)
  /-- The critical section of `buffer_cache::relse`. -/
  | relse (p : ι) (i : BufId)
  /-- `log_write` of buffer `i`. -/
  | logWrite (p : ι) (i : BufId)
  /-- One pass through the loop of `install_trans(false)`, with destination buffer `i`. -/
  | install (p : ι) (i : BufId)

namespace CacheUsers

variable {ι : Type} [DecidableEq ι]

/-- The system after boot. -/
def init (start size : Nat) (block : Nat → Nat) : CacheUsers ι where
  users := LogUsers.init start size block
  cache := Cache.init
  held _ := []
  passed := 0

/-- The blocks that `log_write` has entered into the header and the running `install_trans(false)`
has not yet passed. -/
def pinned (s : CacheUsers ι) : List Nat := s.users.log.header.blocks.drop s.passed

/-- The system after a step of the log. -/
def withUsers (s : CacheUsers ι) (passed : Nat) :
    Option (Except Panic (LogUsers ι)) → Option (Except Panic (CacheUsers ι))
  | some (.ok u) => some (.ok { s with users := u, passed := passed })
  | some (.error e) => some (.error e)
  | none => none

/-- One step. -/
def step (s : CacheUsers ι) : CacheAct ι → Option (Except Panic (CacheUsers ι))
  | .log (.logWrite _ _) => none
  | .log (.install p) =>
    match s.users.pc p with
    | .install tail =>
      -- only the exit from the loop touches no buffer
      if tail < s.users.log.header.n then none
      else s.withUsers s.passed (s.users.step (.install p))
    | _ => none
  | .log (.clear p) => s.withUsers 0 (s.users.step (.clear p))
  | .log a => s.withUsers s.passed (s.users.step a)
  | .read p block =>
    match s.cache.read ROOTDEV block with
    | .error e => some (.error e)
    | .ok (i, c) =>
      some (.ok { s with cache := c, held := Function.update s.held p (i :: s.held p) })
  | .fill p i disk =>
    if i ∈ s.held p then some (.ok { s with cache := s.cache.fill i disk }) else none
  | .relse p i =>
    if i ∈ s.held p then
      some (.ok { s with
        cache := s.cache.relse i, held := Function.update s.held p ((s.held p).erase i) })
    else none
  | .logWrite p i =>
    if i ∈ s.held p then
      match s.users.step (.logWrite p (s.cache.storage i).blockno),
        s.users.log.logWrite (s.cache.storage i).blockno with
      | some (.ok u), .ok (_, true) => some (.ok { s with users := u, cache := s.cache.pin i })
      | some (.ok u), _ => some (.ok { s with users := u })
      | some (.error e), _ => some (.error e)
      | none, _ => none
    else none
  | .install p i =>
    match s.users.pc p with
    | .install tail =>
      if tail < s.users.log.header.n ∧ i ∈ s.held p ∧
          (s.cache.storage i).blockno = s.users.log.header.block tail then
        match s.cache.unpin i with
        | .error e => some (.error e)
        | .ok c =>
          CacheUsers.withUsers { s with cache := c } (s.passed + 1) (s.users.step (.install p))
      else none
    | _ => none

/-- A run of the system. -/
abbrev Runs : CacheUsers ι → List (CacheAct ι) → CacheUsers ι → Prop := Machine.Run step

/-! ## Counting references -/

section

variable [Fintype ι]

/-- How many reads of buffer `i` have not been released. -/
def refs (s : CacheUsers ι) (i : BufId) : Nat := ∑ p, (s.held p).count i

theorem sum_count_update (f : ι → List BufId) (p : ι) (l : List BufId) (j : BufId) :
    ∑ q, (Function.update f p l q).count j + (f p).count j = ∑ q, (f q).count j + l.count j := by
  have h1 := Finset.add_sum_erase Finset.univ (fun q => (Function.update f p l q).count j)
    (Finset.mem_univ p)
  have h2 := Finset.add_sum_erase Finset.univ (fun q => (f q).count j) (Finset.mem_univ p)
  have h3 : ∑ q ∈ Finset.univ.erase p, (Function.update f p l q).count j
      = ∑ q ∈ Finset.univ.erase p, (f q).count j :=
    Finset.sum_congr rfl fun q hq => by rw [Function.update_of_ne (Finset.ne_of_mem_erase hq)]
  simp only [Function.update_self] at h1
  omega

theorem sum_count_cons (f : ι → List BufId) (p : ι) (i j : BufId) :
    ∑ q, (Function.update f p (i :: f p) q).count j
      = ∑ q, (f q).count j + if j = i then 1 else 0 := by
  have h := sum_count_update f p (i :: f p) j
  rw [List.count_cons] at h
  by_cases hij : j = i
  · subst hij; simp at h ⊢; omega
  · have hji : ¬ i = j := fun h => hij h.symm
    simp [hij, hji] at h ⊢
    omega

theorem sum_count_erase (f : ι → List BufId) (p : ι) {i : BufId} (hi : i ∈ f p) (j : BufId) :
    ∑ q, (Function.update f p ((f p).erase i) q).count j + (if j = i then 1 else 0)
      = ∑ q, (f q).count j := by
  have h := sum_count_update f p ((f p).erase i) j
  rw [List.count_erase] at h
  by_cases hij : j = i
  · subst hij
    have hpos := List.count_pos_iff.2 hi
    simp at h ⊢
    omega
  · have hji : ¬ i = j := fun h => hij h.symm
    simp [hij, hji] at h ⊢
    omega

omit [DecidableEq ι] in
theorem refs_pos {s : CacheUsers ι} {p : ι} {i : BufId} (hi : i ∈ s.held p) : 0 < s.refs i := by
  have h := Finset.single_le_sum (f := fun q => (s.held q).count i) (fun _ _ => Nat.zero_le _)
    (Finset.mem_univ p)
  exact lt_of_lt_of_le (List.count_pos_iff.2 hi) h

/-! ## The invariant -/

/-- The reference that the header holds to buffer `i`: one if its block is pinned. -/
def pins (s : CacheUsers ι) (i : BufId) : Nat :=
  if (s.cache.storage i).dev = ROOTDEV ∧ (s.cache.storage i).blockno ∈ s.pinned then 1 else 0

omit [DecidableEq ι] [Fintype ι] in
theorem pins_congr {s s' : CacheUsers ι} {i : BufId}
    (hd : (s'.cache.storage i).dev = (s.cache.storage i).dev)
    (hb : (s'.cache.storage i).blockno = (s.cache.storage i).blockno)
    (hp : s'.pinned = s.pinned) : s'.pins i = s.pins i := by
  simp only [pins, hd, hb, hp]

/-- The buffers: each block has at most one, and its references are counted. -/
structure Counted (s : CacheUsers ι) : Prop where
  /-- The list holds every buffer once. -/
  complete : s.cache.Complete
  /-- No two buffers cache the same block. -/
  unique : ∀ i j, (s.cache.storage i).dev = ROOTDEV → (s.cache.storage j).dev = ROOTDEV →
    (s.cache.storage i).blockno = (s.cache.storage j).blockno → i = j
  /-- `refcnt` counts the reads not released and the header's pin. -/
  count : ∀ i, (s.cache.storage i).refcnt = s.refs i + s.pins i
  /-- Every pinned block is cached. -/
  present : ∀ b ∈ s.pinned, ∃ i, (s.cache.storage i).dev = ROOTDEV ∧
    (s.cache.storage i).blockno = b
  /-- Only blocks of the root device are read. -/
  heldDev : ∀ p, ∀ i ∈ s.held p, (s.cache.storage i).dev = ROOTDEV

/-- How far the installation has come. -/
structure Progress (s : CacheUsers ι) : Prop where
  /-- The header's blocks are distinct. -/
  nodup : s.users.log.header.blocks.Nodup
  /-- In the loop of `install_trans` the entries before `tail` are passed. -/
  install : ∀ p t, s.users.pc p = .install t → s.passed = t
  /-- After it, all of them. -/
  clear : ∀ p, s.users.pc p = .clear → s.users.log.header.n ≤ s.passed
  /-- Outside it, none. -/
  outside : (∀ p, ¬ LogUsers.LogPc.installing (s.users.pc p)) → s.passed = 0

/-- The invariant of the system. -/
structure Inv (s : CacheUsers ι) : Prop where
  /-- That of the log's users. -/
  log : LogUsers.Control s.users ∧ LogUsers.Logged s.users
  /-- That of the buffers. -/
  buffers : s.Counted
  /-- That of the installation. -/
  progress : s.Progress

omit [DecidableEq ι] in
/-- `Counted` depends on the cache, the reads and the set of pinned blocks only. -/
theorem Counted.congr {s s' : CacheUsers ι} (h : s.Counted) (hc : s'.cache = s.cache)
    (hh : s'.held = s.held) (hp : s'.pinned = s.pinned) : s'.Counted where
  complete := hc ▸ h.complete
  unique := hc ▸ h.unique
  count i := by
    rw [pins_congr (s := s) (by rw [hc]) (by rw [hc]) hp, hc, h.count i, refs, refs, hh]
  present := by rw [hp, hc]; exact h.present
  heldDev := by rw [hh, hc]; exact h.heldDev

/-! ### Steps of the cache -/

theorem Counted.read {s s' : CacheUsers ι} (h : s.Counted) {p : ι} {block : Nat} {i : BufId}
    (hr : s.cache.read ROOTDEV block = .ok (i, s'.cache))
    (hh : s'.held = Function.update s.held p (i :: s.held p)) (hp : s'.pinned = s.pinned) :
    s'.Counted := by
  have hrefs : ∀ j, s'.refs j = s.refs j + if j = i then 1 else 0 := by
    intro j
    rw [refs, hh, sum_count_cons, refs]
  have hheld : ∀ q, ∀ j ∈ s'.held q, j = i ∨ j ∈ s.held q := by
    intro q j hj
    rw [hh] at hj
    by_cases hq : q = p
    · subst hq
      rw [Function.update_self] at hj
      exact List.mem_cons.1 hj
    · rw [Function.update_of_ne hq] at hj
      exact Or.inr hj
  rcases Cache.read_cases h.complete hr with ⟨hd, hb, hc⟩ | ⟨hno, h0, hc⟩
  · -- the block is cached: one more reference
    have hf : ∀ j, (s'.cache.storage j).dev = (s.cache.storage j).dev ∧
        (s'.cache.storage j).blockno = (s.cache.storage j).blockno ∧
        (s'.cache.storage j).refcnt = (s.cache.storage j).refcnt + if j = i then 1 else 0 := by
      intro j
      rw [hc, Cache.take_storage]
      split
      · next hj => subst hj; exact ⟨rfl, rfl, rfl⟩
      · exact ⟨rfl, rfl, rfl⟩
    refine ⟨hc ▸ h.complete.take i, fun j k => ?_, fun j => ?_, ?_, fun q j hj => ?_⟩
    · rw [(hf j).1, (hf k).1, (hf j).2.1, (hf k).2.1]
      exact h.unique j k
    · rw [(hf j).2.2, h.count j, hrefs j, pins_congr (hf j).1 (hf j).2.1 hp]
      omega
    · rw [hp]
      intro b hb
      obtain ⟨j, hj1, hj2⟩ := h.present b hb
      exact ⟨j, (hf j).1.trans hj1, (hf j).2.1.trans hj2⟩
    · rw [(hf j).1]
      rcases hheld q j hj with rfl | hj
      · exact hd
      · exact h.heldDev q j hj
  · -- the block is not cached: an unreferenced buffer is taken over
    have hzero : s.refs i = 0 ∧ s.pins i = 0 := by
      have hi := h.count i
      omega
    have hnew : s'.cache.storage i
        = ⟨false, ROOTDEV, block, 1, (s.cache.storage i).data⟩ := by
      rw [hc, Cache.take_storage, if_pos rfl, Cache.assign, Cache.set_storage, if_pos rfl]
      simp [h0]
    have hold : ∀ j, j ≠ i → s'.cache.storage j = s.cache.storage j := by
      intro j hj
      rw [hc, Cache.take_storage, if_neg hj, Cache.assign, Cache.set_storage, if_neg hj]
    -- the block was not pinned, and no pinned block loses its buffer
    have hpinned : block ∉ s.pinned := by
      intro hb
      obtain ⟨j, hj1, hj2⟩ := h.present block hb
      exact hno j ⟨hj1, hj2⟩
    refine ⟨hc ▸ Cache.Complete.take (c := s.cache.assign i ROOTDEV block) h.complete i,
      fun j k hj hk hjk => ?_, fun j => ?_, ?_, fun q j hj => ?_⟩
    · by_cases hji : j = i <;> by_cases hki : k = i
      · rw [hji, hki]
      · subst hji
        rw [hnew, hold k hki] at hjk
        rw [hold k hki] at hk
        exact absurd ⟨hk, hjk.symm⟩ (hno k)
      · subst hki
        rw [hnew, hold j hji] at hjk
        rw [hold j hji] at hj
        exact absurd ⟨hj, hjk⟩ (hno j)
      · rw [hold j hji] at hj hjk
        rw [hold k hki] at hk hjk
        exact h.unique j k hj hk hjk
    · rw [hrefs j]
      by_cases hji : j = i
      · subst hji
        have hpin : s'.pins j = 0 := by
          rw [pins, if_neg]
          rw [hnew, hp]
          exact fun hp => hpinned hp.2
        rw [hnew, hzero.1, if_pos rfl, hpin]
      · rw [pins_congr (s := s) (by rw [hold j hji]) (by rw [hold j hji]) hp, hold j hji,
          if_neg hji]
        exact h.count j
    · rw [hp]
      intro b hb
      obtain ⟨j, hj1, hj2⟩ := h.present b hb
      have hji : j ≠ i := by
        rintro rfl
        have hpin := hzero.2
        rw [pins, if_pos ⟨hj1, hj2 ▸ hb⟩] at hpin
        cases hpin
      exact ⟨j, by rw [hold j hji]; exact ⟨hj1, hj2⟩⟩
    · by_cases hji : j = i
      · rw [hji, hnew]
      · rw [hold j hji]
        exact h.heldDev q j ((hheld q j hj).resolve_left hji)

omit [DecidableEq ι] in
/-- A step that changes a buffer's `refcnt`, validity or data, but no block number. -/
theorem Counted.update {s : CacheUsers ι} (h : s.Counted) {s' : CacheUsers ι}
    (hc : s'.cache.Complete)
    (hf : ∀ j, (s'.cache.storage j).dev = (s.cache.storage j).dev ∧
      (s'.cache.storage j).blockno = (s.cache.storage j).blockno)
    (hcount : ∀ i, (s'.cache.storage i).refcnt = s'.refs i + s'.pins i)
    (hpres : ∀ b ∈ s'.pinned, ∃ i, (s.cache.storage i).dev = ROOTDEV ∧
      (s.cache.storage i).blockno = b)
    (hheld : ∀ q, ∀ j ∈ s'.held q, ∃ q', j ∈ s.held q') : s'.Counted where
  complete := hc
  unique i j := by simp only [hf]; exact h.unique i j
  count := hcount
  present b hb := by simp only [hf]; exact hpres b hb
  heldDev q j hj := by
    obtain ⟨q', hq'⟩ := hheld q j hj
    rw [(hf j).1]
    exact h.heldDev q' j hq'

omit [DecidableEq ι] in
theorem Counted.fill {s : CacheUsers ι} (h : s.Counted) (i : BufId) (disk : Nat → Block) :
    Counted { s with cache := s.cache.fill i disk } := by
  have hf : ∀ j, ((s.cache.fill i disk).storage j).dev = (s.cache.storage j).dev ∧
      ((s.cache.fill i disk).storage j).blockno = (s.cache.storage j).blockno ∧
      ((s.cache.fill i disk).storage j).refcnt = (s.cache.storage j).refcnt := by
    intro j
    rw [Cache.fill]
    split
    · exact ⟨rfl, rfl, rfl⟩
    · rw [Cache.set_storage]
      split
      · next hj => subst hj; exact ⟨rfl, rfl, rfl⟩
      · exact ⟨rfl, rfl, rfl⟩
  refine h.update ?_ (fun j => ⟨(hf j).1, (hf j).2.1⟩) (fun j => ?_) h.present
    fun q j hj => ⟨q, hj⟩
  · show (s.cache.fill i disk).Complete
    rw [Cache.fill]
    split <;> exact h.complete
  · have hpin : pins { s with cache := s.cache.fill i disk } j = s.pins j :=
      pins_congr (hf j).1 (hf j).2.1 rfl
    rw [hpin]
    exact (hf j).2.2.trans (h.count j)

theorem Counted.relse {s s' : CacheUsers ι} (h : s.Counted) {p : ι} {i : BufId}
    (hi : i ∈ s.held p) (hc : s'.cache = s.cache.relse i)
    (hh : s'.held = Function.update s.held p ((s.held p).erase i)) (hp : s'.pinned = s.pinned) :
    s'.Counted := by
  have hf : ∀ j, (s'.cache.storage j).dev = (s.cache.storage j).dev ∧
      (s'.cache.storage j).blockno = (s.cache.storage j).blockno := by
    intro j
    rw [hc, Cache.relse_storage]
    split
    · next hj => subst hj; exact ⟨rfl, rfl⟩
    · exact ⟨rfl, rfl⟩
  refine h.update (hc ▸ h.complete.relse i) hf (fun j => ?_) (hp ▸ h.present) fun q j hj => ?_
  · have hj := h.count j
    have hsum : s'.refs j + (if j = i then 1 else 0) = s.refs j := by
      rw [refs, hh]
      exact sum_count_erase s.held p hi j
    rw [pins_congr (hf j).1 (hf j).2 hp, hc, Cache.relse_storage]
    split
    · next hji =>
      subst hji
      have hpos := refs_pos hi
      rw [if_pos rfl] at hsum
      show Cache.decr (s.cache.storage j).refcnt = _
      rw [hj, Cache.decr, if_neg (by omega)]
      omega
    · next hji =>
      rw [if_neg hji] at hsum
      rw [hj]
      omega
  · rw [hh] at hj
    by_cases hq : q = p
    · subst hq
      rw [Function.update_self] at hj
      exact ⟨q, List.mem_of_mem_erase hj⟩
    · rw [Function.update_of_ne hq] at hj
      exact ⟨q, hj⟩

omit [DecidableEq ι] in
/-- A `log_write` of a block that was not in the header pins its buffer. -/
theorem Counted.pin {s s' : CacheUsers ι} (h : s.Counted) {p : ι} {i : BufId}
    (hi : i ∈ s.held p) (hnew : (s.cache.storage i).blockno ∉ s.pinned)
    (hc : s'.cache = s.cache.pin i) (hh : s'.held = s.held)
    (hp : ∀ b, b ∈ s'.pinned ↔ b ∈ s.pinned ∨ b = (s.cache.storage i).blockno) :
    s'.Counted := by
  have hdev := h.heldDev p i hi
  have hf : ∀ j, (s'.cache.storage j).dev = (s.cache.storage j).dev ∧
      (s'.cache.storage j).blockno = (s.cache.storage j).blockno ∧
      (s'.cache.storage j).refcnt = (s.cache.storage j).refcnt + if j = i then 1 else 0 := by
    intro j
    rw [hc, Cache.pin_storage]
    split
    · next hj => subst hj; exact ⟨rfl, rfl, rfl⟩
    · exact ⟨rfl, rfl, rfl⟩
  have hpins : ∀ j, s'.pins j = s.pins j + if j = i then 1 else 0 := by
    intro j
    simp only [pins, (hf j).1, (hf j).2.1, hp]
    by_cases hji : j = i
    · subst hji
      simp [hdev, hnew]
    · have hne : (s.cache.storage j).dev = ROOTDEV →
          (s.cache.storage j).blockno ≠ (s.cache.storage i).blockno :=
        fun hd hb => hji (h.unique j i hd hdev hb)
      by_cases hd : (s.cache.storage j).dev = ROOTDEV
      · simp [hji, hd, hne hd]
      · simp [hji, hd]
  refine h.update (hc ▸ h.complete) (fun j => ⟨(hf j).1, (hf j).2.1⟩) (fun j => ?_)
    (fun b hb => ?_) fun q j hj => ⟨q, hh ▸ hj⟩
  · rw [(hf j).2.2, h.count j, hpins j, refs, refs, hh]
    omega
  · rcases (hp b).1 hb with hb | rfl
    · exact h.present b hb
    · exact ⟨i, hdev, rfl⟩

omit [DecidableEq ι] in
/-- A pass of `install_trans(false)` unpins the buffer of the block it has installed. -/
theorem Counted.unpin {s s' : CacheUsers ι} (h : s.Counted) {p : ι} {i : BufId}
    (hi : i ∈ s.held p) (hmem : (s.cache.storage i).blockno ∈ s.pinned)
    (hc : s.cache.unpin i = .ok s'.cache) (hh : s'.held = s.held)
    (hp : ∀ b, b ∈ s'.pinned ↔ b ∈ s.pinned ∧ b ≠ (s.cache.storage i).blockno) :
    s'.Counted := by
  have hdev := h.heldDev p i hi
  have hpos := refs_pos hi
  have hcount := h.count i
  rw [Cache.unpin, if_neg (by omega)] at hc
  have hc : s'.cache = s.cache.set i
      { s.cache.storage i with refcnt := Cache.decr (s.cache.storage i).refcnt } :=
    (Except.ok.inj hc).symm
  have hdecr : Cache.decr (s.cache.storage i).refcnt = (s.cache.storage i).refcnt - 1 := by
    rw [Cache.decr, if_neg (by omega)]
  have hf : ∀ j, (s'.cache.storage j).dev = (s.cache.storage j).dev ∧
      (s'.cache.storage j).blockno = (s.cache.storage j).blockno ∧
      (s'.cache.storage j).refcnt = (s.cache.storage j).refcnt - if j = i then 1 else 0 := by
    intro j
    rw [hc, Cache.set_storage]
    split
    · next hj => subst hj; exact ⟨rfl, rfl, hdecr⟩
    · exact ⟨rfl, rfl, rfl⟩
  have hpins : ∀ j, s'.pins j + (if j = i then 1 else 0) = s.pins j := by
    intro j
    simp only [pins, (hf j).1, (hf j).2.1, hp]
    by_cases hji : j = i
    · subst hji
      simp [hdev, hmem]
    · have hne : (s.cache.storage j).dev = ROOTDEV →
          (s.cache.storage j).blockno ≠ (s.cache.storage i).blockno :=
        fun hd hb => hji (h.unique j i hd hdev hb)
      by_cases hd : (s.cache.storage j).dev = ROOTDEV
      · simp [hji, hd, hne hd]
      · simp [hji, hd]
  refine h.update (hc ▸ h.complete) (fun j => ⟨(hf j).1, (hf j).2.1⟩) (fun j => ?_)
    (fun b hb => h.present b ((hp b).1 hb).1) fun q j hj => ⟨q, hh ▸ hj⟩
  have hj := h.count j
  have hpj := hpins j
  have hrefs : s'.refs j = s.refs j := by rw [refs, refs, hh]
  rw [(hf j).2.2]
  omega

end

/-! ### Steps of the log -/

/-- The steps of the log that neither log a block nor have to do with the installation. -/
def Plain : LogAct ι → Prop
  | .logWrite _ _ | .writeHead _ | .install _ | .clear _ => False
  | _ => True

/-- A plain step moves one process between points outside the installation. -/
theorem plain_step {u u' : LogUsers ι} {a : LogAct ι} (ha : Plain a)
    (hs : u.step a = some (.ok u')) :
    u'.log.header.blocks = u.log.header.blocks ∧ u'.log.header.n = u.log.header.n ∧
    ∃ p c, u'.pc = Function.update u.pc p c ∧ ¬ LogUsers.LogPc.installing c ∧
      ¬ LogUsers.LogPc.installing (u.pc p) := by
  have hblocks : u'.log.header.blocks = u.log.header.blocks := by
    rw [(LogUsers.step_header hs).1]
    cases a <;> first | exact ha.elim | rfl
  refine ⟨hblocks, ?_, ?_⟩
  · have := congrArg List.length hblocks
    rwa [Log.length_blocks, Log.length_blocks] at this
  cases a with
  | logWrite _ _ | writeHead _ | install _ | clear _ => exact ha.elim
  | test p =>
    simp only [LogUsers.step] at hs
    split at hs
    · next hp =>
      have hold : ¬ LogUsers.LogPc.installing (u.pc p) := by rw [hp]; exact id
      split at hs
      · cases hs; exact ⟨p, .asleep, rfl, id, hold⟩
      · cases hs; exact ⟨p, .inOp, rfl, id, hold⟩
    · cases hs
  | endOp p =>
    simp only [LogUsers.step] at hs
    split at hs
    · next hp =>
      have hold : ¬ LogUsers.LogPc.installing (u.pc p) := by rw [hp]; exact id
      split at hs
      · cases hs
      · next l doCommit _ =>
        cases hs
        exact ⟨p, if doCommit then .commitStart else .idle, rfl, by cases doCommit <;> exact id,
          hold⟩
    · cases hs
  | checkEmpty p =>
    simp only [LogUsers.step] at hs
    split at hs
    · next hp =>
      cases hs
      exact ⟨p, _, rfl, by split <;> exact id, by rw [hp]; exact id⟩
    · cases hs
  | writeLog p =>
    simp only [LogUsers.step] at hs
    split at hs
    · next tail hp =>
      cases hs
      exact ⟨p, _, rfl, by split <;> exact id, by rw [hp]; exact id⟩
    · cases hs
  | enter p | wake p | writeErased p | endCommit p =>
    simp only [LogUsers.step] at hs
    split at hs
    · next hp =>
      cases hs
      exact ⟨p, _, rfl, id, by rw [hp]; exact id⟩
    · cases hs

section

variable [Fintype ι]

omit [Fintype ι] [DecidableEq ι] in
theorem withUsers_ok {s s' : CacheUsers ι} {passed : Nat}
    {r : Option (Except Panic (LogUsers ι))} (h : s.withUsers passed r = some (.ok s')) :
    ∃ u, r = some (.ok u) ∧ s' = { s with users := u, passed := passed } := by
  cases r with
  | none => cases h
  | some r =>
    cases r with
    | error e => cases h
    | ok u => cases h; exact ⟨u, rfl, rfl⟩

omit [Fintype ι] [DecidableEq ι] in
theorem withUsers_error {s : CacheUsers ι} {passed : Nat}
    {r : Option (Except Panic (LogUsers ι))} {e : Panic}
    (h : s.withUsers passed r = some (.error e)) : r = some (.error e) := by
  cases r with
  | none => cases h
  | some r =>
    cases r with
    | error e' => cases h; rfl
    | ok u => cases h

/-- Steps of the log other than the installation's leave `passed` where it should be. -/
theorem Inv.plain {s : CacheUsers ι} (h : s.Inv) {u : LogUsers ι} {a : LogAct ι} (ha : Plain a)
    (hs : s.users.step a = some (.ok u)) : Inv { s with users := u } := by
  obtain ⟨hb, hn, p, c, hpc, hc, hold⟩ := plain_step ha hs
  have hcases : ∀ q, u.pc q = s.users.pc q ∨ ¬ LogUsers.LogPc.installing (u.pc q) ∧ q = p := by
    intro q
    rw [hpc]
    by_cases hq : q = p
    · subst hq; rw [Function.update_self]; exact Or.inr ⟨hc, rfl⟩
    · rw [Function.update_of_ne hq]; exact Or.inl rfl
  refine ⟨LogUsers.inv_step h.log hs, h.buffers.congr rfl rfl ?_, ⟨?_, ?_, ?_, ?_⟩⟩
  · simp only [pinned, hb]
  · show u.log.header.blocks.Nodup
    rw [hb]; exact h.progress.nodup
  · intro q t hq
    rcases hcases q with hq' | ⟨hq', -⟩
    · exact h.progress.install q t (hq' ▸ hq)
    · exact absurd (by rw [show u.pc q = _ from hq]; exact trivial) hq'
  · intro q hq
    show u.log.header.n ≤ s.passed
    rw [hn]
    rcases hcases q with hq' | ⟨hq', -⟩
    · exact h.progress.clear q (hq' ▸ hq)
    · exact absurd (by rw [show u.pc q = _ from hq]; exact trivial) hq'
  · intro hno
    refine h.progress.outside fun q hq => ?_
    rcases hcases q with hq' | ⟨-, rfl⟩
    · exact hno q (by show LogUsers.LogPc.installing (u.pc q); rw [hq']; exact hq)
    · exact hold hq

omit [DecidableEq ι] in
/-- Nobody installs while some process is in an operation. -/
theorem Inv.passed_of_inOp {s : CacheUsers ι} (h : s.Inv) {p : ι} (hp : s.users.pc p = .inOp) :
    s.passed = 0 := by
  refine h.progress.outside fun q hq => ?_
  have hcom := h.log.1.committing.2 ⟨q, LogUsers.installing_kind hq⟩
  exact h.log.1.quiet hcom p (by rw [hp]; rfl)

omit [DecidableEq ι] in
/-- Only the committing process is at a point of `commit`. -/
theorem Inv.eq_of_commit {s : CacheUsers ι} (h : s.Inv) {p q : ι}
    (hp : (s.users.pc p).kind = .commit) (hq : (s.users.pc q).kind = .commit) : q = p :=
  h.log.1.single q p hq hp

theorem Inv.writeHead {s : CacheUsers ι} (h : s.Inv) {u : LogUsers ι} {p : ι}
    (hs : s.users.step (.writeHead p) = some (.ok u)) : Inv { s with users := u } := by
  have hinv := LogUsers.inv_step h.log hs
  simp only [LogUsers.step] at hs
  split at hs
  · next hp =>
    cases hs
    have hk : (s.users.pc p).kind = .commit := by rw [hp]; rfl
    have h0 : s.passed = 0 := by
      refine h.progress.outside fun q hq => ?_
      rw [h.eq_of_commit hk (LogUsers.installing_kind hq), hp] at hq
      exact hq
    have hother : ∀ q, (s.users.goto p (.install 0)).pc q = .install 0 ∧ q = p ∨
        (s.users.goto p (.install 0)).pc q = s.users.pc q ∧ q ≠ p := by
      intro q
      rw [LogUsers.goto_pc]
      by_cases hq : q = p
      · simp [hq]
      · simp [hq]
    refine ⟨hinv, h.buffers.congr rfl rfl rfl, ⟨h.progress.nodup, ?_, ?_, ?_⟩⟩
    · intro q t hq
      have hq : (s.users.goto p (.install 0)).pc q = .install t := hq
      rcases hother q with ⟨hq', -⟩ | ⟨hq', hne⟩
      · rw [hq'] at hq; cases hq; exact h0
      · exact h.progress.install q t (hq' ▸ hq)
    · intro q hq
      have hq : (s.users.goto p (.install 0)).pc q = .clear := hq
      rcases hother q with ⟨hq', -⟩ | ⟨hq', hne⟩
      · rw [hq'] at hq; cases hq
      · exact h.progress.clear q (hq' ▸ hq)
    · exact fun _ => h0
  · cases hs

/-- One pass through the loop of `install_trans`, or the exit from it. -/
theorem Inv.moveInstall {s s' : CacheUsers ι} (h : s.Inv) {u : LogUsers ι} {p : ι} {tail : Nat}
    {c : LogPc} (hp : s.users.pc p = .install tail)
    (hs : s.users.step (.install p) = some (.ok u)) (hu : u = s.users.goto p c)
    (hs' : s'.users = u) (hb : s'.Counted)
    (hc : c = .install s'.passed ∨ c = .clear ∧ s.users.log.header.n ≤ s'.passed) : s'.Inv := by
  have hk : (s.users.pc p).kind = .commit := by rw [hp]; rfl
  have hpc : ∀ q, (s.users.goto p c).pc q = if q = p then c else s.users.pc q :=
    fun q => LogUsers.goto_pc ..
  -- no other process is in `commit`
  have honly : ∀ q, LogUsers.LogPc.installing ((s.users.goto p c).pc q) → q = p := by
    intro q hq
    rw [hpc] at hq
    split at hq
    · next heq => exact heq
    · exact h.eq_of_commit hk (LogUsers.installing_kind hq)
  have hinst : LogUsers.LogPc.installing c := by
    rcases hc with rfl | ⟨rfl, -⟩ <;> exact trivial
  subst hu
  refine ⟨hs' ▸ LogUsers.inv_step h.log hs, hb, ⟨?_, ?_, ?_, ?_⟩⟩
  · rw [hs']; exact h.progress.nodup
  · intro q t hq
    rw [hs'] at hq
    obtain rfl := honly q (by rw [hq]; exact trivial)
    rw [hpc, if_pos rfl] at hq
    rcases hc with hc | ⟨hc, -⟩
    · rw [hc] at hq; cases hq; rfl
    · rw [hc] at hq; cases hq
  · intro q hq
    rw [hs'] at hq ⊢
    obtain rfl := honly q (by rw [hq]; exact trivial)
    rw [hpc, if_pos rfl] at hq
    rcases hc with hc | ⟨-, hle⟩
    · rw [hc] at hq; cases hq
    · exact hle
  · intro hno
    have := hno p
    rw [hs', hpc, if_pos rfl] at this
    exact absurd hinst this

omit [DecidableEq ι] [Fintype ι] in
/-- Dropping one more of distinct blocks removes exactly that one. -/
theorem mem_drop_succ {l : List Nat} (hl : l.Nodup) {t : Nat} (ht : t < l.length) (b : Nat) :
    b ∈ l.drop (t + 1) ↔ b ∈ l.drop t ∧ b ≠ l[t] := by
  have hcons : l.drop t = l[t] :: l.drop (t + 1) := List.drop_eq_getElem_cons ht
  have hnd : (l[t] :: l.drop (t + 1)).Nodup := hcons ▸ hl.sublist (List.drop_sublist t l)
  rw [hcons, List.mem_cons]
  constructor
  · exact fun hb => ⟨Or.inr hb, fun he => (List.nodup_cons.1 hnd).1 (he ▸ hb)⟩
  · exact fun ⟨hb, hne⟩ => hb.resolve_left hne

omit [DecidableEq ι] [Fintype ι] in
theorem getElem_blocks (hd : LogHeader) {t : Nat} (ht : t < hd.blocks.length) :
    hd.blocks[t] = hd.block t := by
  simp [LogHeader.blocks]

theorem Inv.install {s s' : CacheUsers ι} (h : s.Inv) {p : ι} {i : BufId}
    (hs : s.step (.install p i) = some (.ok s')) : s'.Inv := by
  simp only [CacheUsers.step] at hs
  split at hs
  · next tail hp =>
    split at hs
    · next hcond =>
      obtain ⟨hlt, hi, hblk⟩ := hcond
      split at hs
      · cases hs
      · next c hunpin =>
        obtain ⟨u, hu, rfl⟩ := withUsers_ok hs
        have hpass := h.progress.install p tail hp
        have hlen : tail < s.users.log.header.blocks.length := by rwa [Log.length_blocks]
        have hgoto : u = s.users.goto p (.install (tail + 1)) := by
          simp only [LogUsers.step, hp, if_pos hlt] at hu
          cases hu; rfl
        refine h.moveInstall hp hu hgoto rfl ?_ (Or.inl (by rw [hpass]))
        refine h.buffers.unpin (i := i) hi ?_ hunpin rfl fun b => ?_
        · rw [hblk, ← getElem_blocks _ hlen, pinned, hpass]
          exact List.mem_drop_iff_getElem.2 ⟨0, by simpa using hlen, by simp⟩
        · subst hgoto
          show b ∈ s.users.log.header.blocks.drop (s.passed + 1) ↔
            b ∈ s.users.log.header.blocks.drop s.passed ∧ _
          rw [hpass, mem_drop_succ h.progress.nodup hlen b, getElem_blocks _ hlen, hblk]
    · cases hs
  · cases hs

theorem Inv.logWrite {s s' : CacheUsers ι} (h : s.Inv) {p : ι} {i : BufId}
    (hs : s.step (.logWrite p i) = some (.ok s')) : s'.Inv := by
  simp only [CacheUsers.step] at hs
  by_cases hi : i ∈ s.held p
  swap
  · rw [if_neg hi] at hs
    cases hs
  rw [if_pos hi] at hs
  -- what the log does
  have hlog : ∀ u, s.users.step (.logWrite p (s.cache.storage i).blockno) = some (.ok u) →
      s.users.pc p = .inOp ∧ u.pc = s.users.pc ∧
      ∃ l pinned, s.users.log.logWrite (s.cache.storage i).blockno = .ok (l, pinned) ∧
        u.log = l := by
    intro u hu
    simp only [LogUsers.step] at hu
    split at hu
    · next hp =>
      split at hu
      · cases hu
      · next l pinned hw => cases hu; exact ⟨hp, rfl, l, pinned, hw, rfl⟩
    · cases hu
  have hprog : ∀ u : LogUsers ι, u.pc = s.users.pc → s.passed = 0 → u.log.header.blocks.Nodup →
      s.users.pc p = .inOp → ∀ c, Progress { s with users := u, cache := c } := by
    intro u hpc h0 hnd hp c
    refine ⟨hnd, fun q t hq => ?_, fun q hq => ?_, fun _ => h0⟩
    · have hq : u.pc q = .install t := hq
      exact h.progress.install q t (hpc ▸ hq)
    · have hq : u.pc q = .clear := hq
      rw [hpc] at hq
      have hcom := h.log.1.committing.2 ⟨q, by rw [hq]; rfl⟩
      exact absurd (by rw [hp]; rfl) (h.log.1.quiet hcom p)
  split at hs
  · next u l hu hw =>
    -- the block is new to the header
    cases hs
    obtain ⟨hp, hpc, l', pinned, hw', hl⟩ := hlog u hu
    rw [hw] at hw'
    cases hw'
    have h0 := h.passed_of_inOp hp
    obtain ⟨hnew, hblocks⟩ : (s.cache.storage i).blockno ∉ s.users.log.header.blocks ∧
        u.log.header.blocks = s.users.log.header.blocks ++ [(s.cache.storage i).blockno] := by
      rw [Log.logWrite_eq] at hw
      split at hw
      · cases hw
      split at hw
      · cases hw
      split at hw
      · cases hw
      · next hmem =>
        cases hw
        rw [hl]
        exact ⟨hmem, Log.blocks_push _ _⟩
    have hpinned : s.pinned = s.users.log.header.blocks := by rw [pinned, h0, List.drop_zero]
    refine ⟨LogUsers.inv_step h.log hu, h.buffers.pin hi (hpinned ▸ hnew) rfl rfl fun b => ?_,
      hprog u hpc h0 ?_ hp _⟩
    · rw [hpinned]
      show b ∈ u.log.header.blocks.drop s.passed ↔ _
      rw [h0, List.drop_zero, hblocks]
      simp
    · rw [hblocks]
      exact List.nodup_append.2 ⟨h.progress.nodup, by simp, by
        rintro a ha b hb rfl
        rw [List.mem_singleton] at hb
        exact hnew (hb ▸ ha)⟩
  · next u hu hno =>
    -- the block is absorbed
    cases hs
    obtain ⟨hp, hpc, l, pinned, hw, hl⟩ := hlog u hu
    have h0 := h.passed_of_inOp hp
    have hsame : l = s.users.log := by
      rw [Log.logWrite_eq] at hw
      split at hw
      · cases hw
      split at hw
      · cases hw
      split at hw
      · cases hw; rfl
      · next h1 h2 hmem =>
        exact absurd (by rw [Log.logWrite_eq, if_neg h1, if_neg h2, if_neg hmem])
          (hno { s.users.log with
            header := s.users.log.header.push (s.cache.storage i).blockno })
    refine ⟨LogUsers.inv_step h.log hu, h.buffers.congr rfl rfl ?_, hprog u hpc h0 ?_ hp _⟩
    · simp only [CacheUsers.pinned, hl, hsame]
    · rw [hl, hsame]; exact h.progress.nodup
  · cases hs
  · cases hs

theorem Inv.clear {s s' : CacheUsers ι} (h : s.Inv) {p : ι}
    (hs : s.step (.log (.clear p)) = some (.ok s')) : s'.Inv := by
  simp only [CacheUsers.step] at hs
  obtain ⟨u, hu, rfl⟩ := withUsers_ok hs
  have hinv := LogUsers.inv_step h.log hu
  simp only [LogUsers.step] at hu
  split at hu
  · next hp =>
    cases hu
    have hk : (s.users.pc p).kind = .commit := by rw [hp]; rfl
    have hpass := h.progress.clear p hp
    have hnone : ∀ q, ¬ LogUsers.LogPc.installing ((s.users.goto p .writeErased).pc q) := by
      intro q hq
      rw [LogUsers.goto_pc] at hq
      split at hq
      · exact hq
      · next hne => exact hne (h.eq_of_commit hk (LogUsers.installing_kind hq))
    refine ⟨hinv, h.buffers.congr rfl rfl ?_, ⟨?_, fun q t hq => ?_, fun q hq => ?_,
      fun _ => rfl⟩⟩
    · have hbefore : s.pinned = [] := by
        rw [pinned, List.drop_eq_nil_iff, Log.length_blocks]
        exact hpass
      rw [hbefore]
      rfl
    · exact List.nodup_nil
    · exact absurd (by rw [show (s.users.goto p .writeErased).pc q = _ from hq]; exact trivial)
        (hnone q)
    · exact absurd (by rw [show (s.users.goto p .writeErased).pc q = _ from hq]; exact trivial)
        (hnone q)
  · cases hu

theorem Inv.step {s s' : CacheUsers ι} {a : CacheAct ι} (h : s.Inv)
    (hs : s.step a = some (.ok s')) : s'.Inv := by
  cases a with
  | read p block =>
    simp only [CacheUsers.step] at hs
    split at hs
    · cases hs
    · next i c hr =>
      cases hs
      exact ⟨h.log, h.buffers.read hr rfl rfl, h.progress.1, h.progress.2, h.progress.3,
        h.progress.4⟩
  | fill p i disk =>
    simp only [CacheUsers.step] at hs
    split at hs
    · cases hs
      exact ⟨h.log, h.buffers.fill i disk, h.progress.1, h.progress.2, h.progress.3,
        h.progress.4⟩
    · cases hs
  | relse p i =>
    simp only [CacheUsers.step] at hs
    split at hs
    · next hi =>
      cases hs
      exact ⟨h.log, h.buffers.relse hi rfl rfl rfl, h.progress.1, h.progress.2, h.progress.3,
        h.progress.4⟩
    · cases hs
  | logWrite p i => exact h.logWrite hs
  | install p i => exact h.install hs
  | log a =>
    cases a with
    | logWrite p b => cases hs
    | clear p => exact h.clear hs
    | install p =>
      simp only [CacheUsers.step] at hs
      split at hs
      · next tail hp =>
        split at hs
        · cases hs
        · next hge =>
          obtain ⟨u, hu, rfl⟩ := withUsers_ok hs
          have hgoto : u = s.users.goto p .clear := by
            simp only [LogUsers.step, hp, if_neg hge] at hu
            cases hu; rfl
          have hpass := h.progress.install p tail hp
          refine h.moveInstall hp hu hgoto rfl (h.buffers.congr rfl rfl ?_)
            (Or.inr ⟨rfl, by show _ ≤ s.passed; omega⟩)
          subst hgoto
          rfl
      · cases hs
    | writeHead p =>
      obtain ⟨u, hu, rfl⟩ := withUsers_ok hs
      exact h.writeHead hu
    | enter p | test p | wake p | endOp p | checkEmpty p | writeLog p | writeErased p
    | endCommit p =>
      obtain ⟨u, hu, rfl⟩ := withUsers_ok hs
      exact h.plain (by trivial) hu

omit [DecidableEq ι] in
theorem inv_init (start size : Nat) (block : Nat → Nat) :
    Inv (init start size block : CacheUsers ι) where
  log := LogUsers.inv_init start size block
  buffers := by
    refine ⟨Cache.complete_init, fun i j hi => ?_, fun i => ?_, fun b hb => ?_, fun p i hi => ?_⟩
    · cases hi
    · simp [init, Cache.init, refs, pins, pinned, LogUsers.init, LogHeader.blocks]
    · cases hb
    · cases hi
  progress := by
    refine ⟨List.nodup_nil, fun p t hp => ?_, fun p hp => ?_, fun _ => rfl⟩
    · cases hp
    · cases hp

theorem inv_runs {start size : Nat} {block : Nat → Nat} {as : List (CacheAct ι)}
    {s : CacheUsers ι} (h : Runs (init start size block) as s) : s.Inv :=
  h.invariant (P := Inv) (inv_init start size block) fun _ _ _ => Inv.step

/-! ### Failures, and what one step does to a referenced buffer -/

/-- `unpin` is only called on a buffer its caller holds. -/
theorem Inv.no_underflow {s : CacheUsers ι} (h : s.Inv) (a : CacheAct ι) :
    s.step a ≠ some (.error .refcntUnderflow) := by
  have hlog : ∀ {a : LogAct ι}, s.users.step a ≠ some (.error .refcntUnderflow) :=
    fun he => absurd (h.log.1.step_error he) (by decide)
  intro hs
  cases a with
  | read p block =>
    simp only [CacheUsers.step] at hs
    split at hs
    · next e hr =>
      cases hs
      rw [Cache.read] at hr
      split at hr
      · cases hr
      · split at hr <;> cases hr
    · cases hs
  | fill p i disk => simp only [CacheUsers.step] at hs; split at hs <;> cases hs
  | relse p i => simp only [CacheUsers.step] at hs; split at hs <;> cases hs
  | logWrite p i =>
    simp only [CacheUsers.step] at hs
    split at hs
    · split at hs
      · cases hs
      · cases hs
      · next e _ he => cases hs; exact hlog he
      · cases hs
    · cases hs
  | install p i =>
    simp only [CacheUsers.step] at hs
    split at hs
    · split at hs
      · next hcond =>
        split at hs
        · next e he =>
          cases hs
          have hpos := refs_pos hcond.2.1
          have hcount := h.buffers.count i
          rw [Cache.unpin, if_neg (by omega)] at he
          cases he
        · exact hlog (withUsers_error hs)
      · cases hs
    · cases hs
  | log a =>
    cases a with
    | logWrite p b => cases hs
    | install p =>
      simp only [CacheUsers.step] at hs
      split at hs
      · split at hs
        · cases hs
        · exact hlog (withUsers_error hs)
      · cases hs
    | clear p | writeHead p | enter p | test p | wake p | endOp p | checkEmpty p | writeLog p
    | writeErased p | endCommit p => exact hlog (withUsers_error hs)

/-- A referenced buffer keeps its block. -/
theorem Inv.step_identity {s s' : CacheUsers ι} (h : s.Inv) {a : CacheAct ι}
    (hs : s.step a = some (.ok s')) {i : BufId} (hi : 0 < (s.cache.storage i).refcnt) :
    (s'.cache.storage i).dev = (s.cache.storage i).dev ∧
      (s'.cache.storage i).blockno = (s.cache.storage i).blockno := by
  cases a with
  | read p block =>
    simp only [CacheUsers.step] at hs
    split at hs
    · cases hs
    · next j c hr =>
      cases hs
      show (c.storage i).dev = _ ∧ (c.storage i).blockno = _
      rcases Cache.read_cases h.buffers.complete hr with ⟨-, -, rfl⟩ | ⟨-, h0, rfl⟩
      · rw [Cache.take_storage]
        split
        · next hij => subst hij; exact ⟨rfl, rfl⟩
        · exact ⟨rfl, rfl⟩
      · have hij : i ≠ j := by rintro rfl; omega
        rw [Cache.take_storage, if_neg hij, Cache.assign, Cache.set_storage, if_neg hij]
        exact ⟨rfl, rfl⟩
  | fill p j disk =>
    simp only [CacheUsers.step] at hs
    split at hs
    · cases hs
      show ((s.cache.fill j disk).storage i).dev = _ ∧ ((s.cache.fill j disk).storage i).blockno = _
      rw [Cache.fill]
      split
      · exact ⟨rfl, rfl⟩
      · rw [Cache.set_storage]
        split
        · next hij => subst hij; exact ⟨rfl, rfl⟩
        · exact ⟨rfl, rfl⟩
    · cases hs
  | relse p j =>
    simp only [CacheUsers.step] at hs
    split at hs
    · cases hs
      show ((s.cache.relse j).storage i).dev = _ ∧ ((s.cache.relse j).storage i).blockno = _
      rw [Cache.relse_storage]
      split
      · next hij => subst hij; exact ⟨rfl, rfl⟩
      · exact ⟨rfl, rfl⟩
    · cases hs
  | logWrite p j =>
    simp only [CacheUsers.step] at hs
    split at hs
    · split at hs
      · cases hs
        show ((s.cache.pin j).storage i).dev = _ ∧ ((s.cache.pin j).storage i).blockno = _
        rw [Cache.pin_storage]
        split
        · next hij => subst hij; exact ⟨rfl, rfl⟩
        · exact ⟨rfl, rfl⟩
      · cases hs; exact ⟨rfl, rfl⟩
      · cases hs
      · cases hs
    · cases hs
  | install p j =>
    simp only [CacheUsers.step] at hs
    split at hs
    · split at hs
      · split at hs
        · cases hs
        · next c hc =>
          obtain ⟨u, -, rfl⟩ := withUsers_ok hs
          show (c.storage i).dev = _ ∧ (c.storage i).blockno = _
          rw [Cache.unpin] at hc
          split at hc
          · cases hc
          · cases hc
            rw [Cache.set_storage]
            split
            · next hij => subst hij; exact ⟨rfl, rfl⟩
            · exact ⟨rfl, rfl⟩
      · cases hs
    · cases hs
  | log a =>
    have hcache : s'.cache = s.cache := by
      cases a with
      | logWrite p b => cases hs
      | install p =>
        simp only [CacheUsers.step] at hs
        split at hs
        · split at hs
          · cases hs
          · obtain ⟨u, -, rfl⟩ := withUsers_ok hs; rfl
        · cases hs
      | clear p | writeHead p | enter p | test p | wake p | endOp p | checkEmpty p | writeLog p
      | writeErased p | endCommit p => obtain ⟨u, -, rfl⟩ := withUsers_ok hs; rfl
    rw [hcache]
    exact ⟨rfl, rfl⟩

end

end CacheUsers

open CacheUsers in
/-- **Buffer identity and pinning.**  In every state the system can reach: (a) `refcnt` is the number
of reads not yet released, plus one if the header keeps the buffer's block pinned; (b) no two
buffers cache the same block; (c) a step never gives a referenced buffer to another block, and every
pinned block has its buffer in the cache; (d) the list holds each buffer exactly once; (e) `unpin`
never finds a count of zero. -/
theorem buffer_identity {ι : Type} [DecidableEq ι] [Fintype ι] {start size : Nat}
    {block : Nat → Nat} {as : List (CacheAct ι)} {s : CacheUsers ι}
    (h : Runs (CacheUsers.init start size block) as s) :
    (∀ i, (s.cache.storage i).refcnt = s.refs i +
      if (s.cache.storage i).dev = ROOTDEV ∧ (s.cache.storage i).blockno ∈ s.pinned then 1 else 0) ∧
    (∀ i j, (s.cache.storage i).dev = ROOTDEV → (s.cache.storage j).dev = ROOTDEV →
      (s.cache.storage i).blockno = (s.cache.storage j).blockno → i = j) ∧
    (∀ a s', s.step a = some (.ok s') → ∀ i, 0 < (s.cache.storage i).refcnt →
      (s'.cache.storage i).dev = (s.cache.storage i).dev ∧
      (s'.cache.storage i).blockno = (s.cache.storage i).blockno) ∧
    (∀ b ∈ s.pinned, ∃ i, (s.cache.storage i).dev = ROOTDEV ∧ (s.cache.storage i).blockno = b ∧
      0 < (s.cache.storage i).refcnt) ∧
    (s.cache.lru.Nodup ∧ ∀ i, i ∈ s.cache.lru) ∧
    (∀ a, s.step a ≠ some (.error .refcntUnderflow)) := by
  have hinv := inv_runs h
  refine ⟨hinv.buffers.count, hinv.buffers.unique, fun a s' hs i hi => hinv.step_identity hs hi,
    fun b hb => ?_, hinv.buffers.complete, hinv.no_underflow⟩
  obtain ⟨i, hd, rfl⟩ := hinv.buffers.present b hb
  have hpin : s.pins i = 1 := if_pos ⟨hd, hb⟩
  have hcount := hinv.buffers.count i
  exact ⟨i, hd, rfl, by omega⟩

/-- The buffer at the back of the list that `init` builds. -/
def lastBuf : BufId := ⟨NBUF - 1, by decide⟩

open CacheUsers in
/-- One process reads block 45, logs it and releases it: the header keeps the buffer. -/
theorem buffer_identity_one :
    ∃ s : CacheUsers (Fin 1),
      Runs (CacheUsers.init 2 LOGSIZE id)
        [.log (.enter 0), .log (.test 0), .read 0 45, .logWrite 0 lastBuf, .relse 0 lastBuf] s ∧
      s.pinned = [45] ∧ (s.cache.storage lastBuf).refcnt = 1 ∧
      ∀ a, s.step a ≠ some (.error .refcntUnderflow) := by
  have hrun : ∃ s : CacheUsers (Fin 1),
      Runs (CacheUsers.init 2 LOGSIZE id)
        [.log (.enter 0), .log (.test 0), .read 0 45, .logWrite 0 lastBuf, .relse 0 lastBuf] s ∧
      s.pinned = [45] ∧ (s.cache.storage lastBuf).refcnt = 1 :=
    ⟨_, Machine.run_of_exec rfl, rfl, rfl⟩
  obtain ⟨s, hs, hp, hr⟩ := hrun
  exact ⟨s, hs, hp, hr, (buffer_identity hs).2.2.2.2.2⟩

end Xv6pp
