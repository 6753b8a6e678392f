import Mathlib.Data.List.Perm.Subperm
import Xv6pp.Lib.Machine
import Xv6pp.Lib.Ring
import Xv6pp.Disk.VirtioDriver

/-!
# Every request is completed once

A descriptor that is not free belongs to one request.  A request that the device has not completed is in one
of three places: in `avail`, with the device, or in `used`; these places make one queue, through which it goes
once.  When it leaves the queue, `handle_interrupt` has cleared `disk` of its buffer, and only then does its
caller return and free its descriptors.
-/

set_option autoImplicit false

namespace Xv6pp

namespace VirtioDriver

variable {β : Type} {d d' : VirtioDriver β} {i : DescId}

/-! ## Allocating descriptors -/

@[simp] theorem setFree_free (d : VirtioDriver β) (i j : DescId) (v : Bool) :
    (d.setFree i v).free j = if j = i then v else d.free j := Function.update_apply ..

@[simp] theorem setDesc_free (d : VirtioDriver β) (i : DescId) (x : VirtqDesc β) :
    (d.setDesc i x).free = d.free := rfl

@[simp] theorem setFree_desc (d : VirtioDriver β) (i : DescId) (v : Bool) :
    (d.setFree i v).desc = d.desc := rfl

@[simp] theorem setDesc_desc (d : VirtioDriver β) (i j : DescId) (x : VirtqDesc β) :
    (d.setDesc i x).desc j = if j = i then x else d.desc j := Function.update_apply ..

@[simp] theorem clearDesc_free (d : VirtioDriver β) (i j : DescId) :
    (d.clearDesc i).free j = if j = i then true else d.free j := setFree_free ..

@[simp] theorem clearDesc_desc (d : VirtioDriver β) (i j : DescId) :
    (d.clearDesc i).desc j = if j = i then ⟨.null, 0, 0, 0⟩ else d.desc j := setDesc_desc ..

theorem allocDesc_some (h : d.allocDesc = some (i, d')) :
    d.free i = true ∧ d' = d.setFree i false := by
  rw [allocDesc, Option.map_eq_some_iff] at h
  obtain ⟨j, hj, heq⟩ := h
  cases heq
  exact ⟨List.find?_some hj, rfl⟩

theorem freeDesc_taken (h : d.free i = false) :
    d.freeDesc i = .ok (d.clearDesc i) := by
  rw [freeDesc, dif_pos i.isLt, if_neg]
  rw [h]
  simp

/-- The drivers differ only in the descriptors, and there only where these are free. -/
structure Cleared (d d' : VirtioDriver β) : Prop where
  desc : ∀ i, d.free i = false → d'.desc i = d.desc i
  others : d' = { d with desc := d'.desc }

/-- **What `alloc3_desc` does**: it fails, and has at most cleared descriptors that are free, or it takes
three different descriptors. -/
theorem alloc3Desc_cases (d : VirtioDriver β) :
    (∃ d', d.alloc3Desc = .ok (none, d') ∧ Cleared d d') ∨
    ∃ idx₀ idx₁ idx₂, [idx₀, idx₁, idx₂].Nodup ∧ (∀ i ∈ [idx₀, idx₁, idx₂], d.free i = true) ∧
      d.alloc3Desc = .ok (some (idx₀, idx₁, idx₂),
        ((d.setFree idx₀ false).setFree idx₁ false).setFree idx₂ false) := by
  rw [alloc3Desc]
  split
  · exact .inl ⟨d, rfl, fun _ _ => rfl, rfl⟩
  · next i₀ d₀ h₀ =>
    obtain ⟨hfree₀, rfl⟩ := allocDesc_some h₀
    split
    · rw [freeDesc_taken (by simp)]
      refine .inl ⟨_, rfl, fun i hi => ?_, VirtioDriver.ext rfl rfl rfl rfl rfl (funext fun j => ?_) rfl
        rfl rfl rfl⟩
      · have hne : i ≠ i₀ := by
          rintro rfl
          simp [hfree₀] at hi
        simp [hne]
      · by_cases hj : j = i₀ <;> simp [hj, hfree₀]
    · next i₁ d₁ h₁ =>
      obtain ⟨hfree₁, rfl⟩ := allocDesc_some h₁
      have hne₁ : i₁ ≠ i₀ := by
        rintro rfl
        simp at hfree₁
      rw [setFree_free, if_neg hne₁] at hfree₁
      split
      · rw [freeDesc_taken (by simp)]
        simp only [Except.bind]
        rw [freeDesc_taken (by simp [hne₁])]
        refine .inl ⟨_, rfl, fun i hi => ?_, VirtioDriver.ext rfl rfl rfl rfl rfl (funext fun j => ?_) rfl
          rfl rfl rfl⟩
        · have hne : i ≠ i₀ ∧ i ≠ i₁ := by
            constructor <;> rintro rfl <;> simp_all
          simp [hne]
        · by_cases hj : j = i₀
          · subst hj
            simp [hfree₀, hne₁.symm]
          · by_cases hj' : j = i₁ <;> simp [hj, hj', hfree₁]
      · next i₂ d₂ h₂ =>
        obtain ⟨hfree₂, rfl⟩ := allocDesc_some h₂
        have hne₂ : i₂ ≠ i₁ ∧ i₂ ≠ i₀ := by
          constructor <;> rintro rfl <;> simp_all
        rw [setFree_free, if_neg hne₂.1, setFree_free, if_neg hne₂.2] at hfree₂
        refine .inr ⟨i₀, i₁, i₂, ?_, ?_, rfl⟩
        · simp [hne₁.symm, hne₂.1.symm, hne₂.2.symm]
        · simp [hfree₀, hfree₁, hfree₂]

end VirtioDriver

/-! ## Chains -/

/-- The descriptors of a request. -/
def DiskRequest.descs {β : Type} (r : DiskRequest β) : List DescId := [r.idx₀, r.idx₁, r.idx₂]

namespace VirtioDriver

variable {β : Type} {d d' : VirtioDriver β} {r : DiskRequest β}

/-- The descriptors of the request are chained, and the last one points to its status. -/
structure Chained (d : VirtioDriver β) (r : DiskRequest β) : Prop where
  next₀ : (d.desc r.idx₀).flags &&& VRING_DESC_F_NEXT ≠ 0 ∧ (d.desc r.idx₀).next = r.idx₁
  next₁ : (d.desc r.idx₁).flags &&& VRING_DESC_F_NEXT ≠ 0 ∧ (d.desc r.idx₁).next = r.idx₂
  last : (d.desc r.idx₂).flags &&& VRING_DESC_F_NEXT = 0 ∧ (d.desc r.idx₂).addr = .status r.idx₀

theorem Chained.congr (h : Chained d r) (hdesc : ∀ i ∈ r.descs, d'.desc i = d.desc i) :
    Chained d' r := by
  have h₀ := hdesc r.idx₀ (by simp [DiskRequest.descs])
  have h₁ := hdesc r.idx₁ (by simp [DiskRequest.descs])
  have h₂ := hdesc r.idx₂ (by simp [DiskRequest.descs])
  exact ⟨by rw [h₀]; exact h.next₀, by rw [h₁]; exact h.next₁, by rw [h₂]; exact h.last⟩

theorem format_desc [DecidableEq β] {idx₀ idx₁ idx₂ i : DescId} (b : β) (blockno : Nat) (write : Bool)
    (hi : i ∉ [idx₀, idx₁, idx₂]) :
    (d.format idx₀ idx₁ idx₂ b blockno write).desc i = d.desc i := by
  simp only [List.mem_cons, List.not_mem_nil, or_false, not_or] at hi
  show (((d.setDesc idx₀ _).setDesc idx₁ _).setDesc idx₂ _).desc i = _
  simp only [setDesc_desc, if_neg hi.1, if_neg hi.2.1, if_neg hi.2.2]

/-- The three descriptors are chained when they are formatted. -/
theorem format_chained [DecidableEq β] {idx₀ idx₁ idx₂ : DescId} (b : β) (blockno : Nat) (write : Bool)
    (hnodup : [idx₀, idx₁, idx₂].Nodup) (n : Nat) :
    Chained (d.format idx₀ idx₁ idx₂ b blockno write) ⟨n, idx₀, idx₁, idx₂, b⟩ := by
  simp only [List.nodup_cons, List.mem_cons, List.not_mem_nil, or_false, not_or, List.nodup_nil, and_true,
    not_false_eq_true] at hnodup
  obtain ⟨⟨h01, h02⟩, h12⟩ := hnodup
  have hdesc : ∀ i, (d.format idx₀ idx₁ idx₂ b blockno write).desc i =
      if i = idx₂ then ⟨.status idx₀, 1, VRING_DESC_F_WRITE, 0⟩
      else if i = idx₁ then
        ⟨.data b, BSIZE, (if write then 0 else VRING_DESC_F_WRITE) ||| VRING_DESC_F_NEXT, idx₂⟩
      else if i = idx₀ then ⟨.op idx₀, sizeofBlkReq, VRING_DESC_F_NEXT, idx₁⟩ else d.desc i := by
    intro i
    show (((d.setDesc idx₀ _).setDesc idx₁ _).setDesc idx₂ _).desc i = _
    simp only [setDesc_desc]
  refine ⟨?_, ?_, ?_⟩
  · rw [hdesc, if_neg h02, if_neg h01, if_pos rfl]
    have hflag : VRING_DESC_F_NEXT &&& VRING_DESC_F_NEXT ≠ 0 := by decide
    exact ⟨hflag, rfl⟩
  · rw [hdesc, if_neg h12, if_pos rfl]
    have hflag : ∀ w : Bool, ((if w then 0 else VRING_DESC_F_WRITE) ||| VRING_DESC_F_NEXT) &&&
        VRING_DESC_F_NEXT ≠ 0 := by decide
    exact ⟨hflag write, rfl⟩
  · rw [hdesc, if_pos rfl]
    have hflag : VRING_DESC_F_WRITE &&& VRING_DESC_F_NEXT = 0 := by decide
    exact ⟨hflag, rfl⟩

theorem Chained.statusOf (h : Chained d r) : d.statusOf r.idx₀ = some r.idx₀ := by
  have h₀ : d.desc ⟨r.idx₀.val, r.idx₀.isLt⟩ = d.desc r.idx₀ := rfl
  rw [VirtioDriver.statusOf, dif_pos r.idx₀.isLt]
  simp only [h₀, h.next₀, dif_pos r.idx₁.isLt, h.next₁, dif_pos r.idx₂.isLt, h.last]
  exact if_pos ⟨h.next₀.1, h.next₁.1, trivial⟩

/-- The descriptors of the request are free again. -/
structure Freed (d : VirtioDriver β) (r : DiskRequest β) (d' : VirtioDriver β) : Prop where
  desc : ∀ i ∉ r.descs, d'.desc i = d.desc i
  free : ∀ i, d'.free i = true ↔ i ∈ r.descs ∨ d.free i = true
  others : d' = { d with desc := d'.desc, free := d'.free }

theorem freeChain_taken {i : DescId} (fuel : Nat) (h : d.free i = false) :
    freeChain (fuel + 1) d i = if (d.desc i).flags &&& VRING_DESC_F_NEXT ≠ 0 then
      freeChain fuel (d.clearDesc i) (d.desc i).next
      else .ok (d.clearDesc i) := by
  rw [freeChain, dif_pos i.isLt]
  simp only [freeDesc_taken h]

/-- **`free_chain`** frees the three descriptors of a request. -/
theorem Chained.freeChain (h : Chained d r) (hnodup : r.descs.Nodup)
    (hfree : ∀ i ∈ r.descs, d.free i = false) (fuel : Nat) :
    ∃ d', VirtioDriver.freeChain (fuel + 3) d r.idx₀ = .ok d' ∧ Freed d r d' := by
  simp only [DiskRequest.descs, List.nodup_cons, List.mem_cons, List.not_mem_nil, or_false, not_or,
    List.nodup_nil, and_true, not_false_eq_true] at hnodup
  obtain ⟨⟨h01, h02⟩, h12⟩ := hnodup
  have hf₀ := hfree r.idx₀ (by simp [DiskRequest.descs])
  have hf₁ := hfree r.idx₁ (by simp [DiskRequest.descs])
  have hf₂ := hfree r.idx₂ (by simp [DiskRequest.descs])
  refine ⟨((d.clearDesc r.idx₀).clearDesc r.idx₁).clearDesc r.idx₂, ?_, ?_⟩
  · rw [freeChain_taken _ hf₀, if_pos h.next₀.1, h.next₀.2,
      freeChain_taken _ (by simp [Ne.symm h01, hf₁])]
    simp only [clearDesc_desc, if_neg (Ne.symm h01)]
    rw [if_pos h.next₁.1, h.next₁.2, freeChain_taken _ (by simp [Ne.symm h02, Ne.symm h12, hf₂])]
    simp only [clearDesc_desc, if_neg (Ne.symm h02), if_neg (Ne.symm h12)]
    rw [if_neg (by simp [h.last.1])]
  · refine ⟨fun i hi => ?_, fun i => ?_, rfl⟩
    · simp only [DiskRequest.descs, List.mem_cons, List.not_mem_nil, or_false, not_or] at hi
      simp [hi]
    · simp only [DiskRequest.descs, List.mem_cons, List.not_mem_nil, or_false, clearDesc_free]
      split_ifs <;> simp_all

end VirtioDriver

/-! ## The invariant -/

namespace DiskSystem

variable {ι β : Type} {s s' : DiskSystem ι β} {p q : ι} {r : DiskRequest β}

/-- The process waits for its request. -/
def Active (s : DiskSystem ι β) (p : ι) (r : DiskRequest β) : Prop := s.callers p = .sleepDisk r

/-- The entries of `avail` that the device has not taken. -/
def availQueue (s : DiskSystem ι β) : List (Nat × Nat) :=
  Ring.contents NUM (2 ^ 16) (fun k => (s.driver.availRing k, s.availReq k)) s.takenIdx
    s.driver.availIdx

/-- The entries of `used` that `handle_interrupt` has not seen. -/
def usedQueue (s : DiskSystem ι β) : List (Nat × Nat) :=
  Ring.contents NUM (2 ^ 16) (fun k => (s.driver.usedRing k, s.usedReq k)) s.driver.lookedIdx
    s.driver.usedIdx

/-- The requests on their way through the device. -/
def queue (s : DiskSystem ι β) : List (Nat × Nat) := s.availQueue ++ s.taken ++ s.usedQueue

/-- **Descriptors, requests and queue agree.** -/
structure Sound (s : DiskSystem ι β) : Prop where
  nodup : ∀ p r, s.Active p r → r.descs.Nodup
  disjoint : ∀ p q r r' i, s.Active p r → s.Active q r' → i ∈ r.descs → i ∈ r'.descs → p = q
  free : ∀ i, s.driver.free i = false ↔ ∃ p r, s.Active p r ∧ i ∈ r.descs
  chained : ∀ p r, s.Active p r → s.driver.Chained r
  info : ∀ p r, s.Active p r → (s.driver.info r.idx₀).b = some r.b
  holder : ∀ p r, s.Active p r → s.holder r.b = some p
  waiter : ∀ p b n w, s.callers p = .sleepFree b n w → s.holder b = some p
  availIdx : s.driver.availIdx < 2 ^ 16
  takenIdx : s.takenIdx < 2 ^ 16
  usedIdx : s.driver.usedIdx < 2 ^ 16
  lookedIdx : s.driver.lookedIdx < 2 ^ 16
  /-- A request is in the queue once, until `disk` of its buffer is cleared. -/
  heads : (s.queue.map Prod.fst).Nodup
  queue : ∀ h n, (h, n) ∈ s.queue ↔
    ∃ p r, s.Active p r ∧ r.idx₀.val = h ∧ r.num = n ∧ s.driver.disk r.b = true
  status : ∀ p r, s.Active p r → (r.idx₀.val, r.num) ∈ s.usedQueue →
    (s.driver.info r.idx₀).status = 0
  posted : ∀ p r, s.Active p r → (r.idx₀.val, r.num) ∈ s.usedQueue ∨ s.driver.disk r.b = false →
    r.num ∈ s.posted
  issued : ∀ p r, s.Active p r → s.issued[r.num]? = some r.b

theorem Sound.unique {r' : DiskRequest β} (h : Sound s) (hp : s.Active p r) (hq : s.Active q r')
    (hhead : r.idx₀.val = r'.idx₀.val) : p = q ∧ r = r' := by
  have hidx : r.idx₀ = r'.idx₀ := Fin.ext hhead
  have hpq : p = q := h.disjoint p q r r' r.idx₀ hp hq (by simp [DiskRequest.descs])
    (by simp [DiskRequest.descs, hidx])
  subst hpq
  rw [Active, hp] at hq
  cases hq
  exact ⟨rfl, rfl⟩

theorem Sound.head_lt (h : Sound s) {x : Nat × Nat} (hx : x ∈ s.queue) : x.1 < NUM := by
  obtain ⟨p, r, -, hhead, -⟩ := (h.queue x.1 x.2).1 hx
  rw [← hhead]
  exact r.idx₀.isLt

/-- There is room for every head. -/
theorem Sound.length_le (h : Sound s) {l : List Nat} (hnodup : (l ++ s.queue.map Prod.fst).Nodup)
    (hlt : ∀ i ∈ l, i < NUM) : l.length + s.queue.length ≤ NUM := by
  have hsub : (l ++ s.queue.map Prod.fst) ⊆ List.range NUM := by
    intro i hi
    rw [List.mem_range]
    rcases List.mem_append.1 hi with hi | hi
    · exact hlt i hi
    · obtain ⟨x, hx, rfl⟩ := List.mem_map.1 hi
      exact h.head_lt hx
  have hle := (hnodup.subperm hsub).length_le
  simpa using hle

theorem Sound.not_head {i : DescId} (h : Sound s) (hi : s.driver.free i = true) (n : Nat) :
    (i.val, n) ∉ s.queue := by
  intro hmem
  obtain ⟨q, r, hq, hidx, -⟩ := (h.queue _ _).1 hmem
  have hfalse := (h.free r.idx₀).2 ⟨q, r, hq, by simp [DiskRequest.descs]⟩
  rw [Fin.ext hidx, hi] at hfalse
  cases hfalse

theorem length_queue : s.queue.length = s.availQueue.length + s.taken.length + s.usedQueue.length := by
  rw [DiskSystem.queue, List.length_append, List.length_append]

theorem length_availQueue :
    s.availQueue.length = Ring.count (2 ^ 16) s.takenIdx s.driver.availIdx := by
  rw [availQueue, Ring.contents, List.length_map, List.length_range]

theorem length_usedQueue :
    s.usedQueue.length = Ring.count (2 ^ 16) s.driver.lookedIdx s.driver.usedIdx := by
  rw [usedQueue, Ring.contents, List.length_map, List.length_range]

theorem Sound.heads_cons {i : DescId} (h : Sound s) (hi : s.driver.free i = true) :
    (i.val :: s.queue.map Prod.fst).Nodup := by
  refine List.nodup_cons.2 ⟨fun hmem => ?_, h.heads⟩
  obtain ⟨x, hx, hfst⟩ := List.mem_map.1 hmem
  exact h.not_head hi x.2 (hfst ▸ hx)

/-- There is room in `avail` for a chain that starts at a free descriptor. -/
theorem Sound.avail_room {i : DescId} (h : Sound s) (hi : s.driver.free i = true) :
    s.availQueue.length < NUM := by
  have hle := h.length_le (l := [i.val]) (h.heads_cons hi) (by simp)
  rw [length_queue] at hle
  simp only [List.length_singleton] at hle
  omega

/-- There is room in `used` for a chain that the device works on. -/
theorem Sound.used_room {x : Nat × Nat} (h : Sound s) (hx : x ∈ s.taken) :
    s.usedQueue.length < NUM := by
  have hle := h.length_le (l := []) h.heads (by simp)
  have hpos := List.length_pos_of_mem hx
  rw [length_queue] at hle
  simp only [List.length_nil] at hle
  omega

theorem sound_init : Sound (init : DiskSystem ι β) := by
  have hnone : ∀ p r, ¬ (init : DiskSystem ι β).Active p r := fun p r h => by cases h
  have hqueue : (init : DiskSystem ι β).queue = [] := by
    simp [DiskSystem.queue, availQueue, usedQueue, Ring.contents, Ring.count, init, VirtioDriver.init]
  constructor
  case nodup => exact fun p r h => (hnone p r h).elim
  case disjoint => exact fun p q r r' i h => (hnone p r h).elim
  case free =>
    intro i
    refine iff_of_false (by simp [init, VirtioDriver.init]) ?_
    rintro ⟨p, r, h, -⟩
    exact hnone p r h
  case chained => exact fun p r h => (hnone p r h).elim
  case info => exact fun p r h => (hnone p r h).elim
  case holder => exact fun p r h => (hnone p r h).elim
  case waiter => exact fun p b n w h => by cases h
  case heads => rw [hqueue]; exact List.nodup_nil
  case queue =>
    intro h n
    refine iff_of_false (by simp [hqueue]) ?_
    rintro ⟨p, r, h, -⟩
    exact hnone p r h
  case status => exact fun p r h => (hnone p r h).elim
  case posted => exact fun p r h => (hnone p r h).elim
  case issued => exact fun p r h => (hnone p r h).elim
  all_goals exact Nat.two_pow_pos 16

/-! ## The device -/

/-- The requests move in the queue. -/
theorem Sound.requeue (h : Sound s) (hcallers : s'.callers = s.callers) (hholder : s'.holder = s.holder)
    (hissued : s'.issued = s.issued) (hfree : s'.driver.free = s.driver.free)
    (hdesc : s'.driver.desc = s.driver.desc)
    (hinfo : ∀ i, (s'.driver.info i).b = (s.driver.info i).b) (hdisk : s'.driver.disk = s.driver.disk)
    (havail : s'.driver.availIdx < 2 ^ 16) (htaken : s'.takenIdx < 2 ^ 16)
    (hused : s'.driver.usedIdx < 2 ^ 16) (hlooked : s'.driver.lookedIdx < 2 ^ 16)
    (hqueue : s'.queue.Perm s.queue)
    (hstatus : ∀ p r, s.Active p r → (r.idx₀.val, r.num) ∈ s'.usedQueue →
      (s'.driver.info r.idx₀).status = 0 ∧ r.num ∈ s'.posted)
    (hposted : ∀ n ∈ s.posted, n ∈ s'.posted) : Sound s' := by
  have hactive : ∀ p r, s'.Active p r ↔ s.Active p r := fun p r => by rw [Active, Active, hcallers]
  constructor
  case nodup => exact fun p r hp => h.nodup p r ((hactive p r).1 hp)
  case disjoint => exact fun p q r r' i hp hq => h.disjoint p q r r' i ((hactive p r).1 hp) ((hactive q r').1 hq)
  case free =>
    intro i
    rw [hfree, h.free]
    simp only [hactive]
  case chained =>
    intro p r hp
    exact (h.chained p r ((hactive p r).1 hp)).congr fun i _ => by rw [hdesc]
  case info =>
    intro p r hp
    rw [hinfo]
    exact h.info p r ((hactive p r).1 hp)
  case holder =>
    intro p r hp
    rw [hholder]
    exact h.holder p r ((hactive p r).1 hp)
  case waiter =>
    rw [hcallers, hholder]
    exact h.waiter
  case availIdx => exact havail
  case takenIdx => exact htaken
  case usedIdx => exact hused
  case lookedIdx => exact hlooked
  case heads => exact (hqueue.map _).nodup_iff.2 h.heads
  case queue =>
    intro hd n
    rw [hqueue.mem_iff, h.queue, hdisk]
    simp only [hactive]
  case status => exact fun p r hp hmem => (hstatus p r ((hactive p r).1 hp) hmem).1
  case posted =>
    rintro p r hp (hmem | hdone)
    · exact (hstatus p r ((hactive p r).1 hp) hmem).2
    · rw [hdisk] at hdone
      exact hposted _ (h.posted p r ((hactive p r).1 hp) (.inr hdone))
  case issued =>
    intro p r hp
    rw [hissued]
    exact h.issued p r ((hactive p r).1 hp)

theorem cells_update {cells reqs : Nat → Nat} (i x y : Nat) :
    Function.update (fun k => (cells k, reqs k)) i (x, y) =
      fun k => (Function.update cells i x k, Function.update reqs i y k) := by
  funext k
  by_cases hk : k = i
  · simp [hk]
  · simp [hk]

theorem NUM_dvd : NUM ∣ 2 ^ 16 := by decide

theorem Sound.take (h : Sound s) (hne : s.takenIdx ≠ s.driver.availIdx) : Sound { s with
    taken := s.taken ++ [(s.driver.availRing (s.takenIdx % NUM), s.availReq (s.takenIdx % NUM))]
    takenIdx := (s.takenIdx + 1) % 2 ^ 16 } := by
  have hpop : s.availQueue = (s.driver.availRing (s.takenIdx % NUM), s.availReq (s.takenIdx % NUM)) ::
      availQueue { s with
        taken := s.taken ++ [(s.driver.availRing (s.takenIdx % NUM), s.availReq (s.takenIdx % NUM))]
        takenIdx := (s.takenIdx + 1) % 2 ^ 16 } :=
    Ring.contents_pop NUM_dvd h.takenIdx h.availIdx hne
  refine h.requeue rfl rfl rfl rfl rfl (fun _ => rfl) rfl h.availIdx (Nat.mod_lt _ (by decide)) h.usedIdx
    h.lookedIdx ?_ (fun p r hp hmem => ⟨h.status p r hp hmem, h.posted p r hp (.inl hmem)⟩)
    fun _ hn => hn
  rw [DiskSystem.queue, DiskSystem.queue, hpop]
  refine List.Perm.append_right _ ?_
  rw [List.cons_append, ← List.append_assoc]
  exact List.perm_append_singleton _ _

theorem Sound.post {k head num : Nat} {d : VirtioDriver β} (h : Sound s)
    (hk : s.taken[k]? = some (head, num)) (hd : s.driver.post head = some d) : Sound { s with
      driver := d
      taken := s.taken.eraseIdx k
      usedReq := Function.update s.usedReq (s.driver.usedIdx % NUM) num
      posted := s.posted ++ [num] } := by
  have hmem : (head, num) ∈ s.queue := by
    rw [DiskSystem.queue]
    exact List.mem_append_left _ (List.mem_append_right _ (List.mem_of_getElem? hk))
  obtain ⟨p, r, hp, rfl, rfl, hdisk⟩ := (h.queue head num).1 hmem
  rw [VirtioDriver.post, (h.chained p r hp).statusOf] at hd
  cases hd
  have htaken : s.taken.Perm ((r.idx₀.val, r.num) :: s.taken.eraseIdx k) := by
    obtain ⟨hlt, hget⟩ := List.getElem?_eq_some_iff.1 hk
    rw [← hget]
    exact (List.getElem_cons_eraseIdx_perm hlt).symm
  have hroom := h.used_room (List.mem_of_getElem? hk)
  have hpush := Ring.contents_push (fun k => (s.driver.usedRing k, s.usedReq k)) NUM_dvd
    (by decide) h.lookedIdx h.usedIdx (length_usedQueue ▸ hroom) (r.idx₀.val, r.num)
  rw [cells_update] at hpush
  refine h.requeue rfl rfl rfl rfl rfl (fun i => ?_) rfl h.availIdx h.takenIdx (Nat.mod_lt _ (by decide))
    h.lookedIdx ?_ (fun q r' hq hmem' => ?_) fun n hn => List.mem_append_left _ hn
  · show (Function.update s.driver.info r.idx₀ { s.driver.info r.idx₀ with status := 0 } i).b = _
    by_cases hi : i = r.idx₀
    · rw [hi, Function.update_self]
    · rw [Function.update_of_ne hi]
  · refine ((hpush ▸ List.Perm.refl _ : List.Perm _ (s.availQueue ++ s.taken.eraseIdx k ++
      (s.usedQueue ++ [(r.idx₀.val, r.num)])))).trans ?_
    rw [DiskSystem.queue, List.append_assoc, List.append_assoc]
    refine List.Perm.append_left _ ?_
    rw [← List.append_assoc]
    exact (List.perm_append_singleton _ _).trans (htaken.symm.append_right _)
  · replace hmem' : (r'.idx₀.val, r'.num) ∈ s.usedQueue ++ [(r.idx₀.val, r.num)] := hpush ▸ hmem'
    show (Function.update s.driver.info r.idx₀ { s.driver.info r.idx₀ with status := 0 } r'.idx₀).status =
      0 ∧ r'.num ∈ s.posted ++ [r.num]
    rcases List.mem_append.1 hmem' with hold | hnew
    · refine ⟨?_, List.mem_append_left _ (h.posted q r' hq (.inl hold))⟩
      by_cases hidx : r'.idx₀ = r.idx₀
      · rw [hidx, Function.update_self]
      · rw [Function.update_of_ne hidx]
        exact h.status q r' hq hold
    · obtain ⟨hidx, hnum⟩ := Prod.mk.inj (List.mem_singleton.1 hnew)
      rw [Fin.ext hidx, Function.update_self, hnum]
      exact ⟨rfl, List.mem_append_right _ (List.mem_singleton_self _)⟩

/-! ## The interrupt handler -/

variable [DecidableEq β]

/-- A request leaves the queue, and `disk` of its buffer is cleared. -/
theorem Sound.handled (h : Sound s) (hp : s.Active p r)
    (hpop : s.usedQueue = (r.idx₀.val, r.num) :: Ring.contents NUM (2 ^ 16)
        (fun k => (s.driver.usedRing k, s.usedReq k)) ((s.driver.lookedIdx + 1) % 2 ^ 16)
        s.driver.usedIdx) : Sound { s with driver := { s.driver with
        disk := Function.update s.driver.disk r.b false
        lookedIdx := (s.driver.lookedIdx + 1) % 2 ^ 16 } } := by
  have hperm : s.queue.Perm ((r.idx₀.val, r.num) :: DiskSystem.queue { s with driver := { s.driver with
      disk := Function.update s.driver.disk r.b false
      lookedIdx := (s.driver.lookedIdx + 1) % 2 ^ 16 } }) := by
    rw [DiskSystem.queue, hpop]
    exact List.perm_middle
  have hheads := (hperm.map Prod.fst).nodup_iff.1 h.heads
  rw [List.map_cons, List.nodup_cons] at hheads
  -- the other requests have other buffers
  have hother : ∀ q r', s.Active q r' → r'.b = r.b → q = p := by
    intro q r' hq hb
    have hholder := h.holder q r' hq
    rw [hb, h.holder p r hp] at hholder
    exact (Option.some.inj hholder).symm
  have hsame : ∀ r', s.Active p r' → r' = r := by
    intro r' hr'
    rw [Active, hp] at hr'
    cases hr'
    rfl
  have hsub : ∀ x, x ∈ Ring.contents NUM (2 ^ 16) (fun k => (s.driver.usedRing k, s.usedReq k))
      ((s.driver.lookedIdx + 1) % 2 ^ 16) s.driver.usedIdx → x ∈ s.usedQueue := fun x hx => by
    rw [hpop]
    exact List.mem_cons_of_mem _ hx
  refine { h with
    chained := fun q r' hq => (h.chained q r' hq).congr fun _ _ => rfl
    lookedIdx := Nat.mod_lt _ (by decide)
    heads := hheads.2
    queue := fun hd n => ?_
    status := fun q r' hq hmem => h.status q r' hq (hsub _ hmem)
    posted := fun q r' hq hmem => ?_ }
  · constructor
    · intro hmem
      obtain ⟨q, r', hq, hhead, hnum, hdisk⟩ := (h.queue hd n).1 (hperm.mem_iff.2 (List.mem_cons_of_mem _ hmem))
      refine ⟨q, r', hq, hhead, hnum, ?_⟩
      show Function.update s.driver.disk r.b false r'.b = true
      rw [Function.update_of_ne, hdisk]
      intro hb
      have hqp := hother q r' hq hb
      subst hqp
      rw [hsame r' hq] at hhead
      exact hheads.1 (List.mem_map.2 ⟨(hd, n), hmem, hhead.symm⟩)
    · rintro ⟨q, r', hq, hhead, hnum, hdisk⟩
      replace hdisk : Function.update s.driver.disk r.b false r'.b = true := hdisk
      have hb : r'.b ≠ r.b := by
        intro hb
        rw [hb, Function.update_self] at hdisk
        cases hdisk
      rw [Function.update_of_ne hb] at hdisk
      have hmem := hperm.mem_iff.1 ((h.queue hd n).2 ⟨q, r', hq, hhead, hnum, hdisk⟩)
      refine (List.mem_cons.1 hmem).resolve_left fun heq => ?_
      have hhead' : r'.idx₀.val = r.idx₀.val := hhead.trans (Prod.mk.inj heq).1
      exact hb (congrArg DiskRequest.b (h.unique hq hp hhead').2)
  · rcases hmem with hmem | hdone
    · exact h.posted q r' hq (.inl (hsub _ hmem))
    · replace hdone : Function.update s.driver.disk r.b false r'.b = false := hdone
      by_cases hb : r'.b = r.b
      · have hqp := hother q r' hq hb
        subst hqp
        rw [hsame r' hq]
        exact h.posted q r hp (.inl (by rw [hpop]; exact List.mem_cons_self))
      · rw [Function.update_of_ne hb] at hdone
        exact h.posted q r' hq (.inr hdone)

/-- **A round of `handle_interrupt`** clears `disk` of the buffer of the request that it finds. -/
theorem Sound.handle (h : Sound s) (hne : s.driver.lookedIdx ≠ s.driver.usedIdx) :
    ∃ p r, s.Active p r ∧ r.idx₀.val = s.driver.usedRing (s.driver.lookedIdx % NUM) ∧
      r.num = s.usedReq (s.driver.lookedIdx % NUM) ∧ s.driver.disk r.b = true ∧ r.num ∈ s.posted ∧
      s.driver.handle = .ok { s.driver with
        disk := Function.update s.driver.disk r.b false
        lookedIdx := (s.driver.lookedIdx + 1) % 2 ^ 16 } ∧
      Sound { s with driver := { s.driver with
        disk := Function.update s.driver.disk r.b false
        lookedIdx := (s.driver.lookedIdx + 1) % 2 ^ 16 } } := by
  have hpop : s.usedQueue = (s.driver.usedRing (s.driver.lookedIdx % NUM),
      s.usedReq (s.driver.lookedIdx % NUM)) :: Ring.contents NUM (2 ^ 16)
        (fun k => (s.driver.usedRing k, s.usedReq k)) ((s.driver.lookedIdx + 1) % 2 ^ 16)
        s.driver.usedIdx := Ring.contents_pop NUM_dvd h.lookedIdx h.usedIdx hne
  have hmem : (s.driver.usedRing (s.driver.lookedIdx % NUM), s.usedReq (s.driver.lookedIdx % NUM)) ∈
      s.queue := by
    rw [DiskSystem.queue, hpop]
    simp
  obtain ⟨p, r, hp, hhead, hnum, hdisk⟩ := (h.queue _ _).1 hmem
  have hused : (r.idx₀.val, r.num) ∈ s.usedQueue := by
    rw [hpop, hhead, hnum]
    exact List.mem_cons_self
  refine ⟨p, r, hp, hhead, hnum, hdisk, h.posted p r hp (.inl hused), ?_, ?_⟩
  · have hinfo : s.driver.info ⟨r.idx₀.val, r.idx₀.isLt⟩ = s.driver.info r.idx₀ := rfl
    rw [VirtioDriver.handle, ← hhead, dif_pos r.idx₀.isLt]
    rw [hinfo, h.status p r hp hused, h.info p r hp]
    simp
  · exact h.handled hp (hhead ▸ hnum ▸ hpop)

/-! ## The callers -/

/-- A process takes the lock of a buffer. -/
theorem Sound.hold {b : β} (h : Sound s) (hb : s.holder b = none) :
    Sound { s with holder := Function.update s.holder b (some p) } := by
  have hother : ∀ q b', s.holder b' = some q → Function.update s.holder b (some p) b' = some q := by
    intro q b' hq
    rw [Function.update_of_ne, hq]
    rintro rfl
    rw [hb] at hq
    cases hq
  exact { h with
    chained := h.chained
    holder := fun q r hq => hother q _ (h.holder q r hq)
    waiter := fun q b' n w hq => hother q b' (h.waiter q b' n w hq) }

variable [DecidableEq ι]

omit [DecidableEq β] in
/-- A process that has no request goes to sleep for descriptors. -/
theorem Sound.sleep {d : VirtioDriver β} {b : β} {blockno : Nat} {write : Bool} (h : Sound s)
    (hp : ∀ r, ¬ s.Active p r) (hb : s.holder b = some p) (hd : s.driver.Cleared d) : Sound { s with
      driver := d
      callers := Function.update s.callers p (.sleepFree b blockno write) } := by
  obtain ⟨hdesc, hd⟩ := hd
  generalize d.desc = desc at hd hdesc
  subst hd
  have hactive : ∀ {q r}, Active { s with
      driver := { s.driver with desc := desc }
      callers := Function.update s.callers p (.sleepFree b blockno write) } q r ↔ s.Active q r := by
    intro q r
    show Function.update s.callers p _ q = _ ↔ s.callers q = _
    by_cases hq : q = p
    · subst hq
      rw [Function.update_self]
      exact iff_of_false (by simp) (hp r)
    · rw [Function.update_of_ne hq]
  refine {
    nodup := fun q r hq => h.nodup q r (hactive.1 hq)
    disjoint := fun q q' r r' i hq hq' => h.disjoint q q' r r' i (hactive.1 hq) (hactive.1 hq')
    free := fun i => by simp only [hactive]; exact h.free i
    chained := fun q r hq => (h.chained q r (hactive.1 hq)).congr fun i hi =>
      hdesc i ((h.free i).2 ⟨q, r, hactive.1 hq, hi⟩)
    info := fun q r hq => h.info q r (hactive.1 hq)
    holder := fun q r hq => h.holder q r (hactive.1 hq)
    waiter := fun q b' n w hq => ?_
    availIdx := h.availIdx
    takenIdx := h.takenIdx
    usedIdx := h.usedIdx
    lookedIdx := h.lookedIdx
    heads := h.heads
    queue := fun hd n => by simp only [hactive]; exact h.queue hd n
    status := fun q r hq => h.status q r (hactive.1 hq)
    posted := fun q r hq => h.posted q r (hactive.1 hq)
    issued := fun q r hq => h.issued q r (hactive.1 hq) }
  replace hq : Function.update s.callers p (.sleepFree b blockno write) q = .sleepFree b' n w := hq
  by_cases hqp : q = p
  · subst hqp
    rw [Function.update_self] at hq
    cases hq
    exact hb
  · rw [Function.update_of_ne hqp] at hq
    exact h.waiter q b' n w hq

/-- **A process hands a request to the device.** -/
theorem Sound.request {idx₀ idx₁ idx₂ : DescId} {b : β} {blockno : Nat} {write : Bool} (h : Sound s)
    (hp : ∀ r, ¬ s.Active p r) (hb : s.holder b = some p) (hnodup : [idx₀, idx₁, idx₂].Nodup)
    (hfree : ∀ i ∈ [idx₀, idx₁, idx₂], s.driver.free i = true) : Sound { s with
      driver := (((((s.driver.setFree idx₀ false).setFree idx₁ false).setFree idx₂ false).format idx₀
        idx₁ idx₂ b blockno write).publish idx₀)
      callers := Function.update s.callers p (.sleepDisk ⟨s.issued.length, idx₀, idx₁, idx₂, b⟩)
      availReq := Function.update s.availReq (s.driver.availIdx % NUM) s.issued.length
      issued := s.issued ++ [b] } := by
  set new : DiskRequest β := ⟨s.issued.length, idx₀, idx₁, idx₂, b⟩ with hnew
  set s' : DiskSystem ι β := { s with
    driver := (((((s.driver.setFree idx₀ false).setFree idx₁ false).setFree idx₂ false).format idx₀
      idx₁ idx₂ b blockno write).publish idx₀)
    callers := Function.update s.callers p (.sleepDisk new)
    availReq := Function.update s.availReq (s.driver.availIdx % NUM) s.issued.length
    issued := s.issued ++ [b] } with hs'
  have hactive : ∀ {q r}, s'.Active q r ↔ s.Active q r ∨ q = p ∧ r = new := by
    intro q r
    show Function.update s.callers p (.sleepDisk new) q = .sleepDisk r ↔ s.callers q = _ ∨ _
    by_cases hq : q = p
    · subst hq
      rw [Function.update_self]
      have hnot : ¬ s.callers q = .sleepDisk r := hp r
      simp [hnot, eq_comm]
    · rw [Function.update_of_ne hq]
      simp [hq]
  have hdescs : new.descs = [idx₀, idx₁, idx₂] := rfl
  -- the other requests have other descriptors and buffers
  have hapart : ∀ {q r}, s.Active q r → ∀ i ∈ r.descs, i ∉ new.descs := fun {q r} hq i hi hi' => by
    have hfalse := (h.free i).2 ⟨q, r, hq, hi⟩
    rw [hfree i hi'] at hfalse
    cases hfalse
  have hbuf : ∀ {q r}, s.Active q r → r.b ≠ b := fun {q r} hq heq => by
    have hholder := h.holder q r hq
    rw [heq, hb] at hholder
    exact hp r (Option.some.inj hholder ▸ hq)
  have hdriver : ∀ i, s'.driver.free i = if i ∈ new.descs then false else s.driver.free i := by
    intro i
    show (((s.driver.setFree idx₀ false).setFree idx₁ false).setFree idx₂ false).free i = _
    rw [hdescs]
    simp only [VirtioDriver.setFree_free, List.mem_cons, List.not_mem_nil, or_false]
    split_ifs <;> simp_all
  have hfree₀ := hfree idx₀ List.mem_cons_self
  have hhead := h.not_head hfree₀
  have hheads := h.heads_cons hfree₀
  have hroom := h.avail_room hfree₀
  have hpush : s'.availQueue = s.availQueue ++ [(idx₀.val, s.issued.length)] := by
    have hpush := Ring.contents_push (fun k => (s.driver.availRing k, s.availReq k)) NUM_dvd
      (by decide) h.takenIdx h.availIdx (length_availQueue ▸ hroom) (idx₀.val, s.issued.length)
    rw [cells_update] at hpush
    exact hpush
  have hqueue : s'.queue.Perm ((idx₀.val, s.issued.length) :: s.queue) := by
    show (s'.availQueue ++ s.taken ++ s.usedQueue).Perm (_ :: (s.availQueue ++ s.taken ++ s.usedQueue))
    rw [hpush, List.append_assoc, List.append_assoc, List.append_assoc]
    exact List.perm_middle
  have hinfo : ∀ {q r}, s.Active q r → s'.driver.info r.idx₀ = s.driver.info r.idx₀ := by
    intro q r hq
    refine Function.update_of_ne (fun hidx => ?_) ..
    exact hapart hq r.idx₀ (by simp [DiskRequest.descs]) (hidx ▸ List.mem_cons_self)
  have hdisk : ∀ {q r}, s.Active q r → s'.driver.disk r.b = s.driver.disk r.b := fun hq =>
    Function.update_of_ne (hbuf hq) ..
  have hdisk' : s'.driver.disk b = true := Function.update_self ..
  refine {
    nodup := fun q r hq => ?nodup
    disjoint := fun q q' r r' i hq hq' hi hi' => ?disjoint
    free := fun i => ?free
    chained := fun q r hq => ?chained
    info := fun q r hq => ?info
    holder := fun q r hq => ?holder
    waiter := fun q b' n w hq => ?waiter
    availIdx := Nat.mod_lt _ (by decide)
    takenIdx := h.takenIdx
    usedIdx := h.usedIdx
    lookedIdx := h.lookedIdx
    heads := (hqueue.map Prod.fst).nodup_iff.2 hheads
    queue := fun hd n => ?queue
    status := fun q r hq hmem => ?status
    posted := fun q r hq hmem => ?posted
    issued := fun q r hq => ?issued }
  case nodup =>
    rcases hactive.1 hq with hq | ⟨-, rfl⟩
    · exact h.nodup q r hq
    · exact hnodup
  case disjoint =>
    rcases hactive.1 hq with h₁ | ⟨rfl, rfl⟩ <;> rcases hactive.1 hq' with h₂ | ⟨rfl, rfl⟩
    · exact h.disjoint q q' r r' i h₁ h₂ hi hi'
    · exact (hapart h₁ i hi hi').elim
    · exact (hapart h₂ i hi' hi).elim
    · rfl
  case free =>
    rw [hdriver]
    split
    · next hi => exact iff_of_true rfl ⟨p, new, hactive.2 (.inr ⟨rfl, rfl⟩), hi⟩
    · next hi =>
      rw [h.free]
      constructor
      · rintro ⟨q, r, hq, hi⟩
        exact ⟨q, r, hactive.2 (.inl hq), hi⟩
      · rintro ⟨q, r, hq, hi'⟩
        rcases hactive.1 hq with hq | ⟨-, rfl⟩
        · exact ⟨q, r, hq, hi'⟩
        · exact (hi hi').elim
  case chained =>
    rcases hactive.1 hq with hq | ⟨-, rfl⟩
    · refine (h.chained q r hq).congr fun i hi => ?_
      exact VirtioDriver.format_desc b blockno write (hapart hq i hi)
    · exact (VirtioDriver.format_chained b blockno write hnodup _).congr fun _ _ => rfl
  case info =>
    rcases hactive.1 hq with hq | ⟨-, rfl⟩
    · rw [hinfo hq]
      exact h.info q r hq
    · show (Function.update s.driver.info idx₀ ⟨some b, 0xff⟩ idx₀).b = some b
      rw [Function.update_self]
  case holder =>
    rcases hactive.1 hq with hq | ⟨rfl, rfl⟩
    · exact h.holder q r hq
    · exact hb
  case waiter =>
    replace hq : Function.update s.callers p (.sleepDisk new) q = .sleepFree b' n w := hq
    have hqp : q ≠ p := by
      rintro rfl
      rw [Function.update_self] at hq
      cases hq
    rw [Function.update_of_ne hqp] at hq
    exact h.waiter q b' n w hq
  case queue =>
    rw [hqueue.mem_iff, List.mem_cons, h.queue]
    constructor
    · rintro (heq | ⟨q, r, hq, hhead, hnum, hon⟩)
      · cases heq
        exact ⟨p, new, hactive.2 (.inr ⟨rfl, rfl⟩), rfl, rfl, hdisk'⟩
      · exact ⟨q, r, hactive.2 (.inl hq), hhead, hnum, (hdisk hq).trans hon⟩
    · rintro ⟨q, r, hq, rfl, rfl, hon⟩
      rcases hactive.1 hq with hq | ⟨-, rfl⟩
      · exact .inr ⟨q, r, hq, rfl, rfl, (hdisk hq).symm.trans hon⟩
      · exact .inl rfl
  case status =>
    rcases hactive.1 hq with hq | ⟨-, rfl⟩
    · rw [hinfo hq]
      exact h.status q r hq hmem
    · exact (hhead _ (List.mem_append_right _ hmem)).elim
  case posted =>
    rcases hactive.1 hq with hq | ⟨-, rfl⟩
    · rw [hdisk hq] at hmem
      exact h.posted q r hq hmem
    · rcases hmem with hmem | hmem
      · exact (hhead _ (List.mem_append_right _ hmem)).elim
      · rw [show new.b = b from rfl, hdisk'] at hmem
        cases hmem
  case issued =>
    rcases hactive.1 hq with hq | ⟨-, rfl⟩
    · have hget := h.issued q r hq
      show (s.issued ++ [b])[r.num]? = some r.b
      rw [List.getElem?_append_left (List.getElem?_eq_some_iff.1 hget).1]
      exact hget
    · show (s.issued ++ [b])[s.issued.length]? = some b
      simp

/-- **A process returns** when its request is done. -/
theorem Sound.finish (h : Sound s) (hp : s.Active p r)
    (hdone : s.driver.disk r.b = false) :
    ∃ d, s.driver.finish r.idx₀ = .ok d ∧ d.disk = s.driver.disk ∧ d.availRing = s.driver.availRing ∧
      d.usedRing = s.driver.usedRing ∧ Sound { s with
      driver := d
      callers := Function.update s.callers p .idle
      holder := Function.update s.holder r.b none } := by
  obtain ⟨d, hd, hfreed⟩ := VirtioDriver.Chained.freeChain (d := { s.driver with
    info := Function.update s.driver.info r.idx₀ { s.driver.info r.idx₀ with b := none } })
    ((h.chained p r hp).congr fun _ _ => rfl) (h.nodup p r hp)
    (fun i hi => (h.free i).2 ⟨p, r, hp, hi⟩) 5
  obtain ⟨hdesc, hfree, hothers⟩ := hfreed
  generalize d.desc = desc at hothers hdesc
  generalize d.free = free at hothers hfree
  subst hothers
  refine ⟨_, hd, rfl, rfl, rfl, ?_⟩
  have hsame : ∀ r', s.Active p r' → r' = r := by
    intro r' hr'
    rw [Active, hp] at hr'
    cases hr'
    rfl
  set s' : DiskSystem ι β := { s with
    driver := { s.driver with
      desc := desc
      free := free
      info := Function.update s.driver.info r.idx₀ { s.driver.info r.idx₀ with b := none } }
    callers := Function.update s.callers p .idle
    holder := Function.update s.holder r.b none } with hs'
  have hactive : ∀ {q r'}, s'.Active q r' ↔ s.Active q r' ∧ q ≠ p := by
    intro q r'
    show Function.update s.callers p .idle q = _ ↔ s.callers q = _ ∧ _
    by_cases hq : q = p
    · rw [hq, Function.update_self]
      exact iff_of_false (by simp) (by simp)
    · rw [Function.update_of_ne hq]
      exact (and_iff_left hq).symm
  -- the other requests keep their descriptors and buffers
  have hapart : ∀ {q r'}, s'.Active q r' → ∀ i ∈ r'.descs, i ∉ r.descs := fun hq i hi hi' =>
    (hactive.1 hq).2 (h.disjoint _ _ _ _ i (hactive.1 hq).1 hp hi hi')
  have hbuf : ∀ {q b'}, q ≠ p → s.holder b' = some q → Function.update s.holder r.b none b' = some q := by
    intro q b' hq hb'
    rw [Function.update_of_ne, hb']
    rintro rfl
    rw [h.holder p r hp] at hb'
    exact hq (Option.some.inj hb').symm
  have hinfo : ∀ {q r'}, s'.Active q r' → s'.driver.info r'.idx₀ = s.driver.info r'.idx₀ := by
    intro q r' hq
    refine Function.update_of_ne (fun hidx => ?_) ..
    exact hapart hq r'.idx₀ (by simp [DiskRequest.descs]) (by simp [DiskRequest.descs, hidx])
  refine {
    nodup := fun q r' hq => h.nodup q r' (hactive.1 hq).1
    disjoint := fun q q' r' r'' i hq hq' => h.disjoint q q' r' r'' i (hactive.1 hq).1 (hactive.1 hq').1
    free := fun i => ?_
    chained := fun q r' hq => (h.chained q r' (hactive.1 hq).1).congr fun i hi => hdesc i (hapart hq i hi)
    info := fun q r' hq => by rw [hinfo hq]; exact h.info q r' (hactive.1 hq).1
    holder := fun q r' hq => hbuf (hactive.1 hq).2 (h.holder q r' (hactive.1 hq).1)
    waiter := fun q b' n w hq => ?_
    availIdx := h.availIdx
    takenIdx := h.takenIdx
    usedIdx := h.usedIdx
    lookedIdx := h.lookedIdx
    heads := h.heads
    queue := fun hd n => ?_
    status := fun q r' hq hmem => by rw [hinfo hq]; exact h.status q r' (hactive.1 hq).1 hmem
    posted := fun q r' hq => h.posted q r' (hactive.1 hq).1
    issued := fun q r' hq => h.issued q r' (hactive.1 hq).1 }
  · show free i = false ↔ _
    rw [← Bool.not_eq_true, hfree, not_or, Bool.not_eq_true]
    constructor
    · rintro ⟨hi, hfalse⟩
      obtain ⟨q, r', hq, hi'⟩ := (h.free i).1 hfalse
      refine ⟨q, r', hactive.2 ⟨hq, fun hqp => ?_⟩, hi'⟩
      subst hqp
      exact hi (hsame r' hq ▸ hi')
    · rintro ⟨q, r', hq, hi⟩
      exact ⟨hapart hq i hi, (h.free i).2 ⟨q, r', (hactive.1 hq).1, hi⟩⟩
  · replace hq : Function.update s.callers p .idle q = .sleepFree b' n w := hq
    have hqp : q ≠ p := by
      rintro rfl
      rw [Function.update_self] at hq
      cases hq
    rw [Function.update_of_ne hqp] at hq
    exact hbuf hqp (h.waiter q b' n w hq)
  · show (hd, n) ∈ s.queue ↔ _
    rw [h.queue]
    constructor
    · rintro ⟨q, r', hq, hhead, hnum, hdisk⟩
      refine ⟨q, r', hactive.2 ⟨hq, fun hqp => ?_⟩, hhead, hnum, hdisk⟩
      subst hqp
      rw [hsame r' hq, hdone] at hdisk
      cases hdisk
    · rintro ⟨q, r', hq, hrest⟩
      exact ⟨q, r', (hactive.1 hq).1, hrest⟩

/-! ## Steps -/

/-- What a step does, besides keeping the invariant: the entries of `avail` and `used` that have not been
consumed stay as they are, `disk` of a buffer is cleared only by `handle_interrupt`, and a request returns
only when the device has completed it. -/
structure Steps (s : DiskSystem ι β) (a : DiskAct ι β) (s' : DiskSystem ι β) : Prop where
  sound : Sound s'
  avail : ∀ k < Ring.count (2 ^ 16) s.takenIdx s.driver.availIdx,
    s'.driver.availRing ((s.takenIdx + k) % NUM) = s.driver.availRing ((s.takenIdx + k) % NUM)
  used : ∀ k < Ring.count (2 ^ 16) s.driver.lookedIdx s.driver.usedIdx,
    s'.driver.usedRing ((s.driver.lookedIdx + k) % NUM) = s.driver.usedRing ((s.driver.lookedIdx + k) % NUM)
  clears : ∀ b, s.driver.disk b = true → s'.driver.disk b = false → a = .handle
  returns : ∀ p r, s.Active p r → ¬ s'.Active p r → r.num ∈ s.posted

omit [DecidableEq ι] [DecidableEq β] in
theorem Steps.of_driver {a : DiskAct ι β} (h : Sound s') (havail : s'.driver.availRing = s.driver.availRing)
    (hused : s'.driver.usedRing = s.driver.usedRing) (hdisk : s'.driver.disk = s.driver.disk)
    (hreturns : ∀ p r, s.Active p r → ¬ s'.Active p r → r.num ∈ s.posted) : Steps s a s' := by
  refine ⟨h, fun k _ => by rw [havail], fun k _ => by rw [hused], fun b hb hb' => ?_, hreturns⟩
  rw [hdisk, hb] at hb'
  cases hb'

/-- A process that has no request asks for one. -/
theorem Sound.steps_request {a : DiskAct ι β} {b : β} (h : Sound s) (blockno : Nat) (write : Bool)
    (hp : ∀ r, ¬ s.Active p r) (hb : s.holder b = some p) :
    ∃ s', s.request p b blockno write = .ok s' ∧ Steps s a s' := by
  have hreturns : ∀ {s' : DiskSystem ι β} {x}, s'.callers = Function.update s.callers p x →
      ∀ q r, s.Active q r → ¬ s'.Active q r → r.num ∈ s.posted := by
    intro s' x hcallers q r hq hnot
    have hqp : q ≠ p := by
      rintro rfl
      exact hp r hq
    rw [Active, hcallers, Function.update_of_ne hqp] at hnot
    exact (hnot hq).elim
  rw [DiskSystem.request]
  rcases s.driver.alloc3Desc_cases with ⟨d, hd, hcleared⟩ | ⟨idx₀, idx₁, idx₂, hnodup, hfree, hd⟩
  · rw [hd]
    refine ⟨_, rfl, .of_driver (h.sleep hp hb hcleared) ?_ ?_ ?_ (hreturns rfl)⟩
    all_goals
      simp only
      rw [hcleared.others]
  · rw [hd]
    refine ⟨_, rfl, h.request hp hb hnodup hfree, fun k hk => ?_, fun k _ => rfl, fun b' hon hoff => ?_,
      hreturns rfl⟩
    · have hroom : Ring.count (2 ^ 16) s.takenIdx s.driver.availIdx < NUM :=
        length_availQueue ▸ h.avail_room (hfree idx₀ List.mem_cons_self)
      exact Function.update_of_ne (Ring.cell_ne NUM_dvd h.takenIdx h.availIdx hroom hk) ..
    · replace hoff : Function.update s.driver.disk b true b' = false := hoff
      by_cases hb' : b' = b
      · rw [hb', Function.update_self] at hoff
        cases hoff
      · rw [Function.update_of_ne hb', hon] at hoff
        cases hoff

/-- **Every step** keeps the invariant, and none panics. -/
theorem Sound.steps {a : DiskAct ι β} {res : Except Panic (DiskSystem ι β)} (h : Sound s)
    (hs : s.step a = some res) : ∃ s', res = .ok s' ∧ Steps s a s' := by
  cases a with
  | call p b blockno write =>
    rw [step] at hs
    split at hs
    · cases hs
    · split at hs
      · next hidle hb =>
        cases hs
        obtain ⟨s', hs', hsteps⟩ := (h.hold (p := p) hb).steps_request (p := p) (b := b)
          (a := .call p b blockno write) blockno write
          (fun r hr => by rw [Active, hidle] at hr; cases hr) (Function.update_self ..)
        exact ⟨s', hs', hsteps.sound, hsteps.avail, hsteps.used, hsteps.clears, hsteps.returns⟩
      · cases hs
  | retry p =>
    rw [step] at hs
    split at hs
    · cases hs
    · split at hs
      · next b blockno write hwait =>
        cases hs
        exact h.steps_request _ _ (fun r hr => by rw [Active, hwait] at hr; cases hr) (h.waiter p b _ _ hwait)
      · cases hs
  | check p =>
    rw [step] at hs
    split at hs
    · cases hs
    · split at hs
      · next r hp =>
        split at hs
        · cases hs
          exact ⟨s, rfl, .of_driver h rfl rfl rfl fun q r' hq hnot => (hnot hq).elim⟩
        · next hoff =>
          have hdone : s.driver.disk r.b = false := Bool.eq_false_iff.2 hoff
          obtain ⟨d, hd, hdisk, havail, hused, hsound⟩ := h.finish hp hdone
          rw [hd] at hs
          cases hs
          refine ⟨_, rfl, .of_driver hsound havail hused hdisk fun q r' hq hnot => ?_⟩
          by_cases hqp : q = p
          · subst hqp
            rw [Active, hp] at hq
            cases hq
            exact h.posted q r hp (.inr hdone)
          · refine (hnot ?_).elim
            show Function.update s.callers p .idle q = .sleepDisk r'
            rw [Function.update_of_ne hqp]
            exact hq
      · cases hs
  | take =>
    rw [step] at hs
    split at hs
    · cases hs
    · next hne =>
      cases hs
      exact ⟨_, rfl, .of_driver (h.take hne) rfl rfl rfl fun q r hq hnot => (hnot hq).elim⟩
  | post k =>
    rw [step] at hs
    split at hs
    · cases hs
    · next head num hk =>
      obtain ⟨d, hd, rfl⟩ := Option.map_eq_some_iff.1 hs
      refine ⟨_, rfl, h.post hk hd, fun j _ => ?_, fun j hj => ?_, fun b hon hoff => ?_,
        fun q r hq hnot => (hnot hq).elim⟩
      all_goals
        obtain ⟨i, -, rfl⟩ := Option.map_eq_some_iff.1 hd
      · rfl
      · have hroom : Ring.count (2 ^ 16) s.driver.lookedIdx s.driver.usedIdx < NUM :=
          length_usedQueue ▸ h.used_room (List.mem_of_getElem? hk)
        exact Function.update_of_ne (Ring.cell_ne NUM_dvd h.lookedIdx h.usedIdx hroom hj) ..
      · exact absurd (hon.symm.trans hoff) (by decide)
  | interrupt =>
    rw [step] at hs
    split at hs
    · cases hs
    · cases hs
      exact ⟨_, rfl, .of_driver { h with chained := h.chained } rfl rfl rfl fun q r hq hnot =>
        (hnot hq).elim⟩
  | handle =>
    rw [step] at hs
    split at hs
    · next hin =>
      obtain ⟨p, r, hp, -, -, -, -, hd, hsound⟩ := h.handle hin.2
      rw [hd] at hs
      cases hs
      exact ⟨_, rfl, hsound, fun _ _ => rfl, fun _ _ => rfl, fun _ _ _ => rfl, fun q r hq hnot =>
        (hnot hq).elim⟩
    · cases hs
  | iret =>
    rw [step] at hs
    split at hs
    · cases hs
      exact ⟨_, rfl, .of_driver { h with chained := h.chained } rfl rfl rfl fun q r hq hnot =>
        (hnot hq).elim⟩
    · cases hs

end DiskSystem

/-- **The protocol with the device**, in every state that callers, device and interrupts lead to: a
descriptor is free or belongs to one request, and all are free when no request is under way; no step
overwrites an entry of `avail` or `used` that has not been consumed; a round of `handle_interrupt` clears
`disk` of the buffer that its request was issued for, and nothing else clears `disk`; a request returns only
after the device has completed it; and nothing panics. -/
theorem virtio_protocol {ι β : Type} [DecidableEq ι] [DecidableEq β] {as : List (DiskAct ι β)}
    {s : DiskSystem ι β} (hs : Machine.Run DiskSystem.step .init as s) :
    (∀ i, s.driver.free i = true ∧ (∀ p r, s.Active p r → i ∉ r.descs) ∨
      s.driver.free i = false ∧ ∃ p r, s.Active p r ∧ i ∈ r.descs ∧
        ∀ q r', s.Active q r' → i ∈ r'.descs → q = p) ∧
    (∀ p r, s.Active p r → r.descs.Nodup) ∧
    ((∀ p r, ¬ s.Active p r) → ∀ i, s.driver.free i = true) ∧
    ∀ a res, s.step a = some res → ∃ s', res = .ok s' ∧
      (∀ k < Ring.count (2 ^ 16) s.takenIdx s.driver.availIdx,
        s'.driver.availRing ((s.takenIdx + k) % NUM) = s.driver.availRing ((s.takenIdx + k) % NUM)) ∧
      (∀ k < Ring.count (2 ^ 16) s.driver.lookedIdx s.driver.usedIdx,
        s'.driver.usedRing ((s.driver.lookedIdx + k) % NUM) =
          s.driver.usedRing ((s.driver.lookedIdx + k) % NUM)) ∧
      (a = .handle → ∃ b, s.issued[s.usedReq (s.driver.lookedIdx % NUM)]? = some b ∧
        s.driver.disk b = true ∧ s'.driver.disk = Function.update s.driver.disk b false) ∧
      (∀ b, s.driver.disk b = true → s'.driver.disk b = false → a = .handle) ∧
      ∀ p r, s.Active p r → ¬ s'.Active p r → r.num ∈ s.posted := by
  have hsound : s.Sound := hs.invariant (P := DiskSystem.Sound) DiskSystem.sound_init
    fun s a s' h hstep => by
      obtain ⟨s'', heq, hsteps⟩ := h.steps hstep
      cases heq
      exact hsteps.sound
  refine ⟨fun i => ?_, hsound.nodup, fun hnone i => ?_, fun a res hstep => ?_⟩
  · cases hi : s.driver.free i with
    | true =>
      refine .inl ⟨rfl, fun p r hp hmem => ?_⟩
      rw [(hsound.free i).2 ⟨p, r, hp, hmem⟩] at hi
      cases hi
    | false =>
      obtain ⟨p, r, hp, hmem⟩ := (hsound.free i).1 hi
      exact .inr ⟨rfl, p, r, hp, hmem, fun q r' hq hmem' => hsound.disjoint q p r' r i hq hp hmem' hmem⟩
  · by_contra hi
    obtain ⟨p, r, hp, -⟩ := (hsound.free i).1 (Bool.eq_false_iff.2 hi)
    exact hnone p r hp
  · obtain ⟨s', rfl, hsteps⟩ := hsound.steps hstep
    refine ⟨s', rfl, hsteps.avail, hsteps.used, fun ha => ?_, hsteps.clears, hsteps.returns⟩
    subst ha
    rw [DiskSystem.step] at hstep
    split at hstep
    · next hin =>
      obtain ⟨p, r, hp, -, hnum, hdisk, -, hd, -⟩ := hsound.handle hin.2
      rw [hd] at hstep
      cases hstep
      exact ⟨r.b, hnum ▸ hsound.issued p r hp, hdisk, rfl⟩
    · cases hstep

/-- Three processes call `read_write`; the third waits for descriptors.  The device takes two requests and
completes the second one first. -/
def overlapping {ι : Type} (p q r : ι) : List (DiskAct ι Nat) :=
  [.call p 10 5 false, .call q 11 6 true, .call r 12 7 false, .take, .take, .post 1, .interrupt]

/-- The interrupt is handled, the second process returns, the third one makes its request, and then the
device completes the other two. -/
def completed {ι : Type} (p q r : ι) : List (DiskAct ι Nat) :=
  [.handle, .iret, .check p, .check q, .retry r, .take, .post 0, .post 0, .interrupt, .handle, .handle,
    .iret, .check r, .check p]

/-- The interrupt clears `disk` of the buffer whose request was completed first, though it was issued second.
In the end all three requests are completed, and all descriptors are free again. -/
theorem virtio_protocol_overlap : ∃ s s₁ s₂ : DiskSystem (Fin 3) Nat,
    Machine.Run DiskSystem.step .init (overlapping 0 1 2) s ∧
    s.driver.disk 10 = true ∧ s.driver.disk 11 = true ∧ s.callers 2 = .sleepFree 12 7 false ∧
    s.step .handle = some (.ok s₁) ∧ s₁.driver.disk 10 = true ∧ s₁.driver.disk 11 = false ∧
    Machine.Run DiskSystem.step .init (overlapping 0 1 2 ++ completed 0 1 2) s₂ ∧ s₂.posted = [1, 0, 2] ∧
    s₂.issued = [10, 11, 12] ∧ ∀ i, s₂.driver.free i = true := by
  have hfirst : ∃ s : DiskSystem (Fin 3) Nat,
      Machine.exec DiskSystem.step (overlapping 0 1 2) .init = some (.ok s) ∧
      s.driver.disk 10 = true ∧ s.driver.disk 11 = true ∧ s.callers 2 = .sleepFree 12 7 false ∧
      s.issued[s.usedReq (s.driver.lookedIdx % NUM)]? = some 11 ∧ ∃ s₁, s.step .handle = some (.ok s₁) :=
    ⟨_, rfl, rfl, rfl, rfl, rfl, _, rfl⟩
  have hlast : ∃ s : DiskSystem (Fin 3) Nat,
      Machine.exec DiskSystem.step (overlapping 0 1 2 ++ completed 0 1 2) .init = some (.ok s) ∧
      s.posted = [1, 0, 2] ∧ s.issued = [10, 11, 12] ∧
      s.callers 0 = .idle ∧ s.callers 1 = .idle ∧ s.callers 2 = .idle :=
    ⟨_, rfl, rfl, rfl, rfl, rfl, rfl⟩
  obtain ⟨s, hs, h10, h11, hwait, hissued, s₁, hstep⟩ := hfirst
  obtain ⟨s₂, hs₂, hposted, hall, hidle₀, hidle₁, hidle₂⟩ := hlast
  obtain ⟨s', heq, -, -, hhandle, -⟩ := (virtio_protocol (Machine.run_of_exec hs)).2.2.2 .handle _ hstep
  cases heq
  obtain ⟨b, hb, -, hdisk⟩ := hhandle rfl
  obtain rfl : 11 = b := Option.some.inj (hissued.symm.trans hb)
  have hidle : ∀ p, s₂.callers p = .idle := by
    rintro ⟨_ | _ | _ | _, hp⟩
    · exact hidle₀
    · exact hidle₁
    · exact hidle₂
    · omega
  have hnone : ∀ p r, ¬ s₂.Active p r := fun p r hp => by
    rw [DiskSystem.Active, hidle] at hp
    cases hp
  refine ⟨s, s₁, s₂, Machine.run_of_exec hs, h10, h11, hwait, hstep, ?_, ?_, Machine.run_of_exec hs₂,
    hposted, hall, (virtio_protocol (Machine.run_of_exec hs₂)).2.2.1 hnone⟩
  · rw [hdisk, Function.update_of_ne (by decide), h10]
  · rw [hdisk, Function.update_self]

end Xv6pp
