import Xv6pp.Fs.Layout
import Xv6pp.Lib.Machine
import Mathlib.Data.List.Count

/-!
# The table of in-core inodes, shared by processes

`iget`, `idup`, `ilock`, `iunlock`, `iput` and `ialloc` of `kernel/file_system.cpp`, run by any number of
processes.  What a process does under `inode_lock`, or to an inode whose sleep lock it holds, is one
step; `iput` gives up `inode_lock` while it frees an inode, and so takes three steps.  The inodes on
disk are seen through the buffer cache.

Each reference that has been handed out and not put yet has an owner; no step of the code looks at the
owners, but a process uses only inodes it has a reference to, and keeps one to an inode it has locked.
-/

set_option autoImplicit false

namespace Xv6pp

/-- `struct inode`, without its sleep lock. -/
structure InodeEntry where
  /-- Device number. -/
  dev : Nat
  /-- Inode number. -/
  inum : Nat
  /-- Reference count. -/
  ref : Int
  /-- Whether the inode has been read from disk. -/
  valid : Bool
  /-- Copy of the disk inode. -/
  copy : Dinode

/-- The inode an entry is for. -/
def InodeEntry.key (e : InodeEntry) : Nat × Nat := (e.dev, e.inum)

/-- The place of an entry in the table. -/
abbrev EntryId : Type := Fin NINODE

/-- Where a process is. -/
inductive InodePc
  /-- Not inside one of the functions. -/
  | idle
  /-- In `ialloc`, about to call `iget`. -/
  | getting (dev inum : Nat)
  /-- In `iput`, which has decided to free the inode and holds its sleep lock. -/
  | freeing (ip : EntryId)
  /-- In `iput`, with the reference still to be dropped. -/
  | dropping (ip : EntryId)
  deriving DecidableEq

/-- The in-core inodes and the processes that use them. -/
structure InodeUsers (ι : Type) where
  /-- The inodes on disk, as they are in the buffer cache, by device and number. -/
  disk : Nat × Nat → Dinode
  /-- The table. -/
  inodes : EntryId → InodeEntry
  /-- The holders of the sleep locks. -/
  lock : EntryId → Option ι
  /-- Where each process is. -/
  pc : ι → InodePc
  /-- The references that are out, with their owners. -/
  refs : List (ι × EntryId)

/-- What can happen to the table. -/
inductive InodeAct (ι : Type)
  /-- A process calls `iget(dev, inum)`. -/
  | iget (p : ι) (dev inum : Nat)
  | idup (p : ι) (ip : EntryId)
  /-- A process passes a reference on, as `fork` does. -/
  | give (p q : ι) (ip : EntryId)
  | ilock (p : ι) (ip : EntryId)
  /-- A process changes an inode it has locked, and calls `iupdate`. -/
  | update (p : ι) (ip : EntryId) (d : Dinode)
  | iunlock (p : ι) (ip : EntryId)
  | iput (p : ι) (ip : EntryId)
  /-- A process in `ialloc` finds this inode free. -/
  | ialloc (p : ι) (dev inum : Nat) (type : Int)
  /-- A process goes on inside `ialloc` or `iput`. -/
  | step (p : ι)

namespace InodeUsers

variable {ι : Type} [DecidableEq ι]

/-- The entry that `iget` finds for an inode: the one that is there, or a free one. -/
inductive Found
  | hit (ip : EntryId)
  | recycle (ip : EntryId)

/-- The search of `iget`. -/
def find (inodes : EntryId → InodeEntry) (dev inum : Nat) : Option Found :=
  match (List.finRange NINODE).find? fun i =>
      0 < (inodes i).ref ∧ (inodes i).dev = dev ∧ (inodes i).inum = inum with
  | some ip => some (.hit ip)
  | none => ((List.finRange NINODE).find? fun i => (inodes i).ref = 0).map .recycle

/-- Change one entry. -/
def setEntry (ip : EntryId) (f : InodeEntry → InodeEntry) (s : InodeUsers ι) : InodeUsers ι :=
  { s with inodes := Function.update s.inodes ip (f (s.inodes ip)) }

/-- Process `p` gets a reference. -/
def addRef (p : ι) (ip : EntryId) (s : InodeUsers ι) : InodeUsers ι :=
  { s with refs := (p, ip) :: s.refs }

/-- Process `p` loses a reference. -/
def dropRef (p : ι) (ip : EntryId) (s : InodeUsers ι) : InodeUsers ι :=
  { s with refs := s.refs.erase (p, ip) }

/-- Change where process `p` is. -/
def setPc (p : ι) (pc : InodePc) (s : InodeUsers ι) : InodeUsers ι :=
  { s with pc := Function.update s.pc p pc }

/-- Change the holder of a sleep lock. -/
def setLock (ip : EntryId) (holder : Option ι) (s : InodeUsers ι) : InodeUsers ι :=
  { s with lock := Function.update s.lock ip holder }

/-- Write an inode to its block. -/
def setDisk (key : Nat × Nat) (d : Dinode) (s : InodeUsers ι) : InodeUsers ι :=
  { s with disk := Function.update s.disk key d }

/-- `iget` by process `p`. -/
def iget (p : ι) (dev inum : Nat) (s : InodeUsers ι) : Except Panic (InodeUsers ι) :=
  match find s.inodes dev inum with
  | none => .error .igetNoInodes
  | some (.hit ip) => .ok ((s.setEntry ip fun e => { e with ref := e.ref + 1 }).addRef p ip)
  | some (.recycle ip) =>
    .ok ((s.setEntry ip fun e =>
      { e with dev := dev, inum := inum, ref := 1, valid := false }).addRef p ip)

/-- The reference is one the process can give up: it keeps another one if it has the inode locked. -/
def Spare (s : InodeUsers ι) (p : ι) (ip : EntryId) : Prop :=
  (p, ip) ∈ s.refs ∧ (s.lock ip = some p → 2 ≤ s.refs.count (p, ip))

instance (s : InodeUsers ι) (p : ι) (ip : EntryId) : Decidable (s.Spare p ip) :=
  inferInstanceAs (Decidable (_ ∧ _))

/-- The last step of `iput`: `ip->ref--`. -/
def decRef (p : ι) (ip : EntryId) (s : InodeUsers ι) : InodeUsers ι :=
  (s.setEntry ip fun e => { e with ref := e.ref - 1 }).dropRef p ip

/-- The freed inode, after `itrunc` and `type = 0`. -/
def freed (d : Dinode) : Dinode := { d with type := 0, size := 0, addrs := fun _ => 0 }

/-- One action. -/
def step (s : InodeUsers ι) : InodeAct ι → Option (Except Panic (InodeUsers ι))
  | .iget p dev inum => if s.pc p = .idle then some (s.iget p dev inum) else none
  | .idup p ip =>
    if s.pc p = .idle ∧ (p, ip) ∈ s.refs then
      some (.ok ((s.setEntry ip fun e => { e with ref := e.ref + 1 }).addRef p ip))
    else none
  | .give p q ip =>
    if s.pc p = .idle ∧ s.Spare p ip then some (.ok ((s.dropRef p ip).addRef q ip)) else none
  | .ilock p ip =>
    if s.pc p = .idle ∧ (p, ip) ∈ s.refs then
      if (s.inodes ip).ref < 1 then some (.error .ilock)
      else if s.lock ip ≠ none then none
      else if (s.inodes ip).valid then some (.ok (s.setLock ip (some p)))
      else if (s.disk (s.inodes ip).key).type = 0 then some (.error .ilockNoType)
      else
        some (.ok ((s.setEntry ip fun e =>
          { e with copy := s.disk e.key, valid := true }).setLock ip (some p)))
    else none
  | .update p ip d =>
    -- the code between `ilock` and `iunlock` does not change the type
    if s.pc p = .idle ∧ s.lock ip = some p ∧ d.type = (s.inodes ip).copy.type then
      some (.ok ((s.setEntry ip fun e => { e with copy := d }).setDisk (s.inodes ip).key d))
    else none
  | .iunlock p ip =>
    if s.pc p = .idle then
      if s.lock ip ≠ some p ∨ (s.inodes ip).ref < 1 then some (.error .iunlock)
      else some (.ok (s.setLock ip none))
    else none
  | .iput p ip =>
    if s.pc p = .idle ∧ s.Spare p ip then
      if (s.inodes ip).ref = 1 ∧ (s.inodes ip).valid ∧ (s.inodes ip).copy.nlink = 0 then
        -- `ip->lock.acquire()` while `inode_lock` is held
        if s.lock ip ≠ none then none
        else some (.ok ((s.setLock ip (some p)).setPc p (.freeing ip)))
      else some (.ok (s.decRef p ip))
    else none
  | .ialloc p dev inum type =>
    if s.pc p = .idle ∧ (s.disk (dev, inum)).type = 0 ∧ type ≠ 0 then
      some (.ok ((s.setDisk (dev, inum) (.fresh type)).setPc p (.getting dev inum)))
    else none
  | .step p =>
    match s.pc p with
    | .idle => none
    | .getting dev inum => some ((s.iget p dev inum).map (setPc p .idle))
    | .freeing ip =>
      some (.ok ((((s.setEntry ip fun e => { e with copy := freed e.copy, valid := false }).setDisk
        (s.inodes ip).key (freed (s.inodes ip).copy)).setLock ip none).setPc p (.dropping ip)))
    | .dropping ip => some (.ok ((s.decRef p ip).setPc p .idle))

/-- An empty table. -/
def init (disk : Nat × Nat → Dinode) : InodeUsers ι where
  disk := disk
  inodes := fun _ => ⟨0, 0, 0, false, .fresh 0⟩
  lock := fun _ => none
  pc := fun _ => .idle
  refs := []

/-! ## The invariant -/

/-- How many references to an entry are out. -/
def refsTo (s : InodeUsers ι) (i : EntryId) : Nat := s.refs.countP fun r => r.2 = i

/-- What holds of the table in every reachable state. -/
structure Table (s : InodeUsers ι) : Prop where
  /-- The reference counts are right. -/
  ref : ∀ i, (s.inodes i).ref = s.refsTo i
  /-- An inode has one entry. -/
  unique : ∀ i j, 0 < (s.inodes i).ref → 0 < (s.inodes j).ref →
    (s.inodes i).key = (s.inodes j).key → i = j
  /-- Who holds a sleep lock has a reference. -/
  lock : ∀ i p, s.lock i = some p → (p, i) ∈ s.refs
  /-- A valid entry is a copy of an inode that is in use. -/
  copy : ∀ i, 0 < (s.inodes i).ref → (s.inodes i).valid = true →
    (s.inodes i).copy = s.disk (s.inodes i).key ∧ (s.inodes i).copy.type ≠ 0
  /-- What `iput` relies on while it frees an inode. -/
  freeing : ∀ p i, s.pc p = .freeing i → (p, i) ∈ s.refs ∧ s.lock i = some p ∧
    (s.inodes i).valid = true ∧ (s.inodes i).copy.nlink = 0
  /-- What `iput` relies on after that. -/
  dropping : ∀ p i, s.pc p = .dropping i → (p, i) ∈ s.refs ∧ s.lock i ≠ some p

section
variable {s s' : InodeUsers ι} {p q : ι} {i j : EntryId}

omit [DecidableEq ι] in
theorem refsTo_addRef : (s.addRef p i).refsTo j = s.refsTo j + if i = j then 1 else 0 := by
  rw [refsTo, addRef, List.countP_cons]
  simp [refsTo]

theorem refsTo_dropRef (h : (p, i) ∈ s.refs) :
    (s.dropRef p i).refsTo j + (if i = j then 1 else 0) = s.refsTo j := by
  have hperm : s.refs.Perm ((p, i) :: s.refs.erase (p, i)) := List.perm_cons_erase h
  rw [refsTo, refsTo, dropRef, hperm.countP_eq, List.countP_cons]
  simp

omit [DecidableEq ι] in
theorem refsTo_pos (h : (p, i) ∈ s.refs) : 0 < s.refsTo i :=
  List.countP_pos_iff.2 ⟨(p, i), h, by simp⟩

theorem mem_dropRef_of_ne (h : (q, j) ∈ s.refs) (hne : (q, j) ≠ (p, i)) :
    (q, j) ∈ (s.dropRef p i).refs := (List.mem_erase_of_ne hne).2 h

theorem mem_dropRef_of_two (h : 2 ≤ s.refs.count (p, i)) : (p, i) ∈ (s.dropRef p i).refs := by
  refine List.count_pos_iff.1 ?_
  rw [dropRef, List.count_erase_self]
  omega

/-- Giving up a spare reference leaves one for the holder of the lock. -/
theorem Table.lock_dropRef (h : Table s) (hp : s.Spare p i) (hq : s.lock j = some q) :
    (q, j) ∈ (s.dropRef p i).refs := by
  by_cases heq : (q, j) = (p, i)
  · obtain ⟨rfl, rfl⟩ := Prod.mk.inj heq
    exact mem_dropRef_of_two (hp.2 hq)
  · exact mem_dropRef_of_ne (h.lock j q hq) heq

omit [DecidableEq ι] in
theorem Table.ref_pos (h : Table s) (hp : (p, i) ∈ s.refs) : 0 < (s.inodes i).ref := by
  rw [h.ref]
  exact_mod_cast refsTo_pos hp

/-- With one reference out, nobody else holds the lock. -/
theorem Table.unlocked (h : Table s) (hp : s.Spare p i) (hone : (s.inodes i).ref = 1) :
    s.lock i = none := by
  rcases hlock : s.lock i with _ | q
  · rfl
  have hrest := h.lock_dropRef hp hlock
  have hpos : 0 < (s.dropRef p i).refsTo i := refsTo_pos hrest
  have hcount := refsTo_dropRef (j := i) hp.1
  rw [if_pos rfl] at hcount
  have := h.ref i
  omega

omit [DecidableEq ι] in
/-- References are handed out, passed on or put. -/
theorem Table.recount (h : Table s) (hdisk : s'.disk = s.disk) (hlock : s'.lock = s.lock)
    (hpc : ∀ q, s'.pc q = s.pc q ∨ s'.pc q = .idle)
    (hsame : ∀ j, (s'.inodes j).key = (s.inodes j).key ∧
      (s'.inodes j).valid = (s.inodes j).valid ∧ (s'.inodes j).copy = (s.inodes j).copy)
    (href : ∀ j, (s'.inodes j).ref = s'.refsTo j)
    (hpos : ∀ j, 0 < (s'.inodes j).ref → 0 < (s.inodes j).ref)
    (hholder : ∀ j q, s.lock j = some q → (q, j) ∈ s'.refs)
    (hputter : ∀ q j, s'.pc q = .freeing j ∨ s'.pc q = .dropping j → (q, j) ∈ s'.refs) :
    Table s' where
  ref := href
  unique := by
    intro i j hi hj hij
    rw [(hsame i).1, (hsame j).1] at hij
    exact h.unique i j (hpos i hi) (hpos j hj) hij
  lock := by
    rw [hlock]
    exact hholder
  copy := by
    intro i hi hv
    obtain ⟨hkey, hvalid, hcopy⟩ := hsame i
    rw [hkey, hcopy, hdisk]
    exact h.copy i (hpos i hi) (hvalid ▸ hv)
  freeing := by
    intro q j hq
    obtain ⟨-, hvalid, hcopy⟩ := hsame j
    rw [hlock, hvalid, hcopy]
    refine ⟨hputter q j (.inl hq), (h.freeing q j ?_).2⟩
    rcases hpc q with h' | h'
    · rw [← h', hq]
    · rw [h'] at hq
      cases hq
  dropping := by
    intro q j hq
    rw [hlock]
    refine ⟨hputter q j (.inr hq), (h.dropping q j ?_).2⟩
    rcases hpc q with h' | h'
    · rw [← h', hq]
    · rw [h'] at hq
      cases hq

omit [DecidableEq ι] in
theorem Table.putter (h : Table s) (hq : s.pc q = .freeing j ∨ s.pc q = .dropping j) :
    (q, j) ∈ s.refs := by
  rcases hq with hq | hq
  · exact (h.freeing q j hq).1
  · exact (h.dropping q j hq).1

omit [DecidableEq ι] in
/-- Another reference to an entry that is in use. -/
theorem Table.another (h : Table s) (hi : 0 < (s.inodes i).ref) (p : ι) :
    Table ((s.setEntry i fun e => { e with ref := e.ref + 1 }).addRef p i) := by
  refine h.recount rfl rfl (fun _ => .inl rfl) (fun j => ?_) (fun j => ?_) (fun j hj => ?_)
    (fun j q hq => List.mem_cons_of_mem _ (h.lock j q hq))
    (fun q j hq => List.mem_cons_of_mem _ (h.putter hq))
  · by_cases hji : j = i
    · subst hji
      simp [addRef, setEntry, InodeEntry.key]
    · simp [addRef, setEntry, hji]
  · rw [refsTo_addRef]
    have := h.ref j
    by_cases hji : j = i
    · subst hji
      simp only [addRef, setEntry, Function.update_self, if_true, this]
      rfl
    · simp only [addRef, setEntry, Function.update_of_ne hji, if_neg (Ne.symm hji), this]
      rfl
  · by_cases hji : j = i
    · exact hji ▸ hi
    · simpa [addRef, setEntry, hji] using hj

/-- A reference is put, and the entry stays as it is. -/
theorem Table.decRef (h : Table s) (hp : s.Spare p i) {pc : ι → InodePc}
    (hpc : ∀ q, pc q = s.pc q ∨ pc q = .idle) (hown : ∀ j, pc p ≠ .freeing j ∧ pc p ≠ .dropping j) :
    Table { s.decRef p i with pc := pc } := by
  refine h.recount rfl rfl hpc (fun j => ?_) (fun j => ?_) (fun j hj => ?_)
    (fun j q hq => h.lock_dropRef hp hq) (fun q j hq => ?_)
  · by_cases hji : j = i
    · subst hji
      simp [InodeUsers.decRef, dropRef, setEntry, InodeEntry.key]
    · simp [InodeUsers.decRef, dropRef, setEntry, hji]
  · have hcount := refsTo_dropRef (j := j) hp.1
    have hold := h.ref j
    show ((s.decRef p i).inodes j).ref = (s.dropRef p i).refsTo j
    by_cases hji : j = i
    · subst hji
      have hent : ((s.decRef p j).inodes j).ref = (s.inodes j).ref - 1 := by
        simp [InodeUsers.decRef, dropRef, setEntry]
      rw [if_pos rfl] at hcount
      omega
    · have hent : ((s.decRef p i).inodes j).ref = (s.inodes j).ref := by
        simp [InodeUsers.decRef, dropRef, setEntry, hji]
      rw [if_neg (Ne.symm hji)] at hcount
      omega
  · by_cases hji : j = i
    · exact hji ▸ h.ref_pos hp.1
    · simpa [InodeUsers.decRef, dropRef, setEntry, hji] using hj
  · have hqp : q ≠ p := by
      rintro rfl
      rcases hq with hq | hq
      · exact (hown j).1 hq
      · exact (hown j).2 hq
    have hold : s.pc q = .freeing j ∨ s.pc q = .dropping j := by
      rcases hpc q with h' | h'
      · rwa [← h']
      · rw [show ({ s.decRef p i with pc := pc } : InodeUsers ι).pc q = .idle from h'] at hq
        rcases hq with hq | hq <;> cases hq
    refine mem_dropRef_of_ne (h.putter hold) fun heq => hqp (Prod.mk.inj heq).1

/-- A reference is passed on. -/
theorem Table.give (h : Table s) (hp : s.Spare p i) (hidle : s.pc p = .idle) (q : ι) :
    Table ((s.dropRef p i).addRef q i) := by
  refine h.recount rfl rfl (fun _ => .inl rfl) (fun _ => ⟨rfl, rfl, rfl⟩) (fun j => ?_)
    (fun _ hj => hj) (fun j q hq => List.mem_cons_of_mem _ (h.lock_dropRef hp hq))
    (fun r j hr => List.mem_cons_of_mem _ ?_)
  · rw [refsTo_addRef, refsTo_dropRef hp.1]
    exact h.ref j
  · refine mem_dropRef_of_ne (h.putter hr) ?_
    rintro heq
    obtain ⟨rfl, rfl⟩ := Prod.mk.inj heq
    have hr : s.pc r = .freeing j ∨ s.pc r = .dropping j := hr
    rw [hidle] at hr
    rcases hr with hr | hr <;> cases hr

omit [DecidableEq ι] in
/-- A free entry is used for another inode. -/
theorem Table.recycle (h : Table s) (hi : (s.inodes i).ref = 0) (p : ι) {dev inum : Nat}
    (hnew : ∀ j, 0 < (s.inodes j).ref → (s.inodes j).key ≠ (dev, inum)) :
    Table ((s.setEntry i fun e =>
      { e with dev := dev, inum := inum, ref := 1, valid := false }).addRef p i) := by
  have hother : ∀ j, j ≠ i → ((s.setEntry i fun e =>
      { e with dev := dev, inum := inum, ref := 1, valid := false }).addRef p i).inodes j =
        s.inodes j := fun j hj => Function.update_of_ne hj ..
  have hself : ((s.setEntry i fun e =>
      { e with dev := dev, inum := inum, ref := 1, valid := false }).addRef p i).inodes i =
        { s.inodes i with dev := dev, inum := inum, ref := 1, valid := false } :=
    Function.update_self ..
  -- nobody uses the entry
  have hnone : ∀ q, (q, i) ∉ s.refs := by
    intro q hq
    have := h.ref_pos hq
    omega
  refine ⟨fun j => ?_, fun j k hj hk hjk => ?_, fun j q hq => ?_, fun j hj hv => ?_,
    fun q j hq => ?_, fun q j hq => ?_⟩
  · rw [refsTo_addRef]
    have hold := h.ref j
    by_cases hji : j = i
    · subst hji
      have hzero : (s.setEntry j fun e =>
          { e with dev := dev, inum := inum, ref := 1, valid := false }).refsTo j = 0 := by
        show s.refsTo j = 0
        omega
      rw [hself, if_pos rfl, hzero]
      rfl
    · rw [hother j hji, if_neg (Ne.symm hji), hold]
      rfl
  · by_cases hji : j = i <;> by_cases hki : k = i
    · rw [hji, hki]
    · subst hji
      rw [hself, hother k hki] at hjk
      rw [hother k hki] at hk
      exact absurd hjk.symm (hnew k hk)
    · subst hki
      rw [hself, hother j hji] at hjk
      rw [hother j hji] at hj
      exact absurd hjk (hnew j hj)
    · rw [hother j hji] at hj hjk
      rw [hother k hki] at hk hjk
      exact h.unique j k hj hk hjk
  · exact List.mem_cons_of_mem _ (h.lock j q hq)
  · have hji : j ≠ i := by
      rintro rfl
      rw [hself] at hv
      cases hv
    rw [hother j hji] at hj hv ⊢
    exact h.copy j hj hv
  · obtain ⟨hmem, hlock, hvalid⟩ := h.freeing q j hq
    have hji : j ≠ i := by
      rintro rfl
      exact hnone q hmem
    rw [hother j hji]
    exact ⟨List.mem_cons_of_mem _ hmem, hlock, hvalid⟩
  · obtain ⟨hmem, hlock⟩ := h.dropping q j hq
    exact ⟨List.mem_cons_of_mem _ hmem, hlock⟩

omit [DecidableEq ι] in
/-- **`iget`** finds the entry of the inode or makes one. -/
theorem Table.iget (h : Table s) {dev inum : Nat} (hok : s.iget p dev inum = .ok s') :
    Table s' ∧ s'.pc = s.pc ∧ ∀ j, (s'.inodes j).key ≠ (s.inodes j).key → (s.inodes j).ref = 0 := by
  rw [InodeUsers.iget] at hok
  rw [find] at hok
  rcases hhit : (List.finRange NINODE).find? fun i => 0 < (s.inodes i).ref ∧
      (s.inodes i).dev = dev ∧ (s.inodes i).inum = inum with _ | i
  · rw [hhit] at hok
    rcases hfree : (List.finRange NINODE).find? fun i => (s.inodes i).ref = 0 with _ | i
    · rw [hfree] at hok
      cases hok
    · rw [hfree] at hok
      cases hok
      have hi : (s.inodes i).ref = 0 := by simpa using List.find?_some hfree
      refine ⟨h.recycle hi p fun j hj hkey => ?_, rfl, fun j hj => ?_⟩
      · have := List.find?_eq_none.1 hhit j (List.mem_finRange j)
        simp only [decide_eq_true_eq] at this
        exact this ⟨hj, (Prod.mk.inj hkey).1, (Prod.mk.inj hkey).2⟩
      · by_cases hji : j = i
        · exact hji ▸ hi
        · exact absurd (by simp [addRef, setEntry, hji]) hj
  · rw [hhit] at hok
    cases hok
    have hi : 0 < (s.inodes i).ref := by
      have := List.find?_some hhit
      simp only [decide_eq_true_eq] at this
      exact this.1
    refine ⟨h.another hi p, rfl, fun j hj => absurd ?_ hj⟩
    by_cases hji : j = i
    · subst hji
      simp [addRef, setEntry, InodeEntry.key]
    · simp [addRef, setEntry, hji]

omit [DecidableEq ι] in
/-- Process `p`, which has a reference to the entry `i`, changes what the entry and the disk say about
the inode, and takes or gives up its lock. -/
theorem Table.touch (h : Table s) (hmem : (p, i) ∈ s.refs) (hrefs : s'.refs = s.refs)
    (hsame : ∀ j, (s'.inodes j).key = (s.inodes j).key ∧ (s'.inodes j).ref = (s.inodes j).ref)
    (hother : ∀ j ≠ i, s'.inodes j = s.inodes j ∧ s'.lock j = s.lock j)
    (hlock : s'.lock i = none ∨ s'.lock i = some p)
    (hdisk : ∀ k ≠ (s.inodes i).key, s'.disk k = s.disk k)
    (hcopy : (s'.inodes i).valid = true →
      (s'.inodes i).copy = s'.disk (s.inodes i).key ∧ (s'.inodes i).copy.type ≠ 0)
    (hfree : ∀ q ≠ p, s.pc q ≠ .freeing i) (hpc : ∀ q ≠ p, s'.pc q = s.pc q)
    (hpcp : s'.pc p = .idle ∨
      s'.pc p = .freeing i ∧ s'.lock i = some p ∧ (s'.inodes i).valid = true ∧
        (s'.inodes i).copy.nlink = 0 ∨
      s'.pc p = .dropping i ∧ s'.lock i = none) : Table s' := by
  have hpos : ∀ j, 0 < (s'.inodes j).ref → 0 < (s.inodes j).ref := fun j hj => (hsame j).2 ▸ hj
  refine ⟨fun j => ?_, fun j k hj hk hjk => ?_, fun j q hq => ?_, fun j hj hv => ?_,
    fun q j hq => ?_, fun q j hq => ?_⟩
  · rw [(hsame j).2, refsTo, hrefs]
    exact h.ref j
  · rw [(hsame j).1, (hsame k).1] at hjk
    exact h.unique j k (hpos j hj) (hpos k hk) hjk
  · rw [hrefs]
    by_cases hji : j = i
    · subst hji
      rcases hlock with hl | hl
      · rw [hl] at hq
        cases hq
      · rw [hl] at hq
        cases hq
        exact hmem
    · exact h.lock j q ((hother j hji).2 ▸ hq)
  · by_cases hji : j = i
    · subst hji
      rw [(hsame j).1]
      exact hcopy hv
    · have hne : (s.inodes j).key ≠ (s.inodes i).key := fun heq =>
        hji (h.unique j i (hpos j hj) (h.ref_pos hmem) heq)
      rw [(hother j hji).1] at hv ⊢
      rw [hdisk _ hne]
      exact h.copy j (hpos j hj) hv
  · rw [hrefs]
    by_cases hqp : q = p
    · subst hqp
      rcases hpcp with h' | ⟨h', hfr⟩ | ⟨h', -⟩
      · rw [h'] at hq
        cases hq
      · rw [h'] at hq
        cases hq
        exact ⟨hmem, hfr⟩
      · rw [h'] at hq
        cases hq
    · rw [hpc q hqp] at hq
      have hji : j ≠ i := by
        rintro rfl
        exact hfree q hqp hq
      rw [(hother j hji).1, (hother j hji).2]
      exact h.freeing q j hq
  · rw [hrefs]
    by_cases hqp : q = p
    · subst hqp
      rcases hpcp with h' | ⟨h', -⟩ | ⟨h', hl⟩
      · rw [h'] at hq
        cases hq
      · rw [h'] at hq
        cases hq
      · rw [h'] at hq
        cases hq
        exact ⟨hmem, by rw [hl]; nofun⟩
    · rw [hpc q hqp] at hq
      obtain ⟨hmem', hlock'⟩ := h.dropping q j hq
      refine ⟨hmem', ?_⟩
      by_cases hji : j = i
      · subst hji
        rcases hlock with hl | hl
        · rw [hl]
          nofun
        · rw [hl]
          exact fun heq => hqp (Option.some.inj heq).symm
      · rw [(hother j hji).2]
        exact hlock'

omit [DecidableEq ι] in
/-- Only the holder of the lock can be freeing the inode. -/
theorem Table.not_freeing (h : Table s) (hlock : s.lock i = none ∨ s.lock i = some p) :
    ∀ q ≠ p, s.pc q ≠ .freeing i := by
  intro q hqp hq
  have hl := (h.freeing q i hq).2.1
  rcases hlock with h' | h'
  · rw [h'] at hl
    cases hl
  · rw [h'] at hl
    exact hqp (Option.some.inj hl).symm

/-- A process leaves a function. -/
theorem Table.idle (h : Table s) (p : ι) : Table (s.setPc p .idle) := by
  have hold : ∀ q pc, pc ≠ .idle → (s.setPc p .idle).pc q = pc → s.pc q = pc := by
    intro q pc hne hq
    by_cases hqp : q = p
    · subst hqp
      simp only [setPc, Function.update_self] at hq
      exact absurd hq.symm hne
    · simpa only [setPc, Function.update_of_ne hqp] using hq
  exact ⟨h.ref, h.unique, h.lock, h.copy, fun q j hq => h.freeing q j (hold q _ nofun hq),
    fun q j hq => h.dropping q j (hold q _ nofun hq)⟩

omit [DecidableEq ι] in
/-- A free inode is marked as allocated on the disk. -/
theorem Table.ialloc (h : Table s) {key : Nat × Nat} {d : Dinode} (hfree : (s.disk key).type = 0)
    {pc : ι → InodePc} (hpc : ∀ q, pc q = s.pc q ∨ ∃ dev inum, pc q = .getting dev inum) :
    Table { s.setDisk key d with pc := pc } := by
  have hold : ∀ q pc', (∀ dev inum, pc' ≠ .getting dev inum) → pc q = pc' → s.pc q = pc' := by
    intro q pc' hne hq
    rcases hpc q with h' | ⟨dev, inum, h'⟩
    · rw [← h', hq]
    · exact absurd (hq.symm.trans h') (hne dev inum)
  refine ⟨h.ref, h.unique, h.lock, fun j hj hv => ?_,
    fun q j hq => h.freeing q j (hold q _ (by simp) hq),
    fun q j hq => h.dropping q j (hold q _ (by simp) hq)⟩
  -- the inode is free, so no entry has a copy of it
  obtain ⟨hcopy, htype⟩ := h.copy j hj hv
  have hne : (s.inodes j).key ≠ key := by
    rintro heq
    rw [hcopy, heq] at htype
    exact htype hfree
  refine ⟨?_, htype⟩
  show (s.inodes j).copy = Function.update s.disk key d (s.inodes j).key
  rw [Function.update_of_ne hne]
  exact hcopy

end

omit [DecidableEq ι] in
theorem table_init (disk : Nat × Nat → Dinode) : Table (init disk : InodeUsers ι) where
  ref := fun _ => rfl
  unique := fun _ _ hi => absurd hi (lt_irrefl 0)
  lock := fun _ _ h => absurd h nofun
  copy := fun _ hi => absurd hi (lt_irrefl 0)
  freeing := fun _ _ h => absurd h nofun
  dropping := fun _ _ h => absurd h nofun

section
variable {s s' : InodeUsers ι} {p q : ι} {i j : EntryId}

/-- What a step does: the tests that it passed, and the state that it leaves. -/
inductive Stepped (s : InodeUsers ι) : InodeAct ι → InodeUsers ι → Prop
  | iget {p : ι} {dev inum : Nat} {s' : InodeUsers ι} (hidle : s.pc p = .idle)
      (hget : s.iget p dev inum = .ok s') : Stepped s (.iget p dev inum) s'
  | idup {p : ι} {ip : EntryId} (hidle : s.pc p = .idle) (hmem : (p, ip) ∈ s.refs) :
      Stepped s (.idup p ip) ((s.setEntry ip fun e => { e with ref := e.ref + 1 }).addRef p ip)
  | give {p q : ι} {ip : EntryId} (hidle : s.pc p = .idle) (hspare : s.Spare p ip) :
      Stepped s (.give p q ip) ((s.dropRef p ip).addRef q ip)
  /-- `ilock` of an entry that is valid. -/
  | ilock {p : ι} {ip : EntryId} (hidle : s.pc p = .idle) (hmem : (p, ip) ∈ s.refs)
      (hfree : s.lock ip = none) (hvalid : (s.inodes ip).valid = true) :
      Stepped s (.ilock p ip) (s.setLock ip (some p))
  /-- `ilock` of an entry that has to be read first. -/
  | load {p : ι} {ip : EntryId} (hidle : s.pc p = .idle) (hmem : (p, ip) ∈ s.refs)
      (hfree : s.lock ip = none) (htype : (s.disk (s.inodes ip).key).type ≠ 0) :
      Stepped s (.ilock p ip) ((s.setEntry ip fun e =>
        { e with copy := s.disk e.key, valid := true }).setLock ip (some p))
  | update {p : ι} {ip : EntryId} {d : Dinode} (hidle : s.pc p = .idle) (hlock : s.lock ip = some p)
      (htype : d.type = (s.inodes ip).copy.type) : Stepped s (.update p ip d)
        ((s.setEntry ip fun e => { e with copy := d }).setDisk (s.inodes ip).key d)
  | iunlock {p : ι} {ip : EntryId} (hidle : s.pc p = .idle) (hlock : s.lock ip = some p) :
      Stepped s (.iunlock p ip) (s.setLock ip none)
  /-- `iput` decides to free the inode. -/
  | decide {p : ι} {ip : EntryId} (hidle : s.pc p = .idle) (hspare : s.Spare p ip)
      (hone : (s.inodes ip).ref = 1) (hvalid : (s.inodes ip).valid = true)
      (hlinks : (s.inodes ip).copy.nlink = 0) (hfree : s.lock ip = none) :
      Stepped s (.iput p ip) ((s.setLock ip (some p)).setPc p (.freeing ip))
  /-- `iput` only gives its reference up. -/
  | iput {p : ι} {ip : EntryId} (hidle : s.pc p = .idle) (hspare : s.Spare p ip) :
      Stepped s (.iput p ip) (s.decRef p ip)
  | ialloc {p : ι} {dev inum : Nat} {type : Int} (hfree : (s.disk (dev, inum)).type = 0)
      (htype : type ≠ 0) : Stepped s (.ialloc p dev inum type)
        ((s.setDisk (dev, inum) (.fresh type)).setPc p (.getting dev inum))
  /-- The `iget` at the end of `ialloc`. -/
  | get {p : ι} {dev inum : Nat} {s' : InodeUsers ι} (hpc : s.pc p = .getting dev inum)
      (hget : s.iget p dev inum = .ok s') : Stepped s (.step p) (s'.setPc p .idle)
  /-- `iput` frees the inode. -/
  | free {p : ι} {ip : EntryId} (hpc : s.pc p = .freeing ip) : Stepped s (.step p)
      ((((s.setEntry ip fun e => { e with copy := freed e.copy, valid := false }).setDisk
        (s.inodes ip).key (freed (s.inodes ip).copy)).setLock ip none).setPc p (.dropping ip))
  /-- And gives its reference up after that. -/
  | drop {p : ι} {ip : EntryId} (hpc : s.pc p = .dropping ip) :
      Stepped s (.step p) ((s.decRef p ip).setPc p .idle)

/-- **Every step** is one of these. -/
theorem stepped {a : InodeAct ι} (ha : step s a = some (.ok s')) : Stepped s a s' := by
  cases a with
  | iget p dev inum =>
    rw [InodeUsers.step] at ha
    split at ha
    · next hidle => exact .iget hidle (Option.some.inj ha)
    · cases ha
  | idup p ip =>
    rw [InodeUsers.step] at ha
    split at ha
    · next hen =>
      cases ha
      exact .idup hen.1 hen.2
    · cases ha
  | give p q ip =>
    rw [InodeUsers.step] at ha
    split at ha
    · next hen =>
      cases ha
      exact .give hen.1 hen.2
    · cases ha
  | ilock p ip =>
    rw [InodeUsers.step] at ha
    split at ha
    · next hen =>
      split at ha
      · cases ha
      split at ha
      · cases ha
      next hfree =>
      split at ha
      · next hvalid =>
        cases ha
        exact .ilock hen.1 hen.2 (not_not.1 hfree) hvalid
      split at ha
      · cases ha
      next htype =>
      cases ha
      exact .load hen.1 hen.2 (not_not.1 hfree) htype
    · cases ha
  | update p ip d =>
    rw [InodeUsers.step] at ha
    split at ha
    · next hen =>
      cases ha
      exact .update hen.1 hen.2.1 hen.2.2
    · cases ha
  | iunlock p ip =>
    rw [InodeUsers.step] at ha
    split at ha
    · next hidle =>
      split at ha
      · cases ha
      next hheld =>
      cases ha
      exact .iunlock hidle (not_not.1 (not_or.1 hheld).1)
    · cases ha
  | iput p ip =>
    rw [InodeUsers.step] at ha
    split at ha
    · next hen =>
      split at ha
      · next hlast =>
        split at ha
        · cases ha
        next hfree =>
        cases ha
        exact .decide hen.1 hen.2 hlast.1 hlast.2.1 hlast.2.2 (not_not.1 hfree)
      · cases ha
        exact .iput hen.1 hen.2
    · cases ha
  | ialloc p dev inum type =>
    rw [InodeUsers.step] at ha
    split at ha
    · next hen =>
      cases ha
      exact .ialloc hen.2.1 hen.2.2
    · cases ha
  | step p =>
    rw [InodeUsers.step] at ha
    split at ha
    · cases ha
    · next dev inum hpc =>
      rcases hget : s.iget p dev inum with e | s₁
      · rw [hget] at ha
        cases ha
      · rw [hget] at ha
        cases ha
        exact .get hpc hget
    · next ip hpc =>
      cases ha
      exact .free hpc
    · next ip hpc =>
      cases ha
      exact .drop hpc

/-- **What one step keeps**, and when it uses an entry for another inode. -/
theorem Table.step (h : Table s) {a : InodeAct ι} (ha : step s a = some (.ok s')) :
    Table s' ∧ ∀ j, (s'.inodes j).key ≠ (s.inodes j).key → (s.inodes j).ref = 0 := by
  have hkeys : (∀ j, (s'.inodes j).key = (s.inodes j).key) →
      ∀ j, (s'.inodes j).key ≠ (s.inodes j).key → (s.inodes j).ref = 0 :=
    fun hkey j hj => absurd (hkey j) hj
  have hupdate : ∀ {i : EntryId} {e : InodeEntry}, e.key = (s.inodes i).key →
      ∀ j, (Function.update s.inodes i e j).key = (s.inodes j).key := by
    intro i e he j
    by_cases hji : j = i
    · subst hji
      rw [Function.update_self, he]
    · rw [Function.update_of_ne hji]
  have hcontent : ∀ {i : EntryId} {e : InodeEntry}, e.key = (s.inodes i).key →
      e.ref = (s.inodes i).ref → ∀ j, (Function.update s.inodes i e j).key = (s.inodes j).key ∧
        (Function.update s.inodes i e j).ref = (s.inodes j).ref := by
    intro i e he hr j
    refine ⟨hupdate he j, ?_⟩
    by_cases hji : j = i
    · subst hji
      rw [Function.update_self, hr]
    · rw [Function.update_of_ne hji]
  cases stepped ha with
  | iget hidle hget =>
    obtain ⟨h', -, hrec⟩ := h.iget hget
    exact ⟨h', hrec⟩
  | @idup p ip hidle hmem => exact ⟨h.another (h.ref_pos hmem) p, hkeys (hupdate rfl)⟩
  | @give p q ip hidle hspare => exact ⟨h.give hspare hidle q, hkeys fun _ => rfl⟩
  | @ilock p ip hidle hmem hfree hvalid =>
    exact ⟨h.touch hmem rfl (fun _ => ⟨rfl, rfl⟩)
      (fun j hj => ⟨rfl, Function.update_of_ne hj ..⟩) (.inr (Function.update_self ..))
      (fun _ _ => rfl) (h.copy ip (h.ref_pos hmem)) (h.not_freeing (.inl hfree))
      (fun _ _ => rfl) (.inl hidle), hkeys fun _ => rfl⟩
  | @load p ip hidle hmem hfree htype =>
    refine ⟨h.touch hmem rfl (hcontent rfl rfl)
      (fun j hj => ⟨Function.update_of_ne hj .., Function.update_of_ne hj ..⟩)
      (.inr (Function.update_self ..)) (fun _ _ => rfl) (fun _ => ?_)
      (h.not_freeing (.inl hfree)) (fun _ _ => rfl) (.inl hidle), hkeys (hupdate rfl)⟩
    simp only [setLock, setEntry, Function.update_self]
    exact ⟨trivial, htype⟩
  | @update p ip d hidle hlock htype =>
    have hmem := h.lock ip p hlock
    refine ⟨h.touch hmem rfl (hcontent rfl rfl)
      (fun j hj => ⟨Function.update_of_ne hj .., rfl⟩) (.inr hlock)
      (fun k hk => Function.update_of_ne hk ..) (fun hv => ?_)
      (h.not_freeing (.inr hlock)) (fun _ _ => rfl) (.inl hidle), hkeys (hupdate rfl)⟩
    simp only [setDisk, setEntry, Function.update_self] at hv ⊢
    rw [htype]
    exact ⟨trivial, (h.copy ip (h.ref_pos hmem) hv).2⟩
  | @iunlock p ip hidle hlock =>
    have hmem := h.lock ip p hlock
    exact ⟨h.touch hmem rfl (fun _ => ⟨rfl, rfl⟩)
      (fun j hj => ⟨rfl, Function.update_of_ne hj ..⟩) (.inl (Function.update_self ..))
      (fun _ _ => rfl) (h.copy ip (h.ref_pos hmem)) (h.not_freeing (.inr hlock))
      (fun _ _ => rfl) (.inl hidle), hkeys fun _ => rfl⟩
  | @decide p ip hidle hspare hone hvalid hlinks hfree =>
    refine ⟨h.touch hspare.1 rfl (fun _ => ⟨rfl, rfl⟩)
      (fun j hj => ⟨rfl, Function.update_of_ne hj ..⟩) (.inr (Function.update_self ..))
      (fun _ _ => rfl) (h.copy ip (h.ref_pos hspare.1)) (h.not_freeing (.inl hfree))
      (fun q hq => Function.update_of_ne hq ..) (.inr (.inl ?_)), hkeys fun _ => rfl⟩
    exact ⟨Function.update_self .., Function.update_self .., hvalid, hlinks⟩
  | @iput p ip hidle hspare =>
    have hown : ∀ j, s.pc p ≠ .freeing j ∧ s.pc p ≠ .dropping j := by
      rw [hidle]
      exact fun _ => ⟨nofun, nofun⟩
    exact ⟨h.decRef hspare (fun _ => .inl rfl) hown, hkeys (hupdate rfl)⟩
  | @ialloc p dev inum type hfree htype =>
    refine ⟨h.ialloc hfree fun q => ?_, hkeys fun _ => rfl⟩
    by_cases hqp : q = p
    · subst hqp
      exact .inr ⟨dev, inum, Function.update_self ..⟩
    · exact .inl (Function.update_of_ne hqp ..)
  | @get p dev inum s₁ hpc hget =>
    obtain ⟨h', -, hrec⟩ := h.iget hget
    exact ⟨h'.idle p, hrec⟩
  | @free p ip hpc =>
    obtain ⟨hmem, hlock, -, -⟩ := h.freeing p ip hpc
    refine ⟨h.touch hmem rfl (hcontent rfl rfl)
      (fun j hj => ⟨Function.update_of_ne hj .., Function.update_of_ne hj ..⟩)
      (.inl (Function.update_self ..)) (fun k hk => Function.update_of_ne hk ..) (fun hv => ?_)
      (h.not_freeing (.inr hlock)) (fun q hq => Function.update_of_ne hq ..)
      (.inr (.inr ⟨Function.update_self .., Function.update_self ..⟩)), hkeys (hupdate rfl)⟩
    simp [setPc, setLock, setDisk, setEntry] at hv
  | @drop p ip hpc =>
    obtain ⟨hmem, hlock⟩ := h.dropping p ip hpc
    refine ⟨h.decRef ⟨hmem, fun hl => absurd hl hlock⟩ (fun q => ?_) (fun j => ?_),
      hkeys (hupdate rfl)⟩
    · by_cases hqp : q = p
      · subst hqp
        exact .inr (Function.update_self ..)
      · exact .inl (Function.update_of_ne hqp ..)
    · have hidle : Function.update s.pc p .idle p = .idle := Function.update_self ..
      exact ⟨fun hf => absurd (hidle.symm.trans hf) nofun, fun hf => absurd (hidle.symm.trans hf) nofun⟩

omit [DecidableEq ι] in
/-- What `iget` leaves as it was. -/
theorem iget_same {dev inum : Nat} (hok : s.iget p dev inum = .ok s') : s'.lock = s.lock ∧ s'.disk = s.disk ∧
    ∀ j, (s'.inodes j).valid = (s.inodes j).valid ∨ (s.inodes j).ref = 0 := by
  rw [InodeUsers.iget, find] at hok
  rcases hhit : (List.finRange NINODE).find? fun i => 0 < (s.inodes i).ref ∧
      (s.inodes i).dev = dev ∧ (s.inodes i).inum = inum with _ | i
  · rw [hhit] at hok
    rcases hfree : (List.finRange NINODE).find? fun i => (s.inodes i).ref = 0 with _ | i
    · rw [hfree] at hok
      cases hok
    · rw [hfree] at hok
      cases hok
      have hi : (s.inodes i).ref = 0 := by simpa using List.find?_some hfree
      refine ⟨rfl, rfl, fun j => ?_⟩
      by_cases hji : j = i
      · exact .inr (hji ▸ hi)
      · exact .inl (by simp [addRef, setEntry, hji])
  · rw [hhit] at hok
    cases hok
    refine ⟨rfl, rfl, fun j => .inl ?_⟩
    by_cases hji : j = i
    · subst hji
      simp [addRef, setEntry]
    · simp [addRef, setEntry, hji]

/-- An inode that is locked has been read from the disk. -/
def Held (s : InodeUsers ι) : Prop := ∀ i p, s.lock i = some p → (s.inodes i).valid = true

omit [DecidableEq ι] in
/-- A step that locks at most the entry `i`, and keeps the others as they are. -/
theorem Held.touch (hv : Held s) (hlock : ∀ j, j ≠ i → s'.lock j = s.lock j)
    (hvalid : ∀ j, j ≠ i → (s'.inodes j).valid = (s.inodes j).valid)
    (hi : s'.lock i = none ∨ (s'.inodes i).valid = true) : Held s' := by
  intro j q hq
  by_cases hji : j = i
  · subst hji
    rcases hi with hi | hi
    · exact absurd (hi.symm.trans hq) (by simp)
    · exact hi
  · rw [hvalid j hji]
    exact hv j q (hlock j hji ▸ hq)

omit [DecidableEq ι] in
theorem Held.iget (hv : Held s) (h : Table s) {dev inum : Nat} (hok : s.iget p dev inum = .ok s') : Held s' := by
  obtain ⟨hlock, -, hvalid⟩ := iget_same hok
  intro j q hq
  rw [hlock] at hq
  rcases hvalid j with heq | hzero
  · exact heq.trans (hv j q hq)
  · have := h.ref_pos (h.lock j q hq)
    omega

theorem held_step (hv : Held s) (h : Table s) {a : InodeAct ι} (ha : step s a = some (.ok s')) : Held s' := by
  have hentry : ∀ {i : EntryId} {e : InodeEntry}, e.valid = (s.inodes i).valid →
      ∀ j, (Function.update s.inodes i e j).valid = (s.inodes j).valid := by
    intro i e he j
    by_cases hji : j = i
    · subst hji
      rw [Function.update_self, he]
    · rw [Function.update_of_ne hji]
  have hsame : s'.lock = s.lock → (∀ j, (s'.inodes j).valid = (s.inodes j).valid) → Held s' :=
    fun hlock hvalid j q hq => (hvalid j).trans (hv j q (hlock ▸ hq))
  cases stepped ha with
  | iget hidle hget => exact hv.iget h hget
  | idup hidle hmem => exact hsame rfl (hentry rfl)
  | give hidle hspare => exact hsame rfl fun _ => rfl
  | @ilock p ip hidle hmem hfree hvalid =>
    exact hv.touch (i := ip) (fun j hj => Function.update_of_ne hj ..) (fun _ _ => rfl) (.inr hvalid)
  | @load p ip hidle hmem hfree htype =>
    refine hv.touch (i := ip) (fun j hj => Function.update_of_ne hj ..) (fun j hj => ?_) (.inr ?_)
    · simp only [setLock, setEntry, Function.update_of_ne hj]
    · simp only [setLock, setEntry, Function.update_self]
  | update hidle hlock htype => exact hsame rfl (hentry rfl)
  | @iunlock p ip hidle hlock =>
    exact hv.touch (i := ip) (fun j hj => Function.update_of_ne hj ..) (fun _ _ => rfl)
      (.inl (Function.update_self ..))
  | @decide p ip hidle hspare hone hvalid hlinks hfree =>
    exact hv.touch (i := ip) (fun j hj => Function.update_of_ne hj ..) (fun _ _ => rfl) (.inr hvalid)
  | iput hidle hspare => exact hsame rfl (hentry rfl)
  | ialloc hfree htype => exact hsame rfl fun _ => rfl
  | get hpc hget => exact fun i q hq => hv.iget h hget i q hq
  | @free p ip hpc =>
    refine hv.touch (i := ip) (fun j hj => Function.update_of_ne hj ..) (fun j hj => ?_)
      (.inl (Function.update_self ..))
    simp only [setPc, setLock, setDisk, setEntry, Function.update_of_ne hj]
  | drop hpc => exact hsame rfl (hentry rfl)

/-- The ways to change the inode `key` on the disk to `d`. -/
inductive DiskChange (s : InodeUsers ι) (key : Nat × Nat) : InodeAct ι → Dinode → Prop
  /-- By a process that has it locked, while it is in use and stays so. -/
  | update {p : ι} {ip : EntryId} {d : Dinode} : (s.inodes ip).key = key → s.lock ip = some p →
      (p, ip) ∈ s.refs → d.type = (s.disk key).type → d.type ≠ 0 → DiskChange s key (.update p ip d) d
  /-- By `ialloc`: it was free. -/
  | ialloc {p : ι} {type : Int} : (s.disk key).type = 0 → type ≠ 0 →
      DiskChange s key (.ialloc p key.1 key.2 type) (.fresh type)
  /-- By `iput`, which frees it: it has no links. -/
  | free {p : ι} {ip : EntryId} : s.pc p = .freeing ip → (s.inodes ip).key = key → s.lock ip = some p →
      (p, ip) ∈ s.refs → (s.disk key).nlink = 0 → DiskChange s key (.step p) (freed (s.disk key))

/-- **When a step changes the disk.** -/
theorem diskChange_of_step (hv : Held s) (h : Table s) {a : InodeAct ι} (ha : step s a = some (.ok s'))
    {key : Nat × Nat} (hne : s'.disk key ≠ s.disk key) : DiskChange s key a (s'.disk key) := by
  have hupdate : ∀ {k d}, Function.update s.disk k d key ≠ s.disk key →
      k = key ∧ Function.update s.disk k d key = d := by
    intro k d hne
    by_cases hk : key = k
    · subst hk
      exact ⟨rfl, Function.update_self ..⟩
    · exact absurd (Function.update_of_ne hk ..) hne
  cases stepped ha with
  | iget hidle hget => exact absurd (congrFun (iget_same hget).2.1 key) hne
  | idup | give | ilock | load | iunlock | decide | iput | drop => exact absurd rfl hne
  | @update p ip d hidle hlock htype =>
    have hmem := h.lock ip p hlock
    obtain ⟨hcopy, hused⟩ := h.copy ip (h.ref_pos hmem) (hv ip p hlock)
    obtain ⟨hkey, hd⟩ := hupdate hne
    dsimp only [setDisk, setEntry]
    rw [hd]
    exact .update hkey hlock hmem (by rw [htype, hcopy, hkey]) (htype ▸ hused)
  | ialloc hfree htype =>
    obtain ⟨rfl, hd⟩ := hupdate hne
    dsimp only [setDisk, setPc]
    rw [hd]
    exact .ialloc hfree htype
  | get hpc hget => exact absurd (congrFun (iget_same hget).2.1 key) hne
  | @free p ip hpc =>
    obtain ⟨hmem, hlock, hvalid, hlinks⟩ := h.freeing p ip hpc
    have hcopy := (h.copy ip (h.ref_pos hmem) hvalid).1
    obtain ⟨hkey, hd⟩ := hupdate hne
    rw [hcopy, hkey] at hlinks
    dsimp only [setDisk, setPc, setLock, setEntry]
    rw [hd, hcopy, hkey]
    exact .free hpc hkey hlock hmem hlinks

/-- **When `iput` decides to free an inode.** -/
theorem freeing_of_step {a : InodeAct ι} (ha : step s a = some (.ok s')) (hnew : s'.pc p = .freeing i)
    (hold : s.pc p ≠ .freeing i) : a = .iput p i ∧ s.Spare p i ∧ (s.inodes i).ref = 1 ∧
      (s.inodes i).valid = true ∧ (s.inodes i).copy.nlink = 0 := by
  have hkeep : ∀ {q pc}, Function.update s.pc q pc p = .freeing i → pc ≠ .freeing i → False := by
    intro q pc h hpc
    by_cases hqp : p = q
    · subst hqp
      rw [Function.update_self] at h
      exact hpc h
    · rw [Function.update_of_ne hqp] at h
      exact hold h
  have hget : ∀ {q dev inum} {s₁ : InodeUsers ι}, s.iget q dev inum = .ok s₁ → s₁.pc = s.pc := by
    intro q dev inum s₁ h
    rw [InodeUsers.iget] at h
    split at h <;> cases h <;> rfl
  cases stepped ha with
  | iget hidle hgot =>
    rw [hget hgot] at hnew
    exact absurd hnew hold
  | idup | give | ilock | load | update | iunlock | iput => exact absurd hnew hold
  | @decide q ip hidle hspare hone hvalid hlinks hfree =>
    have hnew : Function.update s.pc q (.freeing ip) p = .freeing i := hnew
    by_cases hpq : p = q
    · subst hpq
      rw [Function.update_self] at hnew
      cases hnew
      exact ⟨rfl, hspare, hone, hvalid, hlinks⟩
    · rw [Function.update_of_ne hpq] at hnew
      exact absurd hnew hold
  | ialloc | free | drop => exact (hkeep hnew nofun).elim
  | @get q dev inum s₁ hpc hgot =>
    have hnew : Function.update s₁.pc q .idle p = .freeing i := hnew
    rw [hget hgot] at hnew
    exact (hkeep hnew nofun).elim

omit [DecidableEq ι] in
/-- The caller's reference is the only one that is out. -/
theorem Table.only (h : Table s) (hp : (p, i) ∈ s.refs) (hone : (s.inodes i).ref = 1) :
    s.refs.filter (fun r => r.2 = i) = [(p, i)] := by
  have hlen : (s.refs.filter fun r => r.2 = i).length = 1 := by
    rw [← List.countP_eq_length_filter]
    have := h.ref i
    have hdef : s.refsTo i = s.refs.countP fun r => r.2 = i := rfl
    omega
  have hmem : (p, i) ∈ s.refs.filter fun r => r.2 = i := List.mem_filter.2 ⟨hp, by simp⟩
  obtain ⟨r, hr⟩ := List.length_eq_one_iff.1 hlen
  rw [hr] at hmem ⊢
  rw [List.mem_singleton.1 hmem]

end

end InodeUsers

open InodeUsers

section
variable {ι : Type} [DecidableEq ι]

/-- `iput` has decided, in the course of the actions `as`, to free the inode of the entry `i`: `p` had the only
reference to it, and it had no links. -/
structure Decided (disk : Nat × Nat → Dinode) (as : List (InodeAct ι)) (s : InodeUsers ι) (p : ι) (i : EntryId)
    (s₁ s₂ : InodeUsers ι) (as₁ as₂ : List (InodeAct ι)) : Prop where
  actions : as = as₁ ++ .iput p i :: as₂
  before : Machine.Run InodeUsers.step (InodeUsers.init disk) as₁ s₁
  decision : InodeUsers.step s₁ (.iput p i) = some (.ok s₂)
  after : Machine.Run InodeUsers.step s₂ as₂ s
  key : (s₁.inodes i).key = (s.inodes i).key
  nlink : (s₁.disk (s₁.inodes i).key).nlink = 0
  only : s₁.refs.filter (fun r => r.2 = i) = [(p, i)]

theorem Decided.snoc {disk : Nat × Nat → Dinode} {as as₁ as₂ : List (InodeAct ι)} {s s' s₁ s₂ : InodeUsers ι}
    {p : ι} {i : EntryId} {a : InodeAct ι} (hd : Decided disk as s p i s₁ s₂ as₁ as₂)
    (ha : InodeUsers.step s a = some (.ok s')) (hkey : (s'.inodes i).key = (s.inodes i).key) :
    Decided disk (as ++ [a]) s' p i s₁ s₂ as₁ (as₂ ++ [a]) :=
  { hd with
    actions := by rw [hd.actions, List.append_assoc, List.cons_append]
    after := hd.after.snoc ha
    key := hd.key.trans hkey.symm }

/-- What holds after the actions `as`. -/
theorem inode_users_hist {disk : Nat × Nat → Dinode} {as : List (InodeAct ι)} {s : InodeUsers ι}
    (h : Machine.Run InodeUsers.step (InodeUsers.init disk) as s) :
    Table s ∧ Held s ∧ ∀ p i, s.pc p = .freeing i → ∃ s₁ s₂ as₁ as₂, Decided disk as s p i s₁ s₂ as₁ as₂ := by
  induction h with
  | nil =>
    exact ⟨table_init disk, fun _ _ hlock => absurd hlock (Option.some_ne_none _).symm,
      fun _ _ hp => by cases hp⟩
  | @snoc as s s' a hrun ha ih =>
    obtain ⟨ht, hv, hd⟩ := ih
    obtain ⟨ht', hrecycle⟩ := ht.step ha
    refine ⟨ht', held_step hv ht ha, fun p i hp => ?_⟩
    -- the entry of an inode that is freed keeps its inode
    have hkey : (p, i) ∈ s.refs → (s'.inodes i).key = (s.inodes i).key := by
      intro hmem
      by_contra hne
      have hzero := hrecycle i hne
      have hpos := ht.ref_pos hmem
      omega
    by_cases hold : s.pc p = .freeing i
    · obtain ⟨s₁, s₂, as₁, as₂, hd⟩ := hd p i hold
      exact ⟨s₁, s₂, as₁, as₂ ++ [a], hd.snoc ha (hkey (ht.freeing p i hold).1)⟩
    · obtain ⟨rfl, hspare, hone, hvalid, hlinks⟩ := freeing_of_step ha hp hold
      refine ⟨s, s', as, [], rfl, hrun, ha, .nil, (hkey hspare.1).symm, ?_, ht.only hspare.1 hone⟩
      rw [← (ht.copy i (ht.ref_pos hspare.1) hvalid).1]
      exact hlinks

/-- **The table of in-core inodes.**  In every state that any interleaving of the processes reaches:
an inode has at most one entry in use; an entry's `ref` is the number of references that are out; a
step uses an entry for another inode only when `ref` is 0.  A step changes an inode on the disk only as its
holder's `iupdate`, which leaves it in use; as `ialloc`, if it is free; or as `iput`, which frees it, if it has
no links: then the same `iput` has decided to free it when it had no links and the caller's reference was the
only one, without having to wait for the sleep lock.  And a valid entry in use whose sleep lock is free is a
copy of the inode on disk. -/
theorem inode_table {disk : Nat × Nat → Dinode} {as : List (InodeAct ι)}
    {s : InodeUsers ι} (h : Machine.Run InodeUsers.step (InodeUsers.init disk) as s) :
    (∀ i j, 0 < (s.inodes i).ref → 0 < (s.inodes j).ref →
      (s.inodes i).key = (s.inodes j).key → i = j) ∧
    (∀ i, (s.inodes i).ref = s.refsTo i) ∧
    (∀ a s', InodeUsers.step s a = some (.ok s') →
      ∀ i, (s'.inodes i).key ≠ (s.inodes i).key → (s.inodes i).ref = 0) ∧
    (∀ a s' key, InodeUsers.step s a = some (.ok s') → s'.disk key ≠ s.disk key →
      DiskChange s key a (s'.disk key)) ∧
    (∀ p i, s.pc p = .freeing i → (s.inodes i).copy.nlink = 0 ∧ s.lock i = some p ∧
      ∃ s₁ s₂ as₁ as₂, Decided disk as s p i s₁ s₂ as₁ as₂) ∧
    (∀ a s' p i, InodeUsers.step s a = some (.ok s') → s'.pc p = .freeing i →
      s.pc p ≠ .freeing i → (s.inodes i).copy.nlink = 0 ∧
        s.refs.filter (fun r => r.2 = i) = [(p, i)] ∧ s.lock i = none) ∧
    ∀ i, 0 < (s.inodes i).ref → (s.inodes i).valid = true → s.lock i = none →
      (s.inodes i).copy = s.disk (s.inodes i).key := by
  obtain ⟨hs, hv, hd⟩ := inode_users_hist h
  refine ⟨hs.unique, hs.ref, fun a s' ha => (hs.step ha).2, fun a s' key ha => diskChange_of_step hv hs ha,
    fun p i hp => ⟨(hs.freeing p i hp).2.2.2, (hs.freeing p i hp).2.1, hd p i hp⟩,
    fun a s' p i ha hnew hold => ?_, fun i hi hv _ => (hs.copy i hi hv).1⟩
  obtain ⟨-, hspare, hone, -, hlinks⟩ := freeing_of_step ha hnew hold
  exact ⟨hlinks, hs.only hspare.1 hone, hs.unlocked hspare hone⟩

end

/-- A disk of ordinary files with one link each. -/
def plainDisk (_ : Nat × Nat) : Dinode := { Dinode.fresh 2 with nlink := 1 }

/-- The first two entries of the table. -/
def entry₀ : EntryId := ⟨0, by decide⟩
def entry₁ : EntryId := ⟨1, by decide⟩

/-- A process unlinks a file it has open, and puts its reference: `iput` frees the inode. -/
theorem inode_table_unlink : ∃ s s' : InodeUsers (Fin 2),
    Machine.Run InodeUsers.step (InodeUsers.init plainDisk)
      [.iget 0 1 5, .ilock 0 entry₀, .update 0 entry₀ (.fresh 2), .iunlock 0 entry₀,
        .iput 0 entry₀] s ∧
    s.pc 0 = .freeing entry₀ ∧ (s.inodes entry₀).copy.nlink = 0 ∧ s.lock entry₀ = some 0 ∧
    InodeUsers.step s (.step 0) = some (.ok s') ∧ (s'.disk (1, 5)).type = 0 ∧
    DiskChange s (1, 5) (.step 0) (s'.disk (1, 5)) := by
  have hrun : ∃ s s' : InodeUsers (Fin 2),
      Machine.Run InodeUsers.step (InodeUsers.init plainDisk)
        [.iget 0 1 5, .ilock 0 entry₀, .update 0 entry₀ (.fresh 2), .iunlock 0 entry₀,
          .iput 0 entry₀] s ∧
      s.pc 0 = .freeing entry₀ ∧ InodeUsers.step s (.step 0) = some (.ok s') ∧ (s'.disk (1, 5)).type = 0 ∧
      (s.disk (1, 5)).type ≠ 0 := ⟨_, _, Machine.run_of_exec rfl, rfl, rfl, rfl, by decide⟩
  obtain ⟨s, s', hs, hpc, hstep, htype', htype⟩ := hrun
  obtain ⟨-, -, -, hdisk, hfreeing, -⟩ := inode_table hs
  obtain ⟨hlinks, hlock, -⟩ := hfreeing 0 entry₀ hpc
  refine ⟨s, s', hs, hpc, hlinks, hlock, hstep, htype', hdisk _ s' (1, 5) hstep fun heq => htype ?_⟩
  rw [← heq]
  exact htype'

/-- An entry with no references keeps its `valid` flag.  Inode 6 was in entry 1; after all references
are put, `iget` takes entry 0 for it, and changes made there do not reach entry 1. -/
theorem idle_entry_stale : ∃ s : InodeUsers (Fin 1),
    Machine.Run InodeUsers.step (InodeUsers.init plainDisk)
      [.iget 0 1 5, .iget 0 1 6, .ilock 0 entry₁, .iunlock 0 entry₁, .iput 0 entry₁,
        .iput 0 entry₀, .iget 0 1 6, .ilock 0 entry₀,
        .update 0 entry₀ { plainDisk (1, 6) with size := 10 }, .iunlock 0 entry₀] s ∧
    (s.inodes entry₁).valid = true ∧ s.lock entry₁ = none ∧
    (s.inodes entry₁).copy ≠ s.disk (s.inodes entry₁).key := by
  refine ⟨_, Machine.run_of_exec rfl, rfl, rfl, fun heq => ?_⟩
  have hsize := congrArg Dinode.size heq
  exact absurd hsize (by decide)

end Xv6pp
