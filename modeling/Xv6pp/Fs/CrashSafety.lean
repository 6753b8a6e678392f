import Xv6pp.Fs.Namex
import Xv6pp.Fs.SystemCalls

/-!
# Crash safety of the system calls

Runs of system calls, from the moment at which the first process has been made.  In every state of a run the
file system is in order, no call ends in a panic that would mean otherwise, and if the machine stops, the
disk recovers to what it was between two operations: it is in order, and a call that is one operation
has happened completely or not at all.
-/

set_option autoImplicit false

namespace Xv6pp

open Prog FileSystem

/-! ## Runs -/

/-- **The first process has been made**, on a disk whose log is empty.  The root is in core, but has not been
read yet. -/
structure Sys.Boots (sb : Superblock) (disk : Nat → Block) (s : Sys) : Prop where
  mem : s.mem.Boots
  superblock : s.fs.sb = sb
  root : ∀ ip, 0 < (s.fs.inode ip).ref → (s.fs.inode ip).inum = ROOTINO ∧ (s.fs.inode ip).valid = false
  isInum : sb.IsInum ROOTINO
  log : s.fs.log = ⟨sb.logstart, sb.nlog, 0, false, ⟨0, fun _ => 0⟩⟩
  dev : s.dev = ⟨disk, []⟩
  erased : Log.headerCount (disk sb.logstart) = 0
  inOrder : InOrder sb disk
  trace : s.mem.trace = []
  held : s.held = []

/-- The states of the system between system calls. -/
inductive Sys.Reached (sb : Superblock) (disk : Nat → Block) : Sys → Prop
  | boot {s : Sys} : s.Boots sb disk → Reached sb disk s
  /-- A system call returns. -/
  | call {s s' : Sys} {p : Fin NPROC} {c : SysCall} {r : Int} : Reached sb disk s →
      (s.mem.users.procs p).state = .runnable → c.Fetched → (solo (c.prog p)).run s = .ok (r, s') →
      Reached sb disk s'
  /-- `fork` returns, where `alloc` has found the unused process `np`. -/
  | fork {s s' : Sys} {p np : Fin NPROC} : Reached sb disk s → (s.mem.users.procs np).state = .unused →
      (solo (Sysfile.fork p np)).run s = .ok ((), s') → Reached sb disk s'
  /-- A `wait` reaps a process. -/
  | reap {s : Sys} {np : Fin NPROC} : Reached sb disk s → (s.mem.users.procs np).state = .zombie →
      Reached sb disk (s.withUsers (s.mem.users.setProc np fun x => { x with state := .unused }))

section
variable {α : Type} {sb : Superblock} {disk : Nat → Block} {past : List Log.Point} {s s' : Sys} {p : Fin NPROC} {c : SysCall}
  {r : Int}

theorem Sys.Boots.orderly (h : s.Boots sb disk) : Orderly sb disk [⟨0, disk⟩] s := by
  have hhome : SameHome (.reboot sb disk) s.fs := ⟨h.superblock, fun _ => by
    show s.dev.data _ = _
    rw [h.dev]
    rfl⟩
  obtain ⟨ip, hcwd, href⟩ := h.mem.cwd
  have hone : ∀ k, 0 < (s.fs.inode k).ref → k = ip := fun k hk => by
    by_contra hne
    have hzero := href k
    rw [if_neg hne] at hzero
    rw [show (s.fs.inode k).ref = 0 from hzero] at hk
    exact absurd hk (Int.lt_irrefl 0)
  have htable : Incore sb s.fs.inode (Fs.reboot sb disk).dinode := by
    refine ⟨fun {k} hk => ?_, fun {k} hk hv => ?_, fun {j k} hj hk _ => (hone j hj).trans (hone k hk).symm⟩
    · rw [(h.root k hk).1]
      exact h.isInum
    · rw [(h.root k hk).2] at hv
      cases hv
  have hlog : LogOk sb s.fs.log := by
    have hlog₀ := h.inOrder.sane.consistent.log
    rw [h.log]
    exact ⟨hlog₀.committable.congr rfl rfl rfl, rfl, rfl⟩
  have hbalanced := h.mem.balanced
  refine ⟨⟨h.superblock, hhome.sane h.inOrder.sane hlog htable, fun k hr hv => ?_,
    hhome.whole h.inOrder.sane h.inOrder.whole, h.isInum, fun k => ?_, h.mem.unlocked, fun jp hjp => ?_, ?_, ?_,
    ?_, ?_, fun q hq => ?_⟩, hbalanced, ?_, h.held⟩
  · rw [(h.root k hr).2] at hv
    cases hv
  · have hk : (s.fs.inode k).ref = _ := href k
    rw [hk]
    split <;> decide
  · obtain ⟨data, husers⟩ := h.mem.users
    obtain ⟨f, hf, -⟩ := hjp
    rw [husers] at hf
    exact absurd hf (Nat.lt_irrefl 0)
  · rw [h.log]
  · rw [h.log]
  · rw [h.log]
  · rw [h.dev]
    refine .start hlog.committable ?_
    rw [hlog.start]
    exact h.erased
  · rw [List.mem_singleton.1 hq]
    exact h.inOrder
  · rw [h.trace]
    rfl

/-- What a program that returns has done. -/
theorem Goes.ok {m : SysM α} {Q : α → Sys → Prop} {a : α} (h : Goes m Q s) (hrun : (solo m).run s = .ok (a, s')) :
    Q a s' := by
  rw [Goes, wp, hrun] at h
  exact h

theorem Goes.error {m : SysM α} {Q : α → Sys → Prop} {e : Panic} (h : Goes m Q s)
    (hrun : (solo m).run s = .error e) : e ∉ disorder := by
  rw [Goes, wp, hrun] at h
  exact h

/-- **Every system call leads from a state in order to another one.** -/
theorem Orderly.call (hs : Orderly sb disk past s) (hp : (s.mem.users.procs p).state = .runnable) (hc : c.Fetched)
    (hrun : (solo (c.prog p)).run s = .ok (r, s')) : ∃ new, Orderly sb disk (past ++ new) s' := by
  obtain ⟨⟨new, hs'⟩, hidle, hheld, hbalanced, -⟩ :=
    ((hs.prog c hp hc).within (Sysfile.Within.prog c hs.balanced hp) hs.idle).ok hrun
  exact ⟨new, .of_settled hs' hbalanced hidle (hheld.trans hs.held)⟩

/-- **The states of a run are in order.** -/
theorem Sys.Reached.orderly (h : s.Reached sb disk) : ∃ past, Orderly sb disk past s := by
  induction h with
  | boot h => exact ⟨_, h.orderly⟩
  | call _ hp hc hrun ih =>
    obtain ⟨past, hs⟩ := ih
    obtain ⟨new, hs'⟩ := hs.call hp hc hrun
    exact ⟨past ++ new, hs'⟩
  | fork _ hnp hrun ih =>
    obtain ⟨past, hs⟩ := ih
    obtain ⟨⟨new, -, hs'⟩, hidle, hheld, hbalanced, -⟩ :=
      ((hs.fork hnp).within (Sysfile.Within.fork hs.balanced hnp) hs.idle).ok hrun
    exact ⟨past ++ new, .of_settled hs' hbalanced hidle (hheld.trans hs.held)⟩
  | reap _ hz ih =>
    obtain ⟨past, hs⟩ := ih
    refine ⟨past, .of_settled (hs.setUsers fun ip hip => hip) ?_ hs.idle hs.held⟩
    exact hs.balanced.setState (fun _ => hs.balanced.accounted.closed _ (.inr hz)) fun _ =>
      hs.balanced.homeless _ (.inr hz)

/-- **The file system stays in order.**  In every state of a run no block belongs to two files or is both
free and in use, files have no holes, directories consist of whole entries that name inodes, no directory is
open for writing, and the log is empty; and no system call stops because it finds something else. -/
theorem system_calls_keep_order (h : s.Reached sb disk) :
    (s.fs.Sane ∧ s.fs.Whole ∧ s.fs.log.header.n = 0 ∧ ∀ ip, s.mem.users.writes ip → s.fs.Writable ip) ∧
      ∀ (p : Fin NPROC) (c : SysCall) (e : Panic), (s.mem.users.procs p).state = .runnable → c.Fetched →
        (solo (c.prog p)).run s = .error e → e ∉ disorder := by
  obtain ⟨past, hs⟩ := h.orderly
  exact ⟨⟨hs.sane, hs.whole, hs.empty, hs.writers⟩, fun p c e hp hc hrun => (hs.prog c hp hc).error hrun⟩

/-! ## Crashes -/

/-- The disk after a crash of a run whose writes are those of the state `s`: `k` of them had reached the disk,
and the recoveries `ks` were interrupted. -/
def Sys.recovered (disk : Nat → Block) (s : Sys) (k : Nat) (ks : List Nat) : Nat → Block :=
  s.fs.log.recovered disk s.dev.issued k ks

/-- The same blocks, but for those of the log area and before. -/
def SameBlocks (sb : Superblock) (d d' : Nat → Block) : Prop := ∀ b, sb.inodestart ≤ b → d b = d' b

/-- Between operations the cache shows what all writes together have put on the disk. -/
theorem Settled.data (hs : Settled sb disk past s) (b : Nat) :
    s.dev.data b = Writes.perform s.dev.issued disk b := by
  by_contra hne
  obtain ⟨i, hi, -⟩ := Log.mem_blocks.1 (hs.recoverable.logged b hne)
  rw [hs.empty] at hi
  exact Nat.not_lt_zero i hi

/-- What a point shows is on the disk. -/
theorem Settled.shows {q : Log.Point} {d : Nat → Block} (hs : Settled sb disk past s) (h : q.Shows s.fs.log d) :
    SameBlocks sb d q.data := fun b hb =>
  h b (hs.sane.consistent.log.not_inArea hs.sane.consistent.layout (hs.superblock ▸ hb))

/-- A point of which all writes have been issued shows the cache. -/
theorem Settled.latest {q : Log.Point} (hs : Settled sb disk past s) (hq : q ∈ past)
    (hw : s.dev.issued.length ≤ q.writes) : SameBlocks sb s.dev.data q.data := fun b hb => by
  have hall : q.writes = s.dev.issued.length := Nat.le_antisymm (hs.recoverable.le q hq) hw
  rw [hs.data b]
  exact hs.shows (hs.recoverable.same q hq hall) b hb

/-- If all writes have reached the disk, nothing is lost. -/
theorem Settled.durable {k : Nat} (ks : List Nat) (hs : Settled sb disk past s) (hk : s.dev.issued.length ≤ k) :
    SameBlocks sb (s.recovered disk k ks) s.dev.data := by
  obtain ⟨q, hq, hshow, hle⟩ := hs.recoverable.survives k ks
  obtain ⟨p, hlast, hw, -⟩ := hs.recoverable.now
  have hqw := hle p (List.mem_of_getLast? hlast) (hw ▸ hk)
  intro b hb
  rw [hs.latest hq (hw ▸ hqw) b hb]
  exact hs.shows hshow b hb

/-- **After a crash the file system is in order.**  Wherever in the writes of a run the machine stops, and
however often it stops again while it recovers, the disk that is recovered is in order; and if all writes of
the calls that have returned had reached the disk, it is the disk that these calls have left. -/
theorem crash_recovers_in_order (h : s.Reached sb disk) (k : Nat) (ks : List Nat) :
    InOrder sb (s.recovered disk k ks) ∧
      (s.dev.issued.length ≤ k → SameBlocks sb (s.recovered disk k ks) s.dev.data) := by
  obtain ⟨past, hs⟩ := h.orderly
  obtain ⟨q, hq, hshow, -⟩ := hs.recoverable.survives k ks
  exact ⟨(hs.points q hq).congr (hs.shows hshow), hs.durable ks⟩

/-- **A system call that is one operation is atomic.**  If the machine stops at any time after the calls
before it, the disk recovers to what it was before the call or to what it is after the call, and to the latter
if all writes of the call had reached the disk. -/
theorem system_call_atomic (h : s.Reached sb disk) (hp : (s.mem.users.procs p).state = .runnable) (hc : c.Fetched)
    (hone : c.Single) (hrun : (solo (c.prog p)).run s = .ok (r, s')) {k : Nat}
    (hk : s.dev.issued.length ≤ k) (ks : List Nat) :
    (SameBlocks sb (s'.recovered disk k ks) s.dev.data ∨
      SameBlocks sb (s'.recovered disk k ks) s'.dev.data) ∧
    (s'.dev.issued.length ≤ k → SameBlocks sb (s'.recovered disk k ks) s'.dev.data) := by
  obtain ⟨past, hs⟩ := h.orderly
  obtain ⟨new, hnew, hs'⟩ := (hs.single c hp hc hone).ok hrun
  refine ⟨?_, hs'.durable ks⟩
  obtain ⟨q, hq, hshow, hle⟩ := hs'.recoverable.survives k ks
  rcases List.mem_append.1 hq with hold | hq
  · -- the point is the one before the call
    obtain ⟨p, hlast, hw, -⟩ := hs.recoverable.now
    have hqw := hle p (List.mem_append_left _ (List.mem_of_getLast? hlast)) (hw ▸ hk)
    refine .inl fun b hb => ?_
    rw [hs.latest hold (hw ▸ hqw) b hb]
    exact hs'.shows hshow b hb
  · -- it is the one after the call
    obtain ⟨p, hlast, hw, hshow'⟩ := hs'.recoverable.now
    have hqp : q = p := by
      obtain ⟨x, rfl⟩ := List.length_eq_one_iff.1 (Nat.le_antisymm hnew (List.length_pos_of_mem hq))
      rw [List.getLast?_concat] at hlast
      exact (List.mem_singleton.1 hq).trans (Option.some.inj hlast)
    refine .inr fun b hb => ?_
    rw [hs'.latest (List.mem_append_right _ hq) (hqp ▸ hw.ge) b hb]
    exact hs'.shows hshow b hb

end

/-! ## A small disk -/

/-- The root is empty, and no process uses it but one that has it as its current directory. -/
def quietRoot : Fs := smallDir.setLocked smallIp false

theorem quietRoot_dinode (i : Nat) : quietRoot.dinode i = smallDir.dinode i := rfl

theorem quietRoot_tree : quietRoot.Tree := by
  have hdinode : smallDir.dinode 1 = emptyDir := smallWith_dinode emptyDir_blank
  have hone : ∀ i, quietRoot.sb.IsInum i → (quietRoot.dinode i).type = T_DIR → i = 1 := by
    intro i hi ht
    by_contra hne
    rw [quietRoot_dinode, smallDir, smallWith_free i hi.2 hne] at ht
    exact absurd ht (by decide)
  have hroot : (quietRoot.dinode 1).size = 0 := congrArg Dinode.size hdinode
  refine ⟨smallDir_directory.sane.setLocked false, fun d hd ht => ?_, fun d k name x hd ht hk => ?_, ?_⟩
  · obtain rfl := hone d hd ht
    refine ⟨ht, ?_⟩
    rw [hroot]
    rfl
  · obtain rfl := hone d hd ht
    have hlen : (quietRoot.table 1).length = 0 := by rw [Fs.length_table, hroot]; rfl
    rw [List.eq_nil_of_length_eq_zero hlen] at hk
    cases hk
  · have htype : (quietRoot.dinode ROOTINO).type = T_DIR := congrArg Dinode.type hdinode
    have hnlink : (quietRoot.dinode ROOTINO).nlink = 1 := congrArg Dinode.nlink hdinode
    exact ⟨by decide, by rw [htype]; decide, .inl (by rw [hnlink]; decide)⟩

/-- The first process on a disk whose root is empty. -/
def firstProcess : Sys where
  mem := {
    fs := {
      sb := smallSb
      log := ⟨2, 12, 0, false, ⟨0, fun _ => 0⟩⟩
      inodes := fun ip => if ip = smallIp then ⟨ROOTINO, 1, false, false, .fresh 0⟩
        else ⟨0, 0, false, false, .fresh 0⟩ }
    users := .boot fun _ _ => 0
    cwd := Function.update (fun _ => none) ⟨0, NPROC_pos⟩ (some smallIp)
    trace := [] }
  dev := ⟨quietRoot.data, []⟩
  held := []

theorem firstProcess_boots : firstProcess.Boots smallSb quietRoot.data := by
  have hwhole : quietRoot.Whole := ⟨quietRoot_tree.dirs, fun d hd ht k name x hk =>
    (quietRoot_tree.entries d k name x hd ht hk).isInum⟩
  refine ⟨⟨⟨_, rfl⟩, ⟨smallIp, rfl, fun jp => ?_⟩, fun ip => ?_⟩, rfl, fun ip hip => ?_, by decide, rfl, rfl, ?_,
    quietRoot_tree.sane.inOrder hwhole fun _ _ => rfl, rfl, rfl⟩
  · simp only [firstProcess]
    split <;> rfl
  · simp only [firstProcess]
    split <;> rfl
  · by_cases hroot : ip = smallIp
    · subst hroot
      exact ⟨rfl, rfl⟩
    · have hzero : (firstProcess.fs.inode ip).ref = 0 := by
        simp only [firstProcess, Sys.fs, Fs.inode, if_neg hroot]
      rw [hzero] at hip
      exact absurd hip (Int.lt_irrefl 0)
  · decide +kernel

/-- Its first call is `mkdir("a")`. -/
theorem firstProcess_mkdir : ∃ s', (solo ((SysCall.mkdir (some [97])).prog ⟨0, NPROC_pos⟩)).run firstProcess =
    .ok (0, s') := by
  have hvalue : ((solo ((SysCall.mkdir (some [97])).prog ⟨0, NPROC_pos⟩)).run firstProcess).toOption.map
      Prod.fst = some 0 := by
    decide +kernel
  obtain ⟨⟨r, s'⟩, hrun, rfl⟩ := Option.map_eq_some_iff.1 hvalue
  cases h : (solo ((SysCall.mkdir (some [97])).prog ⟨0, NPROC_pos⟩)).run firstProcess with
  | error e =>
    rw [h] at hrun
    cases hrun
  | ok a =>
    rw [h] at hrun
    cases hrun
    exact ⟨s', rfl⟩

theorem fetched_mkdir : (SysCall.mkdir (some [97])).Fetched := by
  intro path hpath c hc
  cases hpath
  rw [List.mem_singleton.1 hc]
  decide

theorem system_calls_keep_order_mkdir : ∃ s' : Sys, s'.Reached smallSb quietRoot.data ∧
    (s'.fs.Sane ∧ s'.fs.Whole ∧ s'.fs.log.header.n = 0 ∧ ∀ ip, s'.mem.users.writes ip → s'.fs.Writable ip) ∧
      ∀ (p : Fin NPROC) (c : SysCall) (e : Panic), (s'.mem.users.procs p).state = .runnable → c.Fetched →
        (solo (c.prog p)).run s' = .error e → e ∉ disorder := by
  obtain ⟨s', hrun⟩ := firstProcess_mkdir
  have hreached := (Sys.Reached.boot firstProcess_boots).call rfl fetched_mkdir hrun
  exact ⟨s', hreached, system_calls_keep_order hreached⟩

theorem crash_recovers_in_order_mkdir : ∃ s' : Sys, s'.Reached smallSb quietRoot.data ∧ ∀ k ks,
    InOrder smallSb (s'.recovered quietRoot.data k ks) ∧
      (s'.dev.issued.length ≤ k → SameBlocks smallSb (s'.recovered quietRoot.data k ks) s'.dev.data) := by
  obtain ⟨s', hrun⟩ := firstProcess_mkdir
  have hreached := (Sys.Reached.boot firstProcess_boots).call rfl fetched_mkdir hrun
  exact ⟨s', hreached, crash_recovers_in_order hreached⟩

theorem system_call_atomic_mkdir : ∃ s' : Sys,
    (solo ((SysCall.mkdir (some [97])).prog ⟨0, NPROC_pos⟩)).run firstProcess = .ok (0, s') ∧ ∀ k ks,
    (SameBlocks smallSb (s'.recovered quietRoot.data k ks) quietRoot.data ∨
      SameBlocks smallSb (s'.recovered quietRoot.data k ks) s'.dev.data) ∧
    (s'.dev.issued.length ≤ k → SameBlocks smallSb (s'.recovered quietRoot.data k ks) s'.dev.data) := by
  obtain ⟨s', hrun⟩ := firstProcess_mkdir
  exact ⟨s', hrun, fun k ks => system_call_atomic (.boot firstProcess_boots) rfl fetched_mkdir trivial hrun
    (Nat.zero_le k) ks⟩

end Xv6pp
