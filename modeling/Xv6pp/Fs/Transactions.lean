import Xv6pp.File.Writers
import Xv6pp.Fs.Operations

/-!
# Operations of the log as transactions

The state between two operations is in order (`Settled`): the file system is, no operation is in the log,
and a crash leads back to a point between two operations, at each of which the file system was in order.
Inside of an operation `Op base h l o s` says what the process has done since the operation began in the
state `o`: it holds the references `h` and the locks `l`, and all that it changed is logged.  There is one
rule for each guard and each function of the file system that the system calls use, and one for the scope
of the operation, whose end commits.
-/

set_option autoImplicit false

namespace Xv6pp

open Prog FileSystem

/-! ## The log area does not matter -/

/-- Two states that differ at most in the log and the blocks before the inodes. -/
structure SameHome (s s' : Fs) : Prop where
  sb : s'.sb = s.sb
  data : ∀ {b}, s.sb.inodestart ≤ b → s'.data b = s.data b

namespace SameHome

variable {s s' : Fs}

theorem dinode (h : SameHome s s') : s'.dinode = s.dinode := by
  funext i
  rw [Fs.dinode, Fs.dinode, h.sb, h.data (show s.sb.inodestart ≤ s.sb.iblock i from Nat.le_add_left ..)]

theorem bit (h : SameHome s s') (hs : s.sb.Layout) : s'.bit = s.bit := by
  funext b
  rw [Fs.bit, Fs.bit, h.sb, h.data (hs.inodes_le.trans (s.sb.bmapstart_le_bblock b))]

/-- A block in use is not in the log area. -/
theorem data_slot (h : SameHome s s') (hs : s.Sane) {p : Nat × Slot} (hp : s.slots s.dinode p ≠ 0) :
    s'.data (s.slots s.dinode p) = s.data (s.slots s.dinode p) :=
  h.data (hs.consistent.home hp).1

theorem slots (h : SameHome s s') (hs : s.Sane) : s'.slots s.dinode = s.slots s.dinode := by
  rw [Fs.slots, h.sb]
  exact slots_congr fun j hj => h.data_slot hs hj

theorem content (h : SameHome s s') (hs : s.Sane) : s'.content = s.content := by
  funext i
  rw [Fs.content, Fs.content, h.dinode]
  refine Fs.fileBytes_congr fun o _ => Fs.fileByte_congr ?_ fun hne => h.data_slot hs hne
  rw [h.slots hs]

/-- The file system is as good as it was, if its table of inodes is. -/
theorem sane (h : SameHome s s') (hs : s.Sane) (hlog : LogOk s.sb s'.log)
    (htable : Incore s.sb s'.inode s.dinode) : s'.Sane where
  consistent :=
    { toIncore := by
        rw [h.sb, h.dinode]
        exact htable
      layout := h.sb ▸ hs.consistent.layout
      log := h.sb ▸ hlog
      blocks := by
        rw [h.sb, h.dinode, h.slots hs, h.bit hs.consistent.layout]
        exact hs.consistent.blocks
      disk := fun _ _ => rfl
      fits := fun _ => Dinode.fits_ofBytes _ }
  noHoles j hj ht bn hbn := by
    rw [h.sb] at hj
    rw [h.dinode] at ht hbn ⊢
    rw [Fs.fileBlock_congr (h.slots hs)]
    exact hs.noHoles j hj ht bn hbn

theorem whole (h : SameHome s s') (hs : s.Sane) (hw : s.Whole) : s'.Whole where
  dirs d hd ht := by
    rw [h.sb] at hd
    rw [h.dinode] at ht
    have hdir := hw.dirs d hd ht
    refine ⟨?_, ?_⟩
    · rw [h.dinode]
      exact hdir.type
    · rw [h.dinode]
      exact hdir.size
  names d hd ht := by
    rw [h.sb] at hd
    rw [h.dinode] at ht
    rw [Fs.NamesInodes, Fs.table, h.content hs, h.sb]
    exact hw.names d hd ht

theorem typed (h : SameHome s s') (hinode : s'.inode = s.inode) (ht : s.Typed) : s'.Typed := by
  rw [Fs.Typed, hinode, h.dinode]
  exact ht

end SameHome

/-! ## The disk after a reboot -/

/-- The file system when the machine has booted and no inode is in core. -/
def Fs.reboot (sb : Superblock) (data : Nat → Block) : Fs where
  mem := {
    sb := sb
    log := ⟨sb.logstart, sb.nlog, 0, false, ⟨0, fun _ => 0⟩⟩
    inodes := fun _ => ⟨0, 0, false, false, ⟨0, 0, 0, 0, 0, fun _ => 0⟩⟩ }
  dev := ⟨data, []⟩

/-- **The disk is in order**: no block belongs to two files or is both free and in use, files have no
holes, and directories consist of whole entries that name inodes. -/
structure InOrder (sb : Superblock) (data : Nat → Block) : Prop where
  sane : (Fs.reboot sb data).Sane
  whole : (Fs.reboot sb data).Whole

/-- The disk of a file system in order. -/
theorem Fs.Sane.inOrder {s : Fs} {data : Nat → Block} (hs : s.Sane) (hw : s.Whole)
    (hdata : ∀ b, s.sb.inodestart ≤ b → data b = s.data b) : InOrder s.sb data := by
  have hhome : SameHome s (.reboot s.sb data) := ⟨rfl, fun {b} hb => hdata b hb⟩
  have hlog := hs.consistent.log
  refine ⟨hhome.sane hs ⟨Log.committable_of_n_eq_zero rfl ?_, rfl, rfl⟩ ⟨?_, ?_, ?_⟩, hhome.whole hs hw⟩
  · show 0 < s.sb.nlog
    rw [← hlog.size]
    exact Nat.zero_lt_of_lt hlog.committable.lt_size
  · exact fun hr => absurd hr (Int.lt_irrefl 0)
  · exact fun hr => absurd hr (Int.lt_irrefl 0)
  · exact fun hr => absurd hr (Int.lt_irrefl 0)

theorem InOrder.congr {sb : Superblock} {data data' : Nat → Block} (h : InOrder sb data)
    (hdata : ∀ b, sb.inodestart ≤ b → data' b = data b) : InOrder sb data' :=
  h.sane.inOrder h.whole hdata

/-! ## Inodes that are in use already -/

section
variable {E : Panic → Prop} {s₀ s : Fs} {h : Multiset Token} {l : Finset InodeId} {ip : InodeId}

/-- `ilock` of an inode that was in core at the beginning. -/
theorem Upkeep.wp_lockOpen (hu : Upkeep s₀ h l s) (hE : MayStop E) (hr : 0 < (s₀.inode ip).ref) :
    wp (ideal (ilock ip)) E (fun _ s' => (Upkeep s₀ h (insert ip l) s' ∧ Core s' ip (s₀.inode ip).inum) ∧
      SameDisk s s') s := by
  obtain ⟨hpos, hinum, -⟩ := hu.still hr
  refine wp_imp (hu.sane.wp_ilock hpos (.inl hE.deadlock) (.inl hE.noType)) ?_
  rintro _ s' ⟨rfl, hnew⟩
  have hd : SameDisk s (s.lockInode ip) := (SameDisk.refl s).setInode _ _
  have hs : Session s₀ h (insert ip l) (s.lockInode ip) := by
    refine ⟨hu.refs.congr_setInode rfl rfl fun _ => rfl, hu.sane.lockInode, fun k => ?_, fun h0 => ?_⟩
    · rw [Fs.lockInode, Fs.setInode_inode, Function.update_apply, Finset.mem_insert, ← hu.locked k]
      split
      · next hk => exact iff_of_true rfl (.inl hk)
      · next hk => simp [hk]
    · refine (hu.typed h0).setInode fun _ _ => ?_
      cases hv : (s.inode ip).valid with
      | false => exact hnew hv
      | true => exact hu.typed h0 ip hpos hv
  exact ⟨⟨hu.sameDisk hs hd, hinum ▸ .of_lockInode hpos⟩, hd⟩

theorem Upkeep.wp_unlockOpen (hu : Upkeep s₀ h l s) (hr : 0 < (s.inode ip).ref) (hl : ip ∈ l) :
    wp (ideal (iunlock ip)) E (fun _ s' => Upkeep s₀ h (l.erase ip) s' ∧ SameDisk s s') s := by
  refine wp_imp (wp_iunlock hr ((hu.locked _).2 hl)) ?_
  rintro _ s' rfl
  have hd : SameDisk s (s.setLocked ip false) := (SameDisk.refl s).setInode _ _
  have hs : Session s₀ h (l.erase ip) (s.setLocked ip false) := by
    refine ⟨hu.refs.congr_setInode rfl rfl id, hu.sane.setLocked _, fun k => ?_, fun h0 => ?_⟩
    · rw [Fs.setLocked, Fs.setInode_inode, Function.update_apply, Finset.mem_erase, ← hu.locked k]
      split
      · next hk => simp [hk]
      · next hk => simp [hk]
    · exact (hu.typed h0).setInode fun hr hv => hu.typed h0 _ hr hv
  exact ⟨hu.sameDisk hs hd, hd⟩

end

/-! ## Between operations -/

/-- The inode is in core, allocated, and not a directory. -/
structure Fs.Writable (s : Fs) (ip : InodeId) : Prop where
  ref : 0 < (s.inode ip).ref
  type : (s.dinode (s.inode ip).inum).type ≠ 0
  notDir : (s.dinode (s.inode ip).inum).type ≠ T_DIR

theorem SameHome.writable {s s' : Fs} {ip : InodeId} (h : SameHome s s') (hinode : s'.inode = s.inode)
    (hw : s.Writable ip) : s'.Writable ip := by
  refine ⟨?_, ?_, ?_⟩
  · rw [hinode]
    exact hw.ref
  · rw [hinode, h.dinode]
    exact hw.type
  · rw [hinode, h.dinode]
    exact hw.notDir

/-- **The state between two operations.** -/
structure Settled (sb : Superblock) (disk : Nat → Block) (past : List Log.Point) (s : Sys) : Prop where
  superblock : s.fs.sb = sb
  sane : s.fs.Sane
  typed : s.fs.Typed
  whole : s.fs.Whole
  root : sb.IsInum ROOTINO
  refs : ∀ k, 0 ≤ (s.fs.inode k).ref
  unlocked : ∀ k, (s.fs.inode k).locked = false
  /-- No directory is open for writing. -/
  writers : ∀ ip, s.mem.users.writes ip → s.fs.Writable ip
  outstanding : s.fs.log.outstanding = 0
  committing : s.fs.log.committing = false
  empty : s.fs.log.header.n = 0
  recoverable : Log.Recoverable disk past s.fs.log s.dev
  /-- The disk was in order after each operation. -/
  points : ∀ p ∈ past, InOrder sb p.data

/-! ## Inside of an operation -/

/-- **Inside of an operation** that began in the state `o`.  References are counted from those of
`base`. -/
structure Op (base : Fs) (h : Multiset Token) (l : Finset InodeId) (o s : Sys) : Prop where
  upkeep : Upkeep base h l s.fs
  journals : Journals o.fs s.fs
  users : s.mem.users = o.mem.users
  cwd : s.mem.cwd = o.mem.cwd
  inside : o.fs.log.outstanding = 1
  sb : base.sb = o.fs.sb
  root : base.sb.IsInum ROOTINO
  writers : ∀ ip, o.mem.users.writes ip → base.Writable ip

/-- The panics of the functions of the file system, before the log is taken into account. -/
def Raw (e : Panic) : Prop := e ∉ disorder ∨ e = .logWriteOutsideOfTrans

theorem Raw.mayStop : MayStop Raw := by
  refine ⟨?_, ?_, ?_, ?_⟩
  all_goals exact .inl (by decide)

theorem Raw.logStops : LogStops Raw := ⟨.inl (by decide), .inr rfl⟩

theorem Raw.budget (S : Finset Nat) (n : Nat) (s : Fs) : Budget Raw S n s := .inl Raw.logStops

section
variable {α β : Type} {base : Fs} {h : Multiset Token} {l : Finset InodeId} {o s : Sys} {ip : InodeId}
  {x : Nat} {v : Bool}

/-- **A function of the file system** in an operation. -/
theorem Op.fs {m : FsM α} {R : α → Fs → Prop} {Q : α → Sys → Prop} (hop : Op base h l o s)
    (hj : Journaled m) (hm : wp (ideal m) Raw R s.fs)
    (hQ : ∀ a s', R a s'.fs → (∀ h' l', Upkeep base h' l' s'.fs → Op base h' l' o s') → Q a s') :
    Goes (Sysfile.fs m) Q s := by
  have ho : s.fs.log.outstanding = 1 := hop.journals.outstanding.trans hop.inside
  refine Goes.fs (wp_both hm (hj s.fs ho.ge)) ?_ ?_
  · rintro e ⟨he, hne⟩
    exact he.resolve_right hne
  · rintro a f held ⟨hR, hjs⟩
    exact hQ a _ hR fun h' l' hu => ⟨hu, hop.journals.trans hjs, hop.users, hop.cwd, hop.inside,
      hop.sb, hop.root, hop.writers⟩

/-- The references that are counted on stay. -/
theorem Op.still (hop : Op base h l o s) (hr : 0 < (base.inode ip).ref) : 0 < (s.fs.inode ip).ref :=
  (hop.upkeep.still hr).1

/-- **`namex`.** -/
theorem Op.namex {cur : InodeId} {path : List UInt8} {parent : Bool}
    {Q : Option (InodeId × List UInt8) → Sys → Prop} (hop : Op base h ∅ o s)
    (hcur : 0 < (base.inode cur).ref) (hpath : ∀ c ∈ path, c ≠ 0)
    (hnone : ∀ s', Op base h ∅ o s' → Q none s')
    (hsome : ∀ s' ip x v name, Op base (⟨ip, x, v⟩ ::ₘ h) ∅ o s' → (parent = true → IsName name) →
      Q (some (ip, name)) s') : Goes (Sysfile.fs (FileSystem.namex cur path parent)) Q s := by
  have hroot : s.fs.sb.IsInum ROOTINO := hop.upkeep.sb ▸ hop.root
  refine hop.fs (journaled_namex _ _ _) (hop.upkeep.wp_namex Raw.mayStop (hop.still hcur) hpath hroot
    (.inl Raw.logStops) (Raw.budget ∅ 0 _)) fun r s' hr hup => ?_
  obtain ⟨⟨rfl, hu⟩ | ⟨ip, name, x, v, rfl, hu, hname⟩, -⟩ := hr
  · exact hnone s' (hup _ _ hu)
  · exact hsome s' ip x v name (hup _ _ hu) hname

theorem Op.nameiparent {cur : InodeId} {path : List UInt8}
    {Q : Option (InodeId × List UInt8) → Sys → Prop} (hop : Op base h ∅ o s)
    (hcur : 0 < (base.inode cur).ref) (hpath : ∀ c ∈ path, c ≠ 0)
    (hnone : ∀ s', Op base h ∅ o s' → Q none s')
    (hsome : ∀ s' ip x v name, Op base (⟨ip, x, v⟩ ::ₘ h) ∅ o s' → IsName name → Q (some (ip, name)) s') :
    Goes (Sysfile.fs (FileSystem.nameiparent cur path)) Q s :=
  hop.namex hcur hpath hnone fun s' ip x v name hop' hname => hsome s' ip x v name hop' (hname rfl)

theorem Op.namei {cur : InodeId} {path : List UInt8} {Q : Option InodeId → Sys → Prop}
    (hop : Op base h ∅ o s) (hcur : 0 < (base.inode cur).ref) (hpath : ∀ c ∈ path, c ≠ 0)
    (hnone : ∀ s', Op base h ∅ o s' → Q none s')
    (hsome : ∀ s' ip x v, Op base (⟨ip, x, v⟩ ::ₘ h) ∅ o s' → Q (some ip) s') :
    Goes (Sysfile.fs (FileSystem.namei cur path)) Q s := by
  have hroot : s.fs.sb.IsInum ROOTINO := hop.upkeep.sb ▸ hop.root
  have hnamei : wp (ideal (FileSystem.namei cur path)) Raw (fun r s' => (r = none ∧ Upkeep base h ∅ s') ∨
      ∃ ip x v, r = some ip ∧ Upkeep base (⟨ip, x, v⟩ ::ₘ h) ∅ s') s.fs := by
    refine wp_ideal_seq (hop.upkeep.wp_namex Raw.mayStop (hop.still hcur) hpath hroot (.inl Raw.logStops)
      (Raw.budget ∅ 0 _)) ?_
    rintro r s' ⟨⟨rfl, hu⟩ | ⟨ip, name, x, v, rfl, hu, -⟩, -⟩
    · exact .inl ⟨rfl, hu⟩
    · exact .inr ⟨ip, x, v, rfl, hu⟩
  refine hop.fs (journaled_namei _ _) hnamei ?_
  rintro r s' (⟨rfl, hu⟩ | ⟨ip, x, v, rfl, hu⟩) hup
  · exact hnone s' (hup _ _ hu)
  · exact hsome s' ip x v (hup _ _ hu)

/-- `ilock` returns only if the inode was not locked. -/
theorem wp_ilock_unlocked {s : Fs} : wp (ideal (ilock ip)) (fun _ => True)
    (fun _ _ => (s.inode ip).locked = false) s := by
  rw [ilock]
  simp only [wp_ideal_bind, wp_inode]
  split
  · exact wp_stop.2 trivial
  · rw [acquire]
    simp only [wp_ideal_bind, wp_inode]
    split
    · exact wp_stop.2 trivial
    · next hfree => exact wp_const (Bool.eq_false_iff.2 hfree)

/-- **`ilock`.** -/
theorem Op.ilock {Q : Unit → Sys → Prop} (hop : Op base (⟨ip, x, v⟩ ::ₘ h) l o s)
    (hQ : ∀ s', ip ∉ l → Op base (⟨ip, x, true⟩ ::ₘ h) (insert ip l) o s' →
      SameDisk s.fs s'.fs → Q () s') : Goes (Sysfile.fs (FileSystem.ilock ip)) Q s := by
  refine hop.fs (journaled_ilock _) (wp_and (hop.upkeep.wp_ilock (.inl Raw.mayStop.deadlock)
    (.inl Raw.mayStop.noType)) wp_ilock_unlocked) ?_
  rintro _ s' ⟨⟨hs, hd, -⟩, hfree⟩ hup
  refine hQ s' (fun hl => ?_) (hup _ _ (hop.upkeep.sameDisk hs hd)) hd
  rw [(hop.upkeep.locked _).2 hl] at hfree
  cases hfree

/-- **`iunlock`.** -/
theorem Op.iunlock {Q : Unit → Sys → Prop} (hop : Op base h (insert ip l) o s) (hr : 0 < (s.fs.inode ip).ref)
    (hl : ip ∉ l) (hQ : ∀ s', Op base h l o s' → SameDisk s.fs s'.fs → Q () s') :
    Goes (Sysfile.fs (FileSystem.iunlock ip)) Q s := by
  refine hop.fs (journaled_iunlock _) (hop.upkeep.wp_unlockOpen hr (Finset.mem_insert_self _ _)) ?_
  rintro _ s' ⟨hu, hd⟩ hup
  rw [Finset.erase_insert hl] at hu
  exact hQ s' (hup _ _ hu) hd

/-- **`iput`.** -/
theorem Op.iput {Q : Unit → Sys → Prop} (hop : Op base (⟨ip, x, v⟩ ::ₘ h) l o s)
    (hQ : ∀ s', Op base h l o s' →
      (∀ j, s.fs.sb.IsInum j → j ≠ x → s'.fs.dinode j = s.fs.dinode j) → Q () s') :
    Goes (Sysfile.fs (FileSystem.iput ip)) Q s := by
  refine hop.fs (journaled_iput _) (hop.upkeep.wp_iput (n := 0) Raw.mayStop (base.sb.bitmapIn_metadata x)
    (base.sb.iblock_mem_metadata x) (Raw.budget _ _ _)) ?_
  rintro _ s' ⟨⟨hu, hother⟩, -⟩ hup
  exact hQ s' (hup _ _ hu) hother

/-! ### Guards -/

theorem Goes.withRef {ip : Option InodeId} {body : Sysfile.RefGuard → SysM (α × Sysfile.RefGuard)}
    {Q : α → Sys → Prop}
    (hbody : Goes (body ⟨ip⟩) (fun r s' => Goes r.2.destroy (fun _ => Q r.1) s') s) :
    Goes (Sysfile.withRef ip body) Q s :=
  .bind (hbody.imp fun _ _ h' => .bind (h'.imp fun _ _ h'' => .pure h''))

theorem Goes.withNoLock {body : Sysfile.LockGuard → SysM (α × Sysfile.LockGuard)} {Q : α → Sys → Prop}
    (hbody : Goes (body ⟨none, false⟩) (fun r s' => Goes r.2.destroy (fun _ => Q r.1) s') s) :
    Goes (Sysfile.withLock none body) Q s :=
  .bind (.pure (.bind (hbody.imp fun _ _ h' => .bind (h'.imp fun _ _ h'' => .pure h''))))

/-- The end of a guard that has nothing to give back. -/
theorem Goes.endNoRef {Q : Unit → Sys → Prop} (h : Q () s) : Goes (Sysfile.RefGuard.destroy ⟨none⟩) Q s := h

theorem Goes.endNoLock {ip : Option InodeId} {Q : Unit → Sys → Prop} (h : Q () s) :
    Goes (Sysfile.LockGuard.destroy ⟨ip, false⟩) Q s := by
  cases ip <;> exact h

/-- **`reset`** of a guard that has a reference. -/
theorem Op.reset {g : Option InodeId} {Q : Sysfile.RefGuard → Sys → Prop} (hop : Op base (⟨ip, x, v⟩ ::ₘ h) l o s)
    (hQ : ∀ s', Op base h l o s' →
      (∀ j, s.fs.sb.IsInum j → j ≠ x → s'.fs.dinode j = s.fs.dinode j) → Q ⟨g⟩ s') :
    Goes (Sysfile.RefGuard.reset ⟨some ip⟩ g) Q s := by
  have hop₁ : Op base (⟨ip, x, v⟩ ::ₘ h) l o { s with mem := { s.mem with trace := s.mem.trace ++ [.iput ip] } } :=
    ⟨hop.upkeep, hop.journals, hop.users, hop.cwd, hop.inside, hop.sb, hop.root, hop.writers⟩
  exact .bind (.record (.bind (hop₁.iput fun s' hop' hother => .pure (hQ s' hop' hother))))

theorem Op.endRef {Q : Unit → Sys → Prop} (hop : Op base (⟨ip, x, v⟩ ::ₘ h) l o s)
    (hQ : ∀ s', Op base h l o s' →
      (∀ j, s.fs.sb.IsInum j → j ≠ x → s'.fs.dinode j = s.fs.dinode j) → Q () s') :
    Goes (Sysfile.RefGuard.destroy ⟨some ip⟩) Q s :=
  .bind (hop.reset fun s' hop' hother => .pure (hQ s' hop' hother))

/-- **The scope of a lock guard.** -/
theorem Op.withLock {body : Sysfile.LockGuard → SysM (α × Sysfile.LockGuard)} {Q : α → Sys → Prop}
    (hop : Op base (⟨ip, x, v⟩ ::ₘ h) l o s)
    (hbody : ∀ s', ip ∉ l → Op base (⟨ip, x, true⟩ ::ₘ h) (insert ip l) o s' →
      SameDisk s.fs s'.fs →
      Goes (body ⟨some ip, true⟩) (fun r s' => Goes r.2.destroy (fun _ => Q r.1) s') s') :
    Goes (Sysfile.withLock (some ip) body) Q s := by
  refine .bind (.bind (hop.ilock fun s' hl hop' hd => .pure (.bind ((hbody s' hl hop' hd).imp ?_))))
  exact fun _ _ h' => .bind (h'.imp fun _ _ h'' => .pure h'')

/-- `make`, the constructor of a lock guard. -/
theorem Op.make {Q : Sysfile.LockGuard → Sys → Prop} (hop : Op base (⟨ip, x, v⟩ ::ₘ h) l o s)
    (hQ : ∀ s', ip ∉ l → Op base (⟨ip, x, true⟩ ::ₘ h) (insert ip l) o s' →
      SameDisk s.fs s'.fs → Q ⟨some ip, true⟩ s') :
    Goes (Sysfile.LockGuard.make (some ip)) Q s :=
  .bind (hop.ilock fun s' hl hop' hd => .pure (hQ s' hl hop' hd))

theorem Op.unlockOpen {Q : Sysfile.LockGuard → Sys → Prop} (hop : Op base h (insert ip l) o s)
    (hr : 0 < (s.fs.inode ip).ref) (hl : ip ∉ l)
    (hQ : ∀ s', Op base h l o s' → SameDisk s.fs s'.fs → Q ⟨some ip, false⟩ s') :
    Goes (Sysfile.LockGuard.unlock ⟨some ip, true⟩) Q s :=
  .bind (hop.iunlock hr hl fun s' hop' hd => .pure (hQ s' hop' hd))

theorem Op.unlock {Q : Sysfile.LockGuard → Sys → Prop} (hop : Op base h (insert ip l) o s) (ht : ⟨ip, x, v⟩ ∈ h)
    (hl : ip ∉ l) (hQ : ∀ s', Op base h l o s' → SameDisk s.fs s'.fs → Q ⟨some ip, false⟩ s') :
    Goes (Sysfile.LockGuard.unlock ⟨some ip, true⟩) Q s :=
  hop.unlockOpen (hop.upkeep.refs.ref_pos ht) hl hQ

theorem Op.endLockOpen {Q : Unit → Sys → Prop} (hop : Op base h (insert ip l) o s)
    (hr : 0 < (s.fs.inode ip).ref) (hl : ip ∉ l)
    (hQ : ∀ s', Op base h l o s' → SameDisk s.fs s'.fs → Q () s') :
    Goes (Sysfile.LockGuard.destroy ⟨some ip, true⟩) Q s :=
  .bind (hop.unlockOpen hr hl fun s' hop' hd => .pure (hQ s' hop' hd))

theorem Op.endLock {Q : Unit → Sys → Prop} (hop : Op base h (insert ip l) o s) (ht : ⟨ip, x, v⟩ ∈ h)
    (hl : ip ∉ l) (hQ : ∀ s', Op base h l o s' → SameDisk s.fs s'.fs → Q () s') :
    Goes (Sysfile.LockGuard.destroy ⟨some ip, true⟩) Q s :=
  hop.endLockOpen (hop.upkeep.refs.ref_pos ht) hl hQ

/-- The scope of a lock guard of an inode that was in core at the beginning. -/
theorem Op.withLockOpen {body : Sysfile.LockGuard → SysM (α × Sysfile.LockGuard)} {Q : α → Sys → Prop}
    (hop : Op base h l o s) (hr : 0 < (base.inode ip).ref)
    (hbody : ∀ s', Op base h (insert ip l) o s' → Core s'.fs ip (base.inode ip).inum →
      Goes (body ⟨some ip, true⟩) (fun r s' => Goes r.2.destroy (fun _ => Q r.1) s') s') :
    Goes (Sysfile.withLock (some ip) body) Q s := by
  refine .bind (.bind (hop.fs (journaled_ilock _) (hop.upkeep.wp_lockOpen Raw.mayStop hr) ?_))
  rintro _ s' ⟨⟨hu, hcore⟩, -⟩ hup
  refine .pure (.bind ((hbody s' (hup _ _ hu) hcore).imp ?_))
  exact fun _ _ h' => .bind (h'.imp fun _ _ h'' => .pure h'')

/-! ### Inodes and directories -/

theorem Goes.inode {Q : Inode → Sys → Prop} (h : Q (s.fs.inode ip) s) :
    Goes (Sysfile.fs (FileSystem.inode ip)) Q s := h

/-- The inode of a valid reference. -/
theorem Op.core (hop : Op base h l o s) (ht : ⟨ip, x, true⟩ ∈ h) :
    Core s.fs ip x ∧ (s.fs.dinode x).type ≠ 0 ∧ s.fs.sb.IsInum x ∧
      (s.fs.inode ip).copy = s.fs.dinode x := by
  obtain ⟨hcore, htype⟩ := hop.upkeep.core ht rfl
  exact ⟨hcore, htype, hcore.isInum hop.upkeep.sane.consistent, hcore.copy hop.upkeep.sane.consistent⟩

theorem Op.isInum (hop : Op base h l o s) (hx : base.sb.IsInum x) : s.fs.sb.IsInum x := by
  rw [hop.upkeep.sb]
  exact hx

/-- Two valid references to different entries of the table are to different inodes. -/
theorem Op.inum_ne {jp : InodeId} {y : Nat} (hop : Op base h l o s) (ht : ⟨ip, x, true⟩ ∈ h) (ht' : ⟨jp, y, true⟩ ∈ h)
    (hne : ip ≠ jp) : x ≠ y := by
  obtain ⟨hcore, -⟩ := hop.core ht
  obtain ⟨hcore', -⟩ := hop.core ht'
  intro hxy
  exact hne (hop.upkeep.sane.consistent.uniq hcore.ref hcore'.ref (by rw [hcore.inum, hcore'.inum, hxy]))

/-- **A function that changes nothing.** -/
theorem Op.reads {m : FsM α} {R : α → Prop} {Q : α → Sys → Prop} (hop : Op base h l o s) (hj : Journaled m)
    (hm : wp (ideal m) Raw (fun a s' => s' = s.fs ∧ R a) s.fs)
    (hQ : ∀ a s', R a → s'.fs = s.fs → Op base h l o s' → Q a s') : Goes (Sysfile.fs m) Q s := by
  refine hop.fs hj hm ?_
  rintro a s' ⟨hsame, hR⟩ hup
  exact hQ a s' hR hsame (hup _ _ (hsame ▸ hop.upkeep))

/-- **`dirlookup`.** -/
theorem Op.dirlookup {name : List UInt8} {Q : Option (InodeId × Nat) → Sys → Prop} (hop : Op base h l o s)
    (ht : ⟨ip, x, true⟩ ∈ h) (hname : IsName name)
    (hnone : ∀ s', Op base h l o s' → Q none s')
    (hsome : ∀ s' jp y k, Op base (⟨jp, y, false⟩ ::ₘ h) l o s' → (s'.fs.dinode x).type = T_DIR →
      (s'.fs.table x)[k]? = some (some (name, y)) → Q (some (jp, sizeofDirent * k)) s') :
    Goes (Sysfile.fs (FileSystem.dirlookup ip name)) Q s := by
  refine hop.fs (journaled_dirlookup _ _) (hop.upkeep.wp_dirlookup (hop.core ht).1 Raw.mayStop hname) ?_
  rintro r s' (⟨rfl, hs⟩ | ⟨jp, off, y, k, rfl, hu, hd, hdir, rfl, hentry⟩) hup
  · exact hnone s' (hup _ _ (hs ▸ hop.upkeep))
  · refine hsome s' jp y k (hup _ _ hu) ?_ ?_
    · rw [hd.dinode]
      exact hdir
    · rw [hd.table]
      exact hentry

/-- **`ialloc`.** -/
theorem Op.ialloc {type : Int} {Q : Option InodeId → Sys → Prop} (hop : Op base h l o s)
    (htype : Dinode.IsShort type) (hnone : ∀ s', Op base h l o s' → Q none s')
    (hsome : ∀ s' jp y, Op base (⟨jp, y, false⟩ ::ₘ h) l o s' → (s'.fs.dinode y).type = type →
      Q (some jp) s') : Goes (Sysfile.fs (FileSystem.ialloc type)) Q s := by
  refine hop.fs (journaled_ialloc _) (hop.upkeep.wp_ialloc (S := ∅) (n := 0) Raw.mayStop htype
    (Raw.budget _ _ _)) ?_
  rintro r s' (⟨rfl, hs⟩ | ⟨jp, x, rfl, ⟨hu, ht⟩, -⟩) hup
  · exact hnone s' (hup _ _ (hs ▸ hop.upkeep))
  · exact hsome s' jp x (hup _ _ hu) ht

/-- **A change of the links or the device numbers** of an inode, which is written back. -/
theorem Op.updateFields {f : Dinode → Dinode} {k : Unit → SysM β} {Q : β → Sys → Prop}
    (hop : Op base h l o s) (ht : ⟨ip, x, true⟩ ∈ h)
    (hf : ∀ d : Dinode, d.Fits →
      (f d).Fits ∧ (f d).type = d.type ∧ (f d).size = d.size ∧ (f d).addrs = d.addrs)
    (hQ : ∀ s', Op base h l o s' →
      (∀ j, s.fs.sb.IsInum j → (s'.fs.dinode j).type = (s.fs.dinode j).type) → Goes (k ()) Q s') :
    Goes (Sysfile.fs (FileSystem.updateCopy ip f) >>= fun _ =>
      Sysfile.fs (FileSystem.iupdate ip) >>= k) Q s := by
  obtain ⟨hcore, -, hisInum, hcopy⟩ := hop.core ht
  obtain ⟨hfits, htype, hsize, haddrs⟩ := hf _ (hop.upkeep.sane.consistent.fits x)
  have hout : s.fs.log.outstanding = 1 := hop.journals.outstanding.trans hop.inside
  refine .bind (.fs (E := fun _ => False) (R := fun _ f' => f' = s.fs.setInode ip
    { s.fs.inode ip with copy := f (s.fs.inode ip).copy }) (wp_updateCopy.2 rfl) (fun _ => False.elim) ?_)
  rintro _ f' held rfl
  have hset : Journals s.fs (s.fs.setInode ip { s.fs.inode ip with copy := f (s.fs.dinode x) }) :=
    .setInode _ _ _
  rw [hcopy]
  refine .bind (.fs (wp_both (hop.upkeep.wp_updateFields (n := 0) hcore hfits htype hsize haddrs
    (base.sb.iblock_mem_metadata x) (Raw.budget _ _ _)) (journaled_iupdate ip _ hout.ge)) ?_ ?_)
  · rintro e ⟨he, hne⟩
    exact he.resolve_right hne
  · rintro _ f' held' ⟨⟨⟨hu, ha, -⟩, -⟩, hjs⟩
    refine hQ _ ⟨hu, (hop.journals.trans hset).trans hjs, hop.users, hop.cwd, hop.inside, hop.sb, hop.root,
      hop.writers⟩ fun j hj => ha.type_eq hj

theorem Op.addLinks {d : Int} {k : Unit → SysM β} {Q : β → Sys → Prop} (hop : Op base h l o s) (ht : ⟨ip, x, true⟩ ∈ h)
    (hQ : ∀ s', Op base h l o s' →
      (∀ j, s.fs.sb.IsInum j → (s'.fs.dinode j).type = (s.fs.dinode j).type) → Goes (k ()) Q s') :
    Goes (Sysfile.fs (Sysfile.addLinks ip d) >>= fun _ => Sysfile.fs (FileSystem.iupdate ip) >>= k) Q s :=
  hop.updateFields (f := fun c => { c with nlink := toShort (toUnsigned 16 (c.nlink + d)) }) ht
    (fun _ hc => ⟨⟨hc.type, hc.major, hc.minor, Dinode.isShort_wrap _, hc.size, hc.addrs⟩, rfl, rfl, rfl⟩) hQ

/-- The links of a parent directory change if a condition holds, before the rest. -/
theorem Op.addLinksWhen {c : Prop} [Decidable c] {d : Int} {k : Unit → SysM β} {Q : β → Sys → Prop}
    (hop : Op base h l o s) (ht : ⟨ip, x, true⟩ ∈ h) (hQ : ∀ s', Op base h l o s' →
      (∀ j, s.fs.sb.IsInum j → (s'.fs.dinode j).type = (s.fs.dinode j).type) → Goes (k ()) Q s') :
    Goes (if c then Sysfile.fs (Sysfile.addLinks ip d) >>= fun _ => Sysfile.fs (FileSystem.iupdate ip) >>= k
      else k ()) Q s :=
  .ite (fun _ => hop.addLinks ht hQ) fun _ => hQ s hop fun _ _ => rfl

/-- **`dirlink`.** -/
theorem Op.dirlink {name : List UInt8} {y : Nat} {Q : Int → Sys → Prop} (hop : Op base h l o s) (ht : ⟨ip, x, true⟩ ∈ h)
    (hname : IsName name) (hy : s.fs.sb.IsInum y)
    (hQ : ∀ r s', Op base h l o s' →
      (∀ j, s.fs.sb.IsInum j → (s'.fs.dinode j).type = (s.fs.dinode j).type) → Q r s') :
    Goes (Sysfile.fs (FileSystem.dirlink ip name y)) Q s := by
  refine hop.fs (journaled_dirlink _ _ _) (hop.upkeep.wp_dirlink (n := 0) (hop.core ht).1 Raw.mayStop hname
    (hop.upkeep.sb ▸ hy) (base.sb.bitmapIn_metadata x) (base.sb.iblock_mem_metadata x)
    (Raw.budget _ _ _)) ?_
  rintro r s' ⟨⟨hu, htypes⟩, -⟩ hup
  exact hQ r s' (hup _ _ hu) htypes

theorem isName_dot : IsName Sysfile.dot :=
  ⟨by decide, fun c hc => by
    rw [Sysfile.dot, List.mem_singleton] at hc
    rw [hc]
    decide⟩

theorem isName_dotdot : IsName Sysfile.dotdot :=
  ⟨by decide, fun c hc => by
    rw [Sysfile.dotdot, List.mem_cons, List.mem_singleton, or_self] at hc
    rw [hc]
    decide⟩

/-- One of the entries that `create` makes. -/
theorem Op.wp_createEntry {f : Fs} {name : List UInt8} {y : Nat} (hop : Op base h l o s) (hu : Upkeep base h l f)
    (htypes : ∀ j, s.fs.sb.IsInum j → (f.dinode j).type = (s.fs.dinode j).type) (ht : ⟨ip, x, true⟩ ∈ h)
    (hname : IsName name) (hy : base.sb.IsInum y) :
    wp (ideal (FileSystem.dirlink ip name y)) Raw (fun _ f' => Upkeep base h l f' ∧
      ∀ j, s.fs.sb.IsInum j → (f'.dinode j).type = (s.fs.dinode j).type) f := by
  refine wp_imp (hu.wp_dirlink (n := 0) (hu.core ht rfl).1 Raw.mayStop hname hy
    (base.sb.bitmapIn_metadata x) (base.sb.iblock_mem_metadata x) (Raw.budget _ _ _)) ?_
  rintro _ f' ⟨⟨hu', htypes'⟩, -⟩
  refine ⟨hu', fun j hj => (htypes' j ?_).trans (htypes j hj)⟩
  rw [hu.sb, ← hop.upkeep.sb]
  exact hj

/-- **The entries that `create` makes.** -/
theorem Op.createEntries {dp : InodeId} {d : Nat} {name : List UInt8} {type : Int} {Q : Bool → Sys → Prop}
    (hop : Op base h l o s) (hdp : ⟨dp, d, true⟩ ∈ h) (hip : ⟨ip, x, true⟩ ∈ h) (hname : IsName name)
    (hQ : ∀ r s', Op base h l o s' →
      (∀ j, s.fs.sb.IsInum j → (s'.fs.dinode j).type = (s.fs.dinode j).type) → Q r s') :
    Goes (Sysfile.fs (Sysfile.createEntries dp ip name type)) Q s := by
  have hsb := hop.upkeep.sb
  have hinum : ∀ {f : Fs} {t : Token}, Upkeep base h l f → t ∈ h → base.sb.IsInum (f.inode t.ip).inum :=
    fun hu ht => hu.sb ▸ hu.sane.consistent.inum (hu.refs.ref_pos ht)
  have hentries : wp (ideal (Sysfile.createEntries dp ip name type)) Raw (fun _ f => Upkeep base h l f ∧
      ∀ j, s.fs.sb.IsInum j → (f.dinode j).type = (s.fs.dinode j).type) s.fs := by
    -- the entry in the parent directory is the last one
    have hlast : ∀ {f : Fs} {y : Nat}, base.sb.IsInum y → Upkeep base h l f →
        (∀ j, s.fs.sb.IsInum j → (f.dinode j).type = (s.fs.dinode j).type) →
        wp (ideal (do return decide (0 ≤ (← FileSystem.dirlink dp name y)))) Raw (fun _ f => Upkeep base h l f ∧
          ∀ j, s.fs.sb.IsInum j → (f.dinode j).type = (s.fs.dinode j).type) f := fun hy hu htypes =>
      wp_ideal_seq (hop.wp_createEntry hu htypes hdp hname hy) fun _ _ h' => h'
    rw [Sysfile.createEntries, wp_ideal_bind, wp_inode]
    have hy := hinum hop.upkeep hip
    split
    · refine wp_ideal_seq (hop.wp_createEntry hop.upkeep (fun _ _ => rfl) hip isName_dot hy) ?_
      rintro r f₁ ⟨hu₁, htypes₁⟩
      split
      · exact ⟨hu₁, htypes₁⟩
      rw [wp_ideal_bind, wp_inode]
      refine wp_ideal_seq (hop.wp_createEntry hu₁ htypes₁ hip isName_dotdot (hinum hu₁ hdp)) ?_
      rintro r f₂ ⟨hu₂, htypes₂⟩
      split
      · exact ⟨hu₂, htypes₂⟩
      · exact hlast hy hu₂ htypes₂
    · exact hlast hy hop.upkeep fun _ _ => rfl
  refine hop.fs (journaled_createEntries _ _ _ _) hentries ?_
  rintro r s' ⟨hu, htypes⟩ hup
  exact hQ r s' (hup _ _ hu) htypes

/-- **An entry is cleared.** -/
theorem Op.clear {k : Nat} {q : List UInt8 × Nat} {Q : Int → Sys → Prop} (hop : Op base h l o s)
    (ht : ⟨ip, x, true⟩ ∈ h) (hdir : (s.fs.dinode x).type = T_DIR)
    (hentry : (s.fs.table x)[k]? = some (some q)) (hQ : ∀ s', Op base h l o s' → Q sizeofDirent s') :
    Goes (Sysfile.fs (writeKernel ip (List.replicate sizeofDirent 0) (sizeofDirent * k))) Q s := by
  refine hop.fs (journaled_writeKernel _ _ _) (hop.upkeep.wp_clear (n := 0) (hop.core ht).1 hdir hentry
    (base.sb.bitmapIn_metadata x) (base.sb.iblock_mem_metadata x) (Raw.budget _ _ _)) ?_
  rintro r s' ⟨⟨rfl, hu, -⟩, -⟩ hup
  exact hQ s' (hup _ _ hu)

/-- **`isdirempty`.** -/
theorem Op.isdirempty {Q : Bool → Sys → Prop} (hop : Op base h l o s) (ht : ⟨ip, x, true⟩ ∈ h)
    (hdir : (s.fs.dinode x).type = T_DIR)
    (hQ : ∀ r s', s'.fs = s.fs → Op base h l o s' → Q r s') :
    Goes (Sysfile.fs (Bool.not <$> Sysfile.isdirempty ip)) Q s := by
  refine hop.reads (R := fun _ => True) (.bind (journaled_isdirempty ip) fun _ => .pure _) ?_
    fun r s' _ hs hop' => hQ r s' hs hop'
  exact wp_ideal_map.2 (wp_imp (hop.upkeep.wp_isdirempty (hop.core ht).1 hdir) fun _ _ hs => ⟨hs, trivial⟩)

/-- **`itrunc`.** -/
theorem Op.itrunc {Q : Unit → Sys → Prop} (hop : Op base h l o s) (hip : Core s.fs ip x)
    (hQ : ∀ s', Op base h l o s' → Q () s') : Goes (Sysfile.fs (FileSystem.itrunc ip)) Q s := by
  refine hop.fs (journaled_itrunc _) (hop.upkeep.wp_itrunc (n := 0) hip (base.sb.bitmapIn_metadata x)
    (base.sb.iblock_mem_metadata x) (Raw.budget _ _ _)) ?_
  rintro _ s' ⟨⟨hu, -⟩, -⟩ hup
  exact hQ s' (hup _ _ hu)

/-- **`writei`** to an inode that is not a directory, from memory that is there. -/
theorem Op.writei {src : Source} {off n : Nat} {Q : Int → Sys → Prop} (hop : Op base h l o s)
    (hip : Core s.fs ip x) (hsrc : NeverFaults src.copy) (ht : (s.fs.dinode x).type ≠ T_DIR)
    (hQ : ∀ r s', Op base h l o s' → Q r s') : Goes (Sysfile.fs (FileSystem.writei ip src.copy off n)) Q s := by
  refine hop.fs (journaled_writei hsrc _ _ _) (hop.upkeep.wp_writei (n := 0) hip ht
    (base.sb.bitmapIn_metadata x) (base.sb.iblock_mem_metadata x) (Raw.budget _ _ _)) ?_
  rintro r s' ⟨⟨hu, -⟩, -⟩ hup
  exact hQ r s' (hup _ _ hu)

/-! ### What is counted on -/

/-- An inode that is open for writing stays what it is. -/
theorem Op.writable (hop : Op base h l o s) (hw : base.Writable ip) : s.fs.Writable ip := by
  obtain ⟨hpos, hinum, -⟩ := hop.upkeep.still hw.ref
  have hkind := hop.upkeep.kinds ip hw.ref hw.type
  refine ⟨hpos, ?_, ?_⟩
  · rw [hinum, hkind]
    exact hw.type
  · rw [hinum, hkind]
    exact hw.notDir

/-- The open files and the current directories change, and the references are counted from now on. -/
theorem Op.rebase (hop : Op base h l o s) {u : FileUsers} {c : Fin NPROC → Option InodeId}
    (hw : ∀ jp, u.writes jp → s.fs.Writable jp) :
    Op s.fs 0 l { o with mem := { o.mem with users := u, cwd := c } }
      { s with mem := { s.mem with users := u, cwd := c } } := by
  have hu := hop.upkeep
  have hnonneg : ∀ k, 0 ≤ (s.fs.inode k).ref := fun k => by
    have href := hu.refs.ref k
    have h0 := hu.refs.nonneg k
    omega
  refine ⟨⟨⟨.refl hnonneg, hu.sane, hu.locked, id⟩, hu.isTyped, hu.whole, rfl, fun _ _ _ => rfl⟩,
    hop.journals, rfl, rfl, hop.inside, hu.sb.trans hop.sb, ?_, hw⟩
  rw [hu.sb]
  exact hop.root

/-- Files are closed, or their offsets change. -/
theorem Op.setUsers {u : FileUsers} (hop : Op base h l o s) (hw : o.mem.users.NoNewWriters u) :
    Op base h l (o.withUsers u) (s.withUsers u) :=
  ⟨hop.upkeep, hop.journals, rfl, hop.cwd, hop.inside, hop.sb, hop.root,
    fun jp hjp => hop.writers jp (hw jp hjp)⟩

/-- A reference that was counted on is given up. -/
theorem Op.borrow (hop : Op base h l o s) (hr : 0 < (base.inode ip).ref)
    (hw : ∀ jp, o.mem.users.writes jp → (if jp = ip then 1 else 0 : Int) < (base.inode jp).ref) :
    ∃ base' x, Op base' (⟨ip, x, false⟩ ::ₘ h) l o s := by
  have hu := hop.upkeep
  have href : ∀ k, ((base.setInode ip { base.inode ip with ref := (base.inode ip).ref - 1 }).inode k).ref =
      (base.inode k).ref - if k = ip then 1 else 0 := fun k => by
    rw [Fs.setInode_inode, Function.update_apply]
    split
    · next hk => rw [hk]
    · rw [sub_zero]
  have hsame : ∀ k, ((base.setInode ip { base.inode ip with ref := (base.inode ip).ref - 1 }).inode k).inum =
      (base.inode k).inum ∧ ((base.setInode ip { base.inode ip with ref := (base.inode ip).ref - 1 }).inode
        k).valid = (base.inode k).valid := fun k => by
    rw [Fs.setInode_inode, Function.update_apply]
    split
    · next hk =>
      rw [hk]
      exact ⟨rfl, rfl⟩
    · exact ⟨rfl, rfl⟩
  have hd : ∀ i, (base.setInode ip { base.inode ip with ref := (base.inode ip).ref - 1 }).dinode i =
      base.dinode i := fun _ => rfl
  have hsb : (base.setInode ip { base.inode ip with ref := (base.inode ip).ref - 1 }).sb = base.sb := rfl
  generalize base.setInode ip { base.inode ip with ref := (base.inode ip).ref - 1 } = base' at href hsame hd hsb
  have hle : ∀ k, 0 < (base'.inode k).ref → 0 < (base.inode k).ref := fun k hk => by
    have := href k
    split_ifs at this <;> omega
  refine ⟨base', (base.inode ip).inum, ⟨⟨⟨fun k => ?_, fun k => ?_, fun k hk => ?_, fun k hk hv => ?_,
    fun t ht => ?_⟩, hu.sane, hu.locked, fun _ => hu.isTyped⟩, fun k hk hv => ?_, hu.whole, ?_, fun k hk ht => ?_⟩,
    hop.journals, hop.users, hop.cwd, hop.inside, hsb.trans hop.sb, ?_, fun jp hjp => ?_⟩
  · have h0 := hu.refs.nonneg k
    rw [href]
    split_ifs with hk
    · rw [hk]
      omega
    · omega
  · rw [hu.refs.ref k, href, refsTo_cons]
    by_cases hk : k = ip
    · rw [if_pos hk, if_pos hk.symm]
      push_cast
      omega
    · rw [if_neg hk, if_neg (Ne.symm hk)]
      push_cast
      omega
  · rw [(hsame k).1]
    exact hu.refs.inum k (hle k hk)
  · rw [(hsame k).2] at hv
    exact hu.refs.valid k (hle k hk) hv
  · rcases Multiset.mem_cons.1 ht with rfl | ht
    · exact ⟨hu.refs.inum ip hr, fun hv => by cases hv⟩
    · exact hu.refs.held t ht
  · rw [(hsame k).2] at hv
    rw [(hsame k).1, hd]
    exact hu.typed₀ k (hle k hk) hv
  · rw [hsb]
    exact hu.sb
  · rw [(hsame k).1, hd] at ht ⊢
    exact hu.kinds k (hle k hk) ht
  · rw [hsb]
    exact hop.root
  · have hwj := hop.writers jp hjp
    refine ⟨?_, ?_, ?_⟩
    · have hlt := hw jp hjp
      rw [href]
      omega
    · rw [(hsame jp).1, hd]
      exact hwj.type
    · rw [(hsame jp).1, hd]
      exact hwj.notDir

end

/-! ## The scope of an operation -/

section
variable {α : Type} {sb : Superblock} {disk : Nat → Block} {past : List Log.Point} {o s : Sys}

/-- The operation that began in the state `o` is over but for its commit. -/
def Done (o s : Sys) : Prop :=
  ∃ base o', o'.fs = o.fs ∧ Op base 0 ∅ o' s

theorem Op.done {base : Fs} (hop : Op base 0 ∅ o s) : Done o s := ⟨base, o, rfl, hop⟩

/-- In the meantime the open files or the current directories have changed. -/
theorem Op.doneSince {base : Fs} {o' : Sys} (hop : Op base 0 ∅ o' s) (hfs : o'.fs = o.fs) : Done o s :=
  ⟨base, o', hfs, hop⟩

/-- What the end of the only operation does, if its commit does what `hexec` says. -/
theorem wp_finishOp {f : Fs} {l : Log} {dev : BufM.Device} (hout : f.log.outstanding = 1)
    (hcommitting : f.log.committing = false)
    (hexec : ({ f.log with outstanding := 0, committing := true } : Log).commit.exec f.dev = .ok (l, dev)) :
    wp (ideal Sysfile.finishOp) (fun _ => False)
      (fun _ f' => f' = ⟨{ f.mem with log := l.endCommit }, dev⟩) f := by
  have hend : f.mem.log.endOp = .ok ({ f.log with outstanding := 0, committing := true }, true) := by
    have hout' : f.mem.log.outstanding = 1 := hout
    have hcommitting' : f.mem.log.committing = false := hcommitting
    rw [Log.endOp]
    simp only [hout', hcommitting', Int.sub_self, if_true, Bool.false_eq_true, if_false]
    rfl
  rw [Sysfile.finishOp, wp_ideal_bind, wp_ideal_get, hend]
  have hbuf : ((FileSystem.buf (Log.commit { f.log with outstanding := 0, committing := true })) f.mem).exec
      f.dev = .ok ((l, f.mem), dev) := BufM.exec_bind_ok hexec
  simp only [wp_ideal_bind]
  simp only [wp, ideal, StateT.run, hbuf]
  rfl

/-- The blocks from the inodes on are not in the log area. -/
theorem LogOk.not_inArea {sb : Superblock} {l : Log} {b : Nat} (hl : LogOk sb l) (hsb : sb.Layout)
    (hb : sb.inodestart ≤ b) : ¬ l.InArea b := fun hin => by
  have hlt := hin.2
  simp only [hl.start, hl.size] at hlt
  exact absurd (hsb.log_le.trans hb) (Nat.not_le.2 hlt)

/-- An operation has begun in a state between two operations. -/
structure Begun (disk : Nat → Block) (past : List Log.Point) (s o : Sys) : Prop where
  op : Op o.fs 0 ∅ o o
  users : o.mem.users = s.mem.users
  cwd : o.mem.cwd = s.mem.cwd
  inode : o.fs.inode = s.fs.inode
  sb : o.fs.sb = s.fs.sb
  recoverable : Log.Recoverable disk past o.fs.log o.dev
  committing : o.fs.log.committing = false

theorem Settled.beginOp (hs : Settled sb disk past s) :
    Goes Sysfile.beginOp (fun _ o => Begun disk past s o) s := by
  refine .get ?_
  split
  · exact .stop (by decide)
  · next l hl =>
    obtain ⟨-, -, rfl⟩ := Log.beginOp_eq_some.1 hl
    refine .bind (.set (.record ?_))
    have hl : LogOk s.fs.sb { s.fs.log with outstanding := s.fs.log.outstanding + 1 } :=
      ⟨hs.sane.consistent.log.committable.congr rfl rfl rfl, hs.sane.consistent.log.start,
        hs.sane.consistent.log.size⟩
    have hhome : SameHome s.fs (s.fs.setLog { s.fs.log with outstanding := s.fs.log.outstanding + 1 }) :=
      ⟨rfl, fun _ => rfl⟩
    refine ⟨⟨⟨⟨.refl hs.refs, hhome.sane hs.sane hl hs.sane.consistent.toIncore, fun k => ?_, id⟩, hs.typed,
      hhome.whole hs.sane hs.whole, rfl, fun _ _ _ => rfl⟩, .refl _, rfl, rfl, ?_, rfl, hs.superblock ▸ hs.root,
      fun ip hw => hhome.writable rfl (hs.writers ip hw)⟩,
      rfl, rfl, rfl, rfl, hs.recoverable.setLog rfl rfl rfl, hs.committing⟩
    · exact iff_of_false (Bool.eq_false_iff.1 (hs.unlocked k)) (Finset.notMem_empty k)
    · exact (congrArg (· + 1) hs.outstanding).trans (Int.zero_add 1)

/-- The end of an operation, with its commit. -/
theorem Begun.endOp {s₁ : Sys} (hs : Settled sb disk past s) (hb : Begun disk past s o) (hdone : Done o s₁) :
    Goes Sysfile.endOp (fun _ s' => (∃ p, Settled sb disk (past ++ [p]) s') ∧
      s'.mem.users = s₁.mem.users) s₁ := by
  obtain ⟨base, o', ho', hop⟩ := hdone
  have hu := hop.upkeep
  have hjournals : Journals o.fs s₁.fs := ho' ▸ hop.journals
  have hlog := hb.op.upkeep.sane.consistent.log
  have hlog₁ := hu.sane.consistent.log
  have hsb : s₁.fs.sb = o.fs.sb := by rw [hu.sb, hop.sb, ho']
  have hchanged : Log.Recoverable disk past s₁.fs.log s₁.dev := by
    refine hb.recoverable.change hlog₁.committable ?_ ?_ hjournals.issued hjournals.logged hjournals.kept
    · rw [hlog₁.start, hlog.start, hsb]
    · rw [hlog₁.size, hlog.size, hsb]
  have hrec : Log.Recoverable disk past { s₁.fs.log with outstanding := 0, committing := true } s₁.dev :=
    hchanged.setLog rfl rfl rfl
  obtain ⟨l, dev, hexec, hstart, hsize, hout, hn, hdata, hrec'⟩ := hrec.commit
  refine .bind (.record (.fs (wp_finishOp ?_ ?_ hexec) (fun _ => False.elim) ?_))
  · exact hjournals.outstanding.trans (ho' ▸ hop.inside)
  · exact hjournals.committing.trans hb.committing
  rintro _ f held rfl
  -- outside of the log area the commit has changed nothing
  have hhome : SameHome s₁.fs ⟨{ s₁.fs.mem with log := l.endCommit }, dev⟩ :=
    ⟨rfl, fun hb => hdata _ (hlog₁.not_inArea hu.sane.consistent.layout hb)⟩
  have hlog₂ : LogOk s₁.fs.sb l.endCommit :=
    ⟨hrec'.committable.congr rfl rfl rfl, hstart.trans hlog₁.start, hsize.trans hlog₁.size⟩
  have hw : ∀ ip, s₁.mem.users.writes ip → s₁.fs.Writable ip := fun ip hip =>
    hop.writable (hop.writers ip (hop.users ▸ hip))
  refine ⟨⟨_, ⟨(hsb.trans hb.sb).trans hs.superblock, hhome.sane hu.sane hlog₂ hu.sane.consistent.toIncore,
    hhome.typed rfl hu.isTyped, hhome.whole hu.sane hu.whole, hs.root, fun k => ?_, fun k => hu.locked_eq_false (Finset.notMem_empty k),
    fun ip hip => hhome.writable rfl (hw ip hip), hout, rfl, hn, hrec'.setLog rfl rfl rfl, fun p hp => ?_⟩⟩, rfl⟩
  · have href := hu.refs.ref k
    have h0 := hu.refs.nonneg k
    show 0 ≤ (s₁.fs.inode k).ref
    omega
  · rcases List.mem_append.1 hp with hp | hp
    · exact hs.points p hp
    · rw [List.mem_singleton.1 hp, ← (hsb.trans hb.sb).trans hs.superblock]
      exact hu.sane.inOrder hu.whole fun _ _ => rfl

/-- **The scope of an operation.**  What the body has done is committed, and a crash leads back to the
state before the operation or to the one after it.  What holds of the open files at the end of the body
still holds then. -/
theorem Settled.logOp {body : SysM α} {P : FileUsers → Prop} (hs : Settled sb disk past s)
    (hbody : ∀ o, o.mem.users = s.mem.users → o.mem.cwd = s.mem.cwd → o.fs.inode = s.fs.inode →
      Op o.fs 0 ∅ o o → Goes body (fun _ s' => Done o s' ∧ P s'.mem.users) o) :
    Goes (Sysfile.logOp body) (fun _ s' => (∃ p, Settled sb disk (past ++ [p]) s') ∧ P s'.mem.users) s := by
  refine .seq hs.beginOp fun _ o hb => .seq (hbody o hb.users hb.cwd hb.inode hb.op) ?_
  rintro a s₁ ⟨hdone, hP⟩
  refine .seq (hb.endOp hs hdone) ?_
  rintro _ s' ⟨hs', husers⟩
  exact .pure ⟨hs', husers ▸ hP⟩

end

end Xv6pp
