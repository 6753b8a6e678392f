import Xv6pp.Fs.Transactions

/-!
# Every system call keeps the file system in order

Each system call on files, run alone from a state in order, either stops in a panic that is not one of
`disorder`, or returns in a state in order.
-/

set_option autoImplicit false

namespace Xv6pp

open Prog FileSystem

/-- The system calls lead from one state in order to the next; the operations in between are points that a
crash may lead back to. -/
def Advances (sb : Superblock) (disk : Nat → Block) (past : List Log.Point) (s' : Sys) : Prop :=
  ∃ new, Settled sb disk (past ++ new) s'

/-- There is at most one such operation. -/
def Transacts (sb : Superblock) (disk : Nat → Block) (past : List Log.Point) (s' : Sys) : Prop :=
  ∃ new, new.length ≤ 1 ∧ Settled sb disk (past ++ new) s'

/-- **A state in order**, between two system calls. -/
structure Orderly (sb : Superblock) (disk : Nat → Block) (past : List Log.Point) (s : Sys) : Prop
    extends Settled sb disk past s where
  balanced : Balanced s.mem.books
  idle : inOp s.mem.trace = some false
  held : s.held = []

/-- A path name, as it is fetched from the user: there is no zero byte in it. -/
def IsPath (path : Option (List UInt8)) : Prop := ∀ l, path = some l → ∀ c ∈ l, c ≠ 0

section
variable {α : Type} {sb : Superblock} {disk : Nat → Block} {past : List Log.Point} {o s s' : Sys} {p : Fin NPROC} {base : Fs}
  {ip : InodeId}

theorem Transacts.advances (h : Transacts sb disk past s) : Advances sb disk past s := by
  obtain ⟨new, -, hs⟩ := h
  exact ⟨new, hs⟩

/-- Nothing is committed. -/
theorem Settled.transacts (hs : Settled sb disk past s) : Transacts sb disk past s :=
  ⟨[], Nat.zero_le 1, by rwa [List.append_nil]⟩

theorem Settled.advances (hs : Settled sb disk past s) : Advances sb disk past s := hs.transacts.advances

theorem Advances.trans {new : List Log.Point} (h : Advances sb disk (past ++ new) s) : Advances sb disk past s := by
  obtain ⟨new', hs⟩ := h
  exact ⟨new ++ new', by rwa [← List.append_assoc]⟩

/-- An operation, and what holds of the open files at its end. -/
theorem Settled.operation {body : SysM α} {P : FileUsers → Prop} (hs : Settled sb disk past s)
    (hbody : ∀ o, o.mem.users = s.mem.users → o.mem.cwd = s.mem.cwd → o.fs.inode = s.fs.inode →
      Op o.fs 0 ∅ o o → Goes body (fun _ s' => Done o s' ∧ P s'.mem.users) o) :
    Goes (Sysfile.logOp body) (fun _ s' => Transacts sb disk past s' ∧ P s'.mem.users) s := by
  refine (hs.logOp hbody).imp ?_
  rintro _ s' ⟨⟨p, hs'⟩, hP⟩
  exact ⟨⟨[p], Nat.le_refl 1, hs'⟩, hP⟩

/-- A call that is one operation. -/
theorem Settled.transaction {body : SysM α} (hs : Settled sb disk past s)
    (hbody : ∀ o, o.mem.users = s.mem.users → o.mem.cwd = s.mem.cwd → o.fs.inode = s.fs.inode →
      Op o.fs 0 ∅ o o → Goes body (fun _ s' => Done o s') o) :
    Goes (Sysfile.logOp body) (fun _ s' => Transacts sb disk past s') s :=
  (hs.operation (P := fun _ => True) fun o husers hcwd hinode hop =>
    (hbody o husers hcwd hinode hop).imp fun _ _ h => ⟨h, trivial⟩).imp fun _ _ h => h.1

/-- A current directory is in core. -/
theorem Balanced.cwd_pos {v : Books} (h : Balanced v) (hcwd : v.cwd p = some ip) : 0 < v.view.ref ip := by
  have hmem : 0 < cwds v.cwd ip :=
    Finset.card_pos.2 ⟨p, Finset.mem_filter.2 ⟨Finset.mem_univ p, hcwd⟩⟩
  have href := h.ref ip
  omega

theorem Orderly.cwd_pos (hs : Orderly sb disk past s) (hcwd : o.mem.cwd = s.mem.cwd)
    (hinode : o.fs.inode = s.fs.inode) (hip : o.mem.cwd p = some ip) : 0 < (o.fs.inode ip).ref := by
  rw [hinode]
  exact hs.balanced.cwd_pos (hcwd ▸ hip)

/-! ## Links -/

theorem Orderly.sysLink {old new : Option (List UInt8)} (hs : Orderly sb disk past s) (hold : IsPath old)
    (hnew : IsPath new) :
    Goes (Sysfile.sysLink p old new) (fun _ s' => Transacts sb disk past s') s := by
  rcases old with _ | old
  · exact .pure hs.transacts
  rcases new with _ | new
  · exact .pure hs.transacts
  refine hs.transaction fun o husers hcwd hinode hop => .bind (.cwd fun cur hcur => ?_)
  have hpos := hs.cwd_pos hcwd hinode hcur
  refine .bind (hop.namei hpos (hold _ rfl) (fun s₁ hop₁ => ?_) fun s₁ ip x v hop₁ => ?_)
  · exact .withRef (.pure (.endNoRef hop₁.done))
  refine .withRef (hop₁.withLock fun s₂ hl hop₂ _ => .bind (.inode (.ite (fun _ => .pure ?_) fun _ => ?_)))
  · exact hop₂.endLock (Multiset.mem_cons_self _ _) hl fun s₃ hop₃ _ => hop₃.endRef fun s₄ hop₄ _ => hop₄.done
  refine hop₂.addLinks (Multiset.mem_cons_self _ _) fun s₃ hop₃ _ => ?_
  refine .bind (hop₃.unlock (Multiset.mem_cons_self _ _) hl fun s₄ hop₄ _ => ?_)
  -- if the entry cannot be made, the link is taken back
  have hback : ∀ {s₅ : Sys} {h : Multiset Token} {g : Sysfile.RefGuard}
      {Q : ((Int × Sysfile.RefGuard) × Sysfile.LockGuard) × Sysfile.RefGuard → Sys → Prop},
      Op o.fs (⟨ip, x, true⟩ ::ₘ h) ∅ o s₅ →
      (∀ s₆, Op o.fs (⟨ip, x, true⟩ ::ₘ h) (insert ip ∅) o s₆ → Q (((-1, ⟨some ip⟩), ⟨some ip, true⟩), g) s₆) →
      Goes (do
        let ipLock ← Sysfile.LockGuard.reset ⟨some ip, false⟩ (some ip)
        Sysfile.fs (Sysfile.addLinks ip (-1))
        Sysfile.fs (FileSystem.iupdate ip)
        pure (((-1, ⟨some ip⟩), ipLock), g)) Q s₅ := by
    intro s₅ h g Q hop₅ hQ
    refine .bind (.bind (.pure (hop₅.make fun s₆ _ hop₆ _ => ?_)))
    exact hop₆.addLinks (Multiset.mem_cons_self _ _) fun s₇ hop₇ _ => .pure (hQ s₇ hop₇)
  refine .bind (hop₄.nameiparent hpos (hnew _ rfl) (fun s₅ hop₅ => .withRef ?_) fun s₅ dp y w name hop₅ hname =>
    .withRef ?_)
  · refine .bind (.pure (hback hop₅ fun s₆ hop₆ => .endNoRef ?_))
    exact hop₆.endLock (Multiset.mem_cons_self _ _) hl fun s₇ hop₇ _ => hop₇.endRef fun s₈ hop₈ _ => hop₈.done
  · refine .bind (hop₅.withLock fun s₆ hl' hop₆ _ => .bind (.inode (.bind (hop₆.dirlink
      (Multiset.mem_cons_self _ _) hname ?_ fun r s₇ hop₇ _ => .pure (hop₇.endLock
        (Multiset.mem_cons_self _ _) hl' fun s₈ hop₈ _ => .ite (fun _ => .pure ?_) fun _ => ?_)))))
    · exact hop₆.upkeep.sane.consistent.inum (hop₆.upkeep.refs.ref_pos (t := ⟨ip, x, true⟩) (by simp))
    · exact hop₈.endRef fun s₉ hop₉ _ => .endNoLock (hop₉.endRef fun s₁₀ hop₁₀ _ => hop₁₀.done)
    · rw [Multiset.cons_swap] at hop₈
      refine hback hop₈ fun s₉ hop₉ => ?_
      rw [Multiset.cons_swap] at hop₉
      refine hop₉.endRef fun s₁₀ hop₁₀ _ => hop₁₀.endLock (Multiset.mem_cons_self _ _) hl fun s₁₁ hop₁₁ _ => ?_
      exact hop₁₁.endRef fun s₁₂ hop₁₂ _ => hop₁₂.done

theorem Orderly.sysUnlink {path : Option (List UInt8)} (hs : Orderly sb disk past s) (hpath : IsPath path) :
    Goes (Sysfile.sysUnlink p path) (fun _ s' => Transacts sb disk past s') s := by
  rcases path with _ | path
  · exact .pure hs.transacts
  refine hs.transaction fun o husers hcwd hinode hop => .bind (.cwd fun cur hcur => ?_)
  refine .bind (hop.nameiparent (hs.cwd_pos hcwd hinode hcur) (hpath _ rfl) (fun s₁ hop₁ => .withRef ?_)
    fun s₁ dp x v name hop₁ hname => .withRef ?_)
  · exact .pure (.endNoRef hop₁.done)
  refine hop₁.withLock fun s₂ hdp hop₂ _ => .ite (fun _ => .pure ?_) fun _ => ?_
  · exact hop₂.endLock (Multiset.mem_cons_self _ _) hdp fun s₃ hop₃ _ => hop₃.endRef fun s₄ hop₄ _ => hop₄.done
  refine .bind (hop₂.dirlookup (Multiset.mem_cons_self _ _) hname (fun s₃ hop₃ => .withRef (.pure ?_))
    fun s₃ ip y k hop₃ hdir hentry => .withRef ?_)
  · exact .endNoRef (hop₃.endLock (Multiset.mem_cons_self _ _) hdp fun s₄ hop₄ _ =>
      hop₄.endRef fun s₅ hop₅ _ => hop₅.done)
  refine hop₃.withLock fun s₄ hip hop₄ hd => .bind (.inode (.ite (fun _ => .stop (by decide)) fun _ => ?_))
  have hparent : (⟨dp, x, true⟩ : Token) ∈ (⟨ip, y, true⟩ ::ₘ ⟨dp, x, true⟩ ::ₘ 0 : Multiset Token) :=
    Multiset.mem_cons_of_mem (Multiset.mem_cons_self _ _)
  -- the call ends without having done anything
  have hfail : ∀ {s₅ : Sys}, Op o.fs (⟨ip, y, true⟩ ::ₘ ⟨dp, x, true⟩ ::ₘ 0) (insert ip (insert dp ∅)) o s₅ →
      Goes (Sysfile.LockGuard.destroy ⟨some ip, true⟩) (fun _ s' => Goes (Sysfile.RefGuard.destroy ⟨some ip⟩)
        (fun _ s' => Goes (Sysfile.LockGuard.destroy ⟨some dp, true⟩) (fun _ s' =>
          Goes (Sysfile.RefGuard.destroy ⟨some dp⟩) (fun _ s' => Done o s') s') s') s') s₅ := fun hop₅ =>
    hop₅.endLock (Multiset.mem_cons_self _ _) hip fun s₆ hop₆ _ => hop₆.endRef fun s₇ hop₇ _ =>
      hop₇.endLock (Multiset.mem_cons_self _ _) hdp fun s₈ hop₈ _ => hop₈.endRef fun s₉ hop₉ _ => hop₉.done
  refine .branch (P := fun s₅ => s₅.fs = s₄.fs ∧ Op o.fs (⟨ip, y, true⟩ ::ₘ ⟨dp, x, true⟩ ::ₘ 0)
    (insert ip (insert dp ∅)) o s₅) (fun htype => ?_) (fun _ => .pure ⟨rfl, hop₄⟩) ?_
  · obtain ⟨-, -, -, hcopy⟩ := hop₄.core (Multiset.mem_cons_self _ _)
    rw [hcopy] at htype
    exact hop₄.isdirempty (Multiset.mem_cons_self _ _) htype fun r s₅ hs₅ hop₅ => ⟨hs₅, hop₅⟩
  rintro full s₅ ⟨hs₅, hop₅⟩
  refine .ite (fun _ => .pure (hfail hop₅)) fun _ => ?_
  -- the entry is cleared
  have hdir₅ : (s₅.fs.dinode x).type = T_DIR := by
    rw [hs₅, hd.dinode]
    exact hdir
  have hentry₅ : (s₅.fs.table x)[k]? = some (some (name, y)) := by
    rw [hs₅, hd.table]
    exact hentry
  refine .bind (hop₅.clear hparent hdir₅ hentry₅ fun s₆ hop₆ => .ite (fun hne => absurd rfl hne) fun _ => ?_)
  refine hop₆.addLinksWhen hparent fun s₇ hop₇ _ => ?_
  have hne : dp ∉ (insert ip ∅ : Finset InodeId) := fun hmem => by
    rw [insert_empty_eq, Finset.mem_singleton] at hmem
    exact hip (hmem ▸ Finset.mem_insert_self _ _)
  rw [Finset.insert_comm] at hop₇
  refine .bind (hop₇.unlock hparent hne fun s₈ hop₈ _ => ?_)
  rw [Multiset.cons_swap] at hop₈
  refine .bind (hop₈.reset fun s₉ hop₉ _ => hop₉.addLinks (Multiset.mem_cons_self _ _) fun s₁₀ hop₁₀ _ => .pure ?_)
  exact hop₁₀.endLock (Multiset.mem_cons_self _ _) (Finset.notMem_empty _) fun s₁₁ hop₁₁ _ =>
    hop₁₁.endRef fun s₁₂ hop₁₂ _ => .endNoLock (.endNoRef hop₁₂.done)

/-! ## Creating and opening -/

/-- **`create`**: the inode is new, or a file or device was asked for and there is one. -/
theorem Op.create {h : Multiset Token} {path : List UInt8} {type major minor : Int}
    {Q : Option InodeId → Sys → Prop} (hop : Op base h ∅ o s)
    (hcur : ∀ cur, s.mem.cwd p = some cur → 0 < (base.inode cur).ref) (hpath : ∀ c ∈ path, c ≠ 0)
    (htype : Dinode.IsShort type) (hmajor : Dinode.IsShort major) (hminor : Dinode.IsShort minor)
    (hnone : ∀ s', Op base h ∅ o s' → Q none s')
    (hsome : ∀ s' ip x, Op base (⟨ip, x, true⟩ ::ₘ h) (insert ip ∅) o s' →
      (s'.fs.dinode x).type = type ∨ type = T_FILE ∧ (s'.fs.dinode x).type = T_DEVICE → Q (some ip) s') :
    Goes (Sysfile.create p path type major minor) Q s := by
  refine .bind (.cwd fun cur hcwd => .bind (hop.nameiparent (hcur cur hcwd) hpath (fun s₁ hop₁ => .withRef ?_)
    fun s₁ dp d v name hop₁ hname => .withRef ?_))
  · exact .pure (.endNoRef (hnone s₁ hop₁))
  refine hop₁.withLock fun s₂ hdp hop₂ _ => .bind (hop₂.dirlookup (Multiset.mem_cons_self _ _) hname
    (fun s₃ hop₃ => .withRef ?_) fun s₃ ip x k hop₃ _ _ => .withRef ?_)
  · refine .bind (hop₃.ialloc htype (fun s₄ hop₄ => .bind (.pure (.pure ?_))) fun s₄ ip x hop₄ hx =>
      .bind (.pure ?_))
    · exact .endNoRef (hop₄.endLock (Multiset.mem_cons_self _ _) hdp fun s₅ hop₅ _ =>
        hop₅.endRef fun s₆ hop₆ _ => hnone s₆ hop₆)
    -- a new inode
    have hip : (⟨ip, x, true⟩ : Token) ∈ (⟨ip, x, true⟩ ::ₘ ⟨dp, d, true⟩ ::ₘ h : Multiset Token) :=
      Multiset.mem_cons_self _ _
    have hparent : (⟨dp, d, true⟩ : Token) ∈ (⟨ip, x, true⟩ ::ₘ ⟨dp, d, true⟩ ::ₘ h : Multiset Token) :=
      Multiset.mem_cons_of_mem (Multiset.mem_cons_self _ _)
    refine hop₄.withLock fun s₅ hnew hop₅ hd₅ => ?_
    have hisInum : base.sb.IsInum x := hop₅.upkeep.sb ▸ (hop₅.core hip).2.2.1
    refine hop₅.updateFields (f := fun c => { c with major := major, minor := minor, nlink := 1 }) hip
      (fun c hc => ⟨⟨hc.type, hmajor, hminor, isShort_one, hc.size, hc.addrs⟩, rfl, rfl, rfl⟩) fun s₆ hop₆ ht₆ => ?_
    refine .bind (hop₆.createEntries hparent hip hname fun r s₇ hop₇ ht₇ => .ite (fun _ => ?_) fun _ => ?_)
    · refine hop₇.addLinksWhen hparent fun s₈ hop₈ ht₈ => ?_
      have hne : dp ∉ (insert ip ∅ : Finset InodeId) := fun hmem => by
        rw [insert_empty_eq, Finset.mem_singleton] at hmem
        exact hnew (hmem ▸ Finset.mem_insert_self _ _)
      have hxd : x ≠ d := hop₈.inum_ne hip hparent fun heq => hnew (heq ▸ Finset.mem_insert_self _ _)
      rw [Finset.insert_comm] at hop₈
      refine .bind (hop₈.unlock hparent hne fun s₉ hop₉ hd₉ => ?_)
      rw [Multiset.cons_swap] at hop₉
      refine .bind (hop₉.reset fun s₁₀ hop₁₀ hother => .pure ?_)
      refine .endNoLock (.endNoRef (.endNoLock (.endNoRef (hsome s₁₀ ip x hop₁₀ (.inl ?_)))))
      calc (s₁₀.fs.dinode x).type = (s₈.fs.dinode x).type := by
            rw [hother x (hop₉.isInum hisInum) hxd, hd₉.dinode]
        _ = (s₆.fs.dinode x).type := (ht₈ x (hop₇.isInum hisInum)).trans (ht₇ x (hop₆.isInum hisInum))
        _ = type := by rw [ht₆ x (hop₅.isInum hisInum), hd₅.dinode, hx]
    · refine hop₇.updateFields (f := fun c => { c with nlink := 0 }) hip
        (fun c hc => ⟨⟨hc.type, hc.major, hc.minor, isShort_zero, hc.size, hc.addrs⟩, rfl, rfl, rfl⟩) fun s₈ hop₈ _ => ?_
      refine .pure (hop₈.endLock hip hnew fun s₉ hop₉ _ => hop₉.endRef fun s₁₀ hop₁₀ _ => ?_)
      exact hop₁₀.endLock (Multiset.mem_cons_self _ _) hdp fun s₁₁ hop₁₁ _ =>
        hop₁₁.endRef fun s₁₂ hop₁₂ _ => hnone s₁₂ hop₁₂
  · refine .bind (hop₃.unlock (Multiset.mem_cons_of_mem (Multiset.mem_cons_self _ _)) hdp fun s₄ hop₄ _ => ?_)
    rw [Multiset.cons_swap] at hop₄
    refine .bind (hop₄.reset fun s₅ hop₅ _ => hop₅.withLock fun s₆ hip hop₆ _ => .bind (.inode ?_))
    obtain ⟨-, -, -, hcopy⟩ := hop₆.core (Multiset.mem_cons_self _ _)
    rw [hcopy]
    refine .ite (fun ht => .pure ?_) fun _ => .pure ?_
    · refine .endNoLock (.endNoRef (.endNoLock (.endNoRef (hsome s₆ ip x hop₆ ?_))))
      exact ht.2.imp (fun hfile => hfile.trans ht.1.symm) fun hdevice => ⟨ht.1, hdevice⟩
    · exact hop₆.endLock (Multiset.mem_cons_self _ _) hip fun s₇ hop₇ _ => hop₇.endRef fun s₈ hop₈ _ =>
        .endNoLock (.endNoRef (hnone s₈ hop₈))

theorem Orderly.makeNode {path : Option (List UInt8)} {type major minor : Int} (hs : Orderly sb disk past s)
    (hpath : IsPath path) (htype : Dinode.IsShort type) (hmajor : Dinode.IsShort major)
    (hminor : Dinode.IsShort minor) :
    Goes (Sysfile.makeNode p path type major minor) (fun _ s' => Transacts sb disk past s') s := by
  refine hs.transaction fun o husers hcwd hinode hop => ?_
  rcases path with _ | path
  · exact .pure hop.done
  refine .bind (hop.create (fun cur hcur => hs.cwd_pos hcwd hinode hcur) (hpath _ rfl) htype hmajor hminor
    (fun s₁ hop₁ => .withRef (.pure (.endNoRef hop₁.done))) fun s₁ ip x hop₁ _ => .withRef ?_)
  refine .withNoLock (.bind (.bind (.pure (.pure (.pure ?_)))))
  exact hop₁.endLock (Multiset.mem_cons_self _ _) (Finset.notMem_empty _) fun s₂ hop₂ _ =>
    hop₂.endRef fun s₃ hop₃ _ => hop₃.done

/-- **The second part of `sys_open`**: the new file has the reference of the guard. -/
theorem Op.openInode {x omode : Nat} (hop : Op base (⟨ip, x, true⟩ ::ₘ 0) (insert ip ∅) o s)
    (haccounted : o.mem.users.Accounted) (hp : (o.mem.users.procs p).state = .runnable)
    (hdir : omode &&& O_CREATE ≠ 0 → (s.fs.dinode x).type ≠ T_DIR) :
    Goes (Sysfile.openInode p omode ip ⟨some ip⟩ ⟨some ip, true⟩) (fun r s' => Goes r.2.destroy
      (fun _ s' => Goes r.1.2.destroy (fun _ s' => Done o s') s') s') s := by
  obtain ⟨hcore, htype, -, hcopy⟩ := hop.core (Multiset.mem_cons_self _ _)
  refine .bind (.inode (.bind (.files (fun e he => ?_) fun fd u hu => ?_)))
  · rw [hop.users] at he
    obtain ⟨n, u, hu, -⟩ : FileUsers.Returns (o.mem.users.sysOpen p omode
      (some ⟨ip, (s.fs.inode ip).copy.type, (s.fs.inode ip).copy.major⟩)) := haccounted.sysOpen hp
    rw [hu] at he
    cases he
  rw [hop.users] at hu
  rcases FileUsers.Alters.sysOpen haccounted hp hu with ⟨hfd, rfl⟩ | ⟨hfd, halters⟩
  · refine .ite (fun _ => .pure ?_) fun hfd' => absurd hfd hfd'
    have hsame : s.withUsers o.mem.users = s := by rw [← hop.users]; rfl
    rw [hsame]
    exact hop.endLock (Multiset.mem_cons_self _ _) (Finset.notMem_empty _) fun s₁ hop₁ _ =>
      hop₁.endRef fun s₂ hop₂ _ => hop₂.done
  · refine .ite (fun hfd' => absurd hfd' (Int.not_lt.2 hfd)) fun _ => ?_
    -- from now on the reference is that of the open file
    have hwriters : ∀ jp, u.writes jp → s.fs.Writable jp := fun jp hjp => by
      rcases FileUsers.writes_sysOpen haccounted hu hjp with hold | ⟨rfl, hmode⟩
      · exact hop.writable (hop.writers jp hold)
      · refine ⟨hcore.ref, ?_, ?_⟩
        · rw [hcore.inum]
          exact htype
        · rw [hcore.inum]
          by_cases hcreate : omode &&& O_CREATE = 0
          · exact hcopy ▸ hmode hcreate
          · exact hdir hcreate
    have hop₁ : Op s.fs 0 (insert ip ∅) _ (s.withUsers u) := hop.rebase (c := s.mem.cwd) hwriters
    have hdone : ∀ {s₁ : Sys} {base' : Fs} {o' : Sys}, Op base' 0 (insert ip ∅) o' s₁ → o'.fs = o.fs →
        0 < (base'.inode ip).ref →
        Goes (do
          let ipLock ← Sysfile.LockGuard.unlock ⟨some ip, true⟩
          pure ((fd, Sysfile.RefGuard.release ⟨some ip⟩), ipLock)) (fun r s' => Goes r.2.destroy
            (fun _ s' => Goes r.1.2.destroy (fun _ s' => Done o s') s') s') s₁ := by
      intro s₁ base' o' hop' hfs hr
      refine .bind (hop'.unlockOpen (hop'.still hr) (Finset.notMem_empty _) fun s₂ hop₂ _ => .pure ?_)
      exact .endNoLock (.endNoRef (hop₂.doneSince hfs))
    exact .ite (fun _ => .bind (hop₁.itrunc hcore fun s₂ hop₂ => hdone hop₂ rfl hcore.ref)) fun _ =>
      hdone hop₁ rfl hcore.ref

theorem Orderly.sysOpen {path : Option (List UInt8)} {omode : Nat} (hs : Orderly sb disk past s)
    (hpath : IsPath path) (hp : (s.mem.users.procs p).state = .runnable) :
    Goes (Sysfile.sysOpen p path omode) (fun _ s' => Transacts sb disk past s') s := by
  rcases path with _ | path
  · exact .pure hs.transacts
  refine hs.transaction fun o husers hcwd hinode hop => .withRef (.withNoLock ?_)
  have haccounted : o.mem.users.Accounted := husers ▸ hs.balanced.accounted
  have hp' : (o.mem.users.procs p).state = .runnable := husers ▸ hp
  refine .ite (fun hcreate => ?_) fun hcreate => ?_
  · refine .bind (hop.create (fun cur hcur => hs.cwd_pos hcwd hinode hcur) (hpath _ rfl) (by decide)
      isShort_zero isShort_zero (fun s₁ hop₁ => .bind (.pure (.pure ?_))) fun s₁ ip x hop₁ ht => ?_)
    · exact .endNoLock (.endNoRef hop₁.done)
    · refine .bind (.pure (.bind (.bind (.pure (.pure (hop₁.openInode haccounted hp' fun _ => ?_))))))
      rcases ht with ht | ⟨-, ht⟩ <;> rw [ht] <;> decide
  · refine .bind (.cwd fun cur hcur => .bind (hop.namei (hs.cwd_pos hcwd hinode hcur) (hpath _ rfl)
      (fun s₁ hop₁ => .bind (.pure (.pure ?_))) fun s₁ ip x v hop₁ => ?_))
    · exact .endNoLock (.endNoRef hop₁.done)
    · refine .bind (.pure (.bind (.bind (.pure (hop₁.make fun s₂ _ hop₂ _ => ?_)))))
      exact hop₂.openInode haccounted hp' fun hne => absurd hne hcreate

/-! ## The current directory -/

/-- There are two references to a current directory that is open for writing. -/
theorem Balanced.one_lt_ref {v : Books} {jp : InodeId} (h : Balanced v) (hcwd : v.cwd p = some ip)
    (hjp : v.users.writes jp) : (if jp = ip then 1 else 0 : Int) < v.view.ref jp := by
  have hopeners := hjp.openers_pos
  have href := h.ref jp
  split
  · next heq =>
    subst heq
    have hcwds : 0 < cwds v.cwd jp :=
      Finset.card_pos.2 ⟨p, Finset.mem_filter.2 ⟨Finset.mem_univ p, hcwd⟩⟩
    omega
  · omega

theorem Orderly.sysChdir {path : Option (List UInt8)} (hs : Orderly sb disk past s) (hpath : IsPath path) :
    Goes (Sysfile.sysChdir p path) (fun _ s' => Transacts sb disk past s') s := by
  refine hs.transaction fun o husers hcwd hinode hop => ?_
  rcases path with _ | path
  · exact .pure hop.done
  refine .bind (.cwd fun cur hcur => .bind (hop.namei (hs.cwd_pos hcwd hinode hcur) (hpath _ rfl)
    (fun s₁ hop₁ => .withRef (.pure (.endNoRef hop₁.done))) fun s₁ ip x v hop₁ => .withRef ?_))
  refine hop₁.withLock fun s₂ hl hop₂ _ => .bind (.inode (.ite (fun _ => .pure ?_) fun _ => ?_))
  · exact hop₂.endLock (Multiset.mem_cons_self _ _) hl fun s₃ hop₃ _ => hop₃.endRef fun s₄ hop₄ _ => hop₄.done
  refine .bind (hop₂.unlock (Multiset.mem_cons_self _ _) hl fun s₃ hop₃ _ => .get (.withRef (.bind (.setCwd ?_))))
  have hold : s₃.mem.cwd p = some cur := by rw [hop₃.cwd, hcur]
  -- the new directory has the reference of the guard, and the old one gives up its own
  have hop₄ := hop₃.rebase (c := Function.update s₃.mem.cwd p (some ip)) (u := s₃.mem.users) fun jp hjp =>
    hop₃.writable (hop₃.writers jp (hop₃.users ▸ hjp))
  have hle : ∀ k, (s.fs.inode k).ref ≤ (s₃.fs.inode k).ref := fun k => by
    rw [hop₃.upkeep.refs.ref k, ← hinode]
    omega
  have hwriters : ∀ jp, s₃.mem.users.writes jp → s.mem.users.writes jp := fun jp hjp => by
    rw [← husers, ← hop₃.users]
    exact hjp
  have hpos : 0 < (s₃.fs.inode cur).ref := lt_of_lt_of_le (hs.balanced.cwd_pos (hcwd ▸ hcur)) (hle cur)
  obtain ⟨base, y, hop₅⟩ := hop₄.borrow hpos fun jp hjp =>
    lt_of_lt_of_le (hs.balanced.one_lt_ref (hcwd ▸ hcur) (hwriters jp hjp)) (hle jp)
  rw [hold]
  exact .pure (hop₅.endRef fun s₆ hop₆ _ => .endNoLock (.endNoRef (hop₆.doneSince rfl)))

/-! ## `exec` -/

/-- What `exec` reads of a file does not change anything. -/
theorem Fs.Sane.wp_readKernel {E : Panic → Prop} {f : Fs} {x off n : Nat} (hs : f.Sane) (hip : Core f ip x)
    (ht : (f.dinode x).type ≠ 0) : wp (ideal (readKernel ip off n)) E (fun _ f' => f' = f) f :=
  wp_imp (Xv6pp.wp_readi (hs.consistent.weaken _) hs.noHoles hip ht) fun _ _ h => h.1

theorem Fs.Sane.wp_loadsegFrom {E : Panic → Prop} {f : Fs} {x offset sz n i : Nat} (hs : f.Sane)
    (hip : Core f ip x) (ht : (f.dinode x).type ≠ 0) :
    wp (ideal (Sysfile.loadsegFrom ip offset sz n i)) E (fun _ f' => f' = f) f := by
  induction n generalizing i with
  | zero => exact rfl
  | succ n ih =>
    refine wp_ideal_seq (hs.wp_readKernel hip ht) ?_
    rintro r f' rfl
    dsimp only
    split
    · exact rfl
    · exact ih

theorem Fs.Sane.wp_loadFrom {E : Panic → Prop} {f : Fs} {x n i off : Nat} {mem : Sysfile.ExecMemory}
    (hs : f.Sane) (hip : Core f ip x) (ht : (f.dinode x).type ≠ 0) :
    wp (ideal (Sysfile.loadFrom ip mem n i off)) E (fun _ f' => f' = f) f := by
  induction n generalizing i off with
  | zero => exact rfl
  | succ n ih =>
    refine wp_ideal_seq (hs.wp_readKernel hip ht) ?_
    rintro r f' rfl
    dsimp only
    split_ifs
    all_goals first | exact rfl | exact ih | skip
    refine wp_ideal_seq (hs.wp_loadsegFrom hip ht) ?_
    rintro ok f' rfl
    split
    · exact ih
    · exact rfl

theorem Fs.Sane.wp_load {E : Panic → Prop} {f : Fs} {x : Nat} {mem : Sysfile.ExecMemory}
    (hs : f.Sane) (hip : Core f ip x) (ht : (f.dinode x).type ≠ 0) :
    wp (ideal (Sysfile.load ip mem)) E (fun _ f' => f' = f) f := by
  refine wp_ideal_seq (hs.wp_readKernel hip ht) ?_
  rintro r f' rfl
  dsimp only
  split_ifs
  all_goals first | exact rfl | exact hs.wp_loadFrom hip ht

theorem Orderly.exec {path : List UInt8} {mem : Sysfile.ExecMemory} {argc : Nat} (hs : Orderly sb disk past s)
    (hpath : ∀ c ∈ path, c ≠ 0) :
    Goes (Sysfile.exec p path mem argc) (fun _ s' => Transacts sb disk past s') s := by
  refine .seq (hs.transaction fun o husers hcwd hinode hop => ?_) fun ok s' hs' =>
    .ite (fun _ => .pure hs') fun _ => .pure hs'
  refine .bind (.cwd fun cur hcur => .bind (hop.namei (hs.cwd_pos hcwd hinode hcur) hpath
    (fun s₁ hop₁ => .withRef (.pure (.endNoRef hop₁.done))) fun s₁ ip x v hop₁ => .withRef ?_))
  refine hop₁.withLock fun s₂ hl hop₂ _ => .bind ?_
  obtain ⟨hcore, htype, -⟩ := hop₂.core (Multiset.mem_cons_self _ _)
  refine hop₂.reads (R := fun _ => True) (journaled_load ip mem) (wp_imp (hop₂.upkeep.sane.wp_load hcore htype)
    fun _ _ h => ⟨h, trivial⟩) fun ok s₃ _ _ hop₃ => .pure ?_
  exact hop₃.endLock (Multiset.mem_cons_self _ _) hl fun s₄ hop₄ _ => hop₄.endRef fun s₅ hop₅ _ => hop₅.done

/-! ## Reading -/

theorem mayStop_disorder : MayStop fun e => e ∉ disorder := by
  refine ⟨?_, ?_, ?_, ?_⟩
  all_goals decide

theorem Settled.upkeep (hs : Settled sb disk past s) : Upkeep s.fs 0 ∅ s.fs := by
  refine ⟨⟨.refl hs.refs, hs.sane, fun k => ?_, id⟩, hs.typed, hs.whole, rfl, fun _ _ _ => rfl⟩
  exact iff_of_false (Bool.eq_false_iff.1 (hs.unlocked k)) (Finset.notMem_empty k)

/-- Nothing happens to the disk. -/
theorem Settled.sameDisk {h : Multiset Token} (hs : Settled sb disk past s) (hu : Upkeep s.fs h ∅ s'.fs)
    (hd : SameDisk s.fs s'.fs) (hw : s.mem.users.NoNewWriters s'.mem.users) : Settled sb disk past s' := by
  have hdev : s'.dev = s.dev := hd.dev
  have href : ∀ k, (s.fs.inode k).ref ≤ (s'.fs.inode k).ref := fun k => by
    rw [hu.refs.ref k]
    omega
  refine ⟨hd.sb.trans hs.superblock, hu.sane, hu.isTyped, hu.whole, hs.root, fun k => (hs.refs k).trans (href k), fun k =>
    hu.locked_eq_false (Finset.notMem_empty k), fun ip hip => ?_, ?_, ?_, ?_, ?_, hs.points⟩
  · obtain ⟨hpos, htype, hdir⟩ := hs.writers ip (hw ip hip)
    obtain ⟨hpos', hinum, -⟩ := hu.still hpos
    refine ⟨hpos', ?_, ?_⟩
    · rwa [hinum, hd.dinode]
    · rwa [hinum, hd.dinode]
  · rw [hd.log]
    exact hs.outstanding
  · rw [hd.log]
    exact hs.committing
  · rw [hd.log]
    exact hs.empty
  · rw [hd.log, hdev]
    exact hs.recoverable

/-- The open files change. -/
theorem Settled.setUsers {u : FileUsers} (hs : Settled sb disk past s) (hw : s.mem.users.NoNewWriters u) :
    Settled sb disk past (s.withUsers u) := hs.sameDisk hs.upkeep (.refl _) hw

/-- **A lock outside of an operation**, under which nothing but the open files changes. -/
theorem Settled.withLock {body : Sysfile.LockGuard → SysM (α × Sysfile.LockGuard)} (hs : Settled sb disk past s)
    (hr : 0 < (s.fs.inode ip).ref)
    (hbody : ∀ s₁, s₁.mem.users = s.mem.users → s₁.fs.Sane → Core s₁.fs ip (s.fs.inode ip).inum →
      (s₁.fs.dinode (s.fs.inode ip).inum).type ≠ 0 →
      Goes (body ⟨some ip, true⟩) (fun r s₂ => r.2 = ⟨some ip, true⟩ ∧ s₂.fs = s₁.fs ∧
        s.mem.users.NoNewWriters s₂.mem.users) s₁) :
    Goes (Sysfile.withLock (some ip) body) (fun _ s' => Transacts sb disk past s') s := by
  refine .bind (.bind (.fs (hs.upkeep.wp_lockOpen mayStop_disorder hr) (fun _ h => h) ?_))
  rintro _ f held ⟨⟨hu, hcore⟩, hd⟩
  have htype := hu.isTyped ip hcore.ref hcore.valid
  rw [hcore.inum] at htype
  refine .pure (.seq (hbody (s.withFs f held) rfl hu.sane hcore htype) ?_)
  rintro ⟨a, g⟩ s₂ ⟨rfl, hfs, hw⟩
  have hfs : s₂.fs = f := hfs
  have hu₂ : Upkeep s.fs 0 (insert ip ∅) s₂.fs := by rwa [hfs]
  refine .bind (.bind (.bind (.fs (hu₂.wp_unlockOpen (hu₂.still hr).1 (Finset.mem_insert_self _ _))
    (fun _ => False.elim) ?_)))
  rintro _ f' held' ⟨hu₃, hd'⟩
  rw [Finset.erase_insert (Finset.notMem_empty _)] at hu₃
  rw [hfs] at hd'
  have hs₃ : Settled sb disk past (s₂.withFs f' held') := hs.sameDisk hu₃ (hd.trans hd') hw
  exact .pure (.pure (.pure hs₃.transacts))

theorem Goes.file {f : FileId} {Q : File → Sys → Prop} (h : Q (s.mem.users.files.files f) s) :
    Goes (Sysfile.file f) Q s := .get (.pure h)

theorem FileUsers.read_error {u : FileUsers} {f : FileId} {r : Int} {n : Nat} {e : Panic}
    (h : u.read f r n = .error e) : e ∉ disorder := by
  rw [FileUsers.read] at h
  split at h
  · cases h
  · split at h
    · split at h <;> cases h
      decide
    · split at h <;> cases h
    · cases h
    · cases h
      decide

theorem FileUsers.write_error {u : FileUsers} {f : FileId} {r : Int} {bytes : List UInt8} {e : Panic}
    (h : u.write f r bytes = .error e) : e ∉ disorder := by
  rw [FileUsers.write] at h
  split at h
  · cases h
  · split at h
    · split at h <;> cases h
      decide
    · split at h <;> cases h
    · cases h
    · cases h
      decide

/-- The inode of an open file is in core. -/
theorem Orderly.open_pos {fd : Fin NOFILE} {f : FileId} (hs : Orderly sb disk past s)
    (hfd : (s.mem.users.procs p).ofile fd = some f)
    (htype : (s.mem.users.files.files f).type = .inode ∨ (s.mem.users.files.files f).type = .device)
    (hip : (s.mem.users.files.files f).ip = some ip) : 0 < (s.fs.inode ip).ref := by
  have hopens : 0 < s.mem.users.openers ip := Finset.card_pos.2
    ⟨f, Finset.mem_filter.2 ⟨Finset.mem_univ f, hs.balanced.accounted.pos hfd, htype, hip⟩⟩
  have href : (s.fs.inode ip).ref = cwds s.mem.cwd ip + s.mem.users.openers ip := hs.balanced.ref ip
  omega

theorem Orderly.read {fd : Fin NOFILE} {f : FileId} {n k : Nat} {dst : Nat → List UInt8 → Bool} {r : Int}
    (hs : Orderly sb disk past s) (hfd : (s.mem.users.procs p).ofile fd = some f) :
    Goes (Sysfile.read f n dst r k) (fun _ s' => Transacts sb disk past s') s := by
  refine .bind (.file (.ite (fun hx => ?_) fun _ => .files (fun e he => ?_) fun r u hu => ?_))
  · cases hip : (s.mem.users.files.files f).ip with
    | none => exact .withNoLock (.stop (by decide))
    | some ip =>
      refine hs.withLock (hs.open_pos hfd (.inl hx.2) hip) fun s₁ husers hsane hcore htype => ?_
      refine .bind (.fs (Xv6pp.wp_readi (hsane.consistent.weaken _) hsane.noHoles hcore htype) (fun _ => False.elim) ?_)
      rintro ⟨r, bytes⟩ f' held ⟨rfl, -⟩
      refine .bind (.files (fun e he => ?_) fun _ u hu => ?_)
      · cases he
      · cases hu
        refine .pure ⟨rfl, rfl, ?_⟩
        rw [← husers]
        exact FileUsers.NoNewWriters.setFile fun _ hw => hw
  · exact FileUsers.read_error he
  · exact (hs.setUsers (.read hu)).transacts

theorem Orderly.stat {fd : Fin NOFILE} {f : FileId} {copied : Bool}
    (hs : Orderly sb disk past s) (hfd : (s.mem.users.procs p).ofile fd = some f) :
    Goes (Sysfile.stat f copied) (fun _ s' => Transacts sb disk past s') s := by
  refine .bind (.file (.ite (fun hx => ?_) fun _ => .pure hs.transacts))
  cases hip : (s.mem.users.files.files f).ip with
  | none => exact .withNoLock (.pure (.endNoLock hs.transacts))
  | some ip =>
    refine hs.withLock (hs.open_pos hfd hx hip) fun s₁ husers _ _ _ => .pure ⟨rfl, rfl, ?_⟩
    rw [husers]
    exact .refl _

/-! ## Writing -/

/-- The memory of a user that is all there: what copying in does. -/
def userMemory (bytes : Nat → UInt8) (tot m : Nat) : List UInt8 × Bool :=
  ((List.range m).map fun k => bytes (tot + k), true)

/-- The source of a write from there. -/
def Source.user (bytes : Nat → UInt8) : Source where
  bytes := bytes
  moves _ m := m
  moves_le _ _ := Nat.le_refl _

theorem Source.copy_user (bytes : Nat → UInt8) (i : Nat) :
    (fun tot m => userMemory bytes (i + tot) m) = (Source.user fun k => bytes (i + k)).copy := by
  funext tot m
  simp [userMemory, Source.copy, Source.user, Nat.add_assoc]

/-- The file is in use, is one of type `FD_INODE` and can be written to. -/
def File.IsWritable (x : File) : Prop := 0 < x.ref ∧ x.type = .inode ∧ x.writable = true

/-- **The loop of `file::write`**, in which every round is an operation. -/
theorem Settled.writeFrom {f : FileId} {bytes : Nat → UInt8} {n : Nat} (fuel : Nat) : ∀ {past : List Log.Point}
    {s : Sys} (i : Nat), Settled sb disk past s → (s.mem.users.files.files f).IsWritable →
      Goes (Sysfile.writeFrom f (userMemory bytes) n fuel i) (fun _ s' => Advances sb disk past s') s := by
  induction fuel with
  | zero => exact fun _ hs _ => .pure hs.advances
  | succ fuel ih =>
    intro past s i hs hf
    refine .ite (fun _ => .bind (.file ?_)) fun _ => .pure hs.advances
    refine .seq (Q := fun _ s' => Transacts sb disk past s' ∧ (s'.mem.users.files.files f).IsWritable)
      (hs.operation (P := fun u => (u.files.files f).IsWritable) fun o husers hcwd hinode hop => ?_) ?_
    · cases hip : (s.mem.users.files.files f).ip with
      | none => exact .withNoLock (.stop (by decide))
      | some ip =>
        have hwrites : o.mem.users.writes ip := husers ▸ ⟨f, hf.1, hf.2.1, hf.2.2, hip⟩
        have hw := hop.writers ip hwrites
        refine hop.withLockOpen hw.ref fun s₁ hop₁ hcore => .bind ?_
        have hkind := hop₁.upkeep.kinds ip hw.ref hw.type
        rw [Source.copy_user]
        refine hop₁.writei hcore (fun _ _ => decide_eq_true rfl) (hkind ▸ hw.notDir) fun r s₂ hop₂ => ?_
        refine .bind (.files (fun e he => ?_) fun _ u hu => ?_)
        · cases he
        · cases hu
          have hop₃ := hop₂.setUsers (u := { s₂.mem.users with files := s₂.mem.users.files.setFile f fun x =>
            { x with off := (x.off + r.toNat) % 2 ^ 32 } }) (by
              rw [← hop₂.users]
              exact FileUsers.NoNewWriters.setFile fun _ h => h)
          refine .pure (hop₃.endLockOpen (hop₃.still hw.ref) (Finset.notMem_empty _) fun s₄ hop₄ _ =>
            ⟨hop₄.doneSince rfl, ?_⟩)
          have husers₂ : s₂.mem.users = s.mem.users := hop₂.users.trans husers
          rw [hop₄.users]
          show ((s₂.mem.users.files.setFile f fun x =>
            { x with off := (x.off + r.toNat) % 2 ^ 32 }).files f).IsWritable
          rw [FileManager.setFile_self, husers₂]
          exact hf
    · rintro r s' ⟨⟨new, -, hs'⟩, hf'⟩
      exact .ite (fun _ => .pure ⟨new, hs'⟩) fun _ => (ih _ hs' hf').imp fun _ _ h => h.trans

theorem Orderly.write {fd : Fin NOFILE} {f : FileId} {n r : Int} {bytes : Nat → UInt8} {out : List UInt8}
    (hs : Orderly sb disk past s) (hfd : (s.mem.users.procs p).ofile fd = some f) :
    Goes (Sysfile.write f n (userMemory bytes) r out) (fun _ s' => Advances sb disk past s') s := by
  refine .bind (.file (.ite (fun hx => ?_) fun _ => .files (fun e he => ?_) fun r u hu => ?_))
  · exact .bind ((hs.writeFrom _ _ ⟨hs.balanced.accounted.pos hfd, hx.2, hx.1⟩).imp fun _ _ h => .pure h)
  · exact FileUsers.write_error he
  · exact (hs.setUsers (.write hu)).advances

/-! ## Closing -/

/-- The end of an operation that gives up a reference that was counted on. -/
theorem Settled.drop (hs : Settled sb disk past s) (hr : 0 < (s.fs.inode ip).ref)
    (hw : ∀ jp, s.mem.users.writes jp → (if jp = ip then 1 else 0 : Int) < (s.fs.inode jp).ref) :
    Goes (Sysfile.logOp (Sysfile.withRef (some ip) fun g => pure ((), g))) (fun _ s' => Transacts sb disk past s') s := by
  refine hs.transaction fun o husers hcwd hinode hop => .withRef (.pure ?_)
  have hr' : 0 < (o.fs.inode ip).ref := hinode ▸ hr
  obtain ⟨base, x, hop₁⟩ := hop.borrow hr' fun jp hjp => by
    rw [hinode]
    exact hw jp (husers ▸ hjp)
  exact hop₁.endRef fun s₁ hop₂ _ => hop₂.done

theorem Orderly.closeFd {fd : Fin NOFILE} {f : FileId} (hs : Orderly sb disk past s)
    (hfd : (s.mem.users.procs p).ofile fd = some f) :
    Goes (Sysfile.closeFd p fd f) (fun _ s' => Transacts sb disk past s') s := by
  have haccounted := hs.balanced.accounted
  obtain ⟨u, hclose, -⟩ := haccounted.closeFd hfd
  have hclose : s.mem.users.closeFd p fd f = .ok u := hclose
  refine .get (.bind (.files (fun e he => ?_) fun _ u' hu => ?_))
  · rw [hclose] at he
    cases he
  rw [hclose] at hu
  cases hu
  have hs₁ : Settled sb disk past (s.withUsers u) := hs.setUsers (.closeFd haccounted hfd hclose)
  have halters := FileUsers.Alters.closeFd haccounted hfd hclose
  have hlast := fun jp => Sysfile.lastInode_iff (haccounted.pos hfd) jp
  split
  · exact .pure hs₁.transacts
  · next ip hip =>
    cases ip with
    | none => exact hs₁.transaction fun o _ _ _ hop => .withRef (.pure (.endNoRef hop.done))
    | some ip =>
      -- the file had a reference, and every file that is still open has another one
      have hthis := (hlast ip).2 hip
      have hopens : 0 < s.mem.users.openers ip :=
        Finset.card_pos.2 ⟨f, Finset.mem_filter.2 ⟨Finset.mem_univ f, hthis.2⟩⟩
      have href : ∀ jp, (s.fs.inode jp).ref = cwds s.mem.cwd jp + s.mem.users.openers jp := hs.balanced.ref
      refine hs₁.drop ?_ fun jp hjp => ?_
      · have := href ip
        show 0 < (s.fs.inode ip).ref
        omega
      · have hsome : 0 < u.openers jp := FileUsers.writes.openers_pos hjp
        have hopeners : (u.openers jp : Int) = s.mem.users.openers jp + _ := halters.openers jp
        have := href jp
        show _ < (s.fs.inode jp).ref
        by_cases hjip : jp = ip
        · subst hjip
          rw [if_pos hthis] at hopeners
          rw [if_pos rfl]
          omega
        · rw [if_neg hjip]
          split_ifs at hopeners <;> omega

theorem Orderly.of_settled (hs : Settled sb disk past s') (hbalanced : Balanced s'.mem.books)
    (hidle : inOp s'.mem.trace = some false) (hheld : s'.held = []) : Orderly sb disk past s' :=
  { hs with balanced := hbalanced, idle := hidle, held := hheld }

/-- **The loop of `exit`** over the descriptors. -/
theorem Orderly.exitFiles (l : List (Fin NOFILE)) : ∀ {past : List Log.Point} {s : Sys}, Orderly sb disk past s →
    Goes (Sysfile.exitFiles p l) (fun _ s' => ∃ new, Orderly sb disk (past ++ new) s') s := by
  induction l with
  | nil => exact fun hs => .pure ⟨[], by rwa [List.append_nil]⟩
  | cons i l ih =>
    intro past s hs
    refine .get ?_
    split
    · exact ih hs
    · next f hf =>
      refine .seq ((hs.closeFd hf).within (Sysfile.Within.closeFd hs.balanced hf) hs.idle) ?_
      rintro _ s₁ ⟨⟨new, -, hs₁⟩, hidle, hheld, ⟨hbalanced, -⟩, -⟩
      refine (ih (Orderly.of_settled hs₁ hbalanced hidle (hheld.trans hs.held))).imp ?_
      rintro _ s' ⟨new', hs'⟩
      exact ⟨new ++ new', by rwa [← List.append_assoc]⟩

theorem Settled.setCwd {c : Fin NPROC → Option InodeId} (hs : Settled sb disk past s) :
    Settled sb disk past { s with mem := { s.mem with cwd := c } } :=
  hs.sameDisk (h := 0) hs.upkeep (.refl _) (.refl _)

theorem Orderly.exit (hs : Orderly sb disk past s) :
    Goes (Sysfile.exit p) (fun _ s' => Advances sb disk past s') s := by
  refine .seq (hs.exitFiles _) ?_
  rintro _ s₁ ⟨new, hs₁⟩
  have hrest : ∀ s₂, Transacts sb disk (past ++ new) s₂ → Goes (do
      Sysfile.setCwd p none
      Sysfile.files fun u => .ok ((), u.setProc p fun x => { x with state := .zombie }))
      (fun _ s' => Advances sb disk past s') s₂ := by
    rintro s₂ ⟨new', -, hs₂⟩
    refine .bind (.setCwd (.files (fun e he => ?_) fun _ u hu => ?_))
    · cases he
    · cases hu
      exact Advances.trans ⟨new', hs₂.setCwd.setUsers fun ip hip => hip⟩
  refine .get ?_
  cases hcur : s₁.mem.cwd p with
  | none =>
    exact .seq (hs₁.transaction fun o _ _ _ hop => .withRef (.pure (.endNoRef hop.done))) fun _ => hrest
  | some cur =>
    exact .seq (hs₁.drop (hs₁.balanced.cwd_pos hcur) fun jp hjp => hs₁.balanced.one_lt_ref hcur hjp)
      fun _ => hrest

/-! ## Other processes -/

theorem Orderly.fork {np : Fin NPROC} (hs : Orderly sb disk past s)
    (hnp : (s.mem.users.procs np).state = .unused) :
    Goes (Sysfile.fork p np) (fun _ s' => Transacts sb disk past s') s := by
  obtain ⟨u, hfork, -⟩ := hs.balanced.accounted.fork (p := p) hnp
  have hfork : s.mem.users.fork p np = .ok u := hfork
  refine .bind (.files (fun e he => ?_) fun _ u' hu => .bind (.cwd fun cur hcur => .bind ?_))
  · rw [hfork] at he
    cases he
  rw [hfork] at hu
  cases hu
  have hpos : 0 < (s.fs.inode cur).ref := hs.balanced.cwd_pos hcur
  have hgot : Got s.fs (s.fs.inode cur).inum cur _ := .again hpos rfl
  have hidup : wp (ideal (idup cur)) (fun _ => False) (fun _ f =>
      Upkeep s.fs (⟨cur, (s.fs.inode cur).inum, false⟩ ::ₘ 0) ∅ f ∧ SameDisk s.fs f) s.fs := by
    rw [idup]
    simp only [wp_ideal_bind, wp_updateInode, wp_ideal_pure]
    exact ⟨hs.upkeep.sameDisk (hs.upkeep.got hgot (hs.sane.consistent.inum hpos)) hgot.sameDisk, hgot.sameDisk⟩
  refine .fs hidup (fun _ => False.elim) ?_
  rintro ip f held ⟨hu, hd⟩
  have hs' : Settled sb disk past ((s.withUsers u).withFs f held) := hs.sameDisk hu hd (.fork hfork)
  exact .setCwd hs'.setCwd.transacts

/-- The arguments are as the kernel fetches them: a path name has no zero byte in it, and the memory that a
`write` is from is there. -/
def SysCall.Fetched : SysCall → Prop
  | .write _ _ src _ _ => ∃ bytes, src = userMemory bytes
  | .link old new => IsPath old ∧ IsPath new
  | .unlink path => IsPath path
  | .open path _ => IsPath path
  | .mkdir path => IsPath path
  | .mknod path _ _ => IsPath path
  | .chdir path => IsPath path
  | .exec path _ _ => ∀ c ∈ path, c ≠ 0
  | _ => True

theorem Goes.withFd {fd : Int} {m : Fin NOFILE → FileId → SysM Int} {Q : Int → Sys → Prop}
    (hnone : Q (-1) s)
    (h : ∀ fd f, (s.mem.users.procs p).ofile fd = some f → Goes (m fd f) Q s) :
    Goes (Sysfile.withFd p fd m) Q s := by
  refine .get ?_
  split
  · exact .pure hnone
  · next fd f hfd => exact h fd f (FileUsers.argfd_some hfd)

/-- A function on the open files that opens nothing for writing. -/
theorem Orderly.files {g : FileUsers → Except Panic (Int × FileUsers)} (hs : Orderly sb disk past s)
    (hok : FileUsers.Returns (g s.mem.users))
    (hw : ∀ r u, g s.mem.users = .ok (r, u) → s.mem.users.NoNewWriters u) :
    Goes (Sysfile.files g) (fun _ s' => Transacts sb disk past s') s := by
  obtain ⟨r, u, hg, -⟩ := hok
  refine .files (fun e he => ?_) fun r' u' hu => (hs.setUsers (hw r' u' hu)).transacts
  rw [hg] at he
  cases he

/-- The calls that are one operation at most. -/
def SysCall.Single : SysCall → Prop
  | .write _ _ _ _ _ => False
  | .exit => False
  | _ => True

theorem Orderly.single (c : SysCall) (hs : Orderly sb disk past s) (hp : (s.mem.users.procs p).state = .runnable)
    (hc : c.Fetched) (hone : c.Single) : Goes (c.prog p) (fun _ s' => Transacts sb disk past s') s := by
  have haccounted : s.mem.users.Accounted := hs.balanced.accounted
  cases c with
  | dup fd => exact hs.files (haccounted.sysDup hp) fun _ _ hu => .sysDup haccounted hu
  | read fd n dst r k => exact .withFd hs.transacts fun _ _ hfd => hs.read hfd
  | write fd n src r bytes => exact hone.elim
  | close fd => exact .withFd hs.transacts fun _ _ hfd => .bind ((hs.closeFd hfd).imp fun _ _ h => .pure h)
  | fstat fd copied => exact .withFd hs.transacts fun _ _ hfd => hs.stat hfd
  | link old new => exact hs.sysLink hc.1 hc.2
  | unlink path => exact hs.sysUnlink hc
  | «open» path omode => exact hs.sysOpen hc hp
  | mkdir path => exact hs.makeNode hc (by decide) isShort_zero isShort_zero
  | mknod path major minor =>
    exact hs.makeNode hc (by decide) (Dinode.isShort_wrap _) (Dinode.isShort_wrap _)
  | chdir path => exact hs.sysChdir hc
  | exec path mem argc => exact hs.exec hc
  | pipe copy₀ copy₁ =>
    refine hs.files ?_ fun _ _ hu => .sysPipe haccounted hu
    obtain ⟨r, u, hu, h', -⟩ := haccounted.sysPipe copy₀ copy₁ hp
    exact ⟨r, u, hu, h'⟩
  | exit => exact hone.elim

/-- **Every system call keeps the file system in order.** -/
theorem Orderly.prog (c : SysCall) (hs : Orderly sb disk past s) (hp : (s.mem.users.procs p).state = .runnable)
    (hc : c.Fetched) : Goes (c.prog p) (fun _ s' => Advances sb disk past s') s := by
  cases c with
  | write fd n src r bytes =>
    obtain ⟨memory, rfl⟩ := hc
    exact .withFd hs.advances fun _ _ hfd => hs.write hfd
  | exit => exact .bind (hs.exit.imp fun _ _ h => .pure h)
  | _ => exact (hs.single _ hp hc trivial).imp fun _ _ h => h.advances

end

end Xv6pp
