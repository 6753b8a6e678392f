import Xv6pp.Fs.Components
import Xv6pp.Fs.Directory

/-!
# Path resolution

The directories form a tree, or rather a graph, whose edges are the bindings of names.  `namex` walks
along the components of a path, with one reference to the inode that it has reached and none to those
it has left, and with no lock between two steps.
-/

set_option autoImplicit false

namespace Xv6pp

open Prog FileSystem Allocation

/-! ## The directory tree -/

/-- The inode `x` is in core, with a reference to it. -/
def Fs.Held (s : Fs) (x : Nat) : Prop := ∃ k, 0 < (s.inode k).ref ∧ (s.inode k).inum = x

/-- An allocated inode that does not go away when a reference to it comes and goes. -/
structure Fs.Lasting (s : Fs) (x : Nat) : Prop where
  isInum : s.sb.IsInum x
  allocated : (s.dinode x).type ≠ 0
  /-- It has a link, or there is a reference to it. -/
  kept : (s.dinode x).nlink ≠ 0 ∨ s.Held x

/-- The directories are whole, and the root and all inodes with a name are allocated. -/
structure Fs.Tree (s : Fs) : Prop where
  sane : s.Sane
  dirs : ∀ d, s.sb.IsInum d → (s.dinode d).type = T_DIR → s.IsDir d
  entries : ∀ (d k : Nat) (name : List UInt8) (x : Nat), s.sb.IsInum d → (s.dinode d).type = T_DIR →
    (s.table d)[k]? = some (some (name, x)) → s.Lasting x
  root : s.Lasting ROOTINO

/-- The inode that a name leads to from the inode `d`, if that is a directory. -/
def Fs.step (s : Fs) (d : Nat) (name : List UInt8) : Option Nat :=
  if (s.dinode d).type = T_DIR then s.lookup d name else none

/-- The inode that a list of names leads to. -/
def Fs.walk (s : Fs) (d : Nat) (names : List (List UInt8)) : Option Nat := names.foldlM s.step d

/-- The directory that all names but the last lead to, and the last name. -/
def Fs.walkParent (s : Fs) (d : Nat) (names : List (List UInt8)) : Option (Nat × List UInt8) :=
  match names.getLast? with
  | none => none
  | some name => (s.walk d names.dropLast).bind fun y =>
    if (s.dinode y).type = T_DIR then some (y, name) else none

/-- What `namex` returns, for each of its modes. -/
def Fs.resolve (s : Fs) (parent : Bool) (d : Nat) (names : List (List UInt8)) :
    Option (Nat × List UInt8) :=
  if parent then s.walkParent d names else (s.walk d names).map (·, [])

section
variable {s : Fs} {d x : Nat} {name : List UInt8} {names : List (List UInt8)} {parent : Bool}

theorem Fs.walk_cons : s.walk d (name :: names) = (s.step d name).bind (s.walk · names) := by
  rw [Fs.walk, List.foldlM_cons]
  rfl

theorem Fs.step_of_dir (h : (s.dinode d).type = T_DIR) : s.step d name = s.lookup d name := if_pos h

theorem Fs.step_of_not_dir (h : (s.dinode d).type ≠ T_DIR) : s.step d name = none := if_neg h

theorem Fs.resolve_nil : s.resolve parent d [] = if parent then none else some (d, []) := by
  cases parent <;> rfl

/-- From an inode that is not a directory, no name leads anywhere. -/
theorem Fs.resolve_not_dir (h : (s.dinode d).type ≠ T_DIR) : s.resolve parent d (name :: names) = none := by
  have hwalk : ∀ names, s.walk d (name :: names) = none := fun names => by
    rw [Fs.walk_cons, Fs.step_of_not_dir h]
    rfl
  cases parent with
  | false =>
    rw [Fs.resolve, hwalk]
    rfl
  | true =>
    rw [Fs.resolve, if_pos rfl, Fs.walkParent]
    cases names with
    | nil => exact if_neg h
    | cons c names =>
      rw [List.dropLast_cons_of_ne_nil (List.cons_ne_nil _ _), hwalk,
        List.getLast?_eq_some_getLast (List.cons_ne_nil _ _)]
      rfl

/-- One level early. -/
theorem Fs.resolve_parent (h : (s.dinode d).type = T_DIR) : s.resolve true d [name] = some (d, name) :=
  if_pos h

/-- One step of the walk. -/
theorem Fs.resolve_cons (h : (s.dinode d).type = T_DIR) (hmore : ¬ (parent = true ∧ names = [])) :
    s.resolve parent d (name :: names) = (s.lookup d name).bind (s.resolve parent · names) := by
  have hwalk : ∀ names, s.walk d (name :: names) = (s.lookup d name).bind (s.walk · names) :=
    fun names => by rw [Fs.walk_cons, Fs.step_of_dir h]
  cases parent with
  | false =>
    simp only [Fs.resolve, hwalk]
    cases s.lookup d name <;> rfl
  | true =>
    have hne : names ≠ [] := fun e => hmore ⟨rfl, e⟩
    simp only [Fs.resolve, if_true, Fs.walkParent]
    rw [List.dropLast_cons_of_ne_nil hne, hwalk, List.getLast?_cons,
      List.getLast?_eq_some_getLast hne]
    cases s.lookup d name <;> rfl

end

/-! ## The walk -/

section
variable {E : Panic → Prop} {s₀ s s' : Fs} {h : Multiset Token} {t : Token} {l : Finset InodeId}
  {parent : Bool} {x d : Nat} {ip : InodeId}

theorem Fs.Lasting.congr (hx : s₀.Lasting x) (hd : SameDisk s₀ s) :
    s.sb.IsInum x ∧ (s.dinode x).type ≠ 0 := by
  rw [hd.sb, hd.dinode]
  exact ⟨hx.isInum, hx.allocated⟩

theorem SameDisk.table (hd : SameDisk s s') : s'.table = s.table := by
  funext d
  rw [Fs.table, hd.content]
  rfl

theorem SameDisk.isDir (hd : SameDisk s s') (h : s.IsDir d) : s'.IsDir d := by
  refine ⟨?_, ?_⟩
  · rw [hd.dinode]
    exact h.type
  · rw [hd.dinode]
    exact h.size

/-- A reference to a lasting inode is given back, and the inode stays. -/
theorem Session.wp_iput_lasting (hs : Session s₀ (t ::ₘ h) l s) (hd : SameDisk s₀ s)
    (hl : s₀.Lasting t.inum) :
    wp (ideal (iput t.ip)) E (fun _ s' => Session s₀ h l s' ∧ SameDisk s₀ s') s := by
  refine wp_imp (hs.wp_iput_keep fun hone _ => ?_) fun _ s' hpost => ⟨hpost.1, hd.trans hpost.2⟩
  rw [hd.dinode]
  refine hl.kept.resolve_right ?_
  rintro ⟨k, hk, hinum⟩
  -- the inode was in core before, so it has two references now
  have hmem := Multiset.mem_cons_self t h
  have hk' := hs.refs.ref k
  have hsame : k = t.ip := by
    refine hs.sane.consistent.uniq (by omega) (hs.refs.ref_pos hmem) ?_
    rw [hs.refs.inum k hk, hinum, (hs.refs.held t hmem).1]
  have hpos := refsTo_pos hmem
  subst hsame
  omega

/-- **`iunlockput`** of a lasting inode. -/
theorem Session.wp_iunlockput (hs : Session s₀ (t ::ₘ h) {t.ip} s) (hd : SameDisk s₀ s)
    (hl : s₀.Lasting t.inum) :
    wp (ideal (iunlockput t.ip)) E (fun _ s' => Session s₀ h ∅ s' ∧ SameDisk s₀ s') s := by
  rw [iunlockput]
  refine wp_ideal_seq (hs.wp_iunlock (Multiset.mem_cons_self t h) (Finset.mem_singleton_self _)) ?_
  rintro _ s₁ ⟨hs₁, hd₁⟩
  rw [Finset.erase_singleton] at hs₁
  exact hs₁.wp_iput_lasting (hd.trans hd₁) hl

/-- **`namex`**, from an inode to which there is a reference. -/
theorem Session.wp_namexFrom (htree : s₀.Tree) (hroom : Roomy E 2 s₀) {n : Nat} :
    ∀ {path : List UInt8} {t : Token} {s : Fs}, path.length < n → (∀ c ∈ path, c ≠ 0) →
      Session s₀ (t ::ₘ 0) ∅ s → SameDisk s₀ s → s₀.Lasting t.inum →
      wp (ideal (namexFrom parent n t.ip path)) E (fun r s' => SameDisk s₀ s' ∧
        ((r = none ∧ Session s₀ 0 ∅ s' ∧ s₀.resolve parent t.inum (components path) = none) ∨
          ∃ ip name x v, r = some (ip, name) ∧ Session s₀ (⟨ip, x, v⟩ ::ₘ 0) ∅ s' ∧
            (parent = true → IsName name) ∧
            s₀.resolve parent t.inum (components path) = some (x, name))) s := by
  induction n with
  | zero => exact fun hn => absurd hn (Nat.not_lt_zero _)
  | succ n ih =>
    intro path t s hn hpath hs hd hl
    rw [namexFrom]
    cases hskip : skipelem path with
    | none =>
      dsimp only
      rw [skipelem_none hskip, Fs.resolve_nil]
      cases parent with
      | true =>
        rw [if_pos rfl]
        refine wp_ideal_seq (hs.wp_iput_lasting hd hl) ?_
        rintro _ s₁ ⟨hs₁, hd₁⟩
        exact ⟨hd₁, .inl ⟨rfl, hs₁, rfl⟩⟩
      | false =>
        rw [if_neg (by decide)]
        exact ⟨hd, .inr ⟨t.ip, [], t.inum, t.valid, rfl, hs, nofun, rfl⟩⟩
    | some p =>
      obtain ⟨name, rest⟩ := p
      obtain ⟨hcomponents, hrest⟩ := skipelem_some hskip
      obtain ⟨hname, hrest0⟩ := isName_of_skipelem hpath hskip
      have hlt : rest.length < n := by
        have := skipelem_length hskip
        omega
      dsimp only
      rw [hcomponents]
      refine wp_ideal_seq (hs.wp_ilock (.inr (Finset.notMem_empty _)) (.inr ?_)) ?_
      · exact (hl.congr hd).2
      rintro _ s₁ ⟨hs₁, hd₁, -⟩
      rw [insert_empty_eq] at hs₁
      replace hd₁ := hd.trans hd₁
      have hcore := hs₁.refs.core (Multiset.mem_cons_self _ _) rfl
      rw [wp_ideal_bind, wp_inode, hcore.copy hs₁.sane.consistent, hd₁.dinode]
      split
      · next hnot =>
        rw [Fs.resolve_not_dir hnot]
        refine wp_ideal_seq (hs₁.wp_iunlockput hd₁ hl) ?_
        rintro _ s₂ ⟨hs₂, hd₂⟩
        exact ⟨hd₂, .inl ⟨rfl, hs₂, rfl⟩⟩
      next hdir =>
      replace hdir : (s₀.dinode t.inum).type = T_DIR := not_not.1 hdir
      split
      · next hstop =>
        obtain ⟨rfl, rfl⟩ := hstop
        rw [components_nil, Fs.resolve_parent hdir]
        refine wp_ideal_seq (hs₁.wp_iunlock (t := { t with valid := true }) (Multiset.mem_cons_self _ _)
          (Finset.mem_singleton_self _)) ?_
        rintro _ s₂ ⟨hs₂, hd₂⟩
        rw [Finset.erase_singleton] at hs₂
        exact ⟨hd₁.trans hd₂, .inr ⟨t.ip, name, t.inum, true, rfl, hs₂, fun _ => hname, rfl⟩⟩
      next hmore =>
      rw [Fs.resolve_cons hdir fun hc => hmore ⟨hc.1, hrest.2 hc.2⟩]
      have hisDir := hd₁.isDir (htree.dirs _ hl.isInum hdir)
      have hvacant := hroom.vacant hs₁.refs (by rw [Multiset.card_cons, Multiset.card_zero]; decide)
      refine wp_ideal_seq (hisDir.wp_dirlookup hs₁.sane hcore hname hvacant) ?_
      rintro r s₂ (⟨rfl, rfl, hnone⟩ | ⟨next, off, y, rfl, hfound⟩)
      · have hnone' : s₀.lookup t.inum name = none := by
          rw [Fs.lookup, ← hd₁.table]
          exact hnone
        rw [hnone']
        refine wp_ideal_seq (hs₁.wp_iunlockput hd₁ hl) ?_
        rintro _ s₃ ⟨hs₃, hd₃⟩
        exact ⟨hd₃, .inl ⟨rfl, hs₃, rfl⟩⟩
      · have hsome : s₀.lookup t.inum name = some y := by
          rw [Fs.lookup, ← hd₁.table]
          exact hfound.lookup
        obtain ⟨k, -, hentry⟩ := hfound.entry
        rw [hd₁.table] at hentry
        have hy := htree.entries _ _ _ _ hl.isInum hdir hentry
        have hs₂ := (hs₁.got hfound.got (by rw [hd₁.sb]; exact hy.isInum)).refs.swap
        have hs₂' := hs₁.got hfound.got (by rw [hd₁.sb]; exact hy.isInum)
        have hd₂ := hd₁.trans hfound.got.sameDisk
        rw [hsome]
        refine wp_ideal_seq (Session.wp_iunlockput (t := { t with valid := true })
          ⟨hs₂, hs₂'.sane, hs₂'.locked, hs₂'.typed⟩ hd₂ hl) ?_
        rintro _ s₃ ⟨hs₃, hd₃⟩
        exact ih (t := ⟨next, y, false⟩) hlt hrest0 hs₃ hd₃ hy

/-- Where `namex` begins. -/
def Fs.start (s : Fs) (cwd : InodeId) (path : List UInt8) : Nat :=
  if path.head? = some slash then ROOTINO else (s.inode cwd).inum

/-- **`namex`**, called by a process that holds no lock. -/
theorem Fs.Tree.wp_namex {cwd : InodeId} {path : List UInt8} (htree : s.Tree) (hroom : Roomy E 2 s)
    (hnonneg : ∀ k, 0 ≤ (s.inode k).ref) (hlock : ∀ k, (s.inode k).locked = false)
    (hcwd : 0 < (s.inode cwd).ref) (halloc : (s.dinode (s.inode cwd).inum).type ≠ 0)
    (hpath : ∀ c ∈ path, c ≠ 0) :
    wp (ideal (namex cwd path parent)) E (fun r s' => SameDisk s s' ∧
      ((r = none ∧ Session s 0 ∅ s' ∧ s.resolve parent (s.start cwd path) (components path) = none) ∨
        ∃ ip name x v, r = some (ip, name) ∧ Session s (⟨ip, x, v⟩ ::ₘ 0) ∅ s' ∧
          (parent = true → IsName name) ∧ s.resolve parent (s.start cwd path) (components path) = some (x, name))) s := by
  have hs := Session.refl htree.sane hnonneg hlock
  have hvacant := hroom.vacant hs.refs (by rw [Multiset.card_zero]; decide)
  rw [namex, Fs.start]
  split
  · next hroot =>
    refine wp_ideal_seq (wp_iget hvacant) fun ip s₁ hgot => ?_
    exact Session.wp_namexFrom (t := ⟨ip, ROOTINO, false⟩) htree hroom (Nat.lt_succ_self _) hpath
      (hs.got hgot htree.root.isInum) hgot.sameDisk htree.root
  · next hrel =>
    have hgot : Got s (s.inode cwd).inum cwd _ := .again hcwd rfl
    have hisInum := htree.sane.consistent.inum hcwd
    rw [idup]
    simp only [wp_ideal_bind, wp_updateInode, wp_ideal_pure]
    exact Session.wp_namexFrom (t := ⟨cwd, (s.inode cwd).inum, false⟩) htree hroom (Nat.lt_succ_self _)
      hpath (hs.got hgot hisInum) hgot.sameDisk ⟨hisInum, halloc, .inr ⟨cwd, hcwd, rfl⟩⟩

end

/-! ## Main result -/

/-- What path resolution leaves behind: no lock, the disk as it was, and one more reference, to the
inode that it returns. -/
structure Leaves (s : Fs) (r : Option InodeId) (s' : Fs) : Prop where
  disk : SameDisk s s'
  unlocked : ∀ k, (s'.inode k).locked = false
  ref : ∀ k, (s'.inode k).ref = (s.inode k).ref + if r = some k then 1 else 0
  inum : ∀ k, 0 < (s.inode k).ref → (s'.inode k).inum = (s.inode k).inum

theorem Session.leaves_none {s s' : Fs} (hs : Session s 0 ∅ s') (hd : SameDisk s s') :
    Leaves s none s' := by
  refine ⟨hd, fun k => hs.locked_eq_false (Finset.notMem_empty k), fun k => ?_, hs.refs.inum⟩
  rw [hs.refs.ref, refsTo_zero]
  rfl

theorem Session.leaves_some {s s' : Fs} {t : Token} (hs : Session s (t ::ₘ 0) ∅ s')
    (hd : SameDisk s s') : Leaves s (some t.ip) s' := by
  refine ⟨hd, fun k => hs.locked_eq_false (Finset.notMem_empty k), fun k => ?_, hs.refs.inum⟩
  rw [hs.refs.ref, refsTo_cons, refsTo_zero]
  by_cases hk : t.ip = k
  · rw [if_pos hk, if_pos (congrArg some hk)]
    rfl
  · rw [if_neg hk, if_neg fun e => hk (Option.some.inj e)]
    rfl

/-- **Path resolution.**  In a tree of directories in which every name leads to an allocated inode that
has a link or is in use, and with two entries of the table of in-core inodes to spare, `namei` returns
the inode that the components of the path lead to, from the root or from the current directory, and
null if there is none; `nameiparent` returns the directory that all components but the last lead to,
and the last one.  References are as before, up to the one to the inode returned, and so are the disk
and the locks. -/
theorem path_resolution {s : Fs} {cwd : InodeId} {path : List UInt8} (htree : s.Tree)
    (hroom : 2 ≤ (Finset.univ.filter fun k => (s.inode k).ref = 0).card)
    (hnonneg : ∀ k, 0 ≤ (s.inode k).ref) (hlock : ∀ k, (s.inode k).locked = false)
    (hcwd : 0 < (s.inode cwd).ref) (halloc : (s.dinode (s.inode cwd).inum).type ≠ 0)
    (hpath : ∀ c ∈ path, c ≠ 0) :
    (∃ r s', (ideal (namei cwd path)).run s = .ok (r, s') ∧ Leaves s r s' ∧
      r.map (fun ip => (s'.inode ip).inum) = s.walk (s.start cwd path) (components path)) ∧
    ∃ r s', (ideal (nameiparent cwd path)).run s = .ok (r, s') ∧ Leaves s (r.map Prod.fst) s' ∧
      r.map (fun p => ((s'.inode p.1).inum, p.2)) =
        s.walkParent (s.start cwd path) (components path) := by
  have hwp : ∀ parent, wp (ideal (namex cwd path parent)) (fun _ => False) _ s := fun parent =>
    htree.wp_namex (.inr hroom) hnonneg hlock hcwd halloc hpath
  constructor
  · have hnamei : wp (ideal (namei cwd path)) (fun _ => False) (fun r s' => Leaves s r s' ∧
        r.map (fun ip => (s'.inode ip).inum) = s.walk (s.start cwd path) (components path)) s := by
      rw [namei]
      refine wp_ideal_seq (hwp false) ?_
      rintro r s' ⟨hd, ⟨rfl, hs, hnone⟩ | ⟨ip, name, x, v, rfl, hs, -, hsome⟩⟩
      · refine ⟨hs.leaves_none hd, ?_⟩
        rw [Fs.resolve, if_neg (by decide), Option.map_eq_none_iff] at hnone
        rw [hnone]
        rfl
      · refine ⟨hs.leaves_some hd, ?_⟩
        rw [Fs.resolve, if_neg (by decide), Option.map_eq_some_iff] at hsome
        obtain ⟨y, hy, heq⟩ := hsome
        rw [hy, (Prod.mk.inj heq).1]
        exact congrArg some (hs.refs.held _ (Multiset.mem_cons_self _ _)).1
    obtain ⟨r, s', hrun, hpost⟩ := wp_total hnamei
    exact ⟨r, s', hrun, hpost⟩
  · obtain ⟨r, s', hrun, hd, hpost⟩ := wp_total (hwp true)
    refine ⟨r, s', hrun, ?_⟩
    rcases hpost with ⟨rfl, hs, hnone⟩ | ⟨ip, name, x, v, rfl, hs, -, hsome⟩
    · exact ⟨hs.leaves_none hd, hnone.symm⟩
    · refine ⟨hs.leaves_some hd, ?_⟩
      have hinum := (hs.refs.held _ (Multiset.mem_cons_self _ _)).1
      rw [Option.map_some, hinum]
      exact hsome.symm

/-! ## Two small file systems -/

/-- An empty directory. -/
def emptyDir : Dinode := ⟨T_DIR, 0, 0, 1, 0, fun _ => 0⟩

theorem emptyDir_blank : emptyDir.Blank :=
  ⟨⟨by decide, by decide, by decide, by decide, by decide, by decide⟩, rfl, rfl⟩

/-- The root has an entry for itself, and no process uses it but one that has it as its current
directory. -/
structure DotRoot (s : Fs) : Prop where
  directory : Directory s smallIp 1
  ninodes : s.sb.ninodes = 8
  table : s.table 1 = [some ([46], 1)]
  lookup : s.lookup 1 [46] = some 1
  others : ∀ i < 8, i ≠ 1 → (s.dinode i).type = 0
  nlink : (s.dinode 1).nlink = 1
  ref : ∀ k, (s.inode k).ref = if k = smallIp then 1 else 0
  inum : (s.inode smallIp).inum = 1
  locked : ∀ k, k ≠ smallIp → (s.inode k).locked = false

set_option maxRecDepth 8000 in
/-- The entry is made by `dirlink`. -/
theorem dotRoot : ∃ s, (ideal (dirlink smallIp [46] 1)).run smallDir = .ok (0, s) ∧ DotRoot s := by
  have hcheck : returns (ideal (dirlink smallIp [46] 1)) smallDir 0 (fun s =>
      decide (s.sb.ninodes = 8 ∧ s.table 1 = [some ([46], 1)] ∧ s.lookup 1 [46] = some 1) &&
      (List.range 8).all (fun i => i == 1 || (s.dinode i).type == 0) &&
      decide ((s.dinode 1).nlink = 1) &&
      decide (∀ k, (s.inode k).ref = if k = smallIp then 1 else 0) &&
      decide ((s.inode smallIp).inum = 1) &&
      decide (∀ k, k ≠ smallIp → (s.inode k).locked = false)) = true := by decide +kernel
  obtain ⟨s, hrun, hs⟩ := of_returns hcheck
  simp only [Bool.and_eq_true, decide_eq_true_eq, List.all_eq_true, List.mem_range, Bool.or_eq_true,
    beq_iff_eq] at hs
  obtain ⟨⟨⟨⟨⟨⟨hn, htable, hlookup⟩, hothers⟩, hnlink⟩, href⟩, hinum⟩, hlocked⟩ := hs
  have hdir := (DirStep.link (isName_single (by decide)) (by decide) hrun).directory
    smallDir_directory
  exact ⟨s, hrun, hdir, hn, htable, hlookup, fun i hi hne => (hothers i hi).resolve_left hne, hnlink,
    href, hinum, hlocked⟩

theorem DotRoot.tree {s : Fs} (h : DotRoot s) : (s.setLocked smallIp false).Tree := by
  have hroot : (s.setLocked smallIp false).Lasting 1 := by
    refine ⟨⟨by decide, ?_⟩, ?_, .inl ?_⟩
    · show 1 < s.sb.ninodes
      rw [h.ninodes]
      decide
    · show (s.dinode 1).type ≠ 0
      rw [h.directory.isDir.type]
      decide
    · show (s.dinode 1).nlink ≠ 0
      rw [h.nlink]
      decide
  have hone : ∀ i, s.sb.IsInum i → (s.dinode i).type = T_DIR → i = 1 := by
    intro i hi ht
    by_contra hne
    rw [h.others i (h.ninodes ▸ hi.2) hne] at ht
    exact absurd ht (by decide)
  refine ⟨h.directory.sane.setLocked false, fun d hd ht => ?_, fun d k name x hd ht hk => ?_, hroot⟩
  · obtain rfl := hone d hd ht
    exact ⟨h.directory.isDir.type, h.directory.isDir.size⟩
  · obtain rfl := hone d hd ht
    have hk : (s.table 1)[k]? = some (some (name, x)) := hk
    rw [h.table] at hk
    have hmem := List.mem_of_getElem? hk
    rw [List.mem_singleton, Option.some.injEq, Prod.mk.injEq] at hmem
    exact hmem.2 ▸ hroot

theorem DotRoot.ref_eq {s : Fs} (h : DotRoot s) (k : InodeId) :
    ((s.setLocked smallIp false).inode k).ref = if k = smallIp then 1 else 0 := by
  rw [← h.ref k, Fs.setLocked, Fs.setInode_inode, Function.update_apply]
  split
  · next hk => rw [hk]
  · rfl

theorem DotRoot.unlocked {s : Fs} (h : DotRoot s) (k : InodeId) :
    ((s.setLocked smallIp false).inode k).locked = false := by
  by_cases hk : k = smallIp
  · rw [hk, Fs.setLocked_inode_self]
  · rw [Fs.setLocked, Fs.setInode_inode_of_ne _ _ _ hk]
    exact h.locked k hk

/-- There is room in the table. -/
theorem DotRoot.room {s : Fs} (h : DotRoot s) :
    2 ≤ (Finset.univ.filter fun k => ((s.setLocked smallIp false).inode k).ref = 0).card := by
  have hset : (Finset.univ.filter fun k => ((s.setLocked smallIp false).inode k).ref = 0) =
      Finset.univ.filter fun k => (if k = smallIp then (1 : Int) else 0) = 0 :=
    Finset.filter_congr fun k _ => by rw [h.ref_eq]
  rw [hset]
  decide +kernel

theorem DotRoot.rootType {s : Fs} (h : DotRoot s) :
    ((s.setLocked smallIp false).dinode ROOTINO).type = T_DIR := h.directory.isDir.type

/-- The entry leads back to the root, and there is no other one. -/
theorem DotRoot.step_dot {s : Fs} (h : DotRoot s) :
    (s.setLocked smallIp false).step ROOTINO [46] = some ROOTINO := by
  rw [Fs.step_of_dir h.rootType]
  exact h.lookup

theorem DotRoot.step_a {s : Fs} (h : DotRoot s) : (s.setLocked smallIp false).step ROOTINO [97] = none := by
  rw [Fs.step_of_dir h.rootType]
  show s.lookup 1 [97] = none
  rw [Fs.lookup, h.table]
  decide

/-- In the root that has an entry for itself, `/./.` leads to the root over two entries, `/./a` leads
nowhere, and what could be made at `/./a` is an entry of the root. -/
theorem path_resolution_dot : ∃ s, DotRoot s ∧
    (∃ ip s', (ideal (namei smallIp [47, 46, 47, 46])).run (s.setLocked smallIp false) =
        .ok (some ip, s') ∧ (s'.inode ip).inum = ROOTINO) ∧
    (∃ s', (ideal (namei smallIp [47, 46, 47, 97])).run (s.setLocked smallIp false) =
        .ok (none, s')) ∧
    ∃ ip s', (ideal (nameiparent smallIp [47, 46, 47, 97])).run (s.setLocked smallIp false) =
        .ok (some (ip, [97]), s') ∧ (s'.inode ip).inum = ROOTINO := by
  obtain ⟨s, -, h⟩ := dotRoot
  refine ⟨s, h, ?_⟩
  have htree := h.tree
  have href := h.ref_eq
  have hlock := h.unlocked
  have hroom := h.room
  have htype := h.rootType
  have hdot := h.step_dot
  have hno := h.step_a
  have hinum : ((s.setLocked smallIp false).inode smallIp).inum = ROOTINO := by
    rw [Fs.setLocked_inode_self]
    exact h.inum
  generalize s.setLocked smallIp false = q at *
  have hnonneg : ∀ k, 0 ≤ (q.inode k).ref := by
    intro k
    rw [href]
    split <;> decide
  have hcwd : 0 < (q.inode smallIp).ref := by
    rw [href, if_pos rfl]
    decide
  have hstart : ∀ path, q.start smallIp (47 :: path) = ROOTINO := fun _ => if_pos rfl
  have hresolve := fun path =>
    @path_resolution q smallIp path htree hroom hnonneg hlock hcwd (by rw [hinum, htype]; decide)
  have hdots : components [47, 46, 47, 46] = [[46], [46]] := by decide
  have hdota : components [47, 46, 47, 97] = [[46], [97]] := by decide
  have hnamea : ∀ c ∈ [47, 46, 47, 97], c ≠ (0 : UInt8) := by simp
  refine ⟨?_, ?_, ?_⟩
  · obtain ⟨r, s', hrun, -, hr⟩ := (hresolve [47, 46, 47, 46] (by simp)).1
    rw [hstart, hdots, Fs.walk_cons, hdot, Option.bind_some, Fs.walk_cons, hdot, Option.bind_some] at hr
    obtain ⟨ip, rfl, hip⟩ := Option.map_eq_some_iff.1 hr
    exact ⟨ip, s', hrun, hip⟩
  · obtain ⟨r, s', hrun, -, hr⟩ := (hresolve [47, 46, 47, 97] hnamea).1
    rw [hstart, hdota, Fs.walk_cons, hdot, Option.bind_some, Fs.walk_cons, hno, Option.bind_none] at hr
    rw [Option.map_eq_none_iff.1 hr] at hrun
    exact ⟨s', hrun⟩
  · obtain ⟨r, s', hrun, -, hr⟩ := (hresolve [47, 46, 47, 97] hnamea).2
    have hparent : q.walkParent ROOTINO [[46], [97]] = some (ROOTINO, [97]) := by
      have hwalk : q.walk ROOTINO [[46]] = some ROOTINO := by
        rw [Fs.walk_cons, hdot, Option.bind_some]
        rfl
      show (q.walk ROOTINO [[46]]).bind _ = _
      rw [hwalk, Option.bind_some, if_pos htype]
      rfl
    rw [hstart, hdota, hparent] at hr
    obtain ⟨⟨ip, name⟩, rfl, hip⟩ := Option.map_eq_some_iff.1 hr
    obtain ⟨hip, rfl⟩ := Prod.mk.inj hip
    exact ⟨ip, s', hrun, hip⟩

/-- A disk of 64 blocks with 63 inodes. -/
def crowdedSb : Superblock where
  size := 64
  nblocks := 43
  ninodes := 64
  nlog := 12
  logstart := 2
  inodestart := 14
  bmapstart := 20

/-- A block of inodes that are empty directories. -/
def emptyDirs : Block := (List.range IPB).foldl (fun b k => b.setDinode k emptyDir) (Bytes.zero BSIZE)

/-- All inodes are empty directories, and all entries of the table of in-core inodes are in use, none
of them for the root. -/
def crowded : Fs where
  mem :=
    { sb := crowdedSb
      log := smallLog
      inodes := fun k => ⟨k.val + 2, 1, false, true, emptyDir⟩ }
  dev :=
    { data := fun b => if b = 20 then Bytes.write (Bytes.zero BSIZE) 0 [255, 255, 31] else emptyDirs
      issued := [] }

theorem dinode_emptyDirs {k : Nat} (hk : k < IPB) : emptyDirs.dinode k = emptyDir := by
  have hfold : ∀ (ks : List Nat) (b : Block), (∀ j ∈ ks, j < IPB) → k ∈ ks ∨ b.dinode k = emptyDir →
      (ks.foldl (fun b k => b.setDinode k emptyDir) b).dinode k = emptyDir := by
    intro ks
    induction ks with
    | nil => exact fun b _ h => h.resolve_left List.not_mem_nil
    | cons j ks ih =>
      intro b hks h
      refine ih _ (fun i hi => hks i (List.mem_cons_of_mem j hi)) ?_
      by_cases hkj : k = j
      · subst hkj
        exact .inr (Block.dinode_setDinode (hks k List.mem_cons_self) emptyDir_blank.fits)
      · rw [Block.dinode_setDinode_of_ne hkj]
        exact h.imp_left fun hmem => (List.mem_cons.1 hmem).resolve_left hkj
  exact hfold _ _ (fun j hj => List.mem_range.1 hj) (.inl (List.mem_range.2 hk))

theorem crowded_dinode {i : Nat} (hi : i < 64) : crowded.dinode i = emptyDir := by
  have hblock : crowdedSb.iblock i ≠ 20 := by
    show i / IPB + 14 ≠ 20
    have : i / IPB < 4 := Nat.div_lt_of_lt_mul hi
    omega
  show Block.dinode (crowded.data (crowdedSb.iblock i)) (i % IPB) = emptyDir
  have hdata : crowded.data (crowdedSb.iblock i) = emptyDirs := if_neg hblock
  rw [hdata]
  exact dinode_emptyDirs (Nat.mod_lt _ (by decide))

theorem crowded_slots (p : Nat × Slot) : crowded.slots crowded.dinode p = 0 := by
  obtain ⟨i, sl⟩ := p
  rw [Fs.slots, Xv6pp.slots]
  split
  · next hp =>
    rw [crowded_dinode hp.1.2]
    cases sl with
    | addr k => rfl
    | entry j => rfl
  · rfl

theorem crowdedSb_layout : crowdedSb.Layout where
  log_le := by decide
  inodes_le := by decide
  inodes {i} hi := by
    have hlt : i / IPB < 4 := Nat.div_lt_of_lt_mul hi.2
    show i / IPB + 14 < 20
    omega
  bitmap {b} hb := by
    have hlt : b < 64 := hb
    show b / BPB + 20 < 21
    rw [Nat.div_eq_of_lt (lt_trans hlt (by decide))]
    decide
  pos := by decide
  word := by decide

theorem crowded_bit : ∀ b < 64, crowded.bit b = decide (b < 21) := by
  intro b hb
  have hblock : crowdedSb.bblock b = 20 := by
    show b / BPB + 20 = 20
    rw [Nat.div_eq_of_lt (lt_trans hb (by decide))]
  have hbits : ∀ b < 64, Block.bit (Bytes.write (Bytes.zero BSIZE) 0 [255, 255, 31]) (b % BPB) =
      decide (b < 21) := by decide +kernel
  show Block.bit (crowded.data (crowdedSb.bblock b)) (b % BPB) = _
  rw [hblock]
  exact hbits b hb

theorem crowded_inum (k : InodeId) : crowdedSb.IsInum (k.val + 2) := by
  have hk : k.val < 50 := k.2
  refine ⟨Nat.succ_pos _, ?_⟩
  show k.val + 2 < 64
  omega

theorem crowded_sane : crowded.Sane where
  consistent :=
    { inum := fun {k} _ => crowded_inum k
      copy := fun {k} _ _ => (crowded_dinode (crowded_inum k).2).symm
      uniq := fun {j k} _ _ e => by
        have hjk : j.val + 2 = k.val + 2 := e
        exact Fin.ext (by omega)
      layout := crowdedSb_layout
      log := ⟨smallLog_ok.committable, rfl, rfl⟩
      blocks :=
        { pos := crowdedSb_layout.pos
          inj := fun hne _ => absurd (crowded_slots _) hne
          range := fun hne => absurd (crowded_slots _) hne
          fresh := nofun
          used := fun {b} hb => by
            rw [crowded_bit b hb, decide_eq_true_eq]
            refine ⟨.inl, ?_⟩
            rintro (hlt | ⟨p, hp, hne⟩ | hloose)
            · exact hlt
            · exact absurd ((crowded_slots p).symm.trans hp).symm hne
            · cases hloose }
      disk := fun _ _ => rfl
      fits := fun _ => Dinode.fits_ofBytes _ }
  noHoles i hi ht bn hbn := by
    rw [crowded_dinode hi.2] at hbn
    exact absurd hbn (Nat.not_lt_zero _)

theorem crowded_tree : crowded.Tree := by
  refine ⟨crowded_sane, fun d hd ht => ⟨ht, ?_⟩, fun d k name x hd ht hk => ?_, by decide, ?_, .inl ?_⟩
  · rw [crowded_dinode hd.2]
    rfl
  · have hlen : (crowded.table d).length = 0 := by
      rw [Fs.length_table, crowded_dinode hd.2]
      rfl
    rw [List.eq_nil_of_length_eq_zero hlen] at hk
    cases hk
  · rw [crowded_dinode (by decide)]
    decide
  · rw [crowded_dinode (by decide)]
    decide

/-- Without an entry to spare in the table of in-core inodes, not even `/` is resolved. -/
theorem path_resolution_full : crowded.Tree ∧ (∀ k, 0 < (crowded.inode k).ref) ∧
    (∀ k, (crowded.inode k).locked = false) ∧
    crowded.walk (crowded.start smallIp [slash]) (components [slash]) = some ROOTINO ∧
    (ideal (namei smallIp [slash])).run crowded = .error .igetNoInodes := by
  have hres : (match (ideal (namei smallIp [slash])).run crowded with
      | .ok _ => false
      | .error e => decide (e = .igetNoInodes)) = true := by decide +kernel
  refine ⟨crowded_tree, fun _ => Int.one_pos, fun _ => rfl, rfl, ?_⟩
  split at hres
  · cases hres
  · next e he => rw [he, of_decide_eq_true hres]

end Xv6pp
