import Xv6pp.Fs.Namex
import Xv6pp.Fs.Sysfile

/-!
# Keeping the file system in order

The functions that change inodes and directories keep the file system in good order: no inode gets a
hole, directories consist of whole entries, which name inodes, and the inodes that are valid in core
are allocated.  `Upkeep s₀ h l s` says so of a function that began in the state `s₀` and holds the
references `h`; there is one rule for each function of the inode layer, which also accounts for the
blocks that are logged.

The panics that these rules do not exclude are those of `MayStop`, which have to do with the table of
in-core inodes and with names that lead nowhere, and those of the log if there is no room (`Budget`).
-/

set_option autoImplicit false

namespace Xv6pp

open Prog FileSystem Allocation

/-! ## Changing the disk inode -/

/-- The inode `i` has become `d`. -/
structure Became (s : Fs) (ip : InodeId) (i : Nat) (d : Dinode) (s' : Fs) : Prop where
  sane : s'.Sane
  sb : s'.sb = s.sb
  inode : s'.inode = Function.update s.inode ip { s.inode ip with copy := d }
  dinode : ∀ j, s.sb.IsInum j → s'.dinode j = if j = i then d else s.dinode j
  bytes : s'.fileByte s'.dinode = s.fileByte s.dinode

section
variable {E : Panic → Prop} {s s' : Fs} {i j n : Nat} {ip : InodeId} {d : Dinode} {S : Finset Nat}

/-- `iupdate` of an inode that has changed in core, but for its blocks and its size. -/
theorem Fs.Sane.wp_became (h : s.Sane) (hip : Core s ip i) (hd : d.Fits)
    (hslots : s.slots (Function.update s.dinode i d) = s.slots s.dinode)
    (hsize : d.type ≠ 0 → (s.dinode i).type ≠ 0 ∧ d.size = (s.dinode i).size)
    (hi : s.sb.iblock i ∈ S) (hB : Budget E S n s) :
    wp (ideal (iupdate ip)) E (fun _ s' => Became s ip i d s' ∧ Budget E S n s')
      (s.setInode ip { s.inode ip with copy := d }) := by
  have hset := (h.consistent.weaken (some i)).setCopy hip hd (hslots ▸ h.consistent.blocks)
  have hip' : Core (s.setInode ip { s.inode ip with copy := d }) ip i := by
    refine ⟨?_, ?_, ?_⟩
    all_goals rw [Fs.setInode_inode_self]
    · exact hip.ref
    · exact hip.valid
    · exact hip.inum
  rw [← Nat.zero_add n] at hB
  refine wp_budget (s := s.setInode ip _) hB (fun E hE => ?_) fun E hE hroom => ?_
  · refine wp_imp (wp_iupdate hE hset hip') ?_
    rintro _ s' ⟨hc, ho⟩
    have hslots' : s'.slots (Function.update s.dinode i d) = s.slots s.dinode :=
      (ho.slots hset).trans hslots
    refine ⟨hc.sane fun j hj ht bn hbn => ?_, ho.sb, ?_, fun j hj => ?_, ?_⟩
    · rw [Fs.fileBlock_congr hslots']
      rw [ho.sb] at hj
      by_cases hji : j = i
      · subst hji
        rw [Function.update_self] at ht hbn
        obtain ⟨ht', hs'⟩ := hsize ht
        exact h.noHoles j hj ht' bn (hs' ▸ hbn)
      · rw [Function.update_of_ne hji] at ht hbn
        exact h.noHoles j hj ht bn hbn
    · rw [ho.inode]
      rfl
    · have hj' : s'.sb.IsInum j := ho.sb ▸ hj
      rw [hc.disk hj' nofun, Function.update_apply]
    · rw [hc.fileByte_dinode]
      funext j o
      rw [ho.fileByte hset]
      exact Fs.fileByte_congr (congrFun hslots _) fun _ => rfl
  · refine wp_imp (room_iupdate (s := s.setInode ip _) (k := n) ?_ ?_) fun _ _ hs => hs.room
    · rw [Fs.setInode_inode_self]
      show s.sb.iblock (s.inode ip).inum ∈ S
      rw [hip.inum]
      exact hi
    · rw [← Nat.zero_add n]
      exact hroom

theorem Became.content (hb : Became s ip i d s')
    (hsize : (s'.dinode j).size = (s.dinode j).size) : s'.content j = s.content j := by
  rw [Fs.content, Fs.content, hsize]
  refine Fs.fileBytes_congr fun o _ => ?_
  rw [hb.bytes]

/-- A change of other fields than the addresses and the size. -/
theorem Became.alters (hb : Became s ip i d s') (hi : s.sb.IsInum i) (htype : d.type = (s.dinode i).type)
    (hsize : d.size = (s.dinode i).size) : s.Alters i s' ∧ s'.content i = s.content i := by
  have hself := hb.dinode i hi
  rw [if_pos rfl] at hself
  refine ⟨⟨hb.sane, hb.sb, fun k => ?_, by rw [hself, htype], fun j hj hne => ?_⟩,
    hb.content (by rw [hself, hsize])⟩
  · rw [hb.inode, Function.update_apply]
    split
    · next hk =>
      rw [hk]
      exact ⟨rfl, rfl, rfl, rfl⟩
    · exact ⟨rfl, rfl, rfl, rfl⟩
  · have hother := hb.dinode j hj
    rw [if_neg hne] at hother
    exact ⟨hother, hb.content (by rw [hother])⟩

/-- `iupdate` after a change of the links or the device numbers. -/
theorem Fs.Sane.wp_updateFields (h : s.Sane) (hip : Core s ip i) (ht : (s.dinode i).type ≠ 0) (hd : d.Fits)
    (htype : d.type = (s.dinode i).type) (hsize : d.size = (s.dinode i).size)
    (haddrs : d.addrs = (s.dinode i).addrs) (hi : s.sb.iblock i ∈ S) (hB : Budget E S n s) :
    wp (ideal (iupdate ip)) E (fun _ s' => (s.Alters i s' ∧ s'.dinode i = d ∧
      s'.content i = s.content i) ∧ Budget E S n s') (s.setInode ip { s.inode ip with copy := d }) := by
  refine wp_imp (h.wp_became hip hd (slots_update_fields ?_ haddrs) (fun _ => ⟨ht, hsize⟩) hi hB) ?_
  · rw [htype]
  rintro _ s' ⟨hb, hB'⟩
  have hisInum := hip.isInum h.consistent
  obtain ⟨halters, hcontent⟩ := hb.alters hisInum htype hsize
  exact ⟨⟨halters, by rw [hb.dinode i hisInum, if_pos rfl], hcontent⟩, hB'⟩

end

/-! ## What is kept -/

/-- The panics that a file system in good order does not exclude. -/
structure MayStop (E : Panic → Prop) : Prop where
  /-- The table of in-core inodes is full. -/
  noInodes : E .igetNoInodes
  /-- A name leads to a free inode. -/
  noType : E .ilockNoType
  /-- An inode that should be a directory is not. -/
  notDir : E .dirlookupNotDir
  /-- An inode is locked already. -/
  deadlock : E .deadlock

/-- The entries of the directory `d` name inodes. -/
def Fs.NamesInodes (s : Fs) (d : Nat) : Prop :=
  ∀ (k : Nat) (name : List UInt8) (x : Nat), (s.table d)[k]? = some (some (name, x)) → s.sb.IsInum x

/-- Directories consist of whole entries, which name inodes. -/
structure Fs.Whole (s : Fs) : Prop where
  dirs : ∀ d, s.sb.IsInum d → (s.dinode d).type = T_DIR → s.IsDir d
  names : ∀ d, s.sb.IsInum d → (s.dinode d).type = T_DIR → s.NamesInodes d

/-- A session in which the file system is in good order. -/
structure Upkeep (s₀ : Fs) (h : Multiset Token) (l : Finset InodeId) (s : Fs) : Prop
    extends Session s₀ h l s where
  typed₀ : s₀.Typed
  whole : s.Whole
  sb : s.sb = s₀.sb
  /-- The inodes that were in core are still what they were. -/
  kinds : ∀ k, 0 < (s₀.inode k).ref → (s₀.dinode (s₀.inode k).inum).type ≠ 0 →
    (s.dinode (s₀.inode k).inum).type = (s₀.dinode (s₀.inode k).inum).type

section
variable {E : Panic → Prop} {s₀ s s' : Fs} {i j d n x : Nat} {ip k : InodeId} {S : Finset Nat}
  {h h' : Multiset Token} {l l' : Finset InodeId} {t : Token}

theorem SameDisk.namesInodes (hd : SameDisk s s') (hn : s.NamesInodes d) : s'.NamesInodes d := by
  rw [Fs.NamesInodes, hd.table, hd.sb]
  exact hn

/-- A change of one inode. -/
theorem Fs.Whole.of_others (hw : s.Whole) (hsb : s'.sb = s.sb)
    (hother : ∀ j, s.sb.IsInum j → j ≠ i → s'.dinode j = s.dinode j ∧ s'.content j = s.content j)
    (hi : (s'.dinode i).type = T_DIR → s'.IsDir i ∧ s'.NamesInodes i) : s'.Whole where
  dirs j hj ht := by
    by_cases hji : j = i
    · exact hji ▸ (hi (hji ▸ ht)).1
    · rw [hsb] at hj
      obtain ⟨hd, -⟩ := hother j hj hji
      rw [hd] at ht
      have hdir := hw.dirs j hj ht
      exact ⟨hd ▸ hdir.type, hd ▸ hdir.size⟩
  names j hj ht := by
    by_cases hji : j = i
    · exact hji ▸ (hi (hji ▸ ht)).2
    · rw [hsb] at hj
      obtain ⟨hd, hc⟩ := hother j hj hji
      rw [hd] at ht
      have hnames := hw.names j hj ht
      rw [Fs.NamesInodes, Fs.table, hc, hsb]
      exact hnames

theorem Fs.Whole.sameDisk (hw : s.Whole) (hd : SameDisk s s') : s'.Whole where
  dirs j hj ht := by
    rw [hd.sb] at hj
    rw [hd.dinode] at ht
    exact hd.isDir (hw.dirs j hj ht)
  names j hj ht := by
    rw [hd.sb] at hj
    rw [hd.dinode] at ht
    exact hd.namesInodes (hw.names j hj ht)

theorem Fs.Typed.alters (ht : s.Typed) (hs : s.Sane) (ha : s.Alters i s') : s'.Typed := by
  intro k hr hv
  obtain ⟨href, hinum, hvalid, -⟩ := ha.incore k
  rw [href] at hr
  rw [hvalid] at hv
  rw [hinum, ha.type_eq (hs.consistent.inum hr)]
  exact ht k hr hv

theorem Refs.alters (hr : Refs s₀ h s) (ha : s.Alters i s') : Refs s₀ h s' := hr.congr fun k => by
  obtain ⟨href, hinum, hvalid, -⟩ := ha.incore k
  exact ⟨href, hinum, fun hv => hvalid.trans hv⟩

namespace Upkeep

theorem isTyped (hu : Upkeep s₀ h l s) : s.Typed := hu.typed hu.typed₀

/-- A reference to a valid inode. -/
theorem core (hu : Upkeep s₀ h l s) (ht : t ∈ h) (hv : t.valid = true) :
    Core s t.ip t.inum ∧ (s.dinode t.inum).type ≠ 0 := by
  have hcore := hu.refs.core ht hv
  have htype := hu.isTyped t.ip hcore.ref hcore.valid
  rw [hcore.inum] at htype
  exact ⟨hcore, htype⟩

/-- A function that leaves the disk alone. -/
theorem sameDisk (hu : Upkeep s₀ h l s) (hs : Session s₀ h' l' s') (hd : SameDisk s s') :
    Upkeep s₀ h' l' s' :=
  ⟨hs, hu.typed₀, hu.whole.sameDisk hd, hd.sb.trans hu.sb, fun k hr ht => by
    rw [hd.dinode]
    exact hu.kinds k hr ht⟩

/-- An inode that was in core at the beginning still is. -/
theorem still (hu : Upkeep s₀ h l s) (hr : 0 < (s₀.inode k).ref) :
    0 < (s.inode k).ref ∧ (s.inode k).inum = (s₀.inode k).inum ∧ s.sb.IsInum (s₀.inode k).inum := by
  have href := hu.refs.ref k
  have hinum := hu.refs.inum k hr
  have hpos : 0 < (s.inode k).ref := by omega
  exact ⟨hpos, hinum, hinum ▸ hu.sane.consistent.inum hpos⟩

/-- A function that alters one inode. -/
theorem alters (hu : Upkeep s₀ h l s) (ha : s.Alters i s')
    (hi : (s.dinode i).type = T_DIR → s'.IsDir i ∧ s'.NamesInodes i) : Upkeep s₀ h l s' where
  refs := hu.refs.alters ha
  sane := ha.sane
  locked k := by
    obtain ⟨-, -, -, hlocked⟩ := ha.incore k
    rw [hlocked]
    exact hu.locked k
  typed h0 := (hu.typed h0).alters hu.sane ha
  typed₀ := hu.typed₀
  whole := hu.whole.of_others ha.sb ha.other fun ht => hi (ha.type ▸ ht)
  sb := ha.sb.trans hu.sb
  kinds k hr ht := by
    obtain ⟨-, -, hisInum⟩ := hu.still hr
    rw [ha.type_eq hisInum]
    exact hu.kinds k hr ht

/-- A function that alters fields of one inode, and not its content. -/
theorem alters_fields (hu : Upkeep s₀ h l s) (hisInum : s.sb.IsInum i) (ha : s.Alters i s')
    (hsize : (s'.dinode i).size = (s.dinode i).size) (hcontent : s'.content i = s.content i) :
    Upkeep s₀ h l s' := by
  refine hu.alters ha fun ht => ⟨⟨ha.type.trans ht, ?_⟩, ?_⟩
  · rw [hsize]
    exact (hu.whole.dirs i hisInum ht).size
  · rw [Fs.NamesInodes, Fs.table, hcontent, ha.sb]
    exact hu.whole.names i hisInum ht

end Upkeep

/-! ## References and locks -/

theorem isShort_zero : Dinode.IsShort 0 := by decide

theorem isShort_one : Dinode.IsShort 1 := by decide

theorem MayStop.vacant (hE : MayStop E) (s : Fs) : Vacant E s := .inl hE.noInodes

/-- **`iput`**, which may free the inode. -/
theorem Upkeep.wp_iput (hu : Upkeep s₀ (t ::ₘ h) l s) (hE : MayStop E) (hS : s₀.sb.BitmapIn S)
    (hi : s₀.sb.iblock t.inum ∈ S) (hB : Budget E S n s) :
    wp (ideal (iput t.ip)) E (fun _ s' => (Upkeep s₀ h l s' ∧
      ∀ j, s.sb.IsInum j → j ≠ t.inum → s'.dinode j = s.dinode j) ∧ Budget E S n s') s := by
  rw [← hu.sb] at hS hi
  have hmem := Multiset.mem_cons_self t h
  have hpos := hu.refs.ref_pos hmem
  have hinum := (hu.refs.held t hmem).1
  by_cases hkeep : (s.inode t.ip).ref = 1 → (s.inode t.ip).valid = true → (s.dinode t.inum).nlink ≠ 0
  · refine wp_imp (hu.wp_iput_keep hkeep) ?_
    rintro _ s' ⟨hs', hd⟩
    exact ⟨⟨hu.sameDisk hs' hd, fun j _ _ => by rw [hd.dinode]⟩, hB.congr hd.log⟩
  push Not at hkeep
  obtain ⟨hone, hvalid, hnlink⟩ := hkeep
  have hcore : Core s t.ip t.inum := ⟨hpos, hvalid, hinum⟩
  have htype : (s.dinode t.inum).type ≠ 0 := hinum ▸ hu.isTyped t.ip hpos hvalid
  rw [iput]
  simp only [wp_ideal_bind, wp_inode]
  rw [if_pos ⟨hone, hvalid, by rw [hcore.copy hu.sane.consistent]; exact hnlink⟩, acquire]
  simp only [wp_ideal_bind, wp_inode]
  split
  · exact hE.deadlock
  next hunlocked =>
  rw [wp_updateInode]
  -- the inode is truncated
  refine wp_imp ((hu.sane.setLocked true).wp_itrunc (k := n) (hcore.setLocked true) htype hS hi hB) ?_
  rintro _ s₂ ⟨⟨ha, hdin, -⟩, hB₂⟩
  have hcore₂ := ha.core (hcore.setLocked true)
  have hfits := ha.sane.consistent.fits t.inum
  -- and its type cleared
  rw [wp_updateCopy, hcore₂.copy ha.sane.consistent]
  refine wp_imp (ha.sane.wp_became (n := n) (S := S) hcore₂
    ⟨isShort_zero, hfits.major, hfits.minor, hfits.nlink, hfits.size, hfits.addrs⟩
    (slots_update_empty (fun sl => ?_) (.inl rfl)) (fun hne => absurd rfl hne) (ha.sb ▸ hi) hB₂) ?_
  · rw [Xv6pp.slots]
    split
    · rw [hdin]
      cases sl with
      | addr k => rfl
      | entry j => rfl
    · rfl
  rintro _ s₃ ⟨hb, hB₃⟩
  simp only [wp_updateInode, Fs.setInode_inode_self, Fs.setInode_setInode]
  obtain ⟨href, hinum₂, hvalid₂, hlocked₂⟩ := ha.incore t.ip
  have hself : s₃.inode t.ip = { s₂.inode t.ip with
      copy := { s₂.dinode t.inum with type := 0 } } := by rw [hb.inode, Function.update_self]
  have hlock : (s.setLocked t.ip true).inode t.ip = { s.inode t.ip with locked := true } :=
    Fs.setLocked_inode_self _
  rw [hlock] at href hinum₂ hvalid₂
  have hkeep : ∀ k, k ≠ t.ip → s₃.inode k = s₂.inode k ∧ (s.setLocked t.ip true).inode k = s.inode k :=
    fun k hk => ⟨by rw [hb.inode, Function.update_of_ne hk], Fs.setInode_inode_of_ne _ _ _ hk⟩
  have hsame : ∀ j, s.sb.IsInum j → j ≠ t.inum →
      s₃.dinode j = s.dinode j ∧ s₃.content j = s.content j := fun j hj hne => by
    have hj₂ : s₂.sb.IsInum j := ha.sb ▸ hj
    obtain ⟨hd, hc⟩ := ha.other j hj hne
    have hd₃ := hb.dinode j hj₂
    rw [if_neg hne] at hd₃
    refine ⟨hd₃.trans hd, ?_⟩
    rw [hb.content (by rw [hd₃]), hc]
    rfl
  have hrefs₁ : Refs s₀ (t ::ₘ h) (s.setLocked t.ip true) := hu.refs.congr_setInode rfl rfl id
  have hrefs₃ : Refs s₀ (t ::ₘ h) s₃ := by
    refine (hrefs₁.alters ha).congr fun k => ?_
    rw [hb.inode, Function.update_apply]
    split
    · next hk =>
      rw [hk]
      exact ⟨rfl, rfl, id⟩
    · exact ⟨rfl, rfl, id⟩
  refine ⟨⟨⟨⟨hrefs₃.drop rfl rfl fun hr => ?_, ?_, fun k => ?_, fun h0 => ?_⟩, hu.typed₀, ?_, ?_,
    fun k hr ht => ?_⟩, fun j hj hne => (hsame j hj hne).1⟩, hB₃⟩
  · rw [hself] at hr
    simp only [href, hone] at hr
    omega
  · refine hb.sane.setInode (fun hr => ?_) (fun _ => nofun) fun hr => ?_
    all_goals
      rw [hself] at hr
      simp only [href, hone] at hr
      omega
  · rw [Fs.setInode_inode, Function.update_apply]
    split
    · next hk =>
      subst hk
      refine iff_of_false Bool.false_ne_true fun hl => ?_
      exact hunlocked ((hu.locked _).2 hl)
    · next hk =>
      obtain ⟨-, -, -, hlk⟩ := ha.incore k
      rw [(hkeep k hk).1, hlk, (hkeep k hk).2]
      exact hu.locked k
  · intro k hr hv
    rw [Fs.setInode_inode, Function.update_apply] at hr hv ⊢
    split at hv
    · cases hv
    · next hk =>
      obtain ⟨hr₂, hi₂, hv₂, -⟩ := ha.incore k
      rw [if_neg hk] at hr ⊢
      rw [(hkeep k hk).1, hr₂, (hkeep k hk).2] at hr
      rw [(hkeep k hk).1, hv₂, (hkeep k hk).2] at hv
      rw [(hkeep k hk).1, hi₂, (hkeep k hk).2]
      have hne : (s.inode k).inum ≠ t.inum := fun e =>
        hk (hu.sane.consistent.uniq hr hpos (e.trans hinum.symm))
      show (s₃.dinode _).type ≠ 0
      rw [(hsame _ (hu.sane.consistent.inum hr) hne).1]
      exact hu.isTyped k hr hv
  · refine hu.whole.of_others (i := t.inum) (hb.sb.trans ha.sb) hsame fun ht => ?_
    have hself₃ := hb.dinode t.inum (ha.sb ▸ hcore.isInum hu.sane.consistent)
    rw [if_pos rfl] at hself₃
    replace ht : (s₃.dinode t.inum).type = T_DIR := ht
    rw [hself₃] at ht
    cases ht
  · exact hb.sb.trans (ha.sb.trans hu.sb)
  · -- the inode that goes away was not in core at the beginning
    obtain ⟨hpos', hinum', hisInum⟩ := hu.still hr
    have hne : (s₀.inode k).inum ≠ t.inum := fun e => by
      have hkt := hu.sane.consistent.uniq hpos' hpos (hinum'.trans (e.trans hinum.symm))
      have hkref := hu.refs.ref k
      have htoken := refsTo_pos hmem
      rw [← hkt] at hone htoken
      omega
    show (s₃.dinode _).type = _
    rw [(hsame _ hisInum hne).1]
    exact hu.kinds k hr ht

end

/-! ## Inodes and their contents -/

section
variable {E : Panic → Prop} {s₀ s s' : Fs} {i j d n x : Nat} {ip k : InodeId} {S : Finset Nat}
  {h h' : Multiset Token} {l l' : Finset InodeId} {t : Token}

theorem Dinode.fits_fresh {type : Int} (htype : Dinode.IsShort type) : (Dinode.fresh type).Fits :=
  ⟨htype, isShort_zero, isShort_zero, isShort_zero, Nat.two_pow_pos 32, fun _ => Nat.two_pow_pos 32⟩

/-- The inodes after `ialloc` has taken one. -/
theorem Fs.dinode_fresh {type : Int} {lg : Log} (htype : Dinode.IsShort type) (j : Nat) :
    ((s.store (s.sb.iblock x) ((s.data (s.sb.iblock x)).setDinode (x % IPB) (.fresh type))).setLog lg).dinode
      j = Function.update s.dinode x (.fresh type) j := by
  rw [Fs.dinode_setLog, Fs.dinode_store_iblock (Dinode.fits_fresh htype), Function.update_apply]

/-- A free inode is allocated on the disk. -/
theorem Upkeep.allocated {type : Int} {lg : Log} (hu : Upkeep s₀ h l s) (hx : s.sb.IsInum x)
    (hfree : (s.dinode x).type = 0) (htype : Dinode.IsShort type) (hl : LogOk s.sb lg) :
    Upkeep s₀ h l ((s.store (s.sb.iblock x)
      ((s.data (s.sb.iblock x)).setDinode (x % IPB) (.fresh type))).setLog lg) := by
  have hfits := Dinode.fits_fresh htype
  have hdin := @Fs.dinode_fresh s x type lg htype
  have honly : InodesOnly s ((s.store (s.sb.iblock x)
      ((s.data (s.sb.iblock x)).setDinode (x % IPB) (.fresh type))).setLog lg) := by
    refine ⟨rfl, rfl, fun {b} hb => ?_⟩
    rw [Fs.setLog_data, Fs.store_data_of_ne]
    exact (lt_of_lt_of_le (hu.sane.consistent.layout.inodes hx) hb).ne'
  have hlog : ((s.store (s.sb.iblock x)
      ((s.data (s.sb.iblock x)).setDinode (x % IPB) (.fresh type))).setLog lg).log = lg := rfl
  generalize (s.store (s.sb.iblock x)
    ((s.data (s.sb.iblock x)).setDinode (x % IPB) (.fresh type))).setLog lg = s' at hdin honly hlog ⊢
  have hc := hu.sane.consistent
  -- a free inode is not valid in core
  have hne : ∀ k, 0 < (s.inode k).ref → (s.inode k).valid = true → (s.inode k).inum ≠ x :=
    fun k hr hv e => hu.isTyped k hr hv (e ▸ hfree)
  have hslots : s'.slots s.dinode = s.slots s.dinode := honly.slots hc
  have hslots' : s'.slots (Function.update s.dinode x (.fresh type)) = s.slots s.dinode := by
    rw [← hslots]
    exact slots_update_empty (slots_eq_zero_of_free hfree) (.inr rfl)
  have hother : ∀ j, s.sb.IsInum j → j ≠ x → s'.dinode j = s.dinode j ∧ s'.content j = s.content j := by
    intro j _ hj
    have hd : s'.dinode j = s.dinode j := by rw [hdin, Function.update_of_ne hj]
    refine ⟨hd, ?_⟩
    rw [Fs.content, Fs.content, hd]
    refine Fs.fileBytes_congr fun o _ => ?_
    refine Fs.fileByte_congr ?_ fun hused => ?_
    · have hslot := congrFun hslots' (j, fileSlot ((0 + o) / BSIZE))
      rwa [← funext hdin] at hslot
    · exact honly.data (hc.layout.bmapstart_lt.le.trans (hc.blocks.range hused).1)
  have hconsistent : Consistent s' (Function.update s.dinode x (.fresh type)) none none :=
    { inum := fun {k} hr => by
        rw [honly.inode] at hr ⊢
        rw [honly.sb]
        exact hc.inum hr
      copy := fun {k} hr hv => by
        rw [honly.inode] at hr hv ⊢
        rw [Function.update_of_ne (hne k hr hv)]
        exact hc.copy hr hv
      uniq := fun {j k} hj hk e => by
        rw [honly.inode] at hj hk e
        exact hc.uniq hj hk e
      layout := honly.sb ▸ hc.layout
      log := by
        rw [honly.sb, hlog]
        exact hl
      blocks := by
        rw [honly.sb, hslots']
        exact hc.blocks.congr_bit fun c _ => honly.bit c
      disk := fun {j} _ _ => hdin j
      fits := fun j => by
        rw [Function.update_apply]
        split
        · exact hfits
        · exact hc.fits j }
  have hnoHoles : NoHoles s' (Function.update s.dinode x (.fresh type)) := by
    intro j hj ht bn hbn
    by_cases hjx : j = x
    · rw [hjx, Function.update_self] at hbn
      exact absurd hbn (Nat.not_lt_zero _)
    · rw [Function.update_of_ne hjx] at ht hbn
      rw [Fs.fileBlock_congr hslots']
      rw [honly.sb] at hj
      exact hu.sane.noHoles j hj ht bn hbn
  have hself : s'.dinode x = .fresh type := by rw [hdin, Function.update_self]
  refine ⟨⟨?_, hconsistent.sane hnoHoles, fun k => ?_, fun h0 k hr hv => ?_⟩, hu.typed₀, ?_,
    honly.sb.trans hu.sb, fun k hr ht => ?_⟩
  · refine hu.refs.congr fun k => ?_
    rw [honly.inode]
    exact ⟨rfl, rfl, id⟩
  · rw [honly.inode]
    exact hu.locked k
  · rw [honly.inode] at hr hv ⊢
    rw [(hother _ (hc.inum hr) (hne k hr hv)).1]
    exact hu.isTyped k hr hv
  · refine hu.whole.of_others honly.sb hother fun ht => ⟨⟨ht, by rw [hself]; rfl⟩, fun k name y hk => ?_⟩
    have hlen : (s'.table x).length = 0 := by
      rw [Fs.length_table, hself]
      exact Nat.zero_div _
    rw [List.eq_nil_of_length_eq_zero hlen] at hk
    cases hk
  · obtain ⟨-, -, hisInum⟩ := hu.still hr
    have hkind := hu.kinds k hr ht
    have hkx : (s₀.inode k).inum ≠ x := fun e => ht (by rw [← hkind, e, hfree])
    rw [(hother _ hisInum hkx).1]
    exact hkind

/-- The loop of `ialloc`. -/
theorem Upkeep.wp_iallocFrom {type : Int} (hu : Upkeep s₀ h l s) (hE : LogStops E) (hE' : MayStop E)
    (htype : Dinode.IsShort type) {inum : Nat} (hpos : 0 < inum)
    (hn : ∀ j < n, inum + j < s.sb.ninodes) :
    wp (ideal (iallocFrom s.sb type n inum)) E (fun r s' =>
      (r = none ∧ s' = s) ∨ ∃ ip x, r = some ip ∧ Upkeep s₀ (⟨ip, x, false⟩ ::ₘ h) l s' ∧
        (s'.inode ip).inum = x ∧ (s'.dinode x).type = type) s := by
  induction n generalizing inum with
  | zero => exact .inl ⟨rfl, rfl⟩
  | succ n ih =>
    have hisInum : s.sb.IsInum inum := ⟨hpos, hn 0 (Nat.succ_pos n)⟩
    rw [iallocFrom, wp_ideal_bind, wp_bread]
    split
    · next hfree =>
      simp only [wp_ideal_bind, wp_bstore]
      refine wp_logWrite (s := s.store _ _) hE hu.sane.consistent.layout hu.sane.consistent.log
        (hu.sane.consistent.layout.home_iblock hisInum) fun lg hl => ?_
      have hu₁ := hu.allocated hisInum hfree htype hl
      refine wp_imp (wp_iget (hE'.vacant _)) fun ip s₂ hgot => ?_
      simp only [wp_brelse, wp_ideal_pure]
      refine .inr ⟨ip, inum, rfl, hu₁.sameDisk (hu₁.got hgot hisInum) hgot.sameDisk, hgot.inum, ?_⟩
      rw [hgot.sameDisk.dinode]
      rw [Fs.dinode_fresh htype, Function.update_self]
      rfl
    · simp only [wp_ideal_bind, wp_brelse]
      refine ih (Nat.succ_pos _) fun j hj => ?_
      have := hn (j + 1) (by omega)
      omega

/-- **`ialloc`.** -/
theorem Upkeep.wp_ialloc {type : Int} (hu : Upkeep s₀ h l s) (hE : MayStop E) (htype : Dinode.IsShort type)
    (hB : Budget E S (1 + n) s) :
    wp (ideal (ialloc type)) E (fun r s' =>
      (r = none ∧ s' = s) ∨ ∃ ip x, r = some ip ∧ (Upkeep s₀ (⟨ip, x, false⟩ ::ₘ h) l s' ∧
        (s'.dinode x).type = type) ∧ Budget E (insert (s₀.sb.iblock x) S) n s') s := by
  have hdoes : ∀ E', LogStops E' → (∀ e, E e → E' e) → wp (ideal (ialloc type)) E' (fun r s' =>
      (r = none ∧ s' = s) ∨ ∃ ip x, r = some ip ∧ Upkeep s₀ (⟨ip, x, false⟩ ::ₘ h) l s' ∧
        (s'.inode ip).inum = x ∧ (s'.dinode x).type = type) s := fun E' hlog hsub => by
    rw [ialloc, wp_ideal_bind, wp_superblock]
    exact hu.wp_iallocFrom hlog ⟨hsub _ hE.noInodes, hsub _ hE.noType, hsub _ hE.notDir,
      hsub _ hE.deadlock⟩ htype Nat.one_pos fun j hj => by omega
  refine wp_imp (wp_budget_of hB hdoes fun E' hE' hroom =>
    wp_imp (room_ialloc hE' (by rwa [Nat.add_comm] at hroom)) fun _ _ hs => hs.1) ?_
  rintro r s' ⟨⟨hr, hs⟩ | ⟨ip, x, rfl, hu', hinum, ht⟩, hB'⟩
  · exact .inl ⟨hr, hs⟩
  · dsimp only at hB'
    rw [hinum, hu.sb] at hB'
    exact .inr ⟨ip, x, rfl, ⟨hu', ht⟩, hB'⟩

/-- `writei` from any source. -/
theorem Fs.Sane.wp_writei_any {src : Source} {off m : Nat} (hs : s.Sane) (hip : Core s ip i)
    (ht : (s.dinode i).type ≠ 0) (hS : s.sb.BitmapIn S) (hi : s.sb.iblock i ∈ S)
    (hB : Budget E S (2 * spanned off m + n) s) :
    wp (ideal (writei ip src.copy off m)) E (fun _ s' => s.Alters i s' ∧ Budget E S n s') s := by
  have hinum : s.sb.iblock (s.inode ip).inum ∈ S := by
    rw [hip.inum]
    exact hi
  refine wp_budget hB (fun E hE => ?_) fun E hE hroom =>
    wp_imp (room_writei hE hS hinum hroom) fun _ _ hs => hs.room
  refine wp_imp (Xv6pp.wp_writei hE hs.consistent hs.noHoles hip ht) ?_
  rintro r s' (⟨-, rfl, -⟩ | ⟨tot, x, D', -, hw⟩)
  · exact .refl hs i
  · exact hw.wrote.alters hs hip hw.noHoles

namespace Upkeep

/-- **`writei`** to an inode that is not a directory. -/
theorem wp_writei {src : Source} {off m : Nat} (hu : Upkeep s₀ h l s) (hip : Core s ip i)
    (ht : (s.dinode i).type ≠ T_DIR) (hS : s₀.sb.BitmapIn S) (hi : s₀.sb.iblock i ∈ S)
    (hB : Budget E S (2 * spanned off m + n) s) :
    wp (ideal (writei ip src.copy off m)) E (fun _ s' =>
      (Upkeep s₀ h l s' ∧ s.Alters i s') ∧ Budget E S n s') s := by
  have htype : (s.dinode i).type ≠ 0 := hip.inum ▸ hu.isTyped ip hip.ref hip.valid
  rw [← hu.sb] at hS hi
  refine wp_imp (hu.sane.wp_writei_any hip htype hS hi hB) ?_
  rintro _ s' ⟨ha, hB'⟩
  exact ⟨⟨hu.alters ha fun hdir => absurd hdir ht, ha⟩, hB'⟩

/-- **`itrunc`.** -/
theorem wp_itrunc (hu : Upkeep s₀ h l s) (hip : Core s ip i) (hS : s₀.sb.BitmapIn S)
    (hi : s₀.sb.iblock i ∈ S) (hB : Budget E S n s) :
    wp (ideal (itrunc ip)) E (fun _ s' => (Upkeep s₀ h l s' ∧ s.Alters i s') ∧ Budget E S n s') s := by
  have htype : (s.dinode i).type ≠ 0 := hip.inum ▸ hu.isTyped ip hip.ref hip.valid
  rw [← hu.sb] at hS hi
  refine wp_imp (hu.sane.wp_itrunc hip htype hS hi hB) ?_
  rintro _ s' ⟨⟨ha, hdin, -⟩, hB'⟩
  refine ⟨⟨hu.alters ha fun hdir => ⟨⟨ha.type.trans hdir, ?_⟩, fun k name x hk => ?_⟩, ha⟩, hB'⟩
  · rw [hdin]
    rfl
  · have hlen : (s'.table i).length = 0 := by
      rw [Fs.length_table, hdin]
      exact Nat.zero_div _
    rw [List.eq_nil_of_length_eq_zero hlen] at hk
    cases hk

/-- `iupdate` after a change of the links or the device numbers in core. -/
theorem wp_updateFields {c : Dinode} (hu : Upkeep s₀ h l s) (hip : Core s ip i) (hc : c.Fits)
    (htype : c.type = (s.dinode i).type) (hsize : c.size = (s.dinode i).size)
    (haddrs : c.addrs = (s.dinode i).addrs) (hi : s₀.sb.iblock i ∈ S) (hB : Budget E S n s) :
    wp (ideal (iupdate ip)) E (fun _ s' => (Upkeep s₀ h l s' ∧ s.Alters i s' ∧ s'.dinode i = c ∧
      s'.content i = s.content i) ∧ Budget E S n s') (s.setInode ip { s.inode ip with copy := c }) := by
  have ht : (s.dinode i).type ≠ 0 := hip.inum ▸ hu.isTyped ip hip.ref hip.valid
  rw [← hu.sb] at hi
  refine wp_imp (hu.sane.wp_updateFields hip ht hc htype hsize haddrs hi hB) ?_
  rintro _ s' ⟨⟨ha, hdin, hcontent⟩, hB'⟩
  have hisInum := hip.isInum hu.sane.consistent
  exact ⟨⟨hu.alters_fields hisInum ha (by rw [hdin, hsize]) hcontent, ha, hdin, hcontent⟩, hB'⟩

end Upkeep

/-! ## Directories -/

/-- The bytes of an entry show its inode number modulo `2 ^ 16` only. -/
theorem Dirent.bytes_mod (name : List UInt8) : Dirent.bytes ⟨x % 2 ^ 16, name⟩ = Dirent.bytes ⟨x, name⟩ := by
  have h1 : x % 2 ^ 16 % 256 = x % 256 := by omega
  have h2 : x % 2 ^ 16 / 256 % 256 = x / 256 % 256 := by omega
  simp only [Dirent.bytes, leBytes, h1, h2]

theorem dirlink_mod (dp : InodeId) (name : List UInt8) :
    dirlink dp name (x % 2 ^ 16) = dirlink dp name x := by
  rw [dirlink, dirlink]
  simp only [Dirent.bytes_mod]

namespace Upkeep

/-- **`dirlookup`.** -/
theorem wp_dirlookup {name : List UInt8} (hu : Upkeep s₀ h l s) (hip : Core s ip d) (hE : MayStop E)
    (hname : IsName name) :
    wp (ideal (dirlookup ip name)) E (fun r s' => (r = none ∧ s' = s) ∨
      ∃ jp off x k, r = some (jp, off) ∧ Upkeep s₀ (⟨jp, x, false⟩ ::ₘ h) l s' ∧ SameDisk s s' ∧
        (s.dinode d).type = T_DIR ∧ off = sizeofDirent * k ∧
        (s.table d)[k]? = some (some (name, x))) s := by
  have hisInum := hip.isInum hu.sane.consistent
  by_cases hdir : (s.dinode d).type = T_DIR
  · refine wp_imp ((hu.whole.dirs d hisInum hdir).wp_dirlookup hu.sane hip hname (hE.vacant s)) ?_
    rintro r s' (⟨hr, hs, -⟩ | ⟨jp, off, x, hr, hfound⟩)
    · exact .inl ⟨hr, hs⟩
    · obtain ⟨k, hoff, hentry⟩ := hfound.entry
      have hx := hu.whole.names d hisInum hdir k name x hentry
      exact .inr ⟨jp, off, x, k, hr, hu.sameDisk (hu.got hfound.got hx) hfound.got.sameDisk,
        hfound.got.sameDisk, hdir, hoff, hentry⟩
  · rw [dirlookup, wp_ideal_bind, wp_inode, hip.copy hu.sane.consistent]
    rw [if_pos hdir]
    exact wp_stop.2 hE.notDir

/-- The directory after an entry for the inode `x`, or for none, was written. -/
theorem write_entry (name : List UInt8) {y : Nat} (hu : Upkeep s₀ h l s) (hdisInum : s.sb.IsInum d)
    (hdir : (s.dinode d).type = T_DIR) (hy : y = 0 ∨ s.sb.IsInum y) {m : Nat}
    (hm : m ≤ (s.table d).length) (ha : s.Alters d s') (hd' : s'.IsDir d)
    (htable : s'.table d = Slots.write (s.table d) m (Dirent.slot ⟨y, name⟩)) : Upkeep s₀ h l s' := by
  refine hu.alters ha fun _ => ⟨hd', fun m' name' x' hk => ?_⟩
  rw [htable, Slots.getElem?_write hm] at hk
  rw [ha.sb]
  split at hk
  · rw [Dirent.slot] at hk
    split at hk
    · cases hk
    · next hne =>
      cases hk
      exact hy.resolve_left hne
  · exact hu.whole.names d hdisInum hdir _ _ _ hk

/-- **`dirlink`** to an inode. -/
theorem wp_dirlink {name : List UInt8} (hu : Upkeep s₀ h l s) (hip : Core s ip d) (hE : MayStop E)
    (hname : IsName name) (hx : s₀.sb.IsInum x) (hS : s₀.sb.BitmapIn S)
    (hi : s₀.sb.iblock d ∈ S) (hB : Budget E S (2 + n) s) :
    wp (ideal (dirlink ip name x)) E (fun _ s' => (Upkeep s₀ h l s' ∧
      ∀ j, s.sb.IsInum j → (s'.dinode j).type = (s.dinode j).type) ∧ Budget E S n s') s := by
  rw [← hu.sb] at hS hi hx
  have hisInum := hip.isInum hu.sane.consistent
  by_cases hdir : (s.dinode d).type = T_DIR
  · rw [← dirlink_mod]
    refine wp_imp ((hu.whole.dirs d hisInum hdir).wp_dirlink (n := n) hu.sane hip hname
      (Nat.mod_lt _ (by decide)) (hE.vacant s) hS hi hB) ?_
    rintro r s' ⟨⟨hlinked, hd'⟩, hB'⟩
    refine ⟨?_, hB'⟩
    cases hlinked with
    | bound _ hst => exact ⟨hu.sameDisk (hu.sameTable hst) hst.toSameDisk, fun j _ => by rw [hst.dinode]⟩
    | full _ _ ha hcontent _ =>
      refine ⟨hu.alters ha fun _ => ⟨hd', ?_⟩, fun j hj => ha.type_eq hj⟩
      rw [Fs.NamesInodes, Fs.table, hcontent, ha.sb]
      exact hu.whole.names d hisInum hdir
    | added _ hk _ ha htable =>
      refine ⟨hu.write_entry name hisInum hdir ?_ hk ha hd' htable, fun j hj => ha.type_eq hj⟩
      rcases Nat.eq_zero_or_pos (x % 2 ^ 16) with h0 | hpos
      · exact .inl h0
      · exact .inr ⟨hpos, lt_of_le_of_lt (Nat.mod_le _ _) hx.2⟩
  · rw [dirlink, dirlookup]
    simp only [wp_ideal_bind, wp_inode, hip.copy hu.sane.consistent]
    rw [if_pos hdir]
    exact wp_stop.2 hE.notDir

/-- **Clearing an entry**, as `sys_unlink` does. -/
theorem wp_clear {m : Nat} {p : List UInt8 × Nat} (hu : Upkeep s₀ h l s) (hip : Core s ip d)
    (hdir : (s.dinode d).type = T_DIR) (hm : (s.table d)[m]? = some (some p)) (hS : s₀.sb.BitmapIn S)
    (hi : s₀.sb.iblock d ∈ S) (hB : Budget E S (2 + n) s) :
    wp (ideal (writeKernel ip (List.replicate sizeofDirent 0) (sizeofDirent * m))) E (fun r s' =>
      (r = sizeofDirent ∧ Upkeep s₀ h l s' ∧ s.Alters d s') ∧ Budget E S n s') s := by
  rw [← hu.sb] at hS hi
  have hisInum := hip.isInum hu.sane.consistent
  have hlt : m < (s.table d).length := (List.getElem?_eq_some_iff.1 hm).1
  refine wp_imp ((hu.whole.dirs d hisInum hdir).wp_writeEntry hu.sane hip (List.length_replicate ..)
    hlt.le hS hi hB) ?_
  rintro r s' ⟨⟨ha, hd', ⟨hr, htable⟩ | ⟨-, hlast, -⟩⟩, hB'⟩
  · refine ⟨⟨hr, hu.write_entry [] hisInum hdir (.inl rfl) hlt.le ha hd' ?_, ha⟩, hB'⟩
    exact htable
  · omega

end Upkeep

/-- The loop of `isdirempty` reads entries. -/
theorem Fs.IsDir.wp_isdiremptyFrom (hd : s.IsDir d) (hs : s.Sane) (hip : Core s ip d) {m : Nat} :
    wp (ideal (Sysfile.isdiremptyFrom ip n (sizeofDirent * m))) E (fun _ s' => s' = s) s := by
  induction n generalizing m with
  | zero => exact rfl
  | succ n ih =>
    rw [Sysfile.isdiremptyFrom, wp_ideal_bind, wp_inode, hip.copy hs.consistent]
    split
    · next hlt =>
      refine wp_ideal_seq (hd.wp_readEntry hs hip (hd.lt_length.1 hlt)) ?_
      rintro ⟨r, bytes⟩ s₁ ⟨rfl, hr, -⟩
      replace hr : r = sizeofDirent := hr
      dsimp only
      rw [if_neg (by simpa using hr)]
      have hnext := ih (m := m + 1)
      rw [Nat.mul_add, Nat.mul_one] at hnext
      split
      · exact rfl
      · exact hnext
    · exact rfl

/-- **`isdirempty`** changes nothing. -/
theorem Upkeep.wp_isdirempty (hu : Upkeep s₀ h l s) (hip : Core s ip d)
    (hdir : (s.dinode d).type = T_DIR) :
    wp (ideal (Sysfile.isdirempty ip)) E (fun _ s' => s' = s) s := by
  rw [Sysfile.isdirempty, wp_ideal_bind, wp_inode]
  exact (hu.whole.dirs d (hip.isInum hu.sane.consistent) hdir).wp_isdiremptyFrom (m := 2) hu.sane hip

/-! ## Path names -/

/-- The walk of `namex`, which may free inodes on its way. -/
theorem Upkeep.wp_namexFrom {parent : Bool} (hE : MayStop E) (hlog : LogStops E) :
    ∀ {path : List UInt8} {t : Token} {s : Fs}, path.length < n → (∀ c ∈ path, c ≠ 0) →
      Upkeep s₀ (t ::ₘ h) ∅ s →
      wp (ideal (namexFrom parent n t.ip path)) E (fun r s' => (r = none ∧ Upkeep s₀ h ∅ s') ∨
        ∃ ip name x v, r = some (ip, name) ∧ Upkeep s₀ (⟨ip, x, v⟩ ::ₘ h) ∅ s' ∧
          (parent = true → IsName name)) s := by
  have hiput : ∀ {t : Token} {h' : Multiset Token} {s : Fs}, Upkeep s₀ (t ::ₘ h') ∅ s →
      wp (ideal (iput t.ip)) E (fun _ s' => Upkeep s₀ h' ∅ s') s := fun hu =>
    wp_imp (hu.wp_iput (n := 0) hE (Superblock.bitmapIn_metadata _ _)
      (Superblock.iblock_mem_metadata _ _) (.inl hlog)) fun _ _ hpost => hpost.1.1
  have hunlockput : ∀ {t : Token} {h' : Multiset Token} {s : Fs}, Upkeep s₀ (t ::ₘ h') {t.ip} s →
      wp (ideal (iunlockput t.ip)) E (fun _ s' => Upkeep s₀ h' ∅ s') s := fun hu => by
    rw [iunlockput]
    refine wp_ideal_seq (hu.wp_iunlock (Multiset.mem_cons_self _ _) (Finset.mem_singleton_self _)) ?_
    rintro _ s₁ ⟨hs₁, hd₁⟩
    rw [Finset.erase_singleton] at hs₁
    exact hiput (hu.sameDisk hs₁ hd₁)
  induction n with
  | zero => exact fun hn => absurd hn (Nat.not_lt_zero _)
  | succ n ih =>
    intro path t s hn hpath hu
    rw [namexFrom]
    cases hskip : skipelem path with
    | none =>
      dsimp only
      split
      · exact wp_ideal_seq (hiput hu) fun _ s₁ hu₁ => .inl ⟨rfl, hu₁⟩
      · next hmode => exact .inr ⟨t.ip, [], t.inum, t.valid, rfl, hu, fun e => absurd e hmode⟩
    | some p =>
      obtain ⟨name, rest⟩ := p
      obtain ⟨hname, hrest0⟩ := isName_of_skipelem hpath hskip
      have hlt : rest.length < n := by
        have := skipelem_length hskip
        omega
      dsimp only
      refine wp_ideal_seq (hu.wp_ilock (.inr (Finset.notMem_empty _)) (.inl hE.noType)) ?_
      rintro _ s₁ ⟨hs₁, hd₁, -⟩
      rw [insert_empty_eq] at hs₁
      have hu₁ := hu.sameDisk hs₁ hd₁
      have hcore := (hu₁.core (Multiset.mem_cons_self _ _) rfl).1
      rw [wp_ideal_bind, wp_inode]
      split
      · exact wp_ideal_seq (hunlockput (t := { t with valid := true }) hu₁) fun _ s₂ hu₂ =>
          .inl ⟨rfl, hu₂⟩
      split
      · refine wp_ideal_seq (hu₁.wp_iunlock (t := { t with valid := true })
          (Multiset.mem_cons_self _ _) (Finset.mem_singleton_self _)) ?_
        rintro _ s₂ ⟨hs₂, hd₂⟩
        rw [Finset.erase_singleton] at hs₂
        exact .inr ⟨t.ip, name, t.inum, true, rfl, hu₁.sameDisk hs₂ hd₂, fun _ => hname⟩
      refine wp_ideal_seq (hu₁.wp_dirlookup hcore hE hname) ?_
      rintro r s₂ (⟨rfl, rfl⟩ | ⟨next, off, y, k, rfl, hu₂, -⟩)
      · exact wp_ideal_seq (hunlockput (t := { t with valid := true }) hu₁) fun _ s₃ hu₃ =>
          .inl ⟨rfl, hu₃⟩
      · have hu₂' : Upkeep s₀ ({ t with valid := true } ::ₘ ⟨next, y, false⟩ ::ₘ h) {t.ip} s₂ := by
          rwa [Multiset.cons_swap]
        exact wp_ideal_seq (hunlockput (t := { t with valid := true }) hu₂') fun _ s₃ hu₃ =>
          ih (t := ⟨next, y, false⟩) hlt hrest0 hu₃

/-- The directories form a tree, and so does the current directory belong to it. -/
structure Fs.Rooted (s : Fs) (cwd : InodeId) : Prop where
  tree : s.Tree
  cwd : (s.dinode (s.inode cwd).inum).type ≠ 0

/-- **`namex`**, called by a process that holds no lock.  In a tree in which every inode with a name
is kept it frees nothing, so that it needs no room in the log. -/
theorem Upkeep.wp_namex {cwd : InodeId} {path : List UInt8} {parent : Bool} (hu : Upkeep s₀ h ∅ s)
    (hE : MayStop E) (hcwd : 0 < (s.inode cwd).ref) (hpath : ∀ c ∈ path, c ≠ 0)
    (hroot : s.sb.IsInum ROOTINO) (hfree : LogStops E ∨ s.Rooted cwd) (hB : Budget E S n s) :
    wp (ideal (namex cwd path parent)) E (fun r s' =>
      ((r = none ∧ Upkeep s₀ h ∅ s') ∨ ∃ ip name x v, r = some (ip, name) ∧
        Upkeep s₀ (⟨ip, x, v⟩ ::ₘ h) ∅ s' ∧ (parent = true → IsName name)) ∧
      (s.Rooted cwd → SameDisk s s') ∧ Budget E S n s') s := by
  by_cases hrooted : s.Rooted cwd
  · have hnonneg : ∀ k, 0 ≤ (s.inode k).ref := fun k => by
      have h1 := hu.refs.ref k
      have h2 := hu.refs.nonneg k
      omega
    refine wp_imp (hrooted.tree.wp_namex (.inl hE.noInodes) hnonneg
      (fun k => hu.locked_eq_false (Finset.notMem_empty k)) hcwd hrooted.cwd hpath) ?_
    rintro r s' ⟨hd, hpost⟩
    refine ⟨?_, fun _ => hd, hB.congr hd.log⟩
    have hsession : ∀ {h' : Multiset Token}, Session s h' ∅ s' → Upkeep s₀ (h' + h) ∅ s' := fun hs =>
      hu.sameDisk ⟨hu.refs.trans hs.refs, hs.sane, hs.locked, fun h0 => hs.typed (hu.typed h0)⟩ hd
    rcases hpost with ⟨hr, hs, -⟩ | ⟨ip, name, x, v, hr, hs, hname, -⟩
    · have hs' := hsession hs
      rw [Multiset.zero_add] at hs'
      exact .inl ⟨hr, hs'⟩
    · have hs' := hsession hs
      rw [Multiset.cons_add, Multiset.zero_add] at hs'
      exact .inr ⟨ip, name, x, v, hr, hs', hname⟩
  · have hlog := hfree.resolve_right hrooted
    have hpost : ∀ {r : Option (InodeId × List UInt8)} {s' : Fs},
        ((r = none ∧ Upkeep s₀ h ∅ s') ∨ ∃ ip name x v, r = some (ip, name) ∧
          Upkeep s₀ (⟨ip, x, v⟩ ::ₘ h) ∅ s' ∧ (parent = true → IsName name)) →
        ((r = none ∧ Upkeep s₀ h ∅ s') ∨ ∃ ip name x v, r = some (ip, name) ∧
          Upkeep s₀ (⟨ip, x, v⟩ ::ₘ h) ∅ s' ∧ (parent = true → IsName name)) ∧
        (s.Rooted cwd → SameDisk s s') ∧ Budget E S n s' :=
      fun hp => ⟨hp, fun hr => absurd hr hrooted, .inl hlog⟩
    rw [namex]
    split
    · refine wp_ideal_seq (wp_iget (hE.vacant s)) fun ip s₁ hgot => ?_
      exact wp_imp (Upkeep.wp_namexFrom (t := ⟨ip, ROOTINO, false⟩) hE hlog (Nat.lt_succ_self _) hpath
        (hu.sameDisk (hu.got hgot hroot) hgot.sameDisk)) fun r s' hp => hpost hp
    · have hgot : Got s (s.inode cwd).inum cwd _ := .again hcwd rfl
      rw [idup]
      simp only [wp_ideal_bind, wp_updateInode, wp_ideal_pure]
      exact wp_imp (Upkeep.wp_namexFrom (t := ⟨cwd, (s.inode cwd).inum, false⟩) hE hlog
        (Nat.lt_succ_self _) hpath (hu.sameDisk (hu.got hgot (hu.sane.consistent.inum hcwd))
          hgot.sameDisk)) fun r s' hp => hpost hp

end

end Xv6pp
