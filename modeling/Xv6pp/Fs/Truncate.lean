import Mathlib.Data.List.Nodup
import Xv6pp.Fs.Contents

/-!
# Truncating a file

`itrunc` frees the blocks of a file one by one, while the inode and its indirect block still refer to
some of those that are already free.  So the invariant of inodes and blocks does not hold between its
steps; what is followed instead is the free map alone (`Frees`), and the invariant is established
again at the end, when no slot of the inode is left.
-/

set_option autoImplicit false

namespace Xv6pp

open Prog FileSystem Allocation

/-- The blocks `bs` were freed, and the inodes and the data blocks are as they were. -/
structure Frees (s : Fs) (bs : List Nat) (s' : Fs) : Prop where
  sb : s'.sb = s.sb
  log : LogOk s.sb s'.log
  dinode : ∀ {i}, s.sb.IsInum i → s'.dinode i = s.dinode i
  data : ∀ {c}, s.sb.datastart ≤ c → s'.data c = s.data c
  bit : ∀ {c}, c < s.sb.size → s'.bit c = (decide (c ∉ bs) && s.bit c)

section
variable {E : Panic → Prop} {s s' s'' : Fs} {D : Nat → Dinode} {b i : Nat} {bs bs' : List Nat}
  {ip : InodeId}

theorem Frees.refl (hl : LogOk s.sb s.log) : Frees s [] s where
  sb := rfl
  log := hl
  dinode _ := rfl
  data _ := rfl
  bit _ := by simp

theorem Frees.trans (h : Frees s bs s') (h' : Frees s' bs' s'') : Frees s (bs ++ bs') s'' where
  sb := h'.sb.trans h.sb
  log := by
    have := h'.log
    rwa [h.sb] at this
  dinode hi := (h'.dinode (h.sb ▸ hi)).trans (h.dinode hi)
  data hc := (h'.data (h.sb ▸ hc)).trans (h.data hc)
  bit {c} hc := by
    rw [h'.bit (h.sb ▸ hc), h.bit hc]
    simp only [List.mem_append, not_or, Bool.decide_and, Bool.and_left_comm, Bool.and_assoc]

/-- A change of an in-core inode does not concern the blocks. -/
theorem Frees.setInode (h : Frees s bs s') (v : Inode) : Frees s bs (s'.setInode ip v) :=
  ⟨h.sb, h.log, h.dinode, h.data, h.bit⟩

theorem wp_bfree_frees (hE : LogStops E) (hsb : s.sb.Layout) (hl : LogOk s.sb s.log)
    (hb : b < s.sb.size) (hbit : s.bit b = true) :
    wp (ideal (bfree b)) E (fun _ s' => Frees s [b] s' ∧ s'.inode = s.inode) s := by
  refine wp_imp (wp_bfree hE hsb hl hb hbit) ?_
  rintro _ s' ⟨l, hl', rfl⟩
  refine ⟨⟨rfl, hl', fun hi => Fs.dinode_freed hsb hi, fun hc => Fs.data_freed hsb hb hc,
    fun {c} _ => ?_⟩, rfl⟩
  rw [Fs.bit_freed]
  simp

/-- The blocks of a list that can be freed one after the other. -/
structure Freeable (s : Fs) (bs : List Nat) : Prop where
  nodup : (bs.filter (· ≠ 0)).Nodup
  lt : ∀ {b}, b ∈ bs → b ≠ 0 → b < s.sb.size
  bit : ∀ {b}, b ∈ bs → b ≠ 0 → s.bit b = true

/-- After the first blocks of a list have been freed, the others still can be. -/
theorem Freeable.tail (h : Freeable s (bs ++ bs')) (hf : Frees s (bs.filter (· ≠ 0)) s') :
    Freeable s' bs' := by
  have hnodup := h.nodup
  rw [List.filter_append, List.nodup_append] at hnodup
  refine ⟨hnodup.2.1, fun hb h0 => ?_, fun {b} hb h0 => ?_⟩
  · rw [hf.sb]
    exact h.lt (List.mem_append_right _ hb) h0
  · have hlt := h.lt (List.mem_append_right _ hb) h0
    have hmem : b ∈ bs'.filter (· ≠ 0) := List.mem_filter.2 ⟨hb, decide_eq_true h0⟩
    have hnot : b ∉ bs.filter (· ≠ 0) := fun hb' => hnodup.2.2 b hb' b hmem rfl
    rw [hf.bit hlt, decide_eq_true hnot, Bool.true_and]
    exact h.bit (List.mem_append_right _ hb) h0

theorem Freeable.left (h : Freeable s (bs ++ bs')) : Freeable s bs := by
  have hnodup := h.nodup
  rw [List.filter_append, List.nodup_append] at hnodup
  exact ⟨hnodup.1, fun hb => h.lt (List.mem_append_left _ hb), fun hb => h.bit (List.mem_append_left _ hb)⟩

theorem filter_cons_ne {b : Nat} (h : b ≠ 0) (bs : List Nat) :
    (b :: bs).filter (· ≠ 0) = b :: bs.filter (· ≠ 0) :=
  List.filter_cons_of_pos (decide_eq_true h)

theorem filter_cons_zero (bs : List Nat) : (0 :: bs).filter (· ≠ 0) = bs.filter (· ≠ 0) :=
  List.filter_cons_of_neg (by simp)

theorem wp_bfreeAll (hE : LogStops E) (hsb : s.sb.Layout) (hl : LogOk s.sb s.log)
    (h : Freeable s bs) :
    wp (ideal (bfreeAll bs)) E (fun _ s' => Frees s (bs.filter (· ≠ 0)) s' ∧ s'.inode = s.inode) s := by
  induction bs generalizing s with
  | nil => exact ⟨Frees.refl hl, rfl⟩
  | cons b bs ih =>
    have happ : Freeable s ([b] ++ bs) := h
    rw [bfreeAll]
    split
    · next hne =>
      have hhead := happ.left
      refine wp_ideal_seq (wp_bfree_frees hE hsb hl (hhead.lt (List.mem_singleton_self b) hne)
        (hhead.bit (List.mem_singleton_self b) hne)) ?_
      rintro _ s₁ ⟨hf, hinode⟩
      have hf₁ : Frees s ([b].filter (· ≠ 0)) s₁ := by
        rw [filter_cons_ne hne]
        exact hf
      refine wp_imp (ih (hf.sb ▸ hsb) (hf.sb ▸ hf.log) (happ.tail hf₁)) ?_
      rintro _ s₂ ⟨hf', hinode'⟩
      refine ⟨?_, hinode'.trans hinode⟩
      rw [filter_cons_ne hne]
      exact hf.trans hf'
    · next h0 =>
      obtain rfl : b = 0 := not_ne_iff.1 h0
      rw [filter_cons_zero]
      exact ih hsb hl (happ.tail (Frees.refl hl))

/-- The addresses after those at the places `is` have been zeroed. -/
def Dinode.dropAddrs (d : Dinode) (is : List (Fin (NDIRECT + 1))) : Dinode :=
  { d with addrs := fun k => if k ∈ is then 0 else d.addrs k }

theorem Dinode.dropAddrs_mem {d : Dinode} {is : List (Fin (NDIRECT + 1))} {k : Fin (NDIRECT + 1)}
    (h : k ∈ is) : (d.dropAddrs is).addrs k = 0 := if_pos h

theorem Dinode.dropAddrs_notMem {d : Dinode} {is : List (Fin (NDIRECT + 1))}
    {k : Fin (NDIRECT + 1)} (h : k ∉ is) : (d.dropAddrs is).addrs k = d.addrs k := if_neg h

theorem wp_truncDirect (hE : LogStops E) {is : List (Fin (NDIRECT + 1))} :
    ∀ {s : Fs}, s.sb.Layout → LogOk s.sb s.log → is.Nodup →
      Freeable s (is.map (s.inode ip).copy.addrs) →
      wp (ideal (truncDirect ip is)) E (fun _ s' =>
        Frees s ((is.map (s.inode ip).copy.addrs).filter (· ≠ 0)) s' ∧
        s'.inode = Function.update s.inode ip
          { s.inode ip with copy := (s.inode ip).copy.dropAddrs is }) s := by
  induction is with
  | nil =>
    intro s _ hl _ _
    refine ⟨Frees.refl hl, ?_⟩
    have hdrop : (s.inode ip).copy.dropAddrs [] = (s.inode ip).copy := by
      rw [Dinode.dropAddrs]
      simp
    rw [hdrop]
    exact (Function.update_eq_self ip s.inode).symm
  | cons k is ih =>
    intro s hsb hl hnodup h
    rw [List.nodup_cons] at hnodup
    have happ : Freeable s ([(s.inode ip).copy.addrs k] ++ is.map (s.inode ip).copy.addrs) := h
    have hsplit : ((k :: is).map (s.inode ip).copy.addrs).filter (· ≠ 0) =
        [(s.inode ip).copy.addrs k].filter (· ≠ 0) ++ (is.map (s.inode ip).copy.addrs).filter (· ≠ 0) :=
      List.filter_append [(s.inode ip).copy.addrs k] _
    rw [truncDirect, wp_ideal_bind, wp_inode]
    dsimp only
    -- in both cases the address is zero afterwards
    have hrest : ∀ s₁, Frees s ([(s.inode ip).copy.addrs k].filter (· ≠ 0)) s₁ →
        s₁.inode = Function.update s.inode ip
          { s.inode ip with copy := (s.inode ip).copy.dropAddrs [k] } →
        wp (ideal (truncDirect ip is)) E (fun _ s' =>
          Frees s (((k :: is).map (s.inode ip).copy.addrs).filter (· ≠ 0)) s' ∧
          s'.inode = Function.update s.inode ip
            { s.inode ip with copy := (s.inode ip).copy.dropAddrs (k :: is) }) s₁ := by
      intro s₁ hf hinode
      have hself : s₁.inode ip = { s.inode ip with copy := (s.inode ip).copy.dropAddrs [k] } := by
        rw [hinode, Function.update_self]
      have haddrs : is.map (s₁.inode ip).copy.addrs = is.map (s.inode ip).copy.addrs := by
        refine List.map_congr_left fun j hj => ?_
        have hjk : j ∉ [k] := fun e => hnodup.1 (List.mem_singleton.1 e ▸ hj)
        rw [hself]
        exact Dinode.dropAddrs_notMem hjk
      have hih := ih (s := s₁) (hf.sb ▸ hsb) (hf.sb ▸ hf.log) hnodup.2
        (by rw [haddrs]; exact happ.tail hf)
      rw [haddrs] at hih
      refine wp_imp hih ?_
      rintro _ s₂ ⟨hf', hinode'⟩
      refine ⟨by rw [hsplit]; exact hf.trans hf', ?_⟩
      have hdrop : ((s.inode ip).copy.dropAddrs [k]).dropAddrs is
          = (s.inode ip).copy.dropAddrs (k :: is) := by
        rw [Dinode.dropAddrs, Dinode.dropAddrs, Dinode.dropAddrs]
        congr 1
        funext j
        simp only [List.mem_cons]
        by_cases h1 : j = k
        · simp [h1]
        · simp [h1]
      rw [hinode', hself, hinode, Function.update_idem, ← hdrop]
    split
    · next hne =>
      simp only [wp_ideal_bind]
      have hhead := happ.left
      refine wp_imp (wp_bfree_frees hE hsb hl (hhead.lt (List.mem_singleton_self _) hne)
        (hhead.bit (List.mem_singleton_self _) hne)) ?_
      rintro _ s₁ ⟨hf, hinode⟩
      simp only [setAddr, wp_updateCopy]
      refine hrest _ ?_ ?_
      · rw [filter_cons_ne hne]
        exact hf.setInode _
      · rw [Fs.setInode_inode, hinode]
        congr 2
        rw [Dinode.dropAddrs]
        congr 1
        funext j
        rw [Function.update_apply]
        simp only [List.mem_singleton]
    · next h0 =>
      have h0' : (s.inode ip).copy.addrs k = 0 := not_ne_iff.1 h0
      refine hrest s ?_ ?_
      · rw [h0', filter_cons_zero]
        exact Frees.refl hl
      · have hdrop : (s.inode ip).copy.dropAddrs [k] = (s.inode ip).copy := by
          rw [Dinode.dropAddrs]
          congr 1
          funext j
          simp only [List.mem_singleton]
          split
          · next hj => rw [hj, h0']
          · rfl
        rw [hdrop]
        exact (Function.update_eq_self ip s.inode).symm

/-! ## `itrunc` -/

/-- An inode without blocks. -/
def Dinode.truncated (d : Dinode) : Dinode := { d with size := 0, addrs := fun _ => 0 }

/-- The blocks in these slots of an inode can be freed. -/
theorem Consistent.freeable {dirty : Option Nat} (h : Consistent s D dirty none) {sls : List Slot}
    (hsls : sls.Nodup) : Freeable s (sls.map fun sl => s.slots D (i, sl)) := by
  refine ⟨?_, fun {b} hb h0 => ?_, fun {b} hb h0 => ?_⟩
  · rw [List.filter_map]
    refine List.Nodup.map_on (fun x hx y _ hxy => ?_) (List.Nodup.filter _ hsls)
    have hne : s.slots D (i, x) ≠ 0 := by simpa using (List.mem_filter.1 hx).2
    exact (Prod.ext_iff.1 (h.blocks.inj hne hxy)).2
  · obtain ⟨sl, -, rfl⟩ := List.mem_map.1 hb
    exact (h.blocks.range h0).2
  · obtain ⟨sl, -, rfl⟩ := List.mem_map.1 hb
    exact h.blocks.bit_of_slot h0

/-- The slots after an inode was truncated. -/
theorem slots_truncated {sb : Superblock} {data : Nat → Block} (p : Nat × Slot) :
    Xv6pp.slots sb data (Function.update D i (D i).truncated) p =
      if p.1 = i then 0 else Xv6pp.slots sb data D p := by
  split
  · next hp =>
    rw [slots]
    split
    · rw [hp, Function.update_self]
      cases p.2 with
      | addr k => rfl
      | entry j =>
        have h0 : (D i).truncated.indirect = 0 := rfl
        rw [Dinode.slot, if_pos h0]
    · rfl
  · next hp => exact slots_update_apply p hp

/-- All blocks of an inode were freed. -/
structure Truncated (s : Fs) (D : Nat → Dinode) (ip : InodeId) (i : Nat) (dirty : Option Nat)
    (s' : Fs) : Prop where
  consistent : Consistent s' (Function.update D i (D i).truncated) dirty none
  sb : s'.sb = s.sb
  inode : s'.inode = Function.update s.inode ip { s.inode ip with copy := (D i).truncated }
  data : ∀ {c}, s.sb.datastart ≤ c → s'.data c = s.data c

theorem Truncated.slots {dirty dirty' : Option Nat} (h : Truncated s D ip i dirty s')
    (hc : Consistent s D dirty' none) (p : Nat × Slot) :
    s'.slots (Function.update D i (D i).truncated) p = if p.1 = i then 0 else s.slots D p := by
  rw [Fs.slots, slots_truncated, h.sb]
  split
  · rfl
  · refine congrFun (slots_congr fun j hj => h.data ?_) p
    have hj' : s.slots D (j, .indirect) ≠ 0 := hj
    exact (hc.blocks.range hj').1

/-- The invariant holds again when the blocks of all slots have been freed. -/
theorem Consistent.truncated (h : Consistent s D none none) (hip : Core s ip i)
    (hf : Frees s bs s') (hbs : ∀ b, b ∈ bs ↔ b ≠ 0 ∧ ∃ sl, s.slots D (i, sl) = b)
    (hinode : s'.inode = Function.update s.inode ip { s.inode ip with copy := (D i).truncated }) :
    Truncated s D ip i (some i) s' := by
  refine ⟨?_, hf.sb, hinode, hf.data⟩
  have hslots : s'.slots (Function.update D i (D i).truncated)
      = fun p => if p.1 = i then 0 else s.slots D p := by
    funext p
    rw [Fs.slots, slots_truncated, hf.sb]
    split
    · rfl
    · refine congrFun (slots_congr fun j hj => hf.data ?_) p
      have hj' : s.slots D (j, .indirect) ≠ 0 := hj
      exact (h.blocks.range hj').1
  have hf0 := h.fits i
  refine ⟨?_, hf.sb ▸ h.layout, hf.sb ▸ hf.log, ?_, fun {j} hj hne => ?_, fun j => ?_⟩
  · rw [hf.sb, hinode]
    exact hip.incore_copy h.toIncore _
  · rw [hf.sb, hslots]
    refine h.blocks.release (S := fun p : Nat × Slot => p.1 = i) fun c hc => ?_
    rw [hf.bit hc, Bool.and_eq_true, decide_eq_true_eq, and_comm]
    refine and_congr_right fun _ => ?_
    rw [hbs]
    constructor
    · rintro hno ⟨j, sl⟩ rfl hsl
      by_contra hc0
      exact hno ⟨hc0, sl, hsl⟩
    · rintro hall ⟨hc0, sl, hsl⟩
      exact hc0 (hall (i, sl) rfl hsl)
  · rw [hf.sb] at hj
    have hji : j ≠ i := fun e => hne (congrArg some e.symm)
    rw [hf.dinode hj, Function.update_of_ne hji]
    exact h.disk hj (by rintro ⟨⟩)
  · rw [Function.update_apply]
    split
    · exact ⟨hf0.type, hf0.major, hf0.minor, hf0.nlink, Nat.two_pow_pos 32, fun _ => Nat.two_pow_pos 32⟩
    · exact h.fits j

/-- The slots of an inode in the order in which `itrunc` frees them, the indirect block and what is in
it apart. -/
def directSlots : List Slot := ((List.finRange NDIRECT).map Fin.castSucc).map .addr

/-- The slots of the indirect block, in the order in which `itrunc` frees them. -/
def indirectSlots : List Slot := (List.finRange NINDIRECT).map .entry ++ [.indirect]

theorem nodup_castSucc : ((List.finRange NDIRECT).map Fin.castSucc).Nodup :=
  (List.nodup_finRange _).map fun _ _ h => Fin.castSucc_inj.1 h

theorem nodup_directSlots : directSlots.Nodup :=
  nodup_castSucc.map fun _ _ h => Slot.addr.inj h

theorem nodup_allSlots : (directSlots ++ indirectSlots).Nodup := by
  have hent : ((List.finRange NINDIRECT).map Slot.entry).Nodup :=
    (List.nodup_finRange _).map fun _ _ h => Slot.entry.inj h
  rw [directSlots, indirectSlots, List.nodup_append, List.nodup_append]
  refine ⟨nodup_directSlots, ⟨hent, List.nodup_singleton _, ?_⟩, ?_⟩
  · rintro a ha b hb rfl
    obtain ⟨j, -, rfl⟩ := List.mem_map.1 ha
    exact absurd (List.mem_singleton.1 hb) nofun
  · rintro a ha b hb rfl
    obtain ⟨k, hk, rfl⟩ := List.mem_map.1 ha
    obtain ⟨n, -, rfl⟩ := List.mem_map.1 hk
    rcases List.mem_append.1 hb with hb | hb
    · obtain ⟨j, -, hj⟩ := List.mem_map.1 hb
      cases hj
    · have hlast : Fin.castSucc n = Fin.last NDIRECT := Slot.addr.inj (List.mem_singleton.1 hb)
      exact absurd hlast (Fin.ne_of_lt (Fin.castSucc_lt_last n))

theorem mem_allSlots (sl : Slot) : sl ∈ directSlots ++ indirectSlots := by
  cases sl with
  | entry j =>
    exact List.mem_append_right _ (List.mem_append_left _ (List.mem_map_of_mem (List.mem_finRange j)))
  | addr k =>
    cases k using Fin.lastCases with
    | last => exact List.mem_append_right _ (List.mem_append_right _ (List.mem_singleton_self _))
    | cast n =>
      exact List.mem_append_left _
        (List.mem_map_of_mem (List.mem_map_of_mem (List.mem_finRange n)))

/-- **`itrunc`** frees all blocks of the inode. -/
theorem wp_itrunc (hE : LogStops E) (h : Consistent s D none none) (hip : Core s ip i)
    (ht : (D i).type ≠ 0) :
    wp (ideal (itrunc ip)) E (fun _ s' => Truncated s D ip i none s') s := by
  have hcopy := hip.copy h
  have hi := hip.isInum h
  have hslot : ∀ sl, s.slots D (i, sl) = (D i).slot s.data sl := slots_eq hi ht
  have hdirect : directSlots.map (fun sl => s.slots D (i, sl))
      = ((List.finRange NDIRECT).map Fin.castSucc).map (s.inode ip).copy.addrs := by
    rw [directSlots, List.map_map, hcopy]
    exact List.map_congr_left fun k _ => hslot _
  -- the end of the function
  have hrest : ∀ s₁ bs, Frees s bs s₁ → (∀ b, b ∈ bs ↔ b ≠ 0 ∧ ∃ sl, s.slots D (i, sl) = b) →
      s₁.inode = Function.update s.inode ip
        { s.inode ip with copy := { D i with addrs := fun _ => 0 } } →
      wp (ideal (do updateCopy ip fun d => { d with size := 0 }; iupdate ip)) E
        (fun _ s' => Truncated s D ip i none s') s₁ := by
    intro s₁ bs hf hbs hinode
    rw [wp_ideal_bind, wp_updateCopy]
    have hinode' : (s₁.setInode ip { s₁.inode ip with
        copy := { (s₁.inode ip).copy with size := 0 } }).inode
        = Function.update s.inode ip { s.inode ip with copy := (D i).truncated } := by
      rw [Fs.setInode_inode, hinode, Function.update_idem, Function.update_self]
      rfl
    have htr := h.truncated hip (hf.setInode _) hbs hinode'
    have hcore : Core (s₁.setInode ip { s₁.inode ip with
        copy := { (s₁.inode ip).copy with size := 0 } }) ip i := by
      refine ⟨?_, ?_, ?_⟩
      · rw [hinode', Function.update_self]
        exact hip.ref
      · rw [hinode', Function.update_self]
        exact hip.valid
      · rw [hinode', Function.update_self]
        exact hip.inum
    refine wp_imp (wp_iupdate hE htr.consistent hcore) ?_
    rintro _ s₂ ⟨hc, ho⟩
    refine ⟨hc, ho.sb.trans htr.sb, ho.inode.trans hinode', fun {c} hc => ?_⟩
    rw [← htr.data hc]
    refine ho.data ?_
    rw [htr.sb]
    exact h.layout.bmapstart_lt.le.trans hc
  rw [itrunc]
  refine wp_ideal_seq (wp_truncDirect hE h.layout h.log nodup_castSucc
    (hdirect ▸ h.freeable nodup_directSlots)) ?_
  rintro _ s₁ ⟨hf₁, hinode₁⟩
  rw [← hdirect] at hf₁
  have hlast : Fin.last NDIRECT ∉ (List.finRange NDIRECT).map Fin.castSucc := fun hmem => by
    obtain ⟨n, -, hn⟩ := List.mem_map.1 hmem
    exact absurd hn (Fin.ne_of_lt (Fin.castSucc_lt_last n))
  have hind : (s₁.inode ip).copy.indirect = (D i).indirect := by
    rw [hinode₁, Function.update_self, hcopy]
    exact Dinode.dropAddrs_notMem hlast
  rw [wp_ideal_bind, wp_inode, hind]
  dsimp only
  -- once the last address is zero, all are
  have hzero : Function.update ((D i).dropAddrs ((List.finRange NDIRECT).map Fin.castSucc)).addrs
      (Fin.last NDIRECT) 0 = fun _ => 0 := by
    funext k
    cases k using Fin.lastCases with
    | last => rw [Function.update_self]
    | cast n =>
      rw [Function.update_of_ne (Fin.ne_of_lt (Fin.castSucc_lt_last n))]
      exact Dinode.dropAddrs_mem (List.mem_map_of_mem (List.mem_finRange n))
  split
  · next hne =>
    have hindslot : s.slots D (i, .indirect) = (D i).indirect := hslot _
    have hdata : s₁.data (D i).indirect = s.data (D i).indirect := by
      refine hf₁.data ?_
      rw [← hindslot]
      exact (h.blocks.range (by rwa [hindslot])).1
    have hentries : (List.range NINDIRECT).map (s.data (D i).indirect).entry
        = ((List.finRange NINDIRECT).map Slot.entry).map fun sl => s.slots D (i, sl) := by
      rw [← List.map_coe_finRange_eq_range, List.map_map, List.map_map]
      refine List.map_congr_left fun j _ => ?_
      rw [Function.comp_apply, Function.comp_apply, hslot, Dinode.slot, if_neg hne]
    have hall := h.freeable (i := i) nodup_allSlots
    rw [indirectSlots, List.map_append, List.map_append, ← hentries, List.map_singleton, hindslot]
      at hall
    have hall₁ := hall.tail hf₁
    simp only [wp_ideal_bind, wp_bread, wp_brelse]
    rw [hdata]
    refine wp_imp (wp_bfreeAll hE (hf₁.sb ▸ h.layout) (hf₁.sb ▸ hf₁.log) hall₁.left) ?_
    rintro _ s₂ ⟨hf₂, hinode₂⟩
    have hf₁₂ := hf₁.trans hf₂
    have hall₂ := hall₁.tail hf₂
    refine wp_imp (wp_bfree_frees hE (hf₁₂.sb ▸ h.layout) (hf₁₂.sb ▸ hf₁₂.log)
      (hall₂.lt (List.mem_singleton_self _) hne) (hall₂.bit (List.mem_singleton_self _) hne)) ?_
    rintro _ s₃ ⟨hf₃, hinode₃⟩
    simp only [setAddr, wp_updateCopy]
    refine (wp_ideal_bind.1 (hrest _ _ ((hf₁₂.trans hf₃).setInode _) (fun b => ?_) ?_))
    · have hmem : b ∈ List.filter (· ≠ 0) ((directSlots ++ indirectSlots).map
          fun sl => s.slots D (i, sl)) ↔ b ≠ 0 ∧ ∃ sl, s.slots D (i, sl) = b := by
        rw [List.mem_filter, List.mem_map, and_comm, decide_eq_true_eq]
        exact and_congr_right fun _ => exists_congr fun sl => and_iff_right (mem_allSlots sl)
      rw [← hmem, indirectSlots, List.map_append, List.map_append, ← hentries, List.map_singleton,
        hindslot, List.filter_append, List.filter_append, filter_cons_ne hne, List.filter_nil,
        List.append_assoc]
    · rw [Fs.setInode_inode, hinode₃, hinode₂, hinode₁, Function.update_idem, Function.update_self, hcopy]
      exact congrArg (fun a => Function.update s.inode ip
        { s.inode ip with copy := { D i with addrs := a } }) hzero
  · next h0 =>
    have h0' : (D i).indirect = 0 := not_ne_iff.1 h0
    have hdrop : ((D i).dropAddrs ((List.finRange NDIRECT).map Fin.castSucc)).addrs = fun _ => 0 := by
      rw [← hzero]
      refine (Function.update_eq_self_iff.2 ?_).symm
      exact ((Dinode.dropAddrs_notMem hlast).trans h0').symm
    refine hrest _ _ hf₁ (fun b => ?_) ?_
    · rw [List.mem_filter, List.mem_map, and_comm, decide_eq_true_eq]
      refine and_congr_right fun hb => ⟨fun ⟨sl, _, hsl⟩ => ⟨sl, hsl⟩, fun ⟨sl, hsl⟩ => ⟨sl, ?_, hsl⟩⟩
      -- the slots of the indirect block are empty
      rcases List.mem_append.1 (mem_allSlots sl) with hmem | hmem
      · exact hmem
      · refine absurd ?_ hb
        rw [← hsl, hslot]
        rcases List.mem_append.1 hmem with hmem | hmem
        · obtain ⟨j, -, rfl⟩ := List.mem_map.1 hmem
          exact if_pos h0'
        · rw [List.mem_singleton.1 hmem]
          exact h0'
    · rw [hinode₁, hcopy]
      exact congrArg (fun a => Function.update s.inode ip
        { s.inode ip with copy := { D i with addrs := a } }) hdrop

end

end Xv6pp
