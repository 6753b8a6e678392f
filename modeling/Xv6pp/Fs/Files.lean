import Xv6pp.Fs.Budget

/-!
# Files are arrays of bytes

What the inode layer is for.  The content of an inode is a list of bytes, as long as the inode's
size (`Fs.content`), and on a file system in good order (`Fs.Sane`: the free map is exact, the
in-core inodes agree with the disk, and no file has a hole) `readi`, `writei` and `itrunc` are the
operations on lists that they should be: taking a piece, overwriting a piece, and emptying.  No other
inode is affected.

The content is read off the disk as the buffer cache shows it, so that it is a function of the state
alone; the lemmas before this module speak of the inodes `D` that the state stands for, which are
those of the disk whenever no inode is waiting to be written back.
-/

set_option autoImplicit false

namespace Xv6pp

open Prog FileSystem Allocation

/-! ## The state of the disk -/

/-- The content of the inode `i`. -/
def Fs.content (s : Fs) (i : Nat) : List UInt8 := s.fileBytes s.dinode i 0 (s.dinode i).size

/-- The file system is in good order. -/
structure Fs.Sane (s : Fs) : Prop where
  consistent : Consistent s s.dinode none none
  noHoles : NoHoles s s.dinode

section
variable {s s' : Fs} {D D' : Nat → Dinode} {dirty : Option Nat} {i j : Nat} {ip : InodeId}

theorem Consistent.slots_dinode (h : Consistent s D none none) : s.slots s.dinode = s.slots D := by
  funext p
  rw [Fs.slots, Fs.slots, Xv6pp.slots, Xv6pp.slots]
  by_cases hp : s.sb.IsInum p.1
  · rw [h.disk hp (by rintro ⟨⟩)]
  · rw [if_neg fun hc => hp hc.1, if_neg fun hc => hp hc.1]

theorem Consistent.fileBlock_dinode (h : Consistent s D none none) :
    s.fileBlock s.dinode = s.fileBlock D := Fs.fileBlock_congr h.slots_dinode

theorem Consistent.fileByte_dinode (h : Consistent s D none none) :
    s.fileByte s.dinode = s.fileByte D := by
  funext j o
  rw [Fs.fileByte, Fs.fileByte, h.fileBlock_dinode]

/-- What the state stands for is what is on the disk, when nothing waits to be written back. -/
theorem Consistent.sane (h : Consistent s D none none) (hh : NoHoles s D) : s.Sane where
  consistent :=
    { inum := h.inum
      copy := fun hr hv => (h.copy hr hv).trans (h.disk (h.inum hr) nofun).symm
      uniq := h.uniq
      layout := h.layout
      log := h.log
      blocks := h.slots_dinode.symm ▸ h.blocks
      disk := fun _ _ => rfl
      fits := fun _ => Dinode.fits_ofBytes _ }
  noHoles j hj ht bn hbn := by
    rw [h.disk hj nofun] at ht hbn
    rw [h.fileBlock_dinode]
    exact hh j hj ht bn hbn

theorem Consistent.content_eq (h : Consistent s D none none) (hi : s.sb.IsInum i) :
    s.content i = s.fileBytes D i 0 (D i).size := by
  rw [Fs.content, h.disk hi nofun, Fs.fileBytes, Fs.fileBytes, h.fileByte_dinode]

theorem Fs.getElem?_fileBytes (s : Fs) (D : Nat → Dinode) (i o n k : Nat) :
    (s.fileBytes D i o n)[k]? = if k < n then some (s.fileByte D i (o + k)) else none := by
  rw [Fs.fileBytes, List.getElem?_map]
  by_cases hk : k < n
  · rw [if_pos hk, List.getElem?_range hk, Option.map_some]
  · rw [if_neg hk, List.getElem?_eq_none (by rw [List.length_range]; omega), Option.map_none]

@[simp] theorem Fs.length_content (s : Fs) (i : Nat) : (s.content i).length = (s.dinode i).size :=
  Fs.length_fileBytes

/-- A piece of the content. -/
theorem Fs.take_drop_content (s : Fs) (i off n : Nat) :
    ((s.content i).drop off).take n = s.fileBytes s.dinode i off (min n ((s.dinode i).size - off)) := by
  by_cases hoff : off ≤ (s.dinode i).size
  · have hsplit : s.content i = s.fileBytes s.dinode i 0 off ++
        s.fileBytes s.dinode i off ((s.dinode i).size - off) := by
      have := Fs.fileBytes_append (s := s) (D := s.dinode) (i := i) 0 off ((s.dinode i).size - off)
      rwa [Nat.zero_add, Nat.add_sub_cancel' hoff] at this
    have hlen : (s.fileBytes s.dinode i 0 off).length = off := Fs.length_fileBytes
    rw [hsplit, List.drop_append_of_le_length hlen.ge, List.drop_eq_nil_of_le hlen.le, List.nil_append,
      Fs.fileBytes, ← List.map_take, List.take_range, Fs.fileBytes]
  · have hlen := s.length_content i
    rw [List.drop_eq_nil_of_le (by omega), List.take_nil, Nat.sub_eq_zero_of_le (by omega),
      Nat.min_zero]
    rfl

/-! ### Locks -/

/-- Set or clear the lock of an in-core inode. -/
def Fs.setLocked (s : Fs) (ip : InodeId) (b : Bool) : Fs :=
  s.setInode ip { s.inode ip with locked := b }

theorem Fs.setLocked_inode_self (b : Bool) :
    (s.setLocked ip b).inode ip = { s.inode ip with locked := b } := Fs.setInode_inode_self ..

theorem Fs.setLocked_twice (h : (s.inode ip).locked = false) :
    (s.setLocked ip true).setLocked ip false = s := by
  have hself : { s.inode ip with locked := false } = s.inode ip := by rw [← h]
  have hinodes : (s.setLocked ip true).setLocked ip false = s.setInode ip (s.inode ip) := by
    rw [Fs.setLocked, Fs.setLocked_inode_self, ← hself]
    simp only [Fs.setLocked, Fs.setInode, Function.update_idem]
  rw [hinodes, Fs.setInode]
  simp only [Fs.inode, Function.update_eq_self]

theorem Fs.Sane.setLocked (h : s.Sane) (b : Bool) : (s.setLocked ip b).Sane where
  consistent := h.consistent.setFlag rfl rfl rfl rfl
  noHoles := h.noHoles

theorem Core.setLocked {k : InodeId} (h : Core s k i) (b : Bool) : Core (s.setLocked ip b) k i := by
  by_cases hk : k = ip
  · subst hk
    refine ⟨?_, ?_, ?_⟩
    all_goals rw [Fs.setLocked_inode_self]
    · exact h.ref
    · exact h.valid
    · exact h.inum
  · have hsame : (s.setLocked ip b).inode k = s.inode k := Fs.setInode_inode_of_ne _ _ _ hk
    exact ⟨hsame ▸ h.ref, hsame ▸ h.valid, hsame ▸ h.inum⟩

/-- Files are at most as long as their block addresses allow. -/
theorem Fs.Sane.size_le (h : s.Sane) (hi : s.sb.IsInum i) (ht : (s.dinode i).type ≠ 0) :
    (s.dinode i).size ≤ MAXFILE * BSIZE := by
  by_contra hlt
  have hne := h.noHoles i hi ht MAXFILE (Nat.not_le.1 hlt)
  exact absurd (Fs.lt_of_fileBlock hne) (lt_irrefl _)

end

/-! ### Changing one inode -/

/-- Two states of an in-core inode that differ in the copy of the disk inode at most. -/
def Inode.SameEntry (v w : Inode) : Prop :=
  w.ref = v.ref ∧ w.inum = v.inum ∧ w.valid = v.valid ∧ w.locked = v.locked

/-- At most the inode `i` has changed, and its type has not. -/
structure Fs.Alters (s : Fs) (i : Nat) (s' : Fs) : Prop where
  sane : s'.Sane
  sb : s'.sb = s.sb
  incore : ∀ k, (s.inode k).SameEntry (s'.inode k)
  type : (s'.dinode i).type = (s.dinode i).type
  other : ∀ j, s.sb.IsInum j → j ≠ i → s'.dinode j = s.dinode j ∧ s'.content j = s.content j

namespace Fs.Alters

variable {s s' s'' : Fs} {i j : Nat} {k : InodeId}

theorem refl (h : s.Sane) (i : Nat) : s.Alters i s := ⟨h, rfl, fun _ => ⟨rfl, rfl, rfl, rfl⟩, rfl,
  fun _ _ _ => ⟨rfl, rfl⟩⟩

theorem trans (h : s.Alters i s') (h' : s'.Alters i s'') : s.Alters i s'' where
  sane := h'.sane
  sb := h'.sb.trans h.sb
  incore k := by
    obtain ⟨h1, h2, h3, h4⟩ := h.incore k
    obtain ⟨h1', h2', h3', h4'⟩ := h'.incore k
    exact ⟨h1'.trans h1, h2'.trans h2, h3'.trans h3, h4'.trans h4⟩
  type := h'.type.trans h.type
  other j hj hne := by
    have hj' : s'.sb.IsInum j := h.sb ▸ hj
    exact ⟨(h'.other j hj' hne).1.trans (h.other j hj hne).1,
      (h'.other j hj' hne).2.trans (h.other j hj hne).2⟩

theorem core (h : s.Alters i s') (hk : Core s k j) : Core s' k j := by
  obtain ⟨href, hinum, hvalid, -⟩ := h.incore k
  exact ⟨href ▸ hk.ref, hvalid.trans hk.valid, hinum.trans hk.inum⟩

theorem type_eq (h : s.Alters i s') (hj : s.sb.IsInum j) : (s'.dinode j).type = (s.dinode j).type := by
  by_cases hji : j = i
  · rw [hji, h.type]
  · rw [(h.other j hj hji).1]

end Fs.Alters

/-! ## Reading -/

section
variable {E : Panic → Prop} {s s' : Fs} {i : Nat} {ip : InodeId}

/-- **`readi`** returns a piece of the content and changes nothing. -/
theorem Fs.Sane.wp_readi {dst : Nat → List UInt8 → Bool} {off n : Nat} (h : s.Sane) (hip : Core s ip i)
    (ht : (s.dinode i).type ≠ 0) (hdst : ∀ t piece, dst t piece = true) (hn : off + n < 2 ^ 32) :
    wp (ideal (readi ip dst off n)) E (fun r s' => s' = s ∧
      r.1 = (if (s.dinode i).size < off then 0 else min n ((s.dinode i).size - off) : Nat) ∧
      r.2 = ((s.content i).drop off).take n) s := by
  refine wp_imp (Xv6pp.wp_readi (h.consistent.weaken _) h.noHoles hip ht) ?_
  rintro r s' ⟨rfl, ⟨hout, rfl⟩ | ⟨hoff, rfl | ⟨-, t, piece, hno⟩⟩⟩
  · rw [Nat.mod_eq_of_lt hn] at hout
    have hlen := s'.length_content i
    refine ⟨rfl, ?_, ?_⟩
    · rw [if_pos (by omega)]
      rfl
    · rw [List.drop_eq_nil_of_le (by omega), List.take_nil]
  · refine ⟨rfl, ?_, ?_⟩
    · rw [if_neg (by omega)]
    · rw [Fs.take_drop_content]
  · rw [hdst t piece] at hno
    cases hno

end

/-! ## Writing -/

section
variable {E : Panic → Prop} {s s' : Fs} {D' : Nat → Dinode} {i : Nat} {ip : InodeId}

/-- The source of a write whose bytes are all there. -/
def Source.list (bytes : List UInt8) : Nat → Nat → List UInt8 × Bool :=
  fun tot m => ((bytes.drop tot).take m, true)

/-- Within its length, a list is a source of which everything can be moved. -/
theorem writeFrom_list {bytes : List UInt8} {fuel tot off : Nat} :
    writeFrom ip (Source.list bytes) bytes.length fuel tot off =
      writeFrom ip (Source.kernel bytes).copy bytes.length fuel tot off := by
  induction fuel generalizing tot off with
  | zero => rfl
  | succ fuel ih =>
    rw [writeFrom, writeFrom]
    split
    · next hlt =>
      have hm : min (bytes.length - tot) (BSIZE - off % BSIZE) ≤ bytes.length - tot :=
        Nat.min_le_left ..
      generalize min (bytes.length - tot) (BSIZE - off % BSIZE) = m at hm
      have hsrc : Source.list bytes tot m = (Source.kernel bytes).copy tot m := by
        have hmoves : (Source.kernel bytes).moves tot m = m := Nat.min_eq_left hm
        rw [Source.copy, hmoves, Source.list, decide_eq_true rfl]
        congr 1
        refine List.ext_getElem (by simp; omega) fun k h1 h2 => ?_
        have hk : k < m := by simpa using h2
        simp [Source.kernel, List.getElem?_eq_getElem (show tot + k < bytes.length by omega)]
      simp only [hsrc, ih]
    · rfl

theorem writei_list {bytes : List UInt8} {off : Nat} :
    writei ip (Source.list bytes) off bytes.length =
      writei ip (Source.kernel bytes).copy off bytes.length := by
  rw [writei, writei]
  simp only [writeFrom_list]

/-- The content of an inode after a write to it. -/
theorem Wrote.content_self {off tot : Nat} {bytes : List UInt8} (h : s.Sane) (hip : Core s ip i)
    (htot : tot ≤ bytes.length) (hoff : off ≤ (s.dinode i).size)
    (hw : Wrote s s.dinode ip i none (max (s.dinode i).size (off + tot)) off tot
      (fun o => bytes.getD (o - off) 0) s' D') :
    s'.content i = (s.content i).take off ++ bytes.take tot ++ (s.content i).drop (off + tot) := by
  have hi' : s'.sb.IsInum i := hw.sb ▸ hip.isInum h.consistent
  have hsize : (D' i).size = max (s.dinode i).size (off + tot) := by
    obtain ⟨a, ha⟩ := hw.fields
    rw [ha]
  have hlen := s.length_content i
  have hold : ∀ k, (s.content i)[k]? = if k < (s.dinode i).size then some (s.fileByte s.dinode i k)
      else none := fun k => by
    rw [Fs.content, Fs.getElem?_fileBytes, Nat.zero_add]
  have hbytes : ∀ k < bytes.length, bytes[k]? = some (bytes.getD k 0) := fun k hk => by
    rw [List.getD_eq_getElem?_getD, List.getElem?_eq_getElem hk, Option.getD_some]
  have hpre : ((s.content i).take off).length = off := by
    rw [List.length_take, hlen, Nat.min_eq_left hoff]
  have hmid : ((s.content i).take off ++ bytes.take tot).length = off + tot := by
    rw [List.length_append, hpre, List.length_take, Nat.min_eq_left htot]
  rw [hw.consistent.content_eq hi', hsize]
  refine List.ext_getElem? fun k => ?_
  rw [Fs.getElem?_fileBytes, hw.bytes, Nat.zero_add]
  by_cases h1 : k < off
  · rw [List.getElem?_append_left (by omega), List.getElem?_append_left (by omega),
      List.getElem?_take_of_lt h1, hold, if_pos (by omega), if_neg (by omega), if_pos (by omega)]
  by_cases h2 : k < off + tot
  · rw [List.getElem?_append_left (by omega), List.getElem?_append_right (by omega), hpre,
      List.getElem?_take_of_lt (by omega), hbytes _ (by omega), if_pos (by omega),
      if_pos ⟨rfl, by omega, h2⟩]
  · rw [List.getElem?_append_right (by omega), hmid, List.getElem?_drop, hold,
      show off + tot + (k - (off + tot)) = k by omega]
    by_cases h3 : k < (s.dinode i).size
    · rw [if_pos (by omega), if_neg (by omega), if_pos h3]
    · rw [if_neg (by omega), if_neg h3]

/-- A write alters one inode. -/
theorem Wrote.alters {size off len : Nat} {f : Nat → UInt8} (h : s.Sane) (hip : Core s ip i)
    (hw : Wrote s s.dinode ip i none size off len f s' D') (hno : NoHoles s' D') : s.Alters i s' where
  sane := hw.consistent.sane hno
  sb := hw.sb
  incore k := by
    by_cases hk : k = ip
    · rw [hk, hw.self]
      exact ⟨rfl, rfl, rfl, rfl⟩
    · rw [hw.other hk]
      exact ⟨rfl, rfl, rfl, rfl⟩
  type := by
    have hi' : s'.sb.IsInum i := hw.sb ▸ hip.isInum h.consistent
    rw [hw.consistent.disk hi' nofun, hw.type_eq]
  other j hj hne := by
    have hj' : s'.sb.IsInum j := hw.sb ▸ hj
    refine ⟨(hw.consistent.disk hj' nofun).trans (hw.inodes hne), ?_⟩
    rw [hw.consistent.content_eq hj', Fs.content, hw.inodes hne]
    refine Fs.fileBytes_congr fun k _ => ?_
    rw [hw.bytes, if_neg fun hc => hne hc.1]

/-- **`writei`** overwrites a piece of the content, all of it while there are free blocks. -/
theorem Fs.Sane.wp_writei {bytes : List UInt8} {off k : Nat} {S : Finset Nat} (h : s.Sane)
    (hip : Core s ip i) (ht : (s.dinode i).type ≠ 0) (hn : off + bytes.length < 2 ^ 32)
    (hS : s.sb.BitmapIn S) (hi : s.sb.iblock i ∈ S)
    (hB : Budget E S (2 * spanned off bytes.length + k) s) :
    wp (ideal (writei ip (Source.list bytes) off bytes.length)) E (fun r s' =>
      (r = -1 ∧ s' = s ∧ ((s.dinode i).size < off ∨ MAXFILE * BSIZE < off + bytes.length) ∨
        off ≤ (s.dinode i).size ∧ off + bytes.length ≤ MAXFILE * BSIZE ∧
        ∃ tot ≤ bytes.length, r = (tot : Int) ∧
          (tot < bytes.length → ((∀ c, c < s'.sb.size → s'.bit c = true) ∧
            s.fileBlock s.dinode i ((off + tot) / BSIZE) = 0) ∧ (tot = 0 ∨ (off + tot) % BSIZE = 0)) ∧
          s.Alters i s' ∧ (s'.dinode i).size = max (s.dinode i).size (off + tot) ∧
          s'.content i = (s.content i).take off ++ bytes.take tot ++ (s.content i).drop (off + tot)) ∧
      Budget E S k s') s := by
  have hinum : s.sb.iblock (s.inode ip).inum ∈ S := by
    rw [hip.inum]
    exact hi
  rw [writei_list]
  refine wp_budget hB (fun E hE => ?_) fun E hE hroom =>
    wp_imp (room_writei hE hS hinum hroom) fun _ _ hs => hs.room
  refine wp_imp (Xv6pp.wp_writei hE h.consistent h.noHoles hip ht) ?_
  rintro r s' (⟨hr, rfl, hout⟩ | ⟨tot, x, D', hr, hw⟩)
  · rw [Nat.mod_eq_of_lt hn] at hout
    exact .inl ⟨hr, rfl, by omega⟩
  · have hle := hw.le
    -- every byte of the source can be moved
    have hall : ¬ ∃ m, tot + m ≤ bytes.length ∧ (Source.kernel bytes).moves tot m < m := by
      rintro ⟨m, hm, hlt⟩
      exact absurd (Nat.min_eq_left (show m ≤ bytes.length - tot by omega)) hlt.ne
    obtain rfl : x = 0 := by
      rcases hw.failed with h0 | ⟨m, hm, hx, hlt⟩
      · exact h0
      · exact absurd ⟨m, hm, hx ▸ hlt⟩ hall
    have hwrote := hw.wrote
    have hi' : s'.sb.IsInum i := hwrote.sb ▸ hip.isInum h.consistent
    have hdin : s'.dinode i = D' i := hwrote.consistent.disk hi' nofun
    have hsize : (D' i).size = max (s.dinode i).size (off + tot) := by
      obtain ⟨a, ha⟩ := hwrote.fields
      rw [ha]
    refine .inr ⟨hw.off_le, hw.fits, tot, hle, hr,
      fun hlt => ⟨(hw.short hlt).resolve_right hall, hw.edge hlt⟩, hwrote.alters h hip hw.noHoles, ?_,
      hwrote.content_self h hip hle hw.off_le⟩
    rw [hdin, hsize]

end

/-! ## Truncating -/

section
variable {E : Panic → Prop} {s s' : Fs} {D : Nat → Dinode} {i j : Nat} {ip : InodeId} {S : Finset Nat}
  {k : Nat}

/-- The bytes of the other inodes after a truncation. -/
theorem Truncated.fileByte {dirty dirty' : Option Nat} (h : Truncated s D ip i dirty s')
    (hc : Consistent s D dirty' none) (hne : j ≠ i) (o : Nat) :
    s'.fileByte (Function.update D i (D i).truncated) j o = s.fileByte D j o := by
  have hslot : s'.slots (Function.update D i (D i).truncated) (j, fileSlot (o / BSIZE)) =
      s.slots D (j, fileSlot (o / BSIZE)) := by
    rw [h.slots hc, if_neg hne]
  exact Fs.fileByte_congr hslot fun hused => h.data (hc.blocks.range hused).1

theorem Truncated.noHoles {dirty dirty' : Option Nat} (h : Truncated s D ip i dirty s')
    (hc : Consistent s D dirty' none) (hh : NoHoles s D) :
    NoHoles s' (Function.update D i (D i).truncated) := by
  intro j hj ht bn hbn
  by_cases hji : j = i
  · rw [hji, Function.update_self] at hbn
    exact absurd hbn (Nat.not_lt_zero _)
  · rw [Function.update_of_ne hji] at ht hbn
    have hne := hh j (h.sb ▸ hj) ht bn hbn
    rw [Fs.fileBlock_eq (Fs.lt_of_fileBlock hne), h.slots hc, if_neg hji]
    exact Fs.slots_of_fileBlock hne

theorem Truncated.core {dirty : Option Nat} (h : Truncated s D ip i dirty s') (hip : Core s ip i) :
    Core s' ip i := by
  refine ⟨?_, ?_, ?_⟩
  · rw [h.inode, Function.update_self]
    exact hip.ref
  · rw [h.inode, Function.update_self]
    exact hip.valid
  · rw [h.inode, Function.update_self]
    exact hip.inum

/-- The addresses of an inode are those of blocks of the disk. -/
theorem Consistent.slot_lt {dirty loose : Option Nat} (h : Consistent s D dirty loose)
    (p : Nat × Slot) : s.slots D p < s.sb.size := by
  by_cases hp : s.slots D p = 0
  · rw [hp]
    exact h.layout.size_pos
  · exact (h.blocks.range hp).2

/-- What `itrunc` of an inode costs. -/
theorem Consistent.room_itrunc {dirty : Option Nat} (hE : OtherStops E) (h : Consistent s D dirty none)
    (hip : Core s ip i) (ht : (D i).type ≠ 0) (hS : s.sb.BitmapIn S) (hi : s.sb.iblock i ∈ S)
    (hroom : s.log.Room S k) : wp (ideal (itrunc ip)) E (fun _ s' => Spent s s' S k) s := by
  have hslot : ∀ sl, s.slots D (i, sl) = (D i).slot s.data sl := slots_eq (hip.isInum h) ht
  have hinum : s.sb.iblock (s.inode ip).inum ∈ S := by
    rw [hip.inum]
    exact hi
  refine Xv6pp.room_itrunc hE hS hinum ?_ ?_ hroom
  · intro k
    rw [hip.copy h]
    have hlt := h.slot_lt (i, .addr k)
    rwa [hslot] at hlt
  · rw [hip.copy h]
    intro hne
    have hind : s.slots D (i, .indirect) = (D i).indirect := hslot .indirect
    have hge := (h.blocks.range (hind.symm ▸ hne : s.slots D (i, .indirect) ≠ 0)).1
    refine ⟨fun b hb e => ?_, fun n hn => ?_⟩
    · have hlt := h.layout.bitmap hb
      rw [e] at hlt
      omega
    · have hlt := h.slot_lt (i, .entry ⟨n, hn⟩)
      rwa [hslot, Dinode.slot, if_neg hne] at hlt

/-- A truncation alters one inode. -/
theorem Truncated.alters (h : s.Sane) (hip : Core s ip i) (htr : Truncated s s.dinode ip i none s') :
    s.Alters i s' where
  sane := htr.consistent.sane (htr.noHoles h.consistent h.noHoles)
  sb := htr.sb
  incore k := by
    rw [htr.inode, Function.update_apply]
    split
    · next hk =>
      rw [hk]
      exact ⟨rfl, rfl, rfl, rfl⟩
    · exact ⟨rfl, rfl, rfl, rfl⟩
  type := by
    have hi' : s'.sb.IsInum i := htr.sb ▸ hip.isInum h.consistent
    rw [htr.consistent.disk hi' nofun, Function.update_self]
    rfl
  other j hj hne := by
    have hj' : s'.sb.IsInum j := htr.sb ▸ hj
    refine ⟨by rw [htr.consistent.disk hj' nofun, Function.update_of_ne hne], ?_⟩
    rw [htr.consistent.content_eq hj', Fs.content, Function.update_of_ne hne]
    exact Fs.fileBytes_congr fun o _ => htr.fileByte h.consistent hne _

/-- **`itrunc`** empties the content. -/
theorem Fs.Sane.wp_itrunc (h : s.Sane) (hip : Core s ip i) (ht : (s.dinode i).type ≠ 0)
    (hS : s.sb.BitmapIn S) (hi : s.sb.iblock i ∈ S) (hB : Budget E S k s) :
    wp (ideal (itrunc ip)) E (fun _ s' =>
      (s.Alters i s' ∧ s'.dinode i = (s.dinode i).truncated ∧ s'.content i = []) ∧ Budget E S k s') s := by
  rw [← Nat.zero_add k] at hB
  refine wp_budget hB (fun E hE => ?_) fun E hE hroom =>
    wp_imp (h.consistent.room_itrunc hE hip ht hS hi (by rwa [Nat.zero_add] at hroom)) fun _ _ hs =>
      hs.room
  refine wp_imp (Xv6pp.wp_itrunc hE h.consistent hip ht) fun _ s' htr => ?_
  have hi' : s'.sb.IsInum i := htr.sb ▸ hip.isInum h.consistent
  have hdin : s'.dinode i = (s.dinode i).truncated := by
    rw [htr.consistent.disk hi' nofun, Function.update_self]
  refine ⟨htr.alters h hip, hdin, ?_⟩
  rw [Fs.content, hdin]
  rfl

end

/-! ## Main result -/

/-- **Files are arrays of bytes.**  On a file system in good order, for an allocated inode in core:
`readi` returns the piece of the content that there is, and changes nothing; `writei` refuses a write
that begins after the end or exceeds the largest file, and changes nothing then, and otherwise
overwrites the content with as many of the bytes as there are blocks for; `itrunc` empties the
content; and no other inode is affected.  For the last two the transaction has room for the blocks
that may be logged, or a panic of `log_write` is allowed. -/
theorem file_contents (s : Fs) (ip : InodeId) (i : Nat) (h : s.Sane) (hip : Core s ip i)
    (ht : (s.dinode i).type ≠ 0) :
    (∀ dst off n, (∀ t piece, dst t piece = true) → off + n < 2 ^ 32 →
      wp (ideal (readi ip dst off n)) (fun _ => False) (fun r s' => s' = s ∧
        r.1 = (if (s.dinode i).size < off then 0 else min n ((s.dinode i).size - off) : Nat) ∧
        r.2 = ((s.content i).drop off).take n) s) ∧
    (∀ E S bytes off, off + bytes.length < 2 ^ 32 → s.sb.BitmapIn S → s.sb.iblock i ∈ S →
      Budget E S (2 * spanned off bytes.length) s →
      wp (ideal (writei ip (Source.list bytes) off bytes.length)) E (fun r s' =>
        r = -1 ∧ s' = s ∧ ((s.dinode i).size < off ∨ MAXFILE * BSIZE < off + bytes.length) ∨
        off ≤ (s.dinode i).size ∧ off + bytes.length ≤ MAXFILE * BSIZE ∧
        ∃ tot ≤ bytes.length, r = (tot : Int) ∧
          (tot < bytes.length → ∀ c, c < s'.sb.size → s'.bit c = true) ∧ s'.Sane ∧
          (s'.dinode i).size = max (s.dinode i).size (off + tot) ∧
          s'.content i = (s.content i).take off ++ bytes.take tot ++ (s.content i).drop (off + tot) ∧
          ∀ j, s.sb.IsInum j → j ≠ i → s'.dinode j = s.dinode j ∧ s'.content j = s.content j) s) ∧
    ∀ E S, s.sb.BitmapIn S → s.sb.iblock i ∈ S → Budget E S 0 s →
      wp (ideal (itrunc ip)) E (fun _ s' => s'.Sane ∧ s'.content i = [] ∧
        ∀ j, s.sb.IsInum j → j ≠ i → s'.dinode j = s.dinode j ∧ s'.content j = s.content j) s := by
  refine ⟨fun dst off n hdst hn => h.wp_readi hip ht hdst hn, fun E S bytes off hn hS hi hB => ?_,
    fun E S hS hi hB => ?_⟩
  · refine wp_imp (h.wp_writei (k := 0) hip ht hn hS hi hB) ?_
    rintro r s' ⟨hres | ⟨h1, h2, tot, h3, h4, h5, halters, h6, h7⟩, -⟩
    · exact .inl hres
    · exact .inr ⟨h1, h2, tot, h3, h4, fun hlt => (h5 hlt).1.1, halters.sane, h6, h7, halters.other⟩
  · refine wp_imp (h.wp_itrunc hip ht hS hi hB) ?_
    rintro _ s' ⟨⟨halters, -, hcontent⟩, -⟩
    exact ⟨halters.sane, hcontent, halters.other⟩

/-! ## A small disk -/

/-- A disk of 64 blocks, with a log of twelve. -/
def smallSb : Superblock where
  size := 64
  nblocks := 48
  ninodes := 8
  nlog := 12
  logstart := 2
  inodestart := 14
  bmapstart := 15

/-- An empty file. -/
def emptyFile : Dinode := ⟨T_FILE, 0, 0, 1, 0, fun _ => 0⟩

/-- A transaction has begun. -/
def smallLog : Log := ⟨2, 12, 1, false, ⟨0, fun _ => 0⟩⟩

/-- Inode 1 is `d`, which is in core. -/
def smallWith (d : Dinode) : Fs where
  mem :=
    { sb := smallSb
      log := smallLog
      inodes := fun k => if k.val = 0 then ⟨1, 1, true, true, d⟩
        else ⟨0, 0, false, false, .fresh 0⟩ }
  dev :=
    { data := fun b => if b = 14 then Block.setDinode (Bytes.zero BSIZE) 1 d
        else if b = 15 then Bytes.write (Bytes.zero BSIZE) 0 [255, 255] else Bytes.zero BSIZE
      issued := [] }

/-- Inode 1 is an empty file. -/
def smallFs : Fs := smallWith emptyFile

/-- The in-core inode of the file. -/
def smallIp : InodeId := ⟨0, NINODE_pos⟩

/-- An inode without blocks. -/
structure Dinode.Blank (d : Dinode) : Prop where
  fits : d.Fits
  size : d.size = 0
  addrs : d.addrs = fun _ => 0

theorem emptyFile_blank : emptyFile.Blank :=
  ⟨⟨by decide, by decide, by decide, by decide, by decide, by decide⟩, rfl, rfl⟩

section
variable {d : Dinode}

theorem smallWith_dinode (hd : d.Blank) : (smallWith d).dinode 1 = d :=
  Block.dinode_setDinode (by decide) hd.fits

theorem smallWith_free : ∀ i < 8, i ≠ 1 → ((smallWith d).dinode i).type = 0 := by
  intro i hi hne
  have hblock : smallSb.iblock i = 14 := by
    show i / IPB + 14 = 14
    rw [Nat.div_eq_of_lt (lt_trans hi (by decide))]
  have hmod : i % IPB ≠ 1 := by
    rw [Nat.mod_eq_of_lt (lt_trans hi (by decide))]
    exact hne
  have hzero : ∀ k < IPB, (Block.dinode (Bytes.zero BSIZE) k).type = 0 := by decide +kernel
  show (Block.dinode ((smallWith d).data (smallSb.iblock i)) (i % IPB)).type = 0
  rw [hblock]
  show ((Block.setDinode (Bytes.zero BSIZE) 1 d).dinode (i % IPB)).type = 0
  rw [Block.dinode_setDinode_of_ne hmod]
  exact hzero _ (Nat.mod_lt _ (by decide))

theorem smallWith_bit : ∀ b < 64, (smallWith d).bit b = decide (b < 16) := by
  intro b hb
  have hblock : smallSb.bblock b = 15 := by
    show b / BPB + 15 = 15
    rw [Nat.div_eq_of_lt (lt_trans hb (by decide))]
  have hbits : ∀ b < 64, Block.bit (Bytes.write (Bytes.zero BSIZE) 0 [255, 255]) (b % BPB) =
      decide (b < 16) := by decide +kernel
  show Block.bit ((smallWith d).data (smallSb.bblock b)) (b % BPB) = _
  rw [hblock]
  exact hbits b hb

theorem smallWith_ref {k : InodeId} (h : 0 < ((smallWith d).inode k).ref) : k = smallIp := by
  by_contra hne
  have hk : k.val ≠ 0 := fun e => hne (Fin.ext e)
  have href : ((smallWith d).inode k).ref = 0 := by
    show (if k.val = 0 then (⟨1, 1, true, true, d⟩ : Inode)
      else ⟨0, 0, false, false, .fresh 0⟩).ref = 0
    rw [if_neg hk]
  omega

theorem smallWith_slots (hd : d.Blank) (p : Nat × Slot) :
    (smallWith d).slots (smallWith d).dinode p = 0 := by
  obtain ⟨i, sl⟩ := p
  rw [Fs.slots, Xv6pp.slots]
  split
  · next hp =>
    obtain rfl : i = 1 := by
      by_contra hne
      exact hp.2 (smallWith_free i hp.1.2 hne)
    have haddr : ∀ k, d.addrs k = 0 := fun k => by rw [hd.addrs]
    rw [smallWith_dinode hd]
    cases sl with
    | addr k => exact haddr k
    | entry j => exact if_pos (haddr _)
  · rfl

theorem smallSb_layout : smallSb.Layout where
  log_le := by decide
  inodes_le := by decide
  inodes {i} hi := by
    have hlt : i < 8 := hi.2
    show i / IPB + 14 < 15
    rw [Nat.div_eq_of_lt (lt_trans hlt (by decide))]
    decide
  bitmap {b} hb := by
    have hlt : b < 64 := hb
    show b / BPB + 15 < 16
    rw [Nat.div_eq_of_lt (lt_trans hlt (by decide))]
    decide
  pos := by decide
  word := by decide

theorem smallLog_ok : LogOk smallSb smallLog :=
  ⟨⟨by decide, by decide, nofun, nofun, nofun⟩, rfl, rfl⟩

theorem smallWith_sane (hd : d.Blank) : (smallWith d).Sane where
  consistent :=
    { inum := fun hr => by
        rw [smallWith_ref hr]
        show smallSb.IsInum 1
        decide
      copy := fun hr _ => by
        rw [smallWith_ref hr]
        exact (smallWith_dinode hd).symm
      uniq := fun hj hk _ => (smallWith_ref hj).trans (smallWith_ref hk).symm
      layout := smallSb_layout
      log := smallLog_ok
      blocks :=
        { pos := smallSb_layout.pos
          inj := fun hne _ => absurd (smallWith_slots hd _) hne
          range := fun hne => absurd (smallWith_slots hd _) hne
          fresh := nofun
          used := fun {b} hb => by
            rw [smallWith_bit b hb, decide_eq_true_eq]
            refine ⟨.inl, ?_⟩
            rintro (hlt | ⟨p, hp, hne⟩ | hloose)
            · exact hlt
            · exact absurd ((smallWith_slots hd p).symm.trans hp).symm hne
            · cases hloose }
      disk := fun _ _ => rfl
      fits := fun _ => Dinode.fits_ofBytes _ }
  noHoles i hi ht bn hbn := by
    obtain rfl : i = 1 := by
      by_contra hne
      exact ht (smallWith_free i hi.2 hne)
    rw [smallWith_dinode hd, hd.size] at hbn
    exact absurd hbn (Nat.not_lt_zero _)

theorem smallWith_core : Core (smallWith d) smallIp 1 := ⟨Int.one_pos, rfl, rfl⟩

theorem smallLog_room : smallLog.Room {14, 15} 2 := ⟨by decide, by decide, by decide, by decide⟩

theorem smallWith_bitmapIn : (smallWith d).sb.BitmapIn {14, 15} := fun b hb => by
  have hlt : b < 64 := hb
  show b / BPB + 15 ∈ ({14, 15} : Finset Nat)
  rw [Nat.div_eq_of_lt (lt_trans hlt (by decide))]
  decide

end

theorem smallFs_dinode : smallFs.dinode 1 = emptyFile := smallWith_dinode emptyFile_blank

theorem smallFs_sane : smallFs.Sane := smallWith_sane emptyFile_blank

theorem smallFs_core : Core smallFs smallIp 1 := smallWith_core

/-- Three bytes are written to the file. -/
theorem file_contents_small : smallFs.Sane ∧ Core smallFs smallIp 1 ∧ ∃ s',
    (ideal (writei smallIp (Source.list [1, 2, 3]) 0 3)).run smallFs = .ok (3, s') ∧
      s'.content 1 = [1, 2, 3] := by
  have ht : (smallFs.dinode 1).type ≠ 0 := by rw [smallFs_dinode]; decide
  have hw := (file_contents smallFs smallIp 1 smallFs_sane smallFs_core ht).2.1 (fun _ => False)
    {14, 15} [1, 2, 3] 0 (by decide) smallWith_bitmapIn (by decide) (.inr smallLog_room)
  obtain ⟨r, s', hrun, hpost⟩ := wp_total hw
  have hres : (match (ideal (writei smallIp (Source.list [1, 2, 3]) 0 3)).run smallFs with
      | .ok (r, _) => decide (r = 3)
      | .error _ => false) = true := by decide +kernel
  have hr : r = 3 := by
    have hrun' : (ideal (writei smallIp (Source.list [1, 2, 3]) 0 3)).run smallFs = .ok (r, s') := hrun
    rw [hrun'] at hres
    exact of_decide_eq_true hres
  refine ⟨smallFs_sane, smallFs_core, s', hr ▸ hrun, ?_⟩
  rcases hpost with ⟨hneg, -⟩ | ⟨-, -, tot, -, htot, -, -, -, hcontent, -⟩
  · exact absurd (hr.symm.trans hneg) (by decide)
  · obtain rfl : tot = 3 := by
      have : (tot : Int) = 3 := htot.symm.trans hr
      exact_mod_cast this
    rw [hcontent, Fs.content, smallFs_dinode]
    rfl

/-- Ten blocks are too many for one transaction of this log. -/
theorem writei_too_big : smallFs.Sane ∧ Core smallFs smallIp 1 ∧ (smallFs.dinode 1).type ≠ 0 ∧
    0 + (List.replicate (10 * BSIZE) (7 : UInt8)).length ≤ MAXFILE * BSIZE ∧
    (ideal (writei smallIp (Source.list (List.replicate (10 * BSIZE) 7)) 0
      (List.replicate (10 * BSIZE) (7 : UInt8)).length)).run smallFs = .error .tooBigTransaction := by
  have hres : (match (ideal (writei smallIp (Source.list (List.replicate (10 * BSIZE) 7)) 0
      (10 * BSIZE))).run smallFs with
      | .ok _ => false
      | .error e => decide (e = .tooBigTransaction)) = true := by decide +kernel
  refine ⟨smallFs_sane, smallFs_core, by rw [smallFs_dinode]; decide, ?_, ?_⟩
  · rw [List.length_replicate]
    decide
  · rw [List.length_replicate]
    split at hres
    · cases hres
    · next e he => rw [he, of_decide_eq_true hres]

end Xv6pp
