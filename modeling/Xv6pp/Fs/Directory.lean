import Xv6pp.Fs.InodeTable
import Xv6pp.Lib.Slots

/-!
# Directories are finite maps

The content of a directory is a table of entries, each of which is free or binds a name to an inode
number (`Fs.table`).  `dirlookup` finds the first binding of a name; `dirlink` writes a new binding to
the first free entry, or to a new one at the end, and `sys_unlink` overwrites an entry with zeros.  As
long as no name is bound twice, these are the operations of a finite map.
-/

set_option autoImplicit false

namespace Xv6pp

open Prog FileSystem Allocation

/-! ## Tables of entries -/

/-- What an entry stands for: nothing, if its inode number is 0. -/
def Dirent.slot (de : Dirent) : Option (List UInt8 × Nat) :=
  if de.inum = 0 then none else some (de.name, de.inum)

/-- The entries in the content of a directory. -/
def dirTable (c : List UInt8) : Slots.Table (List UInt8) Nat :=
  (List.range (c.length / sizeofDirent)).map fun k =>
    (Dirent.ofBytes ((c.drop (sizeofDirent * k)).take sizeofDirent)).slot

/-- The entries of the directory `d`. -/
def Fs.table (s : Fs) (d : Nat) : Slots.Table (List UInt8) Nat := dirTable (s.content d)

/-- The inode number that a name is bound to. -/
def Fs.lookup (s : Fs) (d : Nat) (name : List UInt8) : Option Nat := Slots.lookup (s.table d) name

/-- The inode `d` is a directory, which has only whole entries. -/
structure Fs.IsDir (s : Fs) (d : Nat) : Prop where
  type : (s.dinode d).type = T_DIR
  size : (s.dinode d).size % sizeofDirent = 0

section
variable {c b : List UInt8} {k : Nat}

@[simp] theorem length_dirTable (c : List UInt8) : (dirTable c).length = c.length / sizeofDirent := by
  rw [dirTable, List.length_map, List.length_range]

theorem getElem?_dirTable (hk : k < c.length / sizeofDirent) : (dirTable c)[k]? =
    some (Dirent.ofBytes ((c.drop (sizeofDirent * k)).take sizeofDirent)).slot := by
  rw [dirTable, List.getElem?_map, List.getElem?_range hk, Option.map_some]

/-- Names in a directory are proper names. -/
theorem isName_of_dirTable {name : List UInt8} {x : Nat}
    (h : (dirTable c)[k]? = some (some (name, x))) : IsName name := by
  have hk : k < c.length / sizeofDirent := by
    rw [← length_dirTable]
    exact (List.getElem?_eq_some_iff.1 h).1
  rw [getElem?_dirTable hk, Dirent.slot] at h
  split at h
  · cases h
  · cases h
    exact Dirent.isName_ofBytes _

/-- A piece of a list is overwritten. -/
theorem getElem?_splice {α : Type} {l b : List α} {off : Nat} (hoff : off ≤ l.length) (m : Nat) :
    (l.take off ++ b ++ l.drop (off + b.length))[m]? =
      if off ≤ m ∧ m < off + b.length then b[m - off]? else l[m]? := by
  have hlen : (l.take off).length = off := List.length_take_of_le hoff
  have hlen' : (l.take off ++ b).length = off + b.length := by rw [List.length_append, hlen]
  by_cases h1 : m < off
  · rw [List.getElem?_append_left (by omega), List.getElem?_append_left (by omega),
      List.getElem?_take_of_lt h1, if_neg (by omega)]
  by_cases h2 : m < off + b.length
  · rw [List.getElem?_append_left (by omega), List.getElem?_append_right (by omega), hlen,
      if_pos ⟨by omega, h2⟩]
  · rw [List.getElem?_append_right (by omega), hlen', List.getElem?_drop, if_neg (by omega)]
    congr 1
    omega

/-- **Overwriting an entry**, or adding one at the end. -/
theorem dirTable_write (hc : c.length % sizeofDirent = 0) (hb : b.length = sizeofDirent)
    (hk : k ≤ c.length / sizeofDirent) :
    dirTable (c.take (sizeofDirent * k) ++ b ++ c.drop (sizeofDirent * k + sizeofDirent)) =
      Slots.write (dirTable c) k (Dirent.ofBytes b).slot := by
  have hoff : sizeofDirent * k ≤ c.length := by
    simp only [sizeofDirent] at *
    omega
  have hsplice := fun m => getElem?_splice (b := b) hoff m
  simp only [hb] at hsplice
  have hlen : (c.take (sizeofDirent * k) ++ b ++ c.drop (sizeofDirent * k + sizeofDirent)).length =
      max c.length (sizeofDirent * k + sizeofDirent) := by
    simp only [List.length_append, List.length_take, List.length_drop, hb]
    omega
  generalize c.take (sizeofDirent * k) ++ b ++ c.drop (sizeofDirent * k + sizeofDirent) = c' at *
  have hk' : k ≤ (dirTable c).length := by rwa [length_dirTable]
  refine List.ext_getElem? fun j => ?_
  rw [Slots.getElem?_write hk']
  have hdiv : c'.length / sizeofDirent = max (c.length / sizeofDirent) (k + 1) := by
    simp only [sizeofDirent] at *
    omega
  by_cases hj : j < c'.length / sizeofDirent
  · rw [getElem?_dirTable hj]
    have hpiece : ∀ d : List UInt8, (∀ n < sizeofDirent, c'[sizeofDirent * j + n]? = d[n]?) →
        d.length = sizeofDirent → (c'.drop (sizeofDirent * j)).take sizeofDirent = d := by
      intro d hd hdlen
      refine List.ext_getElem? fun n => ?_
      by_cases hn : n < sizeofDirent
      · rw [List.getElem?_take_of_lt hn, List.getElem?_drop, hd n hn]
      · rw [List.getElem?_eq_none (by rw [List.length_take]; omega), List.getElem?_eq_none (by omega)]
    split
    · next hjk =>
      subst hjk
      rw [hpiece b (fun n hn => ?_) hb]
      rw [hsplice, if_pos ⟨by omega, by omega⟩, Nat.add_sub_cancel_left]
    · next hjk =>
      have hj' : j < c.length / sizeofDirent := by omega
      rw [getElem?_dirTable hj',
        hpiece ((c.drop (sizeofDirent * j)).take sizeofDirent) (fun n hn => ?_) ?_]
      · rw [List.length_take, List.length_drop]
        simp only [sizeofDirent] at *
        omega
      · rw [hsplice, if_neg ?_, List.getElem?_take_of_lt hn, List.getElem?_drop]
        simp only [sizeofDirent] at *
        omega
  · rw [List.getElem?_eq_none (by rw [length_dirTable]; omega), if_neg (by omega),
      List.getElem?_eq_none (by rw [length_dirTable]; omega)]

end

/-! ## Reading and writing an entry -/

section
variable {E : Panic → Prop} {s s' : Fs} {d k n x : Nat} {dp ip : InodeId} {name b : List UInt8}
  {S : Finset Nat}

theorem Fs.length_table (s : Fs) (d : Nat) :
    (s.table d).length = (s.dinode d).size / sizeofDirent := by
  rw [Fs.table, length_dirTable, Fs.length_content]

namespace Fs.IsDir

theorem type_ne (hd : s.IsDir d) : (s.dinode d).type ≠ 0 := by
  rw [hd.type]
  decide

theorem lt_length (hd : s.IsDir d) : sizeofDirent * k < (s.dinode d).size ↔ k < (s.table d).length := by
  rw [Fs.length_table]
  have h := hd.size
  simp only [sizeofDirent] at *
  omega

/-- `readi` of an entry. -/
theorem wp_readEntry (hd : s.IsDir d) (h : s.Sane) (hdp : Core s dp d) (hk : k < (s.table d).length) :
    wp (ideal (readKernel dp (sizeofDirent * k) sizeofDirent)) E (fun r s' => s' = s ∧
      r.1 = sizeofDirent ∧ (s.table d)[k]? = some (Dirent.ofBytes r.2).slot) s := by
  have hmax := h.size_le (hdp.isInum h.consistent) hd.type_ne
  have hlt := (hd.lt_length (k := k)).2 hk
  have hwhole := hd.size
  have hword : sizeofDirent * k + sizeofDirent < 2 ^ 32 := by
    have hcap : MAXFILE * BSIZE + sizeofDirent < 2 ^ 32 := by decide
    omega
  refine wp_imp (h.wp_readi hdp hd.type_ne (fun _ _ => rfl) hword) ?_
  rintro ⟨r, bytes⟩ s' ⟨rfl, hr, hbytes⟩
  refine ⟨rfl, ?_, ?_⟩
  · rw [hr, if_neg (by omega), Nat.min_eq_left]
    simp only [sizeofDirent] at *
    omega
  · rw [Fs.length_table, ← Fs.length_content] at hk
    rw [Fs.table, getElem?_dirTable hk, ← hbytes]

end Fs.IsDir

theorem spanned_entry (k : Nat) : spanned (sizeofDirent * k) sizeofDirent = 1 := by
  rw [spanned, if_neg (by decide)]
  simp only [sizeofDirent, BSIZE]
  omega

/-- `writei` of an entry, to a place in the directory or to its end: it is written as a whole, or
not at all because the directory cannot be extended. -/
theorem Fs.IsDir.wp_writeEntry (hd : s.IsDir d) (h : s.Sane) (hdp : Core s dp d)
    (hb : b.length = sizeofDirent) (hk : k ≤ (s.table d).length) (hS : s.sb.BitmapIn S)
    (hi : s.sb.iblock d ∈ S) (hB : Budget E S (2 + n) s) :
    wp (ideal (writeKernel dp b (sizeofDirent * k))) E (fun r s' =>
      (s.Alters d s' ∧ s'.IsDir d ∧
        (r = sizeofDirent ∧ s'.table d = Slots.write (s.table d) k (Dirent.ofBytes b).slot ∨
          r ≠ sizeofDirent ∧ k = (s.table d).length ∧ s'.content d = s.content d ∧
            (MAXFILE * BSIZE < (s.dinode d).size + sizeofDirent ∨
              (∀ c, c < s'.sb.size → s'.bit c = true) ∧
                s.fileBlock s.dinode d ((s.dinode d).size / BSIZE) = 0))) ∧
      Budget E S n s') s := by
  have hmax := h.size_le (hdp.isInum h.consistent) hd.type_ne
  have hwhole := hd.size
  have hoff : sizeofDirent * k ≤ (s.dinode d).size := by
    rw [Fs.length_table] at hk
    simp only [sizeofDirent] at *
    omega
  have hend : k = (s.table d).length ∨ sizeofDirent * k + sizeofDirent ≤ (s.dinode d).size := by
    rw [Fs.length_table] at hk ⊢
    simp only [sizeofDirent] at *
    omega
  have hfull : k = (s.table d).length → sizeofDirent * k = (s.dinode d).size := fun e => by
    rw [e, Fs.length_table]
    simp only [sizeofDirent] at *
    omega
  have hword : sizeofDirent * k + b.length < 2 ^ 32 := by
    have hcap : MAXFILE * BSIZE + sizeofDirent < 2 ^ 32 := by decide
    omega
  refine wp_imp (h.wp_writei (k := n) hdp hd.type_ne hword hS hi
    (by rwa [hb, spanned_entry])) ?_
  rintro r s' ⟨⟨hr, rfl, hout⟩ | ⟨-, hfits, tot, htot, hr, hshort, halters, hsize, hcontent⟩, hB'⟩
  · have hlast : k = (s'.table d).length := by omega
    refine ⟨⟨.refl h d, hd, .inr ⟨by rw [hr]; decide, hlast, rfl, .inl ?_⟩⟩, hB'⟩
    have := hfull hlast
    omega
  refine ⟨⟨halters, ⟨halters.type.trans hd.type, ?_⟩, ?_⟩, hB'⟩
  · rw [hsize]
    by_cases hall : tot = b.length
    · simp only [sizeofDirent] at *
      omega
    · rcases (hshort (by omega)).2 with h0 | hmod
      · rw [h0, Nat.add_zero, Nat.max_eq_left hoff]
        exact hwhole
      · simp only [sizeofDirent, BSIZE] at *
        omega
  by_cases hall : tot = b.length
  · refine .inl ⟨by rw [hr, hall, hb], ?_⟩
    rw [Fs.table, hcontent, hall, List.take_length, hb,
      dirTable_write (by rwa [Fs.length_content]) hb (by rwa [← length_dirTable])]
    rfl
  · have hlt : tot < b.length := by omega
    obtain ⟨⟨hbits, hhole⟩, hedge⟩ := hshort hlt
    -- an entry lies within a block
    obtain rfl : tot = 0 := by
      by_contra h0
      have hmod := hedge.resolve_left h0
      simp only [sizeofDirent, BSIZE] at *
      omega
    rw [Nat.add_zero] at hhole hcontent
    have hlast : k = (s.table d).length := by
      refine hend.resolve_right fun hin => ?_
      have hin' : sizeofDirent * k / BSIZE * BSIZE < (s.dinode d).size := by
        have := Nat.div_mul_le_self (sizeofDirent * k) BSIZE
        simp only [sizeofDirent] at *
        omega
      exact h.noHoles d (hdp.isInum h.consistent) hd.type_ne _ hin' hhole
    refine .inr ⟨by rw [hr]; decide, hlast, ?_, .inr ⟨hbits, ?_⟩⟩
    · rw [hcontent, List.take_zero, List.append_nil, List.take_append_drop]
    · rw [← hfull hlast]
      exact hhole

end

/-! ## `dirlookup` -/

/-- An entry with this name was found, and there is a reference to its inode now. -/
structure Found (s : Fs) (d : Nat) (name : List UInt8) (x : Nat) (ip : InodeId) (off : Nat) (s' : Fs) :
    Prop where
  lookup : s.lookup d name = some x
  entry : ∃ k, off = sizeofDirent * k ∧ (s.table d)[k]? = some (some (name, x))
  got : Got s x ip s'

section
variable {E : Panic → Prop} {s s' : Fs} {d k n x : Nat} {dp ip : InodeId} {name b : List UInt8}
  {S : Finset Nat}

theorem Fs.IsDir.wp_dirlookupFrom (hd : s.IsDir d) (h : s.Sane) (hdp : Core s dp d) (hname : IsName name)
    (hV : Vacant E s) {j : Nat} (hn : (s.table d).length ≤ j + n) :
    wp (ideal (dirlookupFrom dp name n (sizeofDirent * j))) E (fun r s' =>
      (r = none ∧ s' = s ∧ Slots.lookup ((s.table d).drop j) name = none) ∨
      ∃ ip k x, r = some (ip, sizeofDirent * k) ∧ (s.table d)[k]? = some (some (name, x)) ∧
        Slots.lookup ((s.table d).drop j) name = some x ∧ Got s x ip s') s := by
  induction n generalizing j with
  | zero =>
    refine .inl ⟨rfl, rfl, ?_⟩
    rw [List.drop_eq_nil_of_le (by omega), Slots.lookup_nil]
  | succ n ih =>
    rw [dirlookupFrom, wp_ideal_bind, wp_inode, hdp.copy h.consistent]
    split
    · next hlt =>
      have hj := hd.lt_length.1 hlt
      refine wp_ideal_seq (hd.wp_readEntry h hdp hj) ?_
      rintro ⟨r, bytes⟩ s₁ ⟨rfl, hr, hentry⟩
      replace hr : r = sizeofDirent := hr
      replace hentry : (s₁.table d)[j]? = some (Dirent.ofBytes bytes).slot := hentry
      have hdrop : (s₁.table d).drop j = (Dirent.ofBytes bytes).slot :: (s₁.table d).drop (j + 1) := by
        rw [List.drop_eq_getElem_cons hj]
        rw [List.getElem?_eq_getElem hj] at hentry
        rw [Option.some.inj hentry]
      have hnext := ih (j := j + 1) (by omega)
      rw [Nat.mul_add, Nat.mul_one] at hnext
      dsimp only
      rw [if_neg (by simpa using hr), hdrop]
      split
      · next h0 =>
        rw [Dirent.slot, if_pos h0]
        exact hnext
      next h0 =>
      rw [Dirent.slot, if_neg h0] at hentry ⊢
      have hcmp := namecmp_eq_zero hname (Dirent.isName_ofBytes bytes)
      split
      · next heq =>
        rw [hcmp] at heq
        subst heq
        refine wp_ideal_seq (wp_iget hV) fun ip s' hgot => ?_
        exact .inr ⟨ip, j, _, rfl, hentry, Slots.lookup_cons_self _, hgot⟩
      · next hne =>
        rw [hcmp] at hne
        rw [Slots.lookup_cons_of_ne _ fun e => hne e.symm]
        exact hnext
    · next hge =>
      refine .inl ⟨rfl, rfl, ?_⟩
      rw [List.drop_eq_nil_of_le (Nat.not_lt.1 fun hj => hge (hd.lt_length.2 hj)), Slots.lookup_nil]

theorem Fs.IsDir.entries_eq (hd : s.IsDir d) : (s.dinode d).entries = (s.table d).length := by
  rw [Dinode.entries, Fs.length_table]
  have hwhole := hd.size
  simp only [sizeofDirent] at *
  omega

/-- **`dirlookup`** finds the inode that the name is bound to. -/
theorem Fs.IsDir.wp_dirlookup (hd : s.IsDir d) (h : s.Sane) (hdp : Core s dp d) (hname : IsName name)
    (hV : Vacant E s) :
    wp (ideal (dirlookup dp name)) E (fun r s' =>
      (r = none ∧ s' = s ∧ s.lookup d name = none) ∨
      ∃ ip off x, r = some (ip, off) ∧ Found s d name x ip off s') s := by
  rw [dirlookup, wp_ideal_bind, wp_inode, hdp.copy h.consistent]
  rw [if_neg fun hne => hne hd.type, hd.entries_eq]
  refine wp_imp (hd.wp_dirlookupFrom (j := 0) h hdp hname hV (Nat.zero_add _).ge) ?_
  rintro r s' (⟨hr, rfl, hnone⟩ | ⟨ip, k, x, hr, hentry, hsome, hgot⟩)
  · exact .inl ⟨hr, rfl, hnone⟩
  · exact .inr ⟨ip, _, x, hr, hsome, ⟨k, rfl, hentry⟩, hgot⟩

/-! ## `dirlink` -/

/-- The first free entry, or the end of the directory. -/
theorem Fs.IsDir.wp_emptyFrom (hd : s.IsDir d) (h : s.Sane) (hdp : Core s dp d) {j : Nat}
    (hn : (s.table d).length ≤ j + n) (hj : j ≤ (s.table d).length)
    (hused : ∀ k < j, ∃ p, (s.table d)[k]? = some (some p)) :
    wp (ideal (emptyFrom dp n (sizeofDirent * j))) E (fun r s' => s' = s ∧
      ∃ k ≤ (s.table d).length, r = sizeofDirent * k ∧ (∀ p, (s.table d)[k]? ≠ some (some p)) ∧
        ∀ k' < k, ∃ p, (s.table d)[k']? = some (some p)) s := by
  have hend : (s.table d).length ≤ j → ∀ p, (s.table d)[j]? ≠ some (some p) := fun hle p => by
    rw [List.getElem?_eq_none hle]
    exact nofun
  induction n generalizing j with
  | zero => exact ⟨rfl, j, hj, rfl, hend (by omega), hused⟩
  | succ n ih =>
    rw [emptyFrom, wp_ideal_bind, wp_inode, hdp.copy h.consistent]
    split
    · next hlt =>
      have hlt' := hd.lt_length.1 hlt
      refine wp_ideal_seq (hd.wp_readEntry h hdp hlt') ?_
      rintro ⟨r, bytes⟩ s₁ ⟨rfl, hr, hentry⟩
      replace hr : r = sizeofDirent := hr
      replace hentry : (s₁.table d)[j]? = some (Dirent.ofBytes bytes).slot := hentry
      dsimp only
      rw [if_neg (by simpa using hr)]
      split
      · next h0 =>
        refine ⟨rfl, j, hj, rfl, fun p => ?_, hused⟩
        rw [hentry, Dirent.slot, if_pos h0]
        exact nofun
      · next h0 =>
        rw [Dirent.slot, if_neg h0] at hentry
        have hused' : ∀ k < j + 1, ∃ p, (s₁.table d)[k]? = some (some p) := fun k hk => by
          rcases Nat.lt_succ_iff_lt_or_eq.1 hk with hk | rfl
          · exact hused k hk
          · exact ⟨_, hentry⟩
        have hnext := ih (j := j + 1) (by omega) hlt' hused' fun hle p => by
          rw [List.getElem?_eq_none hle]
          exact nofun
        rwa [Nat.mul_add, Nat.mul_one] at hnext
    · next hge =>
      exact ⟨rfl, j, hj, rfl, hend (Nat.not_lt.1 fun hj' => hge (hd.lt_length.2 hj')), hused⟩

/-- What `dirlink` does: it binds the name, or fails because the name is bound, or because all
entries are in use and the directory cannot be extended. -/
inductive Linked (s : Fs) (d : Nat) (name : List UInt8) (inum : Nat) : Int → Fs → Prop
  | bound {s' : Fs} {x : Nat} : s.lookup d name = some x → SameTable s s' → Linked s d name inum (-1) s'
  | full {s' : Fs} : s.lookup d name = none →
      (∀ k < (s.table d).length, ∃ p, (s.table d)[k]? = some (some p)) → s.Alters d s' →
      s'.content d = s.content d →
      (MAXFILE * BSIZE < (s.dinode d).size + sizeofDirent ∨
        (∀ c, c < s'.sb.size → s'.bit c = true) ∧
          s.fileBlock s.dinode d ((s.dinode d).size / BSIZE) = 0) → Linked s d name inum (-1) s'
  | added {s' : Fs} {k : Nat} : s.lookup d name = none → k ≤ (s.table d).length →
      (∀ p, (s.table d)[k]? ≠ some (some p)) → s.Alters d s' →
      s'.table d = Slots.write (s.table d) k (Dirent.slot ⟨inum, name⟩) → Linked s d name inum 0 s'

/-- A transaction's budget depends on the log only. -/
theorem Budget.congr (h : Budget E S n s) (hlog : s'.log = s.log) : Budget E S n s' := by
  rw [Budget, hlog]
  exact h

/-- **`dirlink`.** -/
theorem Fs.IsDir.wp_dirlink {inum : Nat} (hd : s.IsDir d) (h : s.Sane) (hdp : Core s dp d)
    (hname : IsName name) (hinum : inum < 2 ^ 16) (hV : Vacant E s) (hS : s.sb.BitmapIn S)
    (hi : s.sb.iblock d ∈ S) (hB : Budget E S (2 + n) s) :
    wp (ideal (dirlink dp name inum)) E (fun r s' =>
      (Linked s d name inum r s' ∧ s'.IsDir d) ∧ Budget E S n s') s := by
  rw [dirlink]
  refine wp_ideal_seq (hd.wp_dirlookup h hdp hname hV) ?_
  rintro r s₁ (⟨rfl, rfl, hnone⟩ | ⟨ip, off, x, rfl, hfound⟩)
  · dsimp only
    rw [wp_ideal_bind, wp_inode, hdp.copy h.consistent, hd.entries_eq]
    refine wp_ideal_seq (hd.wp_emptyFrom (j := 0) h hdp (Nat.zero_add _).ge (Nat.zero_le _) nofun) ?_
    rintro off s₂ ⟨rfl, k, hk, rfl, hfree, hused⟩
    refine wp_ideal_seq (hd.wp_writeEntry h hdp (Dirent.length_bytes _) hk hS hi hB) ?_
    rintro r s₃ ⟨⟨halters, hd', ⟨hr, htable⟩ | ⟨hr, hlast, hcontent, hcause⟩⟩, hB'⟩
    · rw [Dirent.ofBytes_bytes hinum hname] at htable
      rw [if_neg (by simpa using hr)]
      exact ⟨⟨.added hnone hk hfree halters htable, hd'⟩, hB'⟩
    · rw [if_pos hr]
      exact ⟨⟨.full hnone (hlast ▸ hused) halters hcontent hcause, hd'⟩, hB'⟩
  · dsimp only
    refine wp_ideal_seq hfound.got.wp_iput fun _ s₂ hsame => ?_
    refine ⟨⟨.bound hfound.lookup hsame, ?_, ?_⟩, (hB.mono subset_rfl (by omega)).congr hsame.log⟩
    · rw [hsame.dinode]
      exact hd.type
    · rw [hsame.dinode]
      exact hd.size

end

/-! ## Directories as maps -/

/-- A directory in core in which no name is bound twice, on a file system in good order. -/
structure Directory (s : Fs) (dp : InodeId) (d : Nat) : Prop where
  sane : s.Sane
  core : Core s dp d
  isDir : s.IsDir d
  distinct : ∀ (i j : Nat) (p q : List UInt8 × Nat), (s.table d)[i]? = some (some p) →
    (s.table d)[j]? = some (some q) → namecmp p.1 q.1 = 0 → i = j

/-- The map with one more binding; the inode number 0 is none. -/
def bind (m : List UInt8 → Option Nat) (name : List UInt8) (inum : Nat) : List UInt8 → Option Nat :=
  if inum = 0 then m else Function.update m name (some inum)

/-- The blocks of the free map, and that of the inode `i`. -/
def Superblock.metadata (sb : Superblock) (i : Nat) : Finset Nat :=
  insert (sb.iblock i) ((Finset.range sb.size).image sb.bblock)

theorem Superblock.bitmapIn_metadata (sb : Superblock) (i : Nat) : sb.BitmapIn (sb.metadata i) :=
  fun _ hb => Finset.mem_insert_of_mem (Finset.mem_image_of_mem _ (Finset.mem_range.2 hb))

theorem Superblock.iblock_mem_metadata (sb : Superblock) (i : Nat) : sb.iblock i ∈ sb.metadata i :=
  Finset.mem_insert_self ..

section
variable {E : Panic → Prop} {s s' : Fs} {d k n x inum : Nat} {dp ip : InodeId} {name : List UInt8}
  {S : Finset Nat}

namespace Directory

theorem slotsDistinct (h : Directory s dp d) : Slots.Distinct (s.table d) := by
  intro i j key v w hi hj
  have hname : IsName key := isName_of_dirTable hi
  exact h.distinct i j _ _ hi hj ((namecmp_eq_zero hname hname).2 rfl)

theorem of_slotsDistinct (hs : s.Sane) (hc : Core s dp d) (hd : s.IsDir d)
    (h : Slots.Distinct (s.table d)) : Directory s dp d := by
  refine ⟨hs, hc, hd, ?_⟩
  rintro i j ⟨key, v⟩ ⟨key', w⟩ hi hj hcmp
  obtain rfl : key = key' := (namecmp_eq_zero (isName_of_dirTable hi) (isName_of_dirTable hj)).1 hcmp
  exact h hi hj

/-- The directory after `dirlink`, as a map. -/
theorem linked {r : Int} (h : Directory s dp d) (hl : Linked s d name inum r s') (hd : s'.IsDir d) :
    Directory s' dp d ∧ s'.lookup d = if r = 0 then bind (s.lookup d) name inum else s.lookup d := by
  have hsame : s'.content d = s.content d → s'.table d = s.table d := fun e => by
    rw [Fs.table, e]
    rfl
  cases hl with
  | bound hx hst =>
    have htable := hsame (congrFun hst.content d)
    refine ⟨of_slotsDistinct (hst.sane h.sane) (hst.core h.core) hd ?_, ?_⟩
    · rw [htable]
      exact h.slotsDistinct
    · rw [if_neg (by decide)]
      funext name
      rw [Fs.lookup, htable, Fs.lookup]
  | full hnone _ halters hcontent _ =>
    have htable := hsame hcontent
    refine ⟨of_slotsDistinct halters.sane (halters.core h.core) hd ?_, ?_⟩
    · rw [htable]
      exact h.slotsDistinct
    · rw [if_neg (by decide)]
      funext name
      rw [Fs.lookup, htable, Fs.lookup]
  | @added _ k hnone hk hfree halters htable =>
    rw [if_pos rfl, bind]
    rw [Dirent.slot] at htable
    split
    · next h0 =>
      rw [if_pos h0] at htable
      obtain ⟨hdistinct, hlookup⟩ := Slots.write_none h.slotsDistinct hk hfree
      rw [← htable] at hdistinct hlookup
      exact ⟨of_slotsDistinct halters.sane (halters.core h.core) hd hdistinct, hlookup⟩
    · next h0 =>
      rw [if_neg h0] at htable
      obtain ⟨hdistinct, hlookup⟩ := Slots.write_some (v := inum) h.slotsDistinct hk hfree hnone
      rw [← htable] at hdistinct hlookup
      exact ⟨of_slotsDistinct halters.sane (halters.core h.core) hd hdistinct, hlookup⟩

/-- **Clearing an entry**, as `sys_unlink` does. -/
theorem wp_clear (h : Directory s dp d) (hk : (s.table d)[k]? = some (some (name, x)))
    (hS : s.sb.BitmapIn S) (hi : s.sb.iblock d ∈ S) (hB : Budget E S (2 + n) s) :
    wp (ideal (writeKernel dp (List.replicate sizeofDirent 0) (sizeofDirent * k))) E (fun r s' =>
      (r = sizeofDirent ∧ s.Alters d s' ∧ Directory s' dp d ∧
        s'.lookup d = Function.update (s.lookup d) name none) ∧ Budget E S n s') s := by
  have hlt : k < (s.table d).length := (List.getElem?_eq_some_iff.1 hk).1
  refine wp_imp (h.isDir.wp_writeEntry h.sane h.core (List.length_replicate ..) hlt.le hS hi hB) ?_
  rintro r s' ⟨⟨halters, hd', ⟨hr, htable⟩ | ⟨-, hlast, -, -⟩⟩, hB'⟩
  · have hzero : (Dirent.ofBytes (List.replicate sizeofDirent 0)).slot = none := by decide
    rw [hzero] at htable
    obtain ⟨hdistinct, hlookup⟩ := Slots.write_clear h.slotsDistinct hk
    rw [← htable] at hdistinct hlookup
    exact ⟨⟨hr, halters, of_slotsDistinct halters.sane (halters.core h.core) hd' hdistinct, hlookup⟩,
      hB'⟩
  · omega

end Directory

/-! ## Runs -/

/-- Something happens to a directory. -/
inductive DirStep (dp : InodeId) (d : Nat) : Fs → Fs → Prop
  /-- `dirlink` returns. -/
  | link {s s' : Fs} {name : List UInt8} {inum : Nat} {r : Int} : IsName name → inum < 2 ^ 16 →
      (ideal (dirlink dp name inum)).run s = .ok (r, s') → DirStep dp d s s'
  /-- `sys_unlink` clears an entry that is in use. -/
  | clear {s s' : Fs} {k : Nat} {p : List UInt8 × Nat} {r : Int} : (s.table d)[k]? = some (some p) →
      (ideal (writeKernel dp (List.replicate sizeofDirent 0) (sizeofDirent * k))).run s = .ok (r, s') →
      DirStep dp d s s'
  /-- Whatever else the system does, such as a commit, it leaves this directory alone. -/
  | other {s s' : Fs} : s'.Sane → Core s' dp d → s'.dinode d = s.dinode d →
      s'.content d = s.content d → DirStep dp d s s'

/-- The names of a directory stay distinct. -/
theorem DirStep.directory (h : DirStep dp d s s') (hs : Directory s dp d) : Directory s' dp d := by
  have hV : Vacant (fun _ => True) s := .inl trivial
  have hB : ∀ n, Budget (fun _ => True) (s.sb.metadata d) n s := fun _ => .inl ⟨trivial, trivial⟩
  have hS := s.sb.bitmapIn_metadata d
  have hi := s.sb.iblock_mem_metadata d
  cases h with
  | link hname hinum hrun =>
    have hwp := hs.isDir.wp_dirlink (n := 0) hs.sane hs.core hname hinum hV hS hi (hB _)
    obtain ⟨⟨hlinked, hd⟩, -⟩ := wp_ok hwp hrun
    exact (hs.linked hlinked hd).1
  | clear hk hrun =>
    obtain ⟨⟨-, -, hs', -⟩, -⟩ := wp_ok (hs.wp_clear (n := 0) hk hS hi (hB _)) hrun
    exact hs'
  | other hsane hcore hdinode hcontent =>
    refine ⟨hsane, hcore, ⟨hdinode ▸ hs.isDir.type, hdinode ▸ hs.isDir.size⟩, ?_⟩
    rw [Fs.table, hcontent]
    exact hs.distinct

/-- **Directories are finite maps.**  In a hole-free directory whose names are distinct they stay so,
whatever sequence of `dirlink` and of clearing entries is applied to it, and at any time:
`dirlookup` returns the inode that the name is bound to, and the offset of its entry; `dirlink` adds
the binding, or changes none, because the name is bound or because no entry is free and the directory
cannot be extended; clearing an entry removes its binding.  The panics are those of a full table of
in-core inodes and of a transaction without room. -/
theorem directory_map {s₀ s : Fs} {dp : InodeId} {d : Nat} (h₀ : Directory s₀ dp d)
    (hrun : Relation.ReflTransGen (DirStep dp d) s₀ s) :
    Directory s dp d ∧
    (∀ E name, IsName name → Vacant E s → wp (ideal (dirlookup dp name)) E (fun r s' =>
      match r with
      | none => s.lookup d name = none ∧ s' = s
      | some (ip, off) => ∃ x k, s.lookup d name = some x ∧ off = sizeofDirent * k ∧
          (s.table d)[k]? = some (some (name, x)) ∧ (s'.inode ip).inum = x ∧
          (s'.inode ip).ref = (s.inode ip).ref + 1) s) ∧
    (∀ E S name inum, IsName name → inum < 2 ^ 16 → Vacant E s → s.sb.BitmapIn S →
      s.sb.iblock d ∈ S → Budget E S 2 s → wp (ideal (dirlink dp name inum)) E (fun r s' =>
        r = 0 ∧ s.lookup d name = none ∧ s'.lookup d = bind (s.lookup d) name inum ∧
            ((∃ k < (s.table d).length, ∀ p, (s.table d)[k]? ≠ some (some p)) ∨
              (s'.dinode d).size = (s.dinode d).size + sizeofDirent) ∨
        r = -1 ∧ s'.lookup d = s.lookup d ∧ ((∃ x, s.lookup d name = some x) ∨
            (∀ k < (s.table d).length, ∃ p, (s.table d)[k]? = some (some p)) ∧
              (MAXFILE * BSIZE < (s.dinode d).size + sizeofDirent ∨
                (∀ c, c < s'.sb.size → s'.bit c = true) ∧
                  s.fileBlock s.dinode d ((s.dinode d).size / BSIZE) = 0))) s) ∧
    ∀ E S k name x, (s.table d)[k]? = some (some (name, x)) → s.sb.BitmapIn S → s.sb.iblock d ∈ S →
      Budget E S 2 s →
      wp (ideal (writeKernel dp (List.replicate sizeofDirent 0) (sizeofDirent * k))) E (fun r s' =>
        r = sizeofDirent ∧ s'.lookup d = Function.update (s.lookup d) name none) s := by
  have h : Directory s dp d := by
    induction hrun with
    | refl => exact h₀
    | tail _ hstep ih => exact hstep.directory ih
  refine ⟨h, fun E name hname hV => ?_, fun E S name inum hname hinum hV hS hi hB => ?_,
    fun E S k name x hk hS hi hB => ?_⟩
  · refine wp_imp (h.isDir.wp_dirlookup h.sane h.core hname hV) ?_
    rintro r s' (⟨rfl, rfl, hnone⟩ | ⟨ip, off, x, rfl, hfound⟩)
    · exact ⟨hnone, rfl⟩
    · obtain ⟨k, hoff, hentry⟩ := hfound.entry
      exact ⟨x, k, hfound.lookup, hoff, hentry, hfound.got.inum, hfound.got.ref⟩
  · refine wp_imp (h.isDir.wp_dirlink (n := 0) h.sane h.core hname hinum hV hS hi hB) ?_
    rintro r s' ⟨⟨hlinked, hd⟩, -⟩
    have hlookup := (h.linked hlinked hd).2
    cases hlinked with
    | bound hx _ => exact .inr ⟨rfl, hlookup, .inl ⟨_, hx⟩⟩
    | full _ hused _ _ hcause => exact .inr ⟨rfl, hlookup, .inr ⟨hused, hcause⟩⟩
    | @added _ k hnone hk hfree _ htable =>
      refine .inl ⟨rfl, hnone, hlookup, ?_⟩
      rcases Nat.lt_or_ge k (s.table d).length with hlt | hge
      · exact .inl ⟨k, hlt, hfree⟩
      · have hlen := congrArg List.length htable
        have h1 := h.isDir.size
        have h2 := hd.size
        rw [Slots.length_write hk, Fs.length_table, Fs.length_table] at hlen
        rw [Fs.length_table] at hk hge
        simp only [sizeofDirent] at *
        exact .inr (by omega)
  · exact wp_imp (h.wp_clear (n := 0) hk hS hi hB) fun r s' hpost => ⟨hpost.1.1, hpost.1.2.2.2⟩

end

/-- A disk with an empty directory. -/
def smallDir : Fs := smallWith ⟨T_DIR, 0, 0, 1, 0, fun _ => 0⟩

theorem smallDir_directory : Directory smallDir smallIp 1 := by
  have hblank : (⟨T_DIR, 0, 0, 1, 0, fun _ => 0⟩ : Dinode).Blank :=
    ⟨⟨by decide, by decide, by decide, by decide, by decide, by decide⟩, rfl, rfl⟩
  have hdinode : smallDir.dinode 1 = ⟨T_DIR, 0, 0, 1, 0, fun _ => 0⟩ := smallWith_dinode hblank
  have htable : smallDir.table 1 = [] := List.eq_nil_of_length_eq_zero (by
    rw [Fs.length_table, hdinode]
    rfl)
  refine ⟨smallWith_sane hblank, smallWith_core, ⟨by rw [hdinode], by rw [hdinode]; rfl⟩, ?_⟩
  intro i j p q hi
  rw [htable] at hi
  cases hi

theorem isName_single {c : UInt8} (hc : c ≠ 0) : IsName [c] := by
  refine ⟨Nat.succ_le_of_lt (by decide), fun x hx => ?_⟩
  rwa [List.mem_singleton.1 hx]

set_option maxRecDepth 8000 in
/-- Two names are linked, the entry of the first one is cleared, and a third name takes its place. -/
theorem smallDir_reuse : ∃ s₁ s₂ s₃ s₄,
    (ideal (dirlink smallIp [97] 1)).run smallDir = .ok (0, s₁) ∧
    (ideal (dirlink smallIp [98] 1)).run s₁ = .ok (0, s₂) ∧ (s₂.table 1)[0]? = some (some ([97], 1)) ∧
    (ideal (writeKernel smallIp (List.replicate sizeofDirent 0) (sizeofDirent * 0))).run s₂ =
      .ok (16, s₃) ∧
    (ideal (dirlink smallIp [99] 1)).run s₃ = .ok (0, s₄) ∧ (s₄.dinode 1).size = 2 * sizeofDirent := by
  have hcheck : returns (ideal (dirlink smallIp [97] 1)) smallDir 0 (fun s₁ =>
      returns (ideal (dirlink smallIp [98] 1)) s₁ 0 fun s₂ =>
        decide ((s₂.table 1)[0]? = some (some ([97], 1))) &&
        returns (ideal (writeKernel smallIp (List.replicate sizeofDirent 0) (sizeofDirent * 0))) s₂ 16
          fun s₃ => returns (ideal (dirlink smallIp [99] 1)) s₃ 0 fun s₄ =>
            decide ((s₄.dinode 1).size = 2 * sizeofDirent)) = true := by decide +kernel
  obtain ⟨s₁, h₁, hcheck⟩ := of_returns hcheck
  obtain ⟨s₂, h₂, hcheck⟩ := of_returns hcheck
  rw [Bool.and_eq_true] at hcheck
  obtain ⟨s₃, h₃, hcheck'⟩ := of_returns hcheck.2
  obtain ⟨s₄, h₄, hsize⟩ := of_returns hcheck'
  exact ⟨s₁, s₂, s₃, s₄, h₁, h₂, of_decide_eq_true hcheck.1, h₃, h₄, of_decide_eq_true hsize⟩

/-- The directory is the map that is to be expected, and it has not grown. -/
theorem directory_map_reuse : ∃ s, Relation.ReflTransGen (DirStep smallIp 1) smallDir s ∧
    Directory s smallIp 1 ∧ s.lookup 1 [97] = none ∧ s.lookup 1 [98] = some 1 ∧
    s.lookup 1 [99] = some 1 ∧ (s.dinode 1).size = 2 * sizeofDirent := by
  obtain ⟨s₁, s₂, s₃, s₄, h₁, h₂, hentry, h₃, h₄, hsize⟩ := smallDir_reuse
  have hA : IsName [97] := isName_single (by decide)
  have hB : IsName [98] := isName_single (by decide)
  have hC : IsName [99] := isName_single (by decide)
  -- a name is linked to the directory itself
  have hlink : ∀ {s s' name}, Relation.ReflTransGen (DirStep smallIp 1) smallDir s → IsName name →
      (ideal (dirlink smallIp name 1)).run s = .ok (0, s') →
      s'.lookup 1 = Function.update (s.lookup 1) name (some 1) := by
    intro s s' name hrun hname hlinked
    have hwp := (directory_map smallDir_directory hrun).2.2.1 (fun _ => True) (s.sb.metadata 1) name 1
      hname (by decide) (.inl trivial) (s.sb.bitmapIn_metadata 1) (s.sb.iblock_mem_metadata 1)
      (.inl ⟨trivial, trivial⟩)
    rcases wp_ok hwp hlinked with ⟨-, -, hlookup, -⟩ | ⟨hneg, -⟩
    · rw [bind, if_neg (by decide)] at hlookup
      exact hlookup
    · exact absurd hneg (by decide)
  have run₁ : Relation.ReflTransGen (DirStep smallIp 1) smallDir s₁ :=
    .single (.link hA (by decide) h₁)
  have run₂ := run₁.tail (DirStep.link hB (by decide) h₂)
  have run₃ := run₂.tail (DirStep.clear hentry h₃)
  have run₄ := run₃.tail (DirStep.link hC (by decide) h₄)
  have hclear := wp_ok ((directory_map smallDir_directory run₂).2.2.2 (fun _ => True)
    (s₂.sb.metadata 1) 0 [97] 1 hentry (s₂.sb.bitmapIn_metadata 1) (s₂.sb.iblock_mem_metadata 1)
    (.inl ⟨trivial, trivial⟩)) h₃
  refine ⟨s₄, run₄, (directory_map smallDir_directory run₄).1, ?_, ?_, ?_, hsize⟩
  · rw [hlink run₃ hC h₄, Function.update_of_ne (by decide), hclear.2, Function.update_self]
  · rw [hlink run₃ hC h₄, Function.update_of_ne (by decide), hclear.2,
      Function.update_of_ne (by decide), hlink run₁ hB h₂, Function.update_self]
  · rw [hlink run₃ hC h₄, Function.update_self]

end Xv6pp
