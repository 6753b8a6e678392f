import Xv6pp.File.FileManager
import Mathlib.Data.Fintype.Prod

/-!
# Descriptors, files and pipes account for each other

At a system-call boundary, the reference count of a file is the number of descriptors that hold it, and an
end of a pipe is open as long as the file of that end is.
-/

set_option autoImplicit false

namespace Xv6pp

namespace FileManager

variable {m m' : FileManager} {f g : FileId} {k : PipeId}

@[simp] theorem setFile_pipes (u : File → File) : (m.setFile f u).pipes = m.pipes := rfl

@[simp] theorem setPipe_files (u : Pipe → Pipe) : (m.setPipe k u).files = m.files := rfl

@[simp] theorem setFile_self (u : File → File) : (m.setFile f u).files f = u (m.files f) :=
  Function.update_self ..

theorem setFile_ne {u : File → File} (h : g ≠ f) : (m.setFile f u).files g = m.files g :=
  Function.update_of_ne h ..

@[simp] theorem setPipe_self (u : Pipe → Pipe) : (m.setPipe k u).pipes k = u (m.pipes k) :=
  Function.update_self ..

theorem setPipe_ne {u : Pipe → Pipe} {k' : PipeId} (h : k' ≠ k) :
    (m.setPipe k u).pipes k' = m.pipes k' := Function.update_of_ne h ..

/-! ## The two tables -/

/-- Files and pipes agree. -/
structure Table (m : FileManager) : Prop where
  /-- A file without references has no type. -/
  untyped : ∀ f, (m.files f).ref = 0 ↔ (m.files f).type = .none
  /-- The file of a pipe is one of its ends. -/
  ends : ∀ f, (m.files f).type = .pipe →
    ∃ k, (m.files f).pp = some k ∧ (m.files f).readable = !(m.files f).writable
  /-- Each end has one file. -/
  unique : ∀ f g k, (m.files f).type = .pipe → (m.files g).type = .pipe →
    (m.files f).pp = some k → (m.files g).pp = some k →
    (m.files f).writable = (m.files g).writable → f = g
  /-- A reading end is open as long as it has a file. -/
  readopen : ∀ k, (m.pipes k).readopen = true ↔
    ∃ f, (m.files f).type = .pipe ∧ (m.files f).pp = some k ∧ (m.files f).writable = false
  /-- A writing end is open as long as it has a file. -/
  writeopen : ∀ k, (m.pipes k).writeopen = true ↔
    ∃ f, (m.files f).type = .pipe ∧ (m.files f).pp = some k ∧ (m.files f).writable = true

/-- Two tables that differ only where nobody looks: in the files without references and the contents of
files and pipes. -/
structure Alike (m m' : FileManager) : Prop where
  ref : ∀ f, (m'.files f).ref = (m.files f).ref
  type : ∀ f, (m'.files f).type = (m.files f).type
  ends : ∀ f, (m.files f).type = .pipe → (m'.files f).pp = (m.files f).pp ∧
    (m'.files f).readable = (m.files f).readable ∧ (m'.files f).writable = (m.files f).writable
  readopen : ∀ k, (m'.pipes k).readopen = (m.pipes k).readopen
  writeopen : ∀ k, (m'.pipes k).writeopen = (m.pipes k).writeopen

theorem Table.alike (h : Table m) (ha : Alike m m') : Table m' := by
  have hends : ∀ f, (m'.files f).type = .pipe → (m.files f).type = .pipe ∧
      (m'.files f).pp = (m.files f).pp ∧ (m'.files f).readable = (m.files f).readable ∧
      (m'.files f).writable = (m.files f).writable := by
    intro f hf
    rw [ha.type f] at hf
    exact ⟨hf, ha.ends f hf⟩
  have hend : ∀ k w, (∃ f, (m'.files f).type = .pipe ∧ (m'.files f).pp = some k ∧
      (m'.files f).writable = w) ↔
      ∃ f, (m.files f).type = .pipe ∧ (m.files f).pp = some k ∧ (m.files f).writable = w := by
    intro k w
    refine exists_congr fun f => ⟨fun hf => ?_, fun hf => ?_⟩
    · obtain ⟨h1, h2, h3, h4⟩ := hends f hf.1
      rw [h2, h4] at hf
      exact ⟨h1, hf.2⟩
    · obtain ⟨h2, -, h4⟩ := ha.ends f hf.1
      rw [h2, h4, ha.type f]
      exact hf
  refine ⟨fun f => ?_, fun f hf => ?_, fun f g k hf hg hkf hkg hw => ?_, fun k => ?_, fun k => ?_⟩
  · rw [ha.ref, ha.type]
    exact h.untyped f
  · obtain ⟨h1, h2, h3, h4⟩ := hends f hf
    rw [h2, h3, h4]
    exact h.ends f h1
  · obtain ⟨f1, f2, -, f4⟩ := hends f hf
    obtain ⟨g1, g2, -, g4⟩ := hends g hg
    rw [f2] at hkf
    rw [g2] at hkg
    rw [f4, g4] at hw
    exact h.unique f g k f1 g1 hkf hkg hw
  · rw [ha.readopen, hend]
    exact h.readopen k
  · rw [ha.writeopen, hend]
    exact h.writeopen k

/-- The reference count of a file changes and stays positive. -/
theorem Table.setRef {n : Nat} (h : Table m) (hf : 0 < (m.files f).ref) (hn : 0 < n) :
    Table (m.setFile f fun x => { x with ref := n }) := by
  have htype : ∀ g, ((m.setFile f fun x => { x with ref := n }).files g).type = (m.files g).type ∧
      ((m.setFile f fun x => { x with ref := n }).files g).pp = (m.files g).pp ∧
      ((m.setFile f fun x => { x with ref := n }).files g).readable = (m.files g).readable ∧
      ((m.setFile f fun x => { x with ref := n }).files g).writable = (m.files g).writable := by
    intro g
    by_cases hg : g = f
    · subst hg
      simp [setFile]
    · simp [setFile, hg]
  refine ⟨fun g => ?_, ?_, ?_, ?_, ?_⟩
  · rw [(htype g).1]
    by_cases hg : g = f
    · subst hg
      have hno := mt (h.untyped g).2 (by omega)
      simpa [setFile, hn.ne'] using hno
    · rw [← h.untyped g]
      simp [setFile, hg]
  · simpa only [htype] using h.ends
  · simpa only [htype] using h.unique
  · simpa only [htype, setFile_pipes] using h.readopen
  · simpa only [htype, setFile_pipes] using h.writeopen

/-- A file goes away, and closes its end of a pipe. -/
theorem Table.drop (h : Table m) (href : (m'.files f).ref = 0) (htype : (m'.files f).type = .none)
    (hne : ∀ g ≠ f, m'.files g = m.files g)
    (hread : ∀ k, (m'.pipes k).readopen = true ↔ (m.pipes k).readopen = true ∧
      ¬ ((m.files f).type = .pipe ∧ (m.files f).pp = some k ∧ (m.files f).writable = false))
    (hwrite : ∀ k, (m'.pipes k).writeopen = true ↔ (m.pipes k).writeopen = true ∧
      ¬ ((m.files f).type = .pipe ∧ (m.files f).pp = some k ∧ (m.files f).writable = true)) :
    Table m' := by
  have hother : ∀ g, (m'.files g).type = .pipe → g ≠ f := by
    rintro g hg rfl
    rw [htype] at hg
    cases hg
  -- what is left of the files of an end
  have hend : ∀ k w, (∃ g, (m'.files g).type = .pipe ∧ (m'.files g).pp = some k ∧
      (m'.files g).writable = w) ↔
      (∃ g, (m.files g).type = .pipe ∧ (m.files g).pp = some k ∧ (m.files g).writable = w) ∧
      ¬ ((m.files f).type = .pipe ∧ (m.files f).pp = some k ∧ (m.files f).writable = w) := by
    intro k w
    constructor
    · rintro ⟨g, hg⟩
      have hgf := hother g hg.1
      rw [hne g hgf] at hg
      refine ⟨⟨g, hg⟩, fun hf => hgf ?_⟩
      exact h.unique g f k hg.1 hf.1 hg.2.1 hf.2.1 (hg.2.2.trans hf.2.2.symm)
    · rintro ⟨⟨g, hg⟩, hf⟩
      have hgf : g ≠ f := by
        rintro rfl
        exact hf hg
      exact ⟨g, by rw [hne g hgf]; exact hg⟩
  refine ⟨fun g => ?_, fun g hg => ?_, fun g g' k hg hg' hk hk' hw => ?_, fun k => ?_, fun k => ?_⟩
  · by_cases hgf : g = f
    · rw [hgf]
      exact iff_of_true href htype
    · rw [hne g hgf]
      exact h.untyped g
  · have h1 := hne g (hother g hg)
    rw [h1] at hg ⊢
    exact h.ends g hg
  · have h1 := hne g (hother g hg)
    have h2 := hne g' (hother g' hg')
    rw [h1] at hg hk hw
    rw [h2] at hg' hk' hw
    exact h.unique g g' k hg hg' hk hk' hw
  · rw [hread, hend, h.readopen]
  · rw [hwrite, hend, h.writeopen]

/-- **Closing** a file that has references. -/
theorem Table.close (h : Table m) (hf : 0 < (m.files f).ref) :
    ∃ m', m.close f = .ok m' ∧ Table m' ∧ (m'.files f).ref = (m.files f).ref - 1 ∧
      (∀ g ≠ f, m'.files g = m.files g) ∧
      ∀ k, (m.files f).pp ≠ some k → m'.pipes k = m.pipes k := by
  by_cases hlast : 0 < (m.files f).ref - 1
  · refine ⟨m.setFile f fun x => { x with ref := x.ref - 1 }, ?_, h.setRef hf hlast, by simp,
      fun g hg => setFile_ne hg, fun _ _ => rfl⟩
    rw [FileManager.close, dropRef, if_neg (by omega), if_pos hlast]
  · have hone : (m.files f).ref - 1 = 0 := by omega
    have hdrop : m.dropRef f =
        .ok (some (m.files f), m.setFile f fun x => { x with ref := 0, type := .none }) := by
      rw [dropRef, if_neg (by omega), if_neg hlast]
    by_cases hpipe : (m.files f).type = .pipe
    · obtain ⟨k, hk, -⟩ := h.ends f hpipe
      refine ⟨(m.setFile f fun x => { x with ref := 0, type := .none }).setPipe k fun p =>
        p.close (m.files f).writable, ?_, ?_, by simp [hone], fun g hg => by simp [setFile_ne hg],
        fun k' hk' => ?_⟩
      · simp only [FileManager.close, hdrop, hpipe, hk]
      · refine h.drop (f := f) (by simp) (by simp) (fun g hg => by simp [setFile_ne hg])
          (fun k' => ?_) (fun k' => ?_)
        all_goals
          by_cases hk' : k' = k
          · subst hk'
            cases hw : (m.files f).writable <;> simp [Pipe.close, hpipe, hk]
          · rw [setPipe_ne hk']
            simp [hpipe, hk, Ne.symm hk']
      · rw [hk] at hk'
        rw [setPipe_ne (by rintro rfl; exact hk' rfl), setFile_pipes]
    · refine ⟨m.setFile f fun x => { x with ref := 0, type := .none }, ?_, ?_, by simp [hone],
        fun g hg => setFile_ne hg, fun _ _ => rfl⟩
      · simp only [FileManager.close, hdrop]
        cases htype : (m.files f).type <;> simp_all
      · exact h.drop (f := f) (by simp) (by simp) (fun g hg => setFile_ne hg)
          (fun k => by simp [hpipe]) (fun k => by simp [hpipe])

/-! ## New files -/

theorem allocFile_some (h : m.allocFile = some (f, m')) :
    (m.files f).ref = 0 ∧ m' = m.setFile f fun x => { x with ref := 1 } := by
  rw [allocFile] at h
  split at h
  · next g hg =>
    cases h
    exact ⟨by simpa using List.find?_some hg, rfl⟩
  · cases h

/-- Giving up a file that was just taken. -/
theorem close_taken (href : (m.files f).ref = 0) (htype : (m.files f).type = .none) :
    (m.setFile f fun x => { x with ref := 1 }).close f = .ok m := by
  have hdrop : (m.setFile f fun x => { x with ref := 1 }).dropRef f =
      .ok (some { m.files f with ref := 1 }, m) := by
    rw [dropRef, if_neg (by simp), if_neg (by simp)]
    have hsame : { m.files f with ref := 0, type := .none } = m.files f := by
      rw [← href, ← htype]
    simp [setFile, hsame]
  simp only [FileManager.close, hdrop, htype]

/-- The tables with a new pipe. -/
def newPipe (f₀ f₁ : FileId) (k : PipeId) (m : FileManager) : FileManager :=
  ((((m.setFile f₀ fun x => { x with ref := 1 }).setFile f₁ fun x => { x with ref := 1 }).setPipe k
    fun p => .opened p.data).setFile f₀ (pipeEnd k false)).setFile f₁ (pipeEnd k true)

/-- **What `alloc_pipe` does**: nothing, or it takes two files and a pipe that are free. -/
theorem Table.allocPipe (h : Table m) :
    m.allocPipe = .ok (none, m) ∨ ∃ f₀ f₁ k, f₀ ≠ f₁ ∧ (m.files f₀).ref = 0 ∧ (m.files f₁).ref = 0 ∧
      (m.pipes k).readopen = false ∧ (m.pipes k).writeopen = false ∧
      m.allocPipe = .ok (some (f₀, f₁), m.newPipe f₀ f₁ k) := by
  rw [FileManager.allocPipe]
  split
  · exact .inl rfl
  · next f₀ m₁ h₀ =>
    obtain ⟨href₀, rfl⟩ := allocFile_some h₀
    have hclose₀ := close_taken href₀ ((h.untyped f₀).1 href₀)
    split
    · rw [hclose₀]
      exact .inl rfl
    · next f₁ m₂ h₁ =>
      obtain ⟨href₁, rfl⟩ := allocFile_some h₁
      have hne : f₁ ≠ f₀ := by
        rintro rfl
        simp at href₁
      split
      · have htype₁ : ((m.setFile f₀ fun x => { x with ref := 1 }).files f₁).type = .none := by
          rw [setFile_ne hne]
          rw [setFile_ne hne] at href₁
          exact (h.untyped f₁).1 href₁
        rw [close_taken href₁ htype₁]
        simp only [Except.bind]
        rw [hclose₀]
        exact .inl rfl
      · next k hk =>
        have hflags := List.find?_some hk
        simp only [setFile_pipes, Bool.and_eq_true, Bool.not_eq_true'] at hflags
        rw [setFile_ne hne] at href₁
        exact .inr ⟨f₀, f₁, k, hne.symm, href₀, href₁, hflags.1, hflags.2, rfl⟩

/-- The files of a new pipe. -/
structure HasNewPipe (m m' : FileManager) (f₀ f₁ : FileId) (k : PipeId) : Prop where
  ne : f₀ ≠ f₁
  read : (m'.files f₀).ref = 1 ∧ (m'.files f₀).type = .pipe ∧ (m'.files f₀).pp = some k ∧
    (m'.files f₀).readable = true ∧ (m'.files f₀).writable = false
  write : (m'.files f₁).ref = 1 ∧ (m'.files f₁).type = .pipe ∧ (m'.files f₁).pp = some k ∧
    (m'.files f₁).readable = false ∧ (m'.files f₁).writable = true
  others : ∀ g, g ≠ f₀ → g ≠ f₁ → m'.files g = m.files g
  pipe : (m'.pipes k).readopen = true ∧ (m'.pipes k).writeopen = true
  pipes : ∀ k' ≠ k, m'.pipes k' = m.pipes k'

theorem hasNewPipe {f₀ f₁ : FileId} (hne : f₀ ≠ f₁) : HasNewPipe m (m.newPipe f₀ f₁ k) f₀ f₁ k := by
  refine ⟨hne, ?_, ?_, fun g h₀ h₁ => ?_, ?_, fun k' hk' => ?_⟩
  · simp [newPipe, setFile_ne hne, pipeEnd]
  · simp [newPipe, setFile_ne hne.symm, pipeEnd]
  · simp [newPipe, setFile_ne h₀, setFile_ne h₁]
  · simp [newPipe, Pipe.opened]
  · simp [newPipe, setPipe_ne hk']

/-- A pipe with both ends closed has no files. -/
theorem Table.pipe_free (h : Table m) (hr : (m.pipes k).readopen = false)
    (hw : (m.pipes k).writeopen = false) (hf : (m.files f).type = .pipe) :
    (m.files f).pp ≠ some k := by
  intro hk
  cases hwf : (m.files f).writable with
  | false =>
    have hopen := (h.readopen k).2 ⟨f, hf, hk, hwf⟩
    rw [hr] at hopen
    cases hopen
  | true =>
    have hopen := (h.writeopen k).2 ⟨f, hf, hk, hwf⟩
    rw [hw] at hopen
    cases hopen

theorem Table.newPipe {f₀ f₁ : FileId} (h : Table m) (h₀ : (m.files f₀).ref = 0)
    (h₁ : (m.files f₁).ref = 0) (hr : (m.pipes k).readopen = false)
    (hw : (m.pipes k).writeopen = false) (hp : HasNewPipe m m' f₀ f₁ k) : Table m' := by
  have hfree : ∀ g, (m.files g).type = .pipe → (m.files g).pp ≠ some k :=
    fun g => h.pipe_free hr hw
  -- the new files were not in use
  have hold : ∀ g, (m.files g).type = .pipe → m'.files g = m.files g := by
    intro g hg
    refine hp.others g ?_ ?_
    · rintro rfl
      rw [(h.untyped g).1 h₀] at hg
      cases hg
    · rintro rfl
      rw [(h.untyped g).1 h₁] at hg
      cases hg
  have hcases : ∀ g, g = f₀ ∨ g = f₁ ∨ g ≠ f₀ ∧ g ≠ f₁ := by
    intro g
    by_cases h0 : g = f₀
    · exact .inl h0
    · by_cases h1 : g = f₁
      · exact .inr (.inl h1)
      · exact .inr (.inr ⟨h0, h1⟩)
  have hother : ∀ g k', k' ≠ k → (m'.files g).pp = some k' → m'.files g = m.files g := by
    intro g k' hk' hg
    refine hp.others g ?_ ?_
    · rintro rfl
      rw [hp.read.2.2.1] at hg
      exact hk' (Option.some.inj hg).symm
    · rintro rfl
      rw [hp.write.2.2.1] at hg
      exact hk' (Option.some.inj hg).symm
  have hend : ∀ k' ≠ k, ∀ w, (∃ g, (m'.files g).type = .pipe ∧ (m'.files g).pp = some k' ∧
      (m'.files g).writable = w) ↔
      ∃ g, (m.files g).type = .pipe ∧ (m.files g).pp = some k' ∧ (m.files g).writable = w := by
    intro k' hk' w
    constructor
    · rintro ⟨g, hg⟩
      rw [hother g k' hk' hg.2.1] at hg
      exact ⟨g, hg⟩
    · rintro ⟨g, hg⟩
      exact ⟨g, by rw [hold g hg.1]; exact hg⟩
  have hnew : ∀ g, (m'.files g).type = .pipe → (m'.files g).pp = some k →
      g = f₀ ∧ (m'.files g).writable = false ∨ g = f₁ ∧ (m'.files g).writable = true := by
    intro g hg hk
    rcases hcases g with rfl | rfl | ⟨hg0, hg1⟩
    · exact .inl ⟨rfl, hp.read.2.2.2.2⟩
    · exact .inr ⟨rfl, hp.write.2.2.2.2⟩
    · rw [hp.others g hg0 hg1] at hg hk
      exact absurd hk (hfree g hg)
  refine ⟨fun g => ?_, fun g hg => ?_, fun f g k' hf hg hkf hkg hwr => ?_, fun k' => ?_,
    fun k' => ?_⟩
  · rcases hcases g with rfl | rfl | ⟨hg0, hg1⟩
    · rw [hp.read.1, hp.read.2.1]
      simp
    · rw [hp.write.1, hp.write.2.1]
      simp
    · rw [hp.others g hg0 hg1]
      exact h.untyped g
  · rcases hcases g with rfl | rfl | ⟨hg0, hg1⟩
    · exact ⟨k, hp.read.2.2.1, by rw [hp.read.2.2.2.1, hp.read.2.2.2.2]; rfl⟩
    · exact ⟨k, hp.write.2.2.1, by rw [hp.write.2.2.2.1, hp.write.2.2.2.2]; rfl⟩
    · have hsame := hp.others g hg0 hg1
      rw [hsame] at hg ⊢
      exact h.ends g hg
  · by_cases hk' : k' = k
    · subst hk'
      rcases hnew f hf hkf with ⟨rfl, hwf⟩ | ⟨rfl, hwf⟩ <;>
        rcases hnew g hg hkg with ⟨rfl, hwg⟩ | ⟨rfl, hwg⟩
      · rfl
      · rw [hwf, hwg] at hwr
        cases hwr
      · rw [hwf, hwg] at hwr
        cases hwr
      · rfl
    · have hsf := hother f k' hk' hkf
      have hsg := hother g k' hk' hkg
      rw [hsf] at hf hkf hwr
      rw [hsg] at hg hkg hwr
      exact h.unique f g k' hf hg hkf hkg hwr
  · by_cases hk' : k' = k
    · rw [hk']
      exact iff_of_true hp.pipe.1 ⟨f₀, hp.read.2.1, hp.read.2.2.1, hp.read.2.2.2.2⟩
    · rw [hp.pipes k' hk', hend k' hk', h.readopen]
  · by_cases hk' : k' = k
    · rw [hk']
      exact iff_of_true hp.pipe.2 ⟨f₁, hp.write.2.1, hp.write.2.2.1, hp.write.2.2.2.2⟩
    · rw [hp.pipes k' hk', hend k' hk', h.writeopen]

/-- The tables are as they were, except for what is left in files and pipes that are not in use. -/
structure Restored (m m' : FileManager) : Prop where
  ref : ∀ f, (m'.files f).ref = (m.files f).ref
  type : ∀ f, (m'.files f).type = (m.files f).type
  file : ∀ f, 0 < (m.files f).ref → m'.files f = m.files f
  readopen : ∀ k, (m'.pipes k).readopen = (m.pipes k).readopen
  writeopen : ∀ k, (m'.pipes k).writeopen = (m.pipes k).writeopen
  pipe : ∀ k, (m.pipes k).readopen = true ∨ (m.pipes k).writeopen = true → m'.pipes k = m.pipes k

theorem Restored.refl (m : FileManager) : Restored m m :=
  ⟨fun _ => rfl, fun _ => rfl, fun _ _ => rfl, fun _ => rfl, fun _ => rfl, fun _ _ => rfl⟩

theorem Restored.alike (h : Table m) (hr : Restored m m') : Alike m m' := by
  refine ⟨hr.ref, hr.type, fun f hf => ?_, hr.readopen, hr.writeopen⟩
  have hlive : 0 < (m.files f).ref := by
    refine Nat.pos_of_ne_zero fun href => ?_
    rw [(h.untyped f).1 href] at hf
    cases hf
  rw [hr.file f hlive]
  exact ⟨rfl, rfl, rfl⟩

/-- **Giving up a new pipe** restores the tables. -/
theorem Table.closeNew {f₀ f₁ : FileId} (h : Table m) (h₀ : (m.files f₀).ref = 0)
    (h₁ : (m.files f₁).ref = 0) (hr : (m.pipes k).readopen = false)
    (hw : (m.pipes k).writeopen = false) (hp : HasNewPipe m m' f₀ f₁ k) :
    ∃ m'', ((m'.close f₁).bind fun m => m.close f₀) = .ok m'' ∧ Restored m m'' := by
  obtain ⟨m₄, hclose₁, htable₄, href₁, hothers₁, hpipes₁⟩ :=
    (h.newPipe h₀ h₁ hr hw hp).close (f := f₁) (by rw [hp.write.1]; exact Nat.one_pos)
  have hsame₀ := hothers₁ f₀ hp.ne
  obtain ⟨m₅, hclose₀, htable₅, href₀, hothers₀, hpipes₀⟩ :=
    htable₄.close (f := f₀) (by rw [hsame₀, hp.read.1]; exact Nat.one_pos)
  rw [hp.write.1] at href₁
  rw [hsame₀, hp.read.1] at href₀
  rw [← hothers₀ f₁ hp.ne.symm] at href₁
  have hothers : ∀ g, g ≠ f₀ → g ≠ f₁ → m₅.files g = m.files g := by
    intro g hg₀ hg₁
    rw [hothers₀ g hg₀, hothers₁ g hg₁, hp.others g hg₀ hg₁]
  have hpipes : ∀ k' ≠ k, m₅.pipes k' = m.pipes k' := by
    intro k' hk'
    rw [hpipes₀ k', hpipes₁ k', hp.pipes k' hk']
    · rw [hp.write.2.2.1]
      exact fun hk => hk' (Option.some.inj hk).symm
    · rw [hsame₀, hp.read.2.2.1]
      exact fun hk => hk' (Option.some.inj hk).symm
  have hcases : ∀ g, (g = f₀ ∨ g = f₁) ∧ (m.files g).ref = 0 ∧ (m₅.files g).ref = 0 ∨
      m₅.files g = m.files g := by
    intro g
    by_cases hg₀ : g = f₀
    · rw [hg₀]
      exact .inl ⟨.inl rfl, h₀, href₀⟩
    · by_cases hg₁ : g = f₁
      · rw [hg₁]
        exact .inl ⟨.inr rfl, h₁, href₁⟩
      · exact .inr (hothers g hg₀ hg₁)
  -- no file of the pipe is left
  have hclosed : ∀ w, ¬ ∃ g, (m₅.files g).type = .pipe ∧ (m₅.files g).pp = some k ∧
      (m₅.files g).writable = w := by
    rintro w ⟨g, hg⟩
    rcases hcases g with ⟨-, -, href⟩ | hsame
    · rw [(htable₅.untyped g).1 href] at hg
      cases hg.1
    · rw [hsame] at hg
      exact h.pipe_free hr hw hg.1 hg.2.1
  refine ⟨m₅, by rw [hclose₁]; exact hclose₀, fun g => ?_, fun g => ?_, fun g hg => ?_,
    fun k' => ?_, fun k' => ?_, fun k' hk' => ?_⟩
  · rcases hcases g with ⟨-, h1, h2⟩ | hsame
    · rw [h1, h2]
    · rw [hsame]
  · rcases hcases g with ⟨-, h1, h2⟩ | hsame
    · rw [(h.untyped g).1 h1, (htable₅.untyped g).1 h2]
    · rw [hsame]
  · rcases hcases g with ⟨-, h1, -⟩ | hsame
    · omega
    · exact hsame
  · by_cases hk' : k' = k
    · rw [hk', hr, ← Bool.not_eq_true, htable₅.readopen]
      exact hclosed false
    · rw [hpipes k' hk']
  · by_cases hk' : k' = k
    · rw [hk', hw, ← Bool.not_eq_true, htable₅.writeopen]
      exact hclosed true
    · rw [hpipes k' hk']
  · refine hpipes k' ?_
    rintro rfl
    rw [hr, hw] at hk'
    simp at hk'

/-- A free file gets a type that is not that of a pipe. -/
theorem Table.opened (h : Table m) (hf : (m.files f).ref = 0) (href : (m'.files f).ref ≠ 0)
    (htype : (m'.files f).type ≠ .none ∧ (m'.files f).type ≠ .pipe)
    (hne : ∀ g ≠ f, m'.files g = m.files g) (hpipes : m'.pipes = m.pipes) : Table m' := by
  have hold : ∀ g, (m'.files g).type = .pipe → m'.files g = m.files g := by
    intro g hg
    refine hne g ?_
    rintro rfl
    exact htype.2 hg
  have hold' : ∀ g, (m.files g).type = .pipe → m'.files g = m.files g := by
    intro g hg
    refine hne g ?_
    rintro rfl
    rw [(h.untyped g).1 hf] at hg
    cases hg
  have hend : ∀ k w, (∃ g, (m'.files g).type = .pipe ∧ (m'.files g).pp = some k ∧
      (m'.files g).writable = w) ↔
      ∃ g, (m.files g).type = .pipe ∧ (m.files g).pp = some k ∧ (m.files g).writable = w := by
    intro k w
    refine exists_congr fun g => ⟨fun hg => ?_, fun hg => ?_⟩
    · rwa [hold g hg.1] at hg
    · rwa [hold' g hg.1]
  refine ⟨fun g => ?_, fun g hg => ?_, fun g g' k hg hg' hk hk' hw => ?_, fun k => ?_, fun k => ?_⟩
  · by_cases hgf : g = f
    · rw [hgf]
      exact iff_of_false href htype.1
    · rw [hne g hgf]
      exact h.untyped g
  · have hsame := hold g hg
    rw [hsame] at hg ⊢
    exact h.ends g hg
  · have h1 := hold g hg
    have h2 := hold g' hg'
    rw [h1] at hg hk hw
    rw [h2] at hg' hk' hw
    exact h.unique g g' k hg hg' hk hk' hw
  · rw [hpipes, hend, h.readopen]
  · rw [hpipes, hend, h.writeopen]

end FileManager

/-! ## Descriptors -/

namespace FileUsers

variable {s s' : FileUsers} {p np : Fin NPROC} {fd : Fin NOFILE} {f g : FileId}

/-- The number of descriptors that hold a file. -/
def holders (s : FileUsers) (f : FileId) : Nat :=
  (Finset.univ.filter fun x : Fin NPROC × Fin NOFILE => (s.procs x.1).ofile x.2 = some f).card

theorem holders_le (s : FileUsers) (f : FileId) : s.holders f ≤ 1024 := by
  refine (Finset.card_filter_le _ _).trans ?_
  rw [Finset.card_univ, Fintype.card_prod, Fintype.card_fin, Fintype.card_fin]
  decide

theorem setOfile_ofile (x : Option FileId) (q : Fin NPROC) (fd' : Fin NOFILE) :
    ((s.setOfile p fd x).procs q).ofile fd' =
      if (q, fd') = (p, fd) then x else (s.procs q).ofile fd' := by
  by_cases hq : q = p
  · subst hq
    by_cases hfd : fd' = fd
    · subst hfd
      simp [setOfile, setProc]
    · simp [setOfile, setProc, hfd]
  · simp [setOfile, setProc, hq]

/-- A descriptor that was free holds a file. -/
theorem holders_setOfile_some (h : (s.procs p).ofile fd = none) (g : FileId) :
    (s.setOfile p fd (some f)).holders g = s.holders g + if g = f then 1 else 0 := by
  rw [holders, holders]
  split
  · next hgf =>
    subst hgf
    rw [← Finset.card_insert_of_notMem (a := (p, fd))]
    · refine congrArg Finset.card (Finset.ext fun x => ?_)
      by_cases hx : x = (p, fd) <;> simp [setOfile_ofile, hx]
    · simp [h]
  · next hgf =>
    rw [Nat.add_zero]
    refine congrArg Finset.card (Finset.ext fun x => ?_)
    by_cases hx : x = (p, fd)
    · subst hx
      simp [setOfile_ofile, h, Ne.symm hgf]
    · simp [setOfile_ofile, hx]

/-- A descriptor is taken back. -/
theorem holders_setOfile_none (h : (s.procs p).ofile fd = some f) (g : FileId) :
    (s.setOfile p fd none).holders g + (if g = f then 1 else 0) = s.holders g := by
  have hfree : ((s.setOfile p fd none).procs p).ofile fd = none := by simp [setOfile_ofile]
  rw [← holders_setOfile_some hfree, holders, holders]
  refine congrArg Finset.card (Finset.ext fun x => ?_)
  by_cases hx : x = (p, fd)
  · subst hx
    simp [setOfile_ofile, h]
  · simp [setOfile_ofile, hx]

/-- The states of the processes are those before. -/
theorem setOfile_state (x : Option FileId) (q : Fin NPROC) :
    ((s.setOfile p fd x).procs q).state = (s.procs q).state := by
  by_cases hq : q = p
  · subst hq
    simp [setOfile, setProc]
  · simp [setOfile, setProc, hq]

/-- The processes that are not in use or have exited have no open files. -/
def Closed (s : FileUsers) : Prop :=
  ∀ p, (s.procs p).state = .unused ∨ (s.procs p).state = .zombie → ∀ fd, (s.procs p).ofile fd = none

/-- A descriptor of a live process gets a file. -/
theorem Closed.setOfile (h : Closed s)
    (hp : (s.procs p).state ≠ .unused ∧ (s.procs p).state ≠ .zombie) :
    Closed (s.setOfile p fd (some f)) := by
  intro q hq fd'
  rw [setOfile_state] at hq
  have hqp : q ≠ p := by
    rintro rfl
    exact hq.elim hp.1 hp.2
  rw [setOfile_ofile, if_neg (by simp [hqp])]
  exact h q hq fd'

/-- Descriptors, files and pipes agree. -/
structure Accounted (s : FileUsers) : Prop where
  table : s.files.Table
  /-- Every reference is a descriptor. -/
  ref : ∀ f, (s.files.files f).ref = s.holders f
  closed : Closed s

theorem Accounted.alike (h : Accounted s) (hfiles : s.files.Alike s'.files)
    (hprocs : s'.procs = s.procs) : Accounted s' := by
  refine ⟨h.table.alike hfiles, fun f => ?_, ?_⟩
  · rw [hfiles.ref, h.ref, holders, holders, hprocs]
  · rw [Closed, hprocs]
    exact h.closed

/-- A descriptor's file has references. -/
theorem Accounted.pos (h : Accounted s) (hfd : (s.procs p).ofile fd = some f) :
    0 < (s.files.files f).ref := by
  rw [h.ref]
  exact Finset.card_pos.2 ⟨(p, fd), by simp [hfd]⟩

/-- **Taking a descriptor back.** -/
theorem Accounted.closeFd (h : Accounted s) (hfd : (s.procs p).ofile fd = some f) :
    ∃ s', s.closeFd p fd f = .ok s' ∧ Accounted s' ∧ s'.procs = (s.setOfile p fd none).procs := by
  obtain ⟨m', hclose, htable, href, hothers, -⟩ := h.table.close (h.pos hfd)
  refine ⟨{ s.setOfile p fd none with files := m' }, ?_, ⟨htable, fun g => ?_, fun q hq fd' => ?_⟩,
    rfl⟩
  · rw [FileUsers.closeFd, lift, show (s.setOfile p fd none).files = s.files from rfl, hclose]
    rfl
  · have hcount := holders_setOfile_none hfd g
    show (m'.files g).ref = (s.setOfile p fd none).holders g
    by_cases hg : g = f
    · rw [hg, if_pos rfl] at hcount
      rw [hg, href, h.ref]
      omega
    · rw [if_neg hg] at hcount
      rw [hothers g hg, h.ref]
      omega
  · show ((s.setOfile p fd none).procs q).ofile fd' = none
    rw [setOfile_ofile]
    split
    · rfl
    · refine h.closed q ?_ fd'
      by_cases hqp : q = p
      · subst hqp
        simpa [setOfile, setProc] using hq
      · simpa [setOfile, setProc, hqp] using hq

/-- **Handing a file out** under one more descriptor. -/
theorem Accounted.dupFd (h : Accounted s) (hf : 0 < (s.files.files f).ref)
    (hfd : (s.procs p).ofile fd = none)
    (hp : (s.procs p).state ≠ .unused ∧ (s.procs p).state ≠ .zombie) :
    ∃ s', (s.setOfile p fd (some f)).lift (·.dup f) = .ok s' ∧ Accounted s' ∧
      s'.procs = (s.setOfile p fd (some f)).procs := by
  have hbound : ((s.files.files f).ref + 1) % 2 ^ 32 = (s.files.files f).ref + 1 := by
    have hle := s.holders_le f
    rw [h.ref]
    omega
  refine ⟨{ s.setOfile p fd (some f) with
    files := s.files.setFile f fun x => { x with ref := (x.ref + 1) % 2 ^ 32 } }, ?_,
    ⟨?_, fun g => ?_, h.closed.setOfile hp⟩, rfl⟩
  · rw [lift, show (s.setOfile p fd (some f)).files = s.files from rfl, FileManager.dup,
      if_neg (by omega)]
    rfl
  · exact h.table.setRef hf (by rw [hbound]; omega)
  · show ((s.files.setFile f fun x => { x with ref := (x.ref + 1) % 2 ^ 32 }).files g).ref =
      (s.setOfile p fd (some f)).holders g
    rw [holders_setOfile_some hfd]
    by_cases hg : g = f
    · rw [hg, FileManager.setFile_self, if_pos rfl, ← h.ref]
      exact hbound
    · rw [FileManager.setFile_ne hg, if_neg hg, h.ref, Nat.add_zero]

/-! ## System calls -/

theorem argfd_some {n : Int} (h : s.argfd p n = some (fd, f)) : (s.procs p).ofile fd = some f := by
  rw [argfd] at h
  split at h
  · obtain ⟨g, hg, heq⟩ := Option.map_eq_some_iff.1 h
    cases heq
    exact hg
  · cases h

theorem fdalloc_some (h : s.fdalloc p f = some (fd, s')) :
    (s.procs p).ofile fd = none ∧ s' = s.setOfile p fd (some f) := by
  rw [fdalloc] at h
  obtain ⟨fd', hfd, heq⟩ := Option.map_eq_some_iff.1 h
  cases heq
  exact ⟨by simpa using List.find?_some hfd, rfl⟩

/-- A call returns and keeps the accounts. -/
def Returns (r : Except Panic (Int × FileUsers)) : Prop := ∃ n s', r = .ok (n, s') ∧ Accounted s'

theorem Accounted.sysDup {n : Int} (h : Accounted s) (hp : (s.procs p).state = .runnable) :
    Returns (s.sysDup p n) := by
  rw [FileUsers.sysDup]
  split
  · exact ⟨-1, s, rfl, h⟩
  · next fd f hfd =>
    split
    · exact ⟨-1, s, rfl, h⟩
    · next fd' s' hfd' =>
      obtain ⟨hfree, rfl⟩ := fdalloc_some hfd'
      obtain ⟨s'', hs'', h'', -⟩ := h.dupFd (h.pos (argfd_some hfd)) hfree (by simp [hp])
      exact ⟨_, s'', by rw [hs'']; rfl, h''⟩

theorem Accounted.sysClose {n : Int} (h : Accounted s) : Returns (s.sysClose p n) := by
  rw [FileUsers.sysClose]
  split
  · exact ⟨-1, s, rfl, h⟩
  · next fd f hfd =>
    obtain ⟨s', hs', h', -⟩ := h.closeFd (argfd_some hfd)
    exact ⟨0, s', by rw [hs']; rfl, h'⟩

/-- The contents of a pipe change. -/
theorem Accounted.setPipe {k : PipeId} {u : Pipe → Pipe} (h : Accounted s)
    (hu : (u (s.files.pipes k)).readopen = (s.files.pipes k).readopen ∧
      (u (s.files.pipes k)).writeopen = (s.files.pipes k).writeopen) :
    Accounted { s with files := s.files.setPipe k u } := by
  refine h.alike ⟨fun _ => rfl, fun _ => rfl, fun _ _ => ⟨rfl, rfl, rfl⟩, fun k' => ?_, fun k' => ?_⟩
    rfl
  all_goals
    by_cases hk : k' = k
    · subst hk
      simp [hu]
    · simp [FileManager.setPipe_ne hk]

/-- The offset of a file changes. -/
theorem Accounted.setOff {u : Nat → Nat} (h : Accounted s) :
    Accounted { s with files := s.files.setFile f fun x => { x with off := u x.off } } := by
  refine h.alike ⟨fun g => ?_, fun g => ?_, fun g _ => ?_, fun _ => rfl, fun _ => rfl⟩ rfl
  all_goals
    by_cases hg : g = f
    · subst hg
      simp
    · simp [FileManager.setFile_ne hg]

theorem Accounted.sysRead {n r : Int} {b : Nat} (h : Accounted s) : Returns (s.sysRead p n r b) := by
  rw [FileUsers.sysRead]
  split
  · exact ⟨-1, s, rfl, h⟩
  · next fd f hfd =>
    have hlive := h.pos (argfd_some hfd)
    rw [FileUsers.read]
    split
    · exact ⟨-1, s, rfl, h⟩
    · cases htype : (s.files.files f).type with
      | pipe =>
        obtain ⟨k, hk, -⟩ := h.table.ends f htype
        simp only [hk]
        exact ⟨r, _, rfl, h.setPipe ⟨rfl, rfl⟩⟩
      | device =>
        simp only
        split
        · exact ⟨-1, s, rfl, h⟩
        · exact ⟨r, s, rfl, h⟩
      | inode => exact ⟨r, _, rfl, h.setOff (u := fun o => (o + r.toNat) % 2 ^ 32)⟩
      | none =>
        rw [(h.table.untyped f).2 htype] at hlive
        cases hlive

/-- Putting bytes into a pipe opens and closes nothing. -/
theorem put_flags (bytes : List UInt8) (q : Pipe) :
    (bytes.foldl Pipe.put q).readopen = q.readopen ∧
      (bytes.foldl Pipe.put q).writeopen = q.writeopen := by
  induction bytes generalizing q with
  | nil => exact ⟨rfl, rfl⟩
  | cons b bytes ih => exact ih (q.put b)

theorem Accounted.sysWrite {n r : Int} {bytes : List UInt8} (h : Accounted s) :
    Returns (s.sysWrite p n r bytes) := by
  rw [FileUsers.sysWrite]
  split
  · exact ⟨-1, s, rfl, h⟩
  · next fd f hfd =>
    have hlive := h.pos (argfd_some hfd)
    rw [FileUsers.write]
    split
    · exact ⟨-1, s, rfl, h⟩
    · cases htype : (s.files.files f).type with
      | pipe =>
        obtain ⟨k, hk, -⟩ := h.table.ends f htype
        simp only [hk]
        exact ⟨r, _, rfl, h.setPipe (put_flags bytes _)⟩
      | device =>
        simp only
        split
        · exact ⟨-1, s, rfl, h⟩
        · exact ⟨r, s, rfl, h⟩
      | inode => exact ⟨r, _, rfl, h.setOff (u := fun o => (o + bytes.length) % 2 ^ 32)⟩
      | none =>
        rw [(h.table.untyped f).2 htype] at hlive
        cases hlive

/-- `sys_open` has set its file up. -/
theorem Accounted.opened {omode : Nat} {i : Opened} (h : Accounted s)
    (hp : (s.procs p).state = .runnable) (hfree : (s.files.files f).ref = 0)
    (hnone : (s.procs p).ofile fd = none) :
    Accounted { s.setOfile p fd (some f) with
      files := (s.files.setFile f fun x => { x with ref := 1 }).setFile f (openedFile omode i) } := by
  have hfile : (((s.files.setFile f fun x => { x with ref := 1 }).setFile f
      (openedFile omode i)).files f).ref = 1 := by
    rw [FileManager.setFile_self, openedFile]
    split <;> simp
  have htype : (((s.files.setFile f fun x => { x with ref := 1 }).setFile f
      (openedFile omode i)).files f).type = .device ∨ (((s.files.setFile f fun x =>
      { x with ref := 1 }).setFile f (openedFile omode i)).files f).type = .inode := by
    rw [FileManager.setFile_self, openedFile]
    split <;> simp
  have hothers : ∀ g ≠ f, ((s.files.setFile f fun x => { x with ref := 1 }).setFile f
      (openedFile omode i)).files g = s.files.files g := by
    intro g hg
    rw [FileManager.setFile_ne hg, FileManager.setFile_ne hg]
  refine ⟨h.table.opened hfree ?_ ?_ hothers rfl, fun g => ?_, h.closed.setOfile (by simp [hp])⟩
  · rw [hfile]
    exact Nat.one_ne_zero
  · rcases htype with htype | htype <;> rw [htype] <;> exact ⟨by simp, by simp⟩
  · show (((s.files.setFile f fun x => { x with ref := 1 }).setFile f
      (openedFile omode i)).files g).ref = (s.setOfile p fd (some f)).holders g
    rw [holders_setOfile_some hnone]
    by_cases hg : g = f
    · rw [hg, hfile, if_pos rfl, ← h.ref, hfree]
    · rw [hothers g hg, if_neg hg, h.ref, Nat.add_zero]

theorem Accounted.sysOpen {omode : Nat} {found : Option Opened} (h : Accounted s)
    (hp : (s.procs p).state = .runnable) : Returns (s.sysOpen p omode found) := by
  cases found with
  | none => exact ⟨-1, s, rfl, h⟩
  | some i =>
    rw [FileUsers.sysOpen]
    split
    · exact ⟨-1, s, rfl, h⟩
    · split
      · exact ⟨-1, s, rfl, h⟩
      · split
        · exact ⟨-1, s, rfl, h⟩
        · next f m hm =>
          obtain ⟨hfree, rfl⟩ := FileManager.allocFile_some hm
          split
          · refine ⟨-1, s, ?_, h⟩
            rw [lift, FileManager.close_taken hfree ((h.table.untyped f).1 hfree)]
            rfl
          · next fd s' hfd =>
            obtain ⟨hnone, rfl⟩ := fdalloc_some hfd
            exact ⟨_, _, rfl, h.opened hp hfree hnone⟩

/-- Everything is as it was, except for what is left in files and pipes that are not in use. -/
structure AsBefore (s s' : FileUsers) : Prop where
  procs : s'.procs = s.procs
  files : s.files.Restored s'.files

theorem Accounted.asBefore (h : Accounted s) (hs : AsBefore s s') : Accounted s' :=
  h.alike (hs.files.alike h.table) hs.procs

/-- A descriptor that was free is free again. -/
theorem setOfile_none (hfd : (s.procs p).ofile fd = none) :
    ((s.setOfile p fd (some f)).setOfile p fd none) = s := by
  have hofile : Function.update (s.procs p).ofile fd none = (s.procs p).ofile := by
    rw [← hfd, Function.update_eq_self]
  simp [setOfile, setProc, hofile]

theorem setOfile_comm {fd' : Fin NOFILE} (hne : fd ≠ fd') (x y : Option FileId) :
    (s.setOfile p fd x).setOfile p fd' y = (s.setOfile p fd' y).setOfile p fd x := by
  simp [setOfile, setProc, Function.update_comm hne]

/-- **What a call of `pipe` does**: it fails and restores the tables, or it hands out the two files of a new
pipe. -/
theorem Accounted.sysPipe_cases (h : Accounted s) (copy₀ copy₁ : Bool) :
    (∃ m', s.files.Restored m' ∧ s.sysPipe p copy₀ copy₁ = .ok (-1, { s with files := m' })) ∨
      ∃ f₀ f₁ k fd₀ fd₁, f₀ ≠ f₁ ∧ fd₀ ≠ fd₁ ∧ (s.files.files f₀).ref = 0 ∧
        (s.files.files f₁).ref = 0 ∧ (s.files.pipes k).readopen = false ∧
        (s.files.pipes k).writeopen = false ∧ (s.procs p).ofile fd₀ = none ∧
        (s.procs p).ofile fd₁ = none ∧ s.sysPipe p copy₀ copy₁ =
          .ok (0, setOfile p fd₁ (some f₁) (setOfile p fd₀ (some f₀)
            { s with files := s.files.newPipe f₀ f₁ k })) := by
  rcases h.table.allocPipe with hnone | ⟨f₀, f₁, k, hne, h₀, h₁, hr, hw, hsome⟩
  · refine .inl ⟨s.files, .refl _, ?_⟩
    simp only [FileUsers.sysPipe, hnone]
  · have hnew := FileManager.hasNewPipe (m := s.files) (k := k) hne
    obtain ⟨m', hclose, hrestored⟩ := h.table.closeNew h₀ h₁ hr hw hnew
    have hfail : closeEnds f₀ f₁ { s with files := s.files.newPipe f₀ f₁ k } =
        .ok (-1, { s with files := m' }) := by
      rw [closeEnds, lift, hclose]
      rfl
    simp only [FileUsers.sysPipe, hsome]
    split
    · exact .inl ⟨m', hrestored, hfail⟩
    · next fd₀ s₀ hfd₀ =>
      obtain ⟨hfree₀, rfl⟩ := fdalloc_some hfd₀
      split
      · rw [setOfile_none hfree₀]
        exact .inl ⟨m', hrestored, hfail⟩
      · next fd₁ s₁ hfd₁ =>
        obtain ⟨hfree₁, rfl⟩ := fdalloc_some hfd₁
        have hfd : fd₀ ≠ fd₁ := by
          rintro rfl
          simp [setOfile_ofile] at hfree₁
        rw [setOfile_ofile, if_neg (by simp [hfd.symm])] at hfree₁
        split
        · rw [setOfile_comm hfd.symm, setOfile_none hfree₀, setOfile_none hfree₁]
          exact .inl ⟨m', hrestored, hfail⟩
        · exact .inr ⟨f₀, f₁, k, fd₀, fd₁, hne, hfd, h₀, h₁, hr, hw, hfree₀, hfree₁, rfl⟩

/-- **A call of `pipe`** keeps the accounts, and a failed one leaves everything as it was. -/
theorem Accounted.sysPipe (h : Accounted s) (copy₀ copy₁ : Bool)
    (hp : (s.procs p).state = .runnable) :
    ∃ n s', s.sysPipe p copy₀ copy₁ = .ok (n, s') ∧ Accounted s' ∧ (n = -1 → AsBefore s s') := by
  rcases h.sysPipe_cases (p := p) copy₀ copy₁ with ⟨m', hrestored, hs⟩ |
    ⟨f₀, f₁, k, fd₀, fd₁, hne, hfd, h₀, h₁, hr, hw, hfree₀, hfree₁, hs⟩
  · have hback : AsBefore s { s with files := m' } := ⟨rfl, hrestored⟩
    exact ⟨-1, _, hs, h.asBefore hback, fun _ => hback⟩
  · have hnew := FileManager.hasNewPipe (m := s.files) (k := k) hne
    refine ⟨0, _, hs, ⟨h.table.newPipe h₀ h₁ hr hw hnew, fun g => ?_, ?_⟩, by simp⟩
    · show ((s.files.newPipe f₀ f₁ k).files g).ref =
        ((s.setOfile p fd₀ (some f₀)).setOfile p fd₁ (some f₁)).holders g
      rw [holders_setOfile_some, holders_setOfile_some hfree₀, ← h.ref]
      · by_cases hg₀ : g = f₀
        · rw [hg₀, hnew.read.1, h₀, if_pos rfl, if_neg hne]
        · by_cases hg₁ : g = f₁
          · rw [hg₁, hnew.write.1, h₁, if_pos rfl, if_neg hne.symm]
          · rw [hnew.others g hg₀ hg₁, if_neg hg₀, if_neg hg₁, Nat.add_zero]
      · rwa [setOfile_ofile, if_neg (by simp [hfd.symm])]
    · have hclosed : Closed { s with files := s.files.newPipe f₀ f₁ k } := h.closed
      refine (hclosed.setOfile ?_).setOfile ?_
      · simp [hp]
      · rw [setOfile_state]
        simp [hp]

/-! ## `fork` and `exit` -/

/-- The state of a process changes. -/
theorem Accounted.setState {t : ProcessState} (h : Accounted s)
    (hp : t = .unused ∨ t = .zombie → ∀ fd, (s.procs p).ofile fd = none) :
    Accounted (s.setProc p fun x => { x with state := t }) := by
  have hofile : ∀ q, ((s.setProc p fun x => { x with state := t }).procs q).ofile =
      (s.procs q).ofile := by
    intro q
    by_cases hq : q = p
    · subst hq
      simp [setProc]
    · simp [setProc, hq]
  refine ⟨h.table, fun g => ?_, fun q hq fd => ?_⟩
  · rw [holders]
    simp only [hofile]
    exact h.ref g
  · rw [hofile]
    by_cases hqp : q = p
    · subst hqp
      exact hp (by simpa [setProc] using hq) fd
    · exact h.closed q (by simpa [setProc, hqp] using hq) fd

theorem lift_setOfile (u : FileManager → Except Panic FileManager) (x : Option FileId) :
    (s.setOfile p fd x).lift u = (s.lift u).map fun s => s.setOfile p fd x := by
  rw [lift, lift, show (s.setOfile p fd x).files = s.files from rfl]
  cases u s.files <;> rfl

variable (np) in
/-- **The loop of `fork`**: the child has no file yet at the descriptors that are left. -/
theorem Accounted.forkFiles {l : List (Fin NOFILE)} :
    ∀ {s : FileUsers}, Accounted s → l.Nodup → (∀ i ∈ l, (s.procs np).ofile i = none) →
      (s.procs np).state = .used →
      ∃ s', s.forkFiles p np l = .ok s' ∧ Accounted s' := by
  induction l with
  | nil => exact fun h _ _ _ => ⟨_, rfl, h⟩
  | cons i l ih =>
    intro s h hnodup hnone hused
    obtain ⟨hi, hl⟩ := List.nodup_cons.1 hnodup
    rw [FileUsers.forkFiles]
    split
    · exact ih h hl (fun j hj => hnone j (List.mem_cons_of_mem _ hj)) hused
    · next f hf =>
      obtain ⟨s', hs', h', hprocs⟩ :=
        h.dupFd (h.pos hf) (hnone i List.mem_cons_self) (by simp [hused])
      rw [lift_setOfile] at hs'
      cases hdup : s.lift (·.dup f) with
      | error e =>
        rw [hdup] at hs'
        cases hs'
      | ok s₁ =>
        rw [hdup] at hs'
        cases hs'
        refine ih h' hl (fun j hj => ?_) ?_
        · rw [hprocs, setOfile_ofile, if_neg]
          · exact hnone j (List.mem_cons_of_mem _ hj)
          · rintro heq
            cases heq
            exact hi hj
        · rw [hprocs, setOfile_state]
          exact hused

theorem Accounted.fork (h : Accounted s) (hnp : (s.procs np).state = .unused) :
    ∃ s', s.fork p np = .ok s' ∧ Accounted s' := by
  have hnone := h.closed np (.inl hnp)
  have hused := h.setState (p := np) (t := .used) (by simp)
  obtain ⟨s', hs', h'⟩ := hused.forkFiles np (p := p) (List.nodup_finRange NOFILE)
    (fun i _ => by simpa [setProc] using hnone i) (by simp [setProc])
  exact ⟨s'.setProc np fun x => { x with state := .runnable }, by rw [FileUsers.fork, hs']; rfl,
    h'.setState (by simp)⟩

/-- **The loop of `exit`**: the descriptors it has passed are free. -/
theorem Accounted.exitFiles {l : List (Fin NOFILE)} :
    ∀ {s : FileUsers}, Accounted s →
      ∃ s', s.exitFiles p l = .ok s' ∧ Accounted s' ∧
        ∀ fd, (s.procs p).ofile fd = none ∨ fd ∈ l → (s'.procs p).ofile fd = none := by
  induction l with
  | nil =>
    intro s h
    exact ⟨s, rfl, h, fun fd hfd => by simpa using hfd⟩
  | cons i l ih =>
    intro s h
    rw [FileUsers.exitFiles]
    split
    · next hi =>
      obtain ⟨s', hs', h', hfree⟩ := ih h
      refine ⟨s', hs', h', fun fd hfd => hfree fd ?_⟩
      rcases hfd with hfd | hfd
      · exact .inl hfd
      · rcases List.mem_cons.1 hfd with rfl | hfd
        · exact .inl hi
        · exact .inr hfd
    · next f hf =>
      obtain ⟨s₁, hs₁, h₁, hprocs⟩ := h.closeFd hf
      obtain ⟨s', hs', h', hfree⟩ := ih h₁
      refine ⟨s', by rw [hs₁]; exact hs', h', fun fd hfd => hfree fd ?_⟩
      rw [hprocs, setOfile_ofile]
      by_cases hfi : fd = i
      · simp [hfi]
      · rw [if_neg (by simp [hfi])]
        rcases hfd with hfd | hfd
        · exact .inl hfd
        · exact .inr ((List.mem_cons.1 hfd).resolve_left hfi)

theorem Accounted.exit (h : Accounted s) : ∃ s', s.exit p = .ok s' ∧ Accounted s' := by
  obtain ⟨s', hs', h', hfree⟩ := h.exitFiles (p := p) (l := List.finRange NOFILE)
  refine ⟨s'.setProc p fun x => { x with state := .zombie }, by rw [FileUsers.exit, hs']; rfl,
    h'.setState fun _ fd => hfree fd (.inr (List.mem_finRange fd))⟩

/-! ## Runs -/

theorem Accounted.step {a : FileAct} (h : Accounted s) (hs : s.step a = some (.ok s')) :
    Accounted s' := by
  -- the calls that return a number
  have hcall : ∀ {p} {r : Except Panic (Int × FileUsers)},
      ((s.procs p).state = .runnable → Returns r) → s.call p (r.map Prod.snd) = some (.ok s') →
      Accounted s' := by
    intro p r hr hs
    rw [call] at hs
    split at hs
    · next hp =>
      obtain ⟨n, s₁, rfl, h₁⟩ := hr hp
      cases hs
      exact h₁
    · cases hs
  have hcall' : ∀ {p} {r : Except Panic FileUsers}, (∃ s', r = .ok s' ∧ Accounted s') →
      s.call p r = some (.ok s') → Accounted s' := by
    rintro p r ⟨s₁, rfl, h₁⟩ hs
    rw [call] at hs
    split at hs <;> cases hs
    exact h₁
  cases a with
  | «open» p omode found => exact hcall (fun hp => h.sysOpen hp) hs
  | pipe p copy₀ copy₁ =>
    refine hcall (fun hp => ?_) hs
    obtain ⟨n, s₁, hs₁, h₁, -⟩ := h.sysPipe copy₀ copy₁ hp
    exact ⟨n, s₁, hs₁, h₁⟩
  | dup p fd => exact hcall (fun hp => h.sysDup hp) hs
  | close p fd => exact hcall (fun _ => h.sysClose) hs
  | read p fd r n => exact hcall (fun _ => h.sysRead) hs
  | write p fd r bytes => exact hcall (fun _ => h.sysWrite) hs
  | fork p np =>
    simp only [FileUsers.step] at hs
    split at hs
    · next hnp => exact hcall' (h.fork hnp) hs
    · cases hs
  | exit p => exact hcall' h.exit hs
  | reap np =>
    simp only [FileUsers.step] at hs
    split at hs <;> cases hs
    next hz => exact h.setState fun _ => h.closed np (.inr hz)

theorem accounted_boot (data : PipeId → Nat → UInt8) : Accounted (boot data) := by
  refine ⟨⟨?_, ?_, ?_, ?_, ?_⟩, fun f => ?_, fun p _ fd => rfl⟩
  · simp [boot, File.blank]
  · simp [boot, File.blank]
  · simp [boot, File.blank]
  · simp [boot, File.blank, Pipe.blank]
  · simp [boot, File.blank, Pipe.blank]
  · rw [holders, Finset.filter_false_of_mem]
    · rfl
    · simp [boot]

end FileUsers

/-- **Descriptors, files and pipes account for each other** at every system-call boundary: a file has as
many references as descriptors hold it; an end of a pipe is open as long as its file is; a process that is
not in use holds no files; `alloc_pipe` never hands out a pipe that a file of a pipe points to; and a `pipe`
that returns -1 leaves the descriptors as they were, and the two tables up to what they hold for files and
pipes that are not in use. -/
theorem file_accounting {data : PipeId → Nat → UInt8} {as : List FileAct} {s : FileUsers}
    (h : Machine.Run FileUsers.step (.boot data) as s) :
    (∀ f, (s.files.files f).ref = s.holders f) ∧
    (∀ f, (s.files.files f).ref = 0 ↔ (s.files.files f).type = .none) ∧
    (∀ k, (s.files.pipes k).readopen = true ↔ ∃ f, 0 < (s.files.files f).ref ∧
      (s.files.files f).type = .pipe ∧ (s.files.files f).pp = some k ∧
      (s.files.files f).readable = true) ∧
    (∀ k, (s.files.pipes k).writeopen = true ↔ ∃ f, 0 < (s.files.files f).ref ∧
      (s.files.files f).type = .pipe ∧ (s.files.files f).pp = some k ∧
      (s.files.files f).writable = true) ∧
    (∀ p, (s.procs p).state = .unused → ∀ fd, (s.procs p).ofile fd = none) ∧
    (∀ f₀ f₁ m, s.files.allocPipe = .ok (some (f₀, f₁), m) → ∃ k, (m.files f₀).pp = some k ∧
      (m.files f₁).pp = some k ∧ ∀ f, 0 < (s.files.files f).ref → (s.files.files f).type = .pipe →
        (s.files.files f).pp ≠ some k) ∧
    ∀ p copy₀ copy₁ s', (s.procs p).state = .runnable →
      s.sysPipe p copy₀ copy₁ = .ok (-1, s') → s.AsBefore s' := by
  have hs : s.Accounted := h.invariant (P := FileUsers.Accounted) (FileUsers.accounted_boot data)
    fun _ _ _ hs hstep => hs.step hstep
  have hlive : ∀ f, (s.files.files f).type = .pipe → 0 < (s.files.files f).ref := by
    intro f hf
    refine Nat.pos_of_ne_zero fun href => ?_
    rw [(hs.table.untyped f).1 href] at hf
    cases hf
  have hreadable : ∀ f, (s.files.files f).type = .pipe →
      ((s.files.files f).readable = true ↔ (s.files.files f).writable = false) := by
    intro f hf
    obtain ⟨k, -, hr⟩ := hs.table.ends f hf
    rw [hr]
    simp
  refine ⟨hs.ref, hs.table.untyped, fun k => ?_, fun k => ?_, fun p hp => hs.closed p (.inl hp),
    fun f₀ f₁ m hm => ?_, fun p copy₀ copy₁ s' hp hpipe => ?_⟩
  · rw [hs.table.readopen]
    constructor
    · rintro ⟨f, hf, hk, hw⟩
      exact ⟨f, hlive f hf, hf, hk, (hreadable f hf).2 hw⟩
    · rintro ⟨f, -, hf, hk, hr⟩
      exact ⟨f, hf, hk, (hreadable f hf).1 hr⟩
  · rw [hs.table.writeopen]
    constructor
    · rintro ⟨f, hf, hk, hw⟩
      exact ⟨f, hlive f hf, hf, hk, hw⟩
    · rintro ⟨f, -, hf, hk, hw⟩
      exact ⟨f, hf, hk, hw⟩
  · rcases hs.table.allocPipe with hnone | ⟨g₀, g₁, k, hne, -, -, hr, hw, hsome⟩
    · rw [hnone] at hm
      cases hm
    · rw [hsome] at hm
      cases hm
      have hnew := FileManager.hasNewPipe (m := s.files) (k := k) hne
      exact ⟨k, hnew.read.2.2.1, hnew.write.2.2.1, fun f _ hf => hs.table.pipe_free hr hw hf⟩
  · obtain ⟨n, s₁, hs₁, -, hback⟩ := hs.sysPipe copy₀ copy₁ hp
    rw [hs₁] at hpipe
    cases hpipe
    exact hback rfl

/-- The first process makes a pipe and forks, and the child closes the reading end. -/
def pipeAndFork : List FileAct :=
  [.pipe ⟨0, by decide⟩ true true, .fork ⟨0, by decide⟩ ⟨1, by decide⟩, .close ⟨1, by decide⟩ 0]

/-- After `pipeAndFork`, two descriptors hold the writing end. -/
theorem file_accounting_pipe : ∃ s : FileUsers,
    Machine.Run FileUsers.step (.boot fun _ _ => 0) pipeAndFork s ∧
    (s.files.files ⟨0, by decide⟩).ref = 1 ∧ s.holders ⟨1, by decide⟩ = 2 := by
  have hrun : ∃ s : FileUsers, Machine.Run FileUsers.step (.boot fun _ _ => 0) pipeAndFork s ∧
      (s.files.files ⟨0, by decide⟩).ref = 1 ∧ (s.files.files ⟨1, by decide⟩).ref = 2 :=
    ⟨_, Machine.run_of_exec rfl, rfl, rfl⟩
  obtain ⟨s, hs, h₀, h₁⟩ := hrun
  exact ⟨s, hs, h₀, ((file_accounting hs).1 _).symm.trans h₁⟩

/-- A `pipe` that cannot copy the descriptors to the user leaves traces in the files it gave up. -/
theorem failed_pipe_leaves_traces : ¬ ∀ (as : List FileAct) (s s' : FileUsers) (p : Fin NPROC)
    (copy₀ copy₁ : Bool), Machine.Run FileUsers.step (.boot fun _ _ => 0) as s →
    (s.procs p).state = .runnable → s.sysPipe p copy₀ copy₁ = .ok (-1, s') →
    s'.procs = s.procs ∧ s'.files = s.files := by
  intro h
  have hcall : ∃ s', FileUsers.sysPipe ⟨0, by decide⟩ false true (.boot fun _ _ => 0) = .ok (-1, s') ∧
      (s'.files.files ⟨0, by decide⟩).readable = true := ⟨_, rfl, rfl⟩
  obtain ⟨s', hs', hread⟩ := hcall
  rw [(h [] _ s' _ false true .nil rfl hs').2] at hread
  cases hread

end Xv6pp
