import Xv6pp.File.OpenInodes

/-!
# Files that are open for writing

Which inodes can be written to through an open file.  `sys_open` may add the inode that it opens, if the
mode says so; no other call adds any.
-/

set_option autoImplicit false

namespace Xv6pp

/-- The file is in use and open for writing to the inode. -/
def File.writes (x : File) (ip : InodeId) : Prop :=
  0 < x.ref ∧ x.type = .inode ∧ x.writable = true ∧ x.ip = some ip

theorem File.writes.opens {x : File} {ip : InodeId} (h : x.writes ip) : x.opens ip :=
  ⟨h.1, .inl h.2.1, h.2.2.2⟩

namespace FileUsers

variable {s s' s'' : FileUsers} {p np : Fin NPROC} {fd : Fin NOFILE} {f : FileId} {ip : InodeId}

/-- An open file of the inode can be written to. -/
def writes (s : FileUsers) (ip : InodeId) : Prop := ∃ f, (s.files.files f).writes ip

theorem writes.openers_pos (h : s.writes ip) : 0 < s.openers ip := by
  obtain ⟨f, hf⟩ := h
  exact Finset.card_pos.2 ⟨f, Finset.mem_filter.2 ⟨Finset.mem_univ f, hf.opens⟩⟩

/-- No inode is open for writing that was not so before. -/
def NoNewWriters (s s' : FileUsers) : Prop := ∀ ip, s'.writes ip → s.writes ip

namespace NoNewWriters

theorem refl (s : FileUsers) : NoNewWriters s s := fun _ h => h

theorem trans (h : NoNewWriters s s') (h' : NoNewWriters s' s'') : NoNewWriters s s'' :=
  fun ip hip => h ip (h' ip hip)

theorem of_files (h : ∀ f ip, (s'.files.files f).writes ip → (s.files.files f).writes ip) :
    NoNewWriters s s' := fun ip ⟨f, hf⟩ => ⟨f, h f ip hf⟩

/-- One file changes. -/
theorem update (hother : ∀ g ≠ f, s'.files.files g = s.files.files g)
    (hf : ∀ ip, (s'.files.files f).writes ip → (s.files.files f).writes ip) : NoNewWriters s s' := by
  refine of_files fun g ip hg => ?_
  by_cases hgf : g = f
  · exact hgf ▸ hf ip (hgf ▸ hg)
  · rwa [hother g hgf] at hg

theorem setFile {u : File → File} (hu : ∀ ip, (u (s.files.files f)).writes ip → (s.files.files f).writes ip) :
    NoNewWriters s { s with files := s.files.setFile f u } := by
  refine update (f := f) (fun g hg => FileManager.setFile_ne hg) fun ip hf => hu ip ?_
  exact (FileManager.setFile_self u) ▸ hf

/-- A file that is in use gets another reference. -/
theorem dup (hf : 0 < (s.files.files f).ref) (hs : s.lift (·.dup f) = .ok s') : NoNewWriters s s' := by
  rw [lift, FileManager.dup, if_neg (by omega)] at hs
  cases hs
  exact setFile fun ip hw => ⟨hf, hw.2⟩

theorem sysDup {n r : Int} (h : Accounted s) (hs : s.sysDup p n = .ok (r, s')) : NoNewWriters s s' := by
  rw [FileUsers.sysDup] at hs
  split at hs
  · cases hs
    exact refl s
  · next fd f hfd =>
    split at hs
    · cases hs
      exact refl s
    · next fd' s₁ hfd' =>
      obtain ⟨-, rfl⟩ := fdalloc_some hfd'
      cases hdup : (setOfile p fd' (some f) s).lift (·.dup f) with
      | error e =>
        rw [hdup] at hs
        cases hs
      | ok s₂ =>
        rw [hdup] at hs
        cases hs
        exact dup (s := setOfile p fd' (some f) s) (h.pos (argfd_some hfd)) hdup

theorem read {r k : Int} {n : Nat} (hs : s.read f r n = .ok (k, s')) : NoNewWriters s s' := by
  rw [FileUsers.read] at hs
  split at hs
  · cases hs
    exact refl s
  · split at hs
    · split at hs <;> cases hs
      exact refl s
    · split at hs <;> cases hs <;> exact refl s
    · cases hs
      exact setFile fun _ hw => hw
    · cases hs

theorem write {r k : Int} {bytes : List UInt8} (hs : s.write f r bytes = .ok (k, s')) :
    NoNewWriters s s' := by
  rw [FileUsers.write] at hs
  split at hs
  · cases hs
    exact refl s
  · split at hs
    · split at hs <;> cases hs
      exact refl s
    · split at hs <;> cases hs <;> exact refl s
    · cases hs
      exact setFile fun _ hw => hw
    · cases hs

theorem closeFd (h : Accounted s) (hfd : (s.procs p).ofile fd = some f) (hs : s.closeFd p fd f = .ok s') :
    NoNewWriters s s' := by
  have hf := h.pos hfd
  obtain ⟨m', hclose, -, href, hothers, -⟩ := h.table.close hf
  rw [FileUsers.closeFd, lift, show (s.setOfile p fd none).files = s.files from rfl, hclose] at hs
  cases hs
  refine update (f := f) hothers fun ip hw => ?_
  replace hw : (m'.files f).writes ip := hw
  by_cases hone : (s.files.files f).ref = 1
  · exact absurd hw.1 (by omega)
  · rw [FileManager.close, FileManager.dropRef, if_neg (by omega), if_pos (by omega)] at hclose
    cases hclose
    rw [FileManager.setFile_self] at hw
    exact ⟨hf, hw.2⟩

theorem sysPipe {copy₀ copy₁ : Bool} {n : Int} (h : Accounted s)
    (hs : s.sysPipe p copy₀ copy₁ = .ok (n, s')) : NoNewWriters s s' := by
  rcases h.sysPipe_cases (p := p) copy₀ copy₁ with ⟨m', hrestored, hs'⟩ |
    ⟨f₀, f₁, k, fd₀, fd₁, hne, -, -, -, -, -, -, -, hs'⟩
  · rw [hs'] at hs
    cases hs
    refine of_files fun f ip hw => ?_
    replace hw : (m'.files f).writes ip := hw
    rwa [hrestored.file f (hrestored.ref f ▸ hw.1)] at hw
  · rw [hs'] at hs
    cases hs
    have hnew := FileManager.hasNewPipe (m := s.files) (k := k) hne
    refine of_files fun f ip hw => ?_
    replace hw : ((s.files.newPipe f₀ f₁ k).files f).writes ip := hw
    by_cases hf₀ : f = f₀
    · rw [hf₀] at hw
      exact absurd hw.opens (File.not_opens_of_pipe hnew.read.2.1)
    · by_cases hf₁ : f = f₁
      · rw [hf₁] at hw
        exact absurd hw.opens (File.not_opens_of_pipe hnew.write.2.1)
      · rwa [hnew.others f hf₀ hf₁] at hw

/-- The loop of `fork`. -/
theorem forkFiles {l : List (Fin NOFILE)} : ∀ {s : FileUsers}, s.forkFiles p np l = .ok s' →
    NoNewWriters s s' := by
  induction l with
  | nil =>
    intro s hs
    cases hs
    exact refl _
  | cons i l ih =>
    intro s hs
    rw [FileUsers.forkFiles] at hs
    split at hs
    · exact ih hs
    · next f hf =>
      split at hs
      · cases hs
      · next s₁ hdup =>
        have hpos : 0 < (s.files.files f).ref := by
          rw [lift, FileManager.dup] at hdup
          split at hdup
          · cases hdup
          · omega
        exact (dup hpos hdup).trans (ih (s := setOfile np i (some f) s₁) hs)

theorem fork (hs : s.fork p np = .ok s') : NoNewWriters s s' := by
  rw [FileUsers.fork] at hs
  cases hfiles : FileUsers.forkFiles p np (List.finRange NOFILE)
      (s.setProc np fun x => { x with state := .used }) with
  | error e =>
    rw [hfiles] at hs
    cases hs
  | ok s₁ =>
    rw [hfiles] at hs
    cases hs
    have hforked : NoNewWriters (s.setProc np fun x => { x with state := .used }) s₁ := forkFiles hfiles
    exact hforked

end NoNewWriters

/-- **`sys_open`** opens for writing at most the inode that it has found, and no directory unless it has
created it. -/
theorem writes_sysOpen {omode : Nat} {i : Opened} {n : Int} (h : Accounted s)
    (hs : s.sysOpen p omode (some i) = .ok (n, s')) (hip : s'.writes ip) :
    s.writes ip ∨ ip = i.ip ∧ (omode &&& O_CREATE = 0 → i.type ≠ T_DIR) := by
  rw [FileUsers.sysOpen] at hs
  split at hs
  · cases hs
    exact .inl hip
  · next hdir =>
    split at hs
    · cases hs
      exact .inl hip
    · split at hs
      · cases hs
        exact .inl hip
      · next f m hm =>
        obtain ⟨hfree, rfl⟩ := FileManager.allocFile_some hm
        split at hs
        · rw [lift, FileManager.close_taken hfree ((h.table.untyped f).1 hfree)] at hs
          cases hs
          exact .inl hip
        · next fd s₁ hfd =>
          obtain ⟨-, rfl⟩ := fdalloc_some hfd
          cases hs
          obtain ⟨g, hg⟩ := hip
          by_cases hgf : g = f
          · subst hgf
            rw [FileManager.setFile_self] at hg
            have hmode : (openedFile omode i ((s.files.setFile g fun x => { x with ref := 1 }).files g)).writes ip := hg
            refine .inr ⟨(opens_openedFile.1 hmode.opens).2, fun hcreate htype => hdir ⟨hcreate, htype, ?_⟩⟩
            rintro rfl
            have hw := hmode.2.2.1
            rw [openedFile] at hw
            simp [O_RDONLY] at hw
          · refine .inl ⟨g, ?_⟩
            have hsame : (((s.files.setFile f fun x => { x with ref := 1 }).setFile f (openedFile omode i)).files g).writes ip := hg
            rwa [FileManager.setFile_ne hgf, FileManager.setFile_ne hgf] at hsame

end FileUsers

end Xv6pp
