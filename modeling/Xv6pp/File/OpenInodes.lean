import Mathlib.Algebra.BigOperators.Group.Finset.Piecewise
import Xv6pp.File.FileTable

/-!
# Open files of an inode

An inode has a reference from every open file of type `FD_INODE` or `FD_DEVICE` that points to it.  Opening
makes one more such file, the last `close` one less, and no other call changes their number.
-/

set_option autoImplicit false

namespace Xv6pp

/-- Counting, when the predicate changes at one place. -/
theorem card_filter_change {α : Type} [Fintype α] [DecidableEq α] {P Q : α → Prop} [DecidablePred P]
    [DecidablePred Q] {a : α} (h : ∀ x ≠ a, Q x ↔ P x) :
    (Finset.univ.filter Q).card + (if P a then 1 else 0) =
      (Finset.univ.filter P).card + (if Q a then 1 else 0) := by
  simp only [Finset.card_filter]
  have hsum : ∑ x ∈ Finset.univ.erase a, (if Q x then 1 else 0) =
      ∑ x ∈ Finset.univ.erase a, (if P x then 1 else 0) :=
    Finset.sum_congr rfl fun x hx => by simp only [h x (Finset.ne_of_mem_erase hx)]
  have h' := Finset.add_sum_erase Finset.univ (fun x => if Q x then 1 else 0) (Finset.mem_univ a)
  have h'' := Finset.add_sum_erase Finset.univ (fun x => if P x then 1 else 0) (Finset.mem_univ a)
  simp only [← h', ← h'', hsum]
  omega

/-- The file is in use and points to the inode. -/
def File.opens (x : File) (ip : InodeId) : Prop :=
  0 < x.ref ∧ (x.type = .inode ∨ x.type = .device) ∧ x.ip = some ip

instance (x : File) (ip : InodeId) : Decidable (x.opens ip) := by
  unfold File.opens
  infer_instance

theorem File.not_opens_of_ref {x : File} {ip : InodeId} (h : x.ref = 0) : ¬ x.opens ip := by
  rintro ⟨hpos, -⟩
  rw [h] at hpos
  exact absurd hpos (Nat.lt_irrefl 0)

theorem File.not_opens_of_pipe {x : File} {ip : InodeId} (h : x.type = .pipe) : ¬ x.opens ip := by
  rintro ⟨-, htype, -⟩
  rw [h] at htype
  simp at htype

namespace FileUsers

variable {s s' : FileUsers} {p np : Fin NPROC} {fd : Fin NOFILE} {f : FileId} {ip : InodeId}

/-- The number of open files that point to an inode. -/
def openers (s : FileUsers) (ip : InodeId) : Nat :=
  (Finset.univ.filter fun f => (s.files.files f).opens ip).card

theorem openers_congr (h : ∀ f, (s'.files.files f).opens ip ↔ (s.files.files f).opens ip) :
    s'.openers ip = s.openers ip := by
  simp only [openers, h]

/-- One file changes. -/
theorem openers_update (h : ∀ g ≠ f, s'.files.files g = s.files.files g) (ip : InodeId) :
    s'.openers ip + (if (s.files.files f).opens ip then 1 else 0) =
      s.openers ip + (if (s'.files.files f).opens ip then 1 else 0) := by
  refine card_filter_change (P := fun g => (s.files.files g).opens ip)
    (Q := fun g => (s'.files.files g).opens ip) fun g hg => ?_
  simp only [h g hg]

/-- The accounts are kept, the processes are in the states they were in, and every inode has as many
more open files as `d` says. -/
structure Alters (s s' : FileUsers) (d : InodeId → Int) : Prop where
  accounted : Accounted s'
  state : ∀ q, (s'.procs q).state = (s.procs q).state
  openers : ∀ ip, (s'.openers ip : Int) = s.openers ip + d ip

/-- No inode has more or fewer open files. -/
theorem Alters.zero (h : Accounted s') (hstate : ∀ q, (s'.procs q).state = (s.procs q).state)
    (hopens : ∀ f ip, (s'.files.files f).opens ip ↔ (s.files.files f).opens ip) : Alters s s' 0 :=
  ⟨h, hstate, fun ip => by rw [openers_congr fun f => hopens f ip]; simp⟩

theorem Alters.refl (h : Accounted s) : Alters s s 0 := .zero h (fun _ => rfl) fun _ _ => .rfl

theorem Alters.trans {s'' : FileUsers} (h : Alters s s' 0) (h' : Alters s' s'' 0) : Alters s s'' 0 :=
  ⟨h'.accounted, fun q => (h'.state q).trans (h.state q), fun ip => by
    rw [h'.openers, h.openers]
    simp⟩

/-- A file's contents change. -/
theorem opens_setFile {u : File → File} (hu : ∀ x ip, (u x).opens ip ↔ x.opens ip) (g : FileId) :
    ((s.files.setFile f u).files g).opens ip ↔ (s.files.files g).opens ip := by
  by_cases hg : g = f
  · rw [hg, FileManager.setFile_self]
    exact hu _ _
  · rw [FileManager.setFile_ne hg]

theorem Alters.setOff {u : Nat → Nat} (h : Accounted s) :
    Alters s { s with files := s.files.setFile f fun x => { x with off := u x.off } } 0 :=
  .zero h.setOff (fun _ => rfl) fun g _ =>
    opens_setFile (u := fun x => { x with off := u x.off }) (fun _ _ => .rfl) g

/-- One more descriptor for a file that is in use. -/
theorem Alters.dupFd (h' : Accounted s') (hprocs : s'.procs = (s.setOfile p fd (some f)).procs)
    (hf : 0 < (s.files.files f).ref)
    (hs : (s.setOfile p fd (some f)).lift (·.dup f) = .ok s') : Alters s s' 0 := by
  rw [lift, show (s.setOfile p fd (some f)).files = s.files from rfl, FileManager.dup,
    if_neg (by omega)] at hs
  cases hs
  have hlive : 0 < ((s.files.setFile f fun x => { x with ref := (x.ref + 1) % 2 ^ 32 }).files f).ref := by
    refine h'.pos (p := p) (?_ : ((s.setOfile p fd (some f)).procs p).ofile fd = some f)
    show ((s.setOfile p fd (some f)).procs p).ofile fd = some f
    rw [setOfile_ofile, if_pos rfl]
  rw [FileManager.setFile_self] at hlive
  refine .zero h' (fun q => setOfile_state _ q) fun g ip => ?_
  by_cases hg : g = f
  · subst hg
    show ((s.files.setFile g fun x => { x with ref := (x.ref + 1) % 2 ^ 32 }).files g).opens ip ↔ _
    simp only [File.opens, hlive, hf, true_and, FileManager.setFile_self]
  · show ((s.files.setFile f fun x => { x with ref := (x.ref + 1) % 2 ^ 32 }).files g).opens ip ↔ _
    rw [FileManager.setFile_ne hg]

theorem Alters.sysDup {n r : Int} (h : Accounted s) (hp : (s.procs p).state = .runnable)
    (hs : s.sysDup p n = .ok (r, s')) : Alters s s' 0 := by
  rw [FileUsers.sysDup] at hs
  split at hs
  · cases hs
    exact .refl h
  · next fd f hfd =>
    split at hs
    · cases hs
      exact .refl h
    · next fd' s₁ hfd' =>
      obtain ⟨hfree, rfl⟩ := fdalloc_some hfd'
      have hf := h.pos (argfd_some hfd)
      obtain ⟨s'', hs'', h'', hprocs⟩ := h.dupFd hf hfree (by simp [hp])
      rw [hs''] at hs
      cases hs
      exact .dupFd h'' hprocs hf hs''

theorem Alters.read {r k : Int} {n : Nat} (h : Accounted s) (hs : s.read f r n = .ok (k, s')) :
    Alters s s' 0 := by
  rw [FileUsers.read] at hs
  split at hs
  · cases hs
    exact .refl h
  · split at hs
    · split at hs <;> cases hs
      exact .zero (h.setPipe ⟨rfl, rfl⟩) (fun _ => rfl) fun _ _ => .rfl
    · split at hs <;> cases hs <;> exact .refl h
    · cases hs
      exact .setOff (u := fun o => (o + r.toNat) % 2 ^ 32) h
    · cases hs

theorem Alters.write {r k : Int} {bytes : List UInt8} (h : Accounted s)
    (hs : s.write f r bytes = .ok (k, s')) : Alters s s' 0 := by
  rw [FileUsers.write] at hs
  split at hs
  · cases hs
    exact .refl h
  · split at hs
    · split at hs <;> cases hs
      exact .zero (h.setPipe (put_flags bytes _)) (fun _ => rfl) fun _ _ => .rfl
    · split at hs <;> cases hs <;> exact .refl h
    · cases hs
      exact .setOff (u := fun o => (o + bytes.length) % 2 ^ 32) h
    · cases hs

theorem opens_openedFile {omode : Nat} {i : Opened} {x : File} :
    (openedFile omode i x).opens ip ↔ 0 < x.ref ∧ ip = i.ip := by
  rw [openedFile, File.opens]
  split
  · simp [eq_comm]
  · simp [eq_comm]

theorem openers_opened (omode : Nat) {i : Opened} (hfree : (s.files.files f).ref = 0)
    (hs : s'.files =
      (s.files.setFile f fun x => { x with ref := 1 }).setFile f (openedFile omode i)) :
    s'.openers ip = s.openers ip + if ip = i.ip then 1 else 0 := by
  have hcount : s'.openers ip + _ = s.openers ip + _ := openers_update (f := f)
    (fun g hg => by rw [hs, FileManager.setFile_ne hg, FileManager.setFile_ne hg]) ip
  rw [if_neg (File.not_opens_of_ref hfree), hs] at hcount
  simpa only [FileManager.setFile_self, opens_openedFile, Nat.one_pos, true_and, Nat.add_zero] using hcount

/-- **Opening** fails and changes nothing, or makes one more open file of the inode. -/
theorem Alters.sysOpen {omode : Nat} {i : Opened} {n : Int} (h : Accounted s)
    (hp : (s.procs p).state = .runnable) (hs : s.sysOpen p omode (some i) = .ok (n, s')) :
    n < 0 ∧ s' = s ∨ 0 ≤ n ∧ Alters s s' fun ip => if ip = i.ip then 1 else 0 := by
  rw [FileUsers.sysOpen] at hs
  split at hs
  · cases hs
    exact .inl ⟨by decide, rfl⟩
  · split at hs
    · cases hs
      exact .inl ⟨by decide, rfl⟩
    · split at hs
      · cases hs
        exact .inl ⟨by decide, rfl⟩
      · next f m hm =>
        obtain ⟨hfree, rfl⟩ := FileManager.allocFile_some hm
        split at hs
        · rw [lift, FileManager.close_taken hfree ((h.table.untyped f).1 hfree)] at hs
          cases hs
          exact .inl ⟨by decide, rfl⟩
        · next fd s₁ hfd =>
          obtain ⟨hnone, rfl⟩ := fdalloc_some hfd
          cases hs
          refine .inr ⟨Int.natCast_nonneg _, h.opened hp hfree hnone, fun q => setOfile_state _ q,
            fun ip => ?_⟩
          rw [openers_opened omode (i := i) hfree rfl]
          split <;> simp

theorem Alters.sysPipe {copy₀ copy₁ : Bool} {n : Int} (h : Accounted s)
    (hp : (s.procs p).state = .runnable) (hs : s.sysPipe p copy₀ copy₁ = .ok (n, s')) :
    Alters s s' 0 := by
  obtain ⟨n', s₁, hs₁, h', -⟩ := h.sysPipe copy₀ copy₁ hp
  rw [hs₁] at hs
  cases hs
  rcases h.sysPipe_cases (p := p) copy₀ copy₁ with ⟨m', hrestored, hs⟩ |
    ⟨f₀, f₁, k, fd₀, fd₁, hne, hfd, h₀, h₁, hr, hw, hfree₀, hfree₁, hs⟩
  · rw [hs₁] at hs
    cases hs
    refine .zero h' (fun _ => rfl) fun f ip => ?_
    rcases Nat.eq_zero_or_pos (s.files.files f).ref with hf | hf
    · exact iff_of_false (File.not_opens_of_ref ((hrestored.ref f).trans hf)) (File.not_opens_of_ref hf)
    · show (m'.files f).opens ip ↔ _
      rw [hrestored.file f hf]
  · rw [hs₁] at hs
    cases hs
    have hnew := FileManager.hasNewPipe (m := s.files) (k := k) hne
    refine .zero h' (fun q => by rw [setOfile_state, setOfile_state]) fun f ip => ?_
    show ((s.files.newPipe f₀ f₁ k).files f).opens ip ↔ _
    by_cases hf₀ : f = f₀
    · rw [hf₀]
      exact iff_of_false (File.not_opens_of_pipe hnew.read.2.1) (File.not_opens_of_ref h₀)
    · by_cases hf₁ : f = f₁
      · rw [hf₁]
        exact iff_of_false (File.not_opens_of_pipe hnew.write.2.1) (File.not_opens_of_ref h₁)
      · rw [hnew.others f hf₀ hf₁]

/-- **Closing** a descriptor: if it was the last one, its file is no longer open. -/
theorem Alters.closeFd (h : Accounted s) (hfd : (s.procs p).ofile fd = some f)
    (hs : s.closeFd p fd f = .ok s') : Alters s s' fun ip =>
      if (s.files.files f).ref = 1 ∧ (s.files.files f).opens ip then -1 else 0 := by
  obtain ⟨s₁, hs₁, h', hprocs⟩ := h.closeFd hfd
  rw [hs₁] at hs
  cases hs
  refine ⟨h', fun q => by rw [hprocs, setOfile_state], fun ip => ?_⟩
  have hf := h.pos hfd
  obtain ⟨m', hclose, -, href, hothers, -⟩ := h.table.close hf
  have hfiles : s'.files = m' := by
    rw [FileUsers.closeFd, lift, show (s.setOfile p fd none).files = s.files from rfl, hclose] at hs₁
    cases hs₁
    rfl
  have hcount : s'.openers ip + _ = s.openers ip + _ := openers_update (f := f)
    (fun g hg => by rw [hfiles, hothers g hg]) ip
  rw [hfiles] at hcount
  by_cases hone : (s.files.files f).ref = 1
  · rw [if_neg (File.not_opens_of_ref (x := m'.files f) (by omega))] at hcount
    simp only [hone, true_and]
    split_ifs at hcount ⊢ <;> omega
  · rw [FileManager.close, FileManager.dropRef, if_neg (by omega), if_pos (by omega)] at hclose
    cases hclose
    have hopens : ((s.files.setFile f fun x => { x with ref := x.ref - 1 }).files f).opens ip ↔
        (s.files.files f).opens ip := by
      rw [FileManager.setFile_self, File.opens, File.opens]
      simp only [hf, show 0 < (s.files.files f).ref - 1 by omega, true_and]
    rw [if_neg (fun hlast => hone hlast.1)]
    simp only [hopens] at hcount
    omega

/-- The loop of `fork` opens nothing. -/
theorem openers_forkFiles {l : List (Fin NOFILE)} : ∀ {s : FileUsers}, Accounted s → l.Nodup →
    (∀ i ∈ l, (s.procs np).ofile i = none) → (s.procs np).state = .used →
    s.forkFiles p np l = .ok s' → Alters s s' 0 := by
  induction l with
  | nil =>
    rintro s h - - - hs
    cases hs
    exact .refl h
  | cons i l ih =>
    intro s h hnodup hnone hused hs
    obtain ⟨hi, hl⟩ := List.nodup_cons.1 hnodup
    rw [FileUsers.forkFiles] at hs
    split at hs
    · exact ih h hl (fun j hj => hnone j (List.mem_cons_of_mem _ hj)) hused hs
    · next f hf =>
      obtain ⟨s₁, hs₁, h₁, hprocs⟩ :=
        h.dupFd (h.pos hf) (hnone i List.mem_cons_self) (by simp [hused])
      have halters := Alters.dupFd h₁ hprocs (h.pos hf) hs₁
      rw [lift_setOfile] at hs₁
      split at hs
      · cases hs
      · next s₂ hdup =>
        rw [hdup] at hs₁
        cases hs₁
        refine halters.trans (ih h₁ hl (fun j hj => ?_) ?_ hs)
        · rw [hprocs, setOfile_ofile, if_neg]
          · exact hnone j (List.mem_cons_of_mem _ hj)
          · rintro heq
            cases heq
            exact hi hj
        · rw [hprocs, setOfile_state]
          exact hused

/-- **`fork`** opens nothing, and the child is runnable. -/
theorem openers_fork (h : Accounted s) (hnp : (s.procs np).state = .unused)
    (hs : s.fork p np = .ok s') : Accounted s' ∧ (∀ ip, s'.openers ip = s.openers ip) ∧
      (s'.procs np).state = .runnable ∧ ∀ q ≠ np, (s'.procs q).state = (s.procs q).state := by
  have hnone := h.closed np (.inl hnp)
  have hused := h.setState (p := np) (t := .used) (by simp)
  obtain ⟨s₁, hs₁, h₁⟩ := hused.forkFiles np (p := p) (List.nodup_finRange NOFILE)
    (fun i _ => by simpa [setProc] using hnone i) (by simp [setProc])
  have halters := openers_forkFiles hused (List.nodup_finRange NOFILE)
    (fun i _ => by simpa [setProc] using hnone i) (by simp [setProc]) hs₁
  rw [FileUsers.fork, hs₁] at hs
  cases hs
  refine ⟨h₁.setState (by simp), fun ip => ?_, by simp [setProc], fun q hq => ?_⟩
  · have hsame := halters.openers ip
    simp only [Pi.zero_apply, add_zero, Nat.cast_inj] at hsame
    exact hsame
  · have hsame := halters.state q
    simpa [setProc, hq] using hsame


end FileUsers

end Xv6pp
