import Xv6pp.File.PipeUsers
import Xv6pp.Console.LineDiscipline

/-!
# Reads into memory that cannot be written

A read takes a byte out of its buffer before it copies it to the caller, so a byte whose copy fails is
lost.  `pipe::read` and `console_interface::read` lose nothing exactly when no byte that they get to
is bound for memory that cannot be written.  `console_interface::read` also forgets to count the bytes that it
has copied, if the process was killed and it would have to wait for more.
-/

set_option autoImplicit false

namespace Xv6pp

/-! ## Pipes -/

namespace PipeUsers

variable {ι : Type} [DecidableEq ι]

theorem wakeup_readReturn {s : PipeUsers ι} {p : ι} {n : Int} {bytes : List UInt8} {res : Int} :
    ((s.wakeup .nwrite p).readReturn p n bytes res).pipe = s.pipe ∧
      ((s.wakeup .nwrite p).readReturn p n bytes res).reads = s.reads ++ [⟨n, bytes, res, s.pipe⟩] :=
  ⟨rfl, rfl⟩

/-- **The loop of `pipe::read`** takes out exactly the bytes that it copies, unless one of the bytes
in its reach cannot be copied. -/
theorem run_readCopy {p : ι} {n : Int} {dst : Nat → Bool} {m : Nat} :
    ∀ {s : PipeUsers ι} {out : List UInt8}, s.pc p = .inside (.readCopy n dst out) →
      s.pipe.contents.length = m →
      ∃ k s' bytes, Machine.Run step s (List.replicate k (.step p)) s' ∧
        s'.reads = s.reads ++ [⟨n, out ++ bytes, (out ++ bytes).length, s'.pipe⟩] ∧
        (s.pipe.contents = bytes ++ s'.pipe.contents ↔
          ∀ i < m, out.length + i < n → dst (out.length + i) = true) := by
  induction m with
  | zero =>
    intro s out hpc hm
    have hnil := List.eq_nil_of_length_eq_zero hm
    have hempty : ¬ (out.length < n ∧ s.pipe.empty = false) := fun hc => by
      rw [Pipe.contents_get hc.2] at hnil
      cases hnil
    obtain ⟨hpipe, hreads⟩ := wakeup_readReturn (s := s) (p := p) (n := n)
    refine ⟨1, (s.wakeup .nwrite p).readReturn p n out out.length, [], Machine.Run.nil.snoc ?_, ?_, ?_⟩
    · simp only [step, hpc, advance, if_neg hempty]
    · rw [hreads, hpipe, List.append_nil]
    · rw [hpipe, List.nil_append]
      exact iff_of_true rfl fun i hi => absurd hi (Nat.not_lt_zero i)
  | succ m ih =>
    intro s out hpc hm
    by_cases hgo : out.length < n ∧ s.pipe.empty = false
    · have hcons := Pipe.contents_get hgo.2
      have hlen : s.pipe.get.2.contents.length = m := by
        rw [hcons, List.length_cons] at hm
        exact Nat.succ.inj hm
      cases hdst : dst out.length with
      | true =>
        -- the byte is copied, and the loop goes on
        obtain ⟨s₁, hs₁⟩ : ∃ s₁, s₁ = ({ s with pipe := s.pipe.get.2 } : PipeUsers ι).goto p
          (.readCopy n dst (out ++ [s.pipe.get.1])) := ⟨_, rfl⟩
        have hpc₁ : s₁.pc p = .inside (.readCopy n dst (out ++ [s.pipe.get.1])) := by
          rw [hs₁]
          exact Function.update_self ..
        have hpipe₁ : s₁.pipe = s.pipe.get.2 := by rw [hs₁]; rfl
        obtain ⟨k, s', bytes, hrun, hreads, hiff⟩ := ih hpc₁ (by rw [hpipe₁]; exact hlen)
        refine ⟨k + 1, s', s.pipe.get.1 :: bytes, ?_, ?_, ?_⟩
        · rw [Nat.add_comm, List.replicate_add]
          refine (Machine.Run.nil.snoc ?_ : Machine.Run step s ([] ++ [.step p]) s₁).append hrun
          simp only [step, hpc, advance, if_pos hgo, hdst, if_true, hs₁]
        · rw [hreads, hs₁, List.append_assoc, List.singleton_append]
          rfl
        · rw [hpipe₁] at hiff
          rw [hcons, List.cons_append, List.cons_inj_right, hiff, List.length_append,
            List.length_singleton]
          constructor
          · intro h i hi hin
            rcases i with _ | i
            · exact hdst
            · have hidx : out.length + (i + 1) = out.length + 1 + i := by omega
              rw [hidx]
              exact h i (Nat.lt_of_succ_lt_succ hi) (by push_cast at *; omega)
          · intro h i hi hin
            have hidx : out.length + 1 + i = out.length + (i + 1) := by omega
            rw [hidx]
            exact h (i + 1) (Nat.succ_lt_succ hi) (by push_cast at *; omega)
      | false =>
        -- the byte is lost
        obtain ⟨hpipe, hreads⟩ := wakeup_readReturn (s := { s with pipe := s.pipe.get.2 }) (p := p) (n := n)
        refine ⟨1, (({ s with pipe := s.pipe.get.2 } : PipeUsers ι).wakeup .nwrite p).readReturn p n out
          out.length, [], Machine.Run.nil.snoc ?_, ?_, ?_⟩
        · simp only [step, hpc, advance, if_pos hgo, hdst, Bool.false_eq_true, if_false]
        · rw [hreads, hpipe, List.append_nil]
        · rw [hpipe, List.nil_append]
          refine iff_of_false (fun heq => ?_) fun h => ?_
          · rw [heq, hlen] at hm
            omega
          · have h0 := h 0 (Nat.succ_pos m) (by simpa using hgo.1)
            rw [Nat.add_zero, hdst] at h0
            cases h0
    · obtain ⟨hpipe, hreads⟩ := wakeup_readReturn (s := s) (p := p) (n := n)
      refine ⟨1, (s.wakeup .nwrite p).readReturn p n out out.length, [], Machine.Run.nil.snoc ?_, ?_, ?_⟩
      · simp only [step, hpc, advance, if_neg hgo]
      · rw [hreads, hpipe, List.append_nil]
      · rw [hpipe, List.nil_append]
        refine iff_of_true rfl fun i hi hin => ?_
        have hne : s.pipe.empty = false := by
          cases hempty : s.pipe.empty with
          | false => rfl
          | true =>
            rw [Pipe.contents_empty hempty] at hm
            cases hm
        exact absurd ⟨by omega, hne⟩ hgo

end PipeUsers

/-! ## The console -/

namespace ConsoleInterface

/-- The bytes of the caller's buffer, from number `o` on, that a `read` of the characters `u` gets to
can be written: those before an end-of-file, up to a newline, and as many as are asked for. -/
def ReachWritable (dst : Nat → Bool) (target : Int) (o : Nat) (u : List UInt8) : Prop :=
  ∀ i < u.length, o + i < target → C 'D' ∉ u.take (i + 1) → newline ∉ u.take i → dst (o + i) = true

/-- From the console `c` to `c'`, exactly the bytes `new` were taken out, apart from an end-of-file. -/
def Removed (c : ConsoleInterface) (new : List UInt8) (c' : ConsoleInterface) : Prop :=
  ∃ eof, (eof = [] ∨ eof = [C 'D']) ∧ c.unread = new ++ eof ++ c'.unread

/-- A `read` that has copied `o` bytes copies all the characters `u`, and then has to wait for more. -/
def Waits (target : Int) (o : Nat) (u : List UInt8) : Prop :=
  o + u.length < target ∧ C 'D' ∉ u ∧ newline ∉ u

/-- The answer of `read` counts the `n` bytes that have been stored, if there is one yet.  The answer -1 counts
none. -/
def Counted (n : Nat) (res : Option Int) : Prop :=
  res = none ∨ res = some n ∨ n = 0 ∧ res = some (-1)

section
variable {c : ConsoleInterface} {dst : Nat → Bool} {target : Int} {o : Nat} {ch : UInt8}
  {u : List UInt8}

theorem reachWritable_cons (hlt : o < target) (hd : ch ≠ C 'D') :
    ReachWritable dst target o (ch :: u) ↔
      dst o = true ∧ (ch = newline ∨ ReachWritable dst target (o + 1) u) := by
  have hidx : ∀ i, o + 1 + i = o + (i + 1) := fun i => by omega
  constructor
  · intro h
    refine ⟨h 0 (Nat.succ_pos _) (by simpa using hlt) (by simpa using hd.symm) (by simp), ?_⟩
    by_cases hn : ch = newline
    · exact .inl hn
    · refine .inr fun i hi hin hnd hnn => ?_
      rw [hidx]
      refine h (i + 1) (Nat.succ_lt_succ hi) (by push_cast at *; omega) ?_ ?_
      · rw [List.take_succ_cons, List.mem_cons]
        exact fun hc => hc.elim (fun he => hd he.symm) hnd
      · rw [List.take_succ_cons, List.mem_cons]
        exact fun hc => hc.elim (fun he => hn he.symm) hnn
  · rintro ⟨h0, hrest⟩ i hi hin hnd hnn
    rcases i with _ | i
    · exact h0
    · rw [List.take_succ_cons, List.mem_cons, not_or] at hnd hnn
      rcases hrest with hn | hrest
      · exact absurd hn.symm hnn.1
      · rw [← hidx]
        exact hrest i (Nat.lt_of_succ_lt_succ hi) (by push_cast at *; omega) hnd.2 hnn.2

theorem unread_pop (hne : c.r ≠ c.w) :
    c.unread = c.buf (c.r.toNat % INPUT_BUF_SIZE) :: ({ c with r := c.r + 1 } : ConsoleInterface).unread := by
  have hne' : c.r.toNat ≠ c.w.toNat := fun h => hne (UInt32.toNat_inj.1 h)
  rw [unread, Ring.contents_pop (by decide) c.r.toNat_lt c.w.toNat_lt hne', unread, toNat_succ]

theorem unread_nil (heq : c.r = c.w) : c.unread = [] := by
  have hcount : Ring.count (2 ^ 32) c.r.toNat c.w.toNat = 0 :=
    (Ring.count_eq_zero c.r.toNat_lt c.w.toNat_lt).2 (congrArg UInt32.toNat heq)
  rw [unread, Ring.contents, hcount]
  rfl

/-- **The loop of `console_interface::read`.** -/
theorem readFrom_removed {killed : Bool} {fuel : Nat} {out : List UInt8}
    (hfuel : target.toNat ≤ out.length + fuel) :
    ∀ {c' out' res}, c.readFrom killed dst target fuel out = (c', out', res) →
      ∃ new, out' = out ++ new ∧
        (Removed c new c' ↔ ReachWritable dst target out.length c.unread) := by
  have hnothing : ∀ {c : ConsoleInterface}, Removed c [] c :=
    ⟨[], .inl rfl, by rw [List.append_nil, List.nil_append]⟩
  induction fuel generalizing c out with
  | zero =>
    rintro c' out' res ⟨⟩
    exact ⟨[], (List.append_nil _).symm, iff_of_true hnothing fun i hi hin => absurd hin (by omega)⟩
  | succ fuel ih =>
    intro c' out' res hread
    rw [ConsoleInterface.readFrom] at hread
    split at hread
    · next hlt =>
      split at hread
      · next hempty =>
        cases hread
        refine ⟨[], (List.append_nil _).symm, iff_of_true hnothing fun i hi => ?_⟩
        rw [unread_nil hempty] at hi
        exact absurd hi (Nat.not_lt_zero i)
      · next hne =>
        have hpop := unread_pop hne
        generalize c.buf (c.r.toNat % INPUT_BUF_SIZE) = ch at hread hpop
        dsimp only at hread
        split at hread
        · next heof =>
          cases hread
          refine ⟨[], (List.append_nil _).symm, iff_of_true ?_ fun i hi _ hnd => ?_⟩
          · split
            · have hback : c.r + 1 - 1 = c.r := by rw [UInt32.add_sub_cancel]
              rw [hback]
              exact hnothing
            · exact ⟨[C 'D'], .inr rfl, by rw [hpop, heof, List.nil_append, List.singleton_append]⟩
          · rw [hpop, heof, List.take_succ_cons] at hnd
            exact absurd (List.mem_cons_self ..) hnd
        next hd =>
        rw [hpop, reachWritable_cons hlt hd]
        split at hread
        · next hfault =>
          -- the character is lost
          cases hread
          refine ⟨[], (List.append_nil _).symm, iff_of_false ?_ fun h => ?_⟩
          · rintro ⟨eof, rfl | rfl, heq⟩
            · rw [hpop, List.append_nil, List.nil_append] at heq
              exact absurd heq (List.cons_ne_self _ _)
            · rw [hpop, List.nil_append, List.singleton_append] at heq
              exact hd (List.cons.inj heq).1
          · rw [h.1] at hfault
            cases hfault
        next hdst =>
        have hdst' : dst out.length = true := by simpa using hdst
        split at hread
        · next hnl =>
          cases hread
          exact ⟨[ch], rfl, iff_of_true ⟨[], .inl rfl, by rw [hpop, List.append_nil, List.singleton_append]⟩
            ⟨hdst', .inl hnl⟩⟩
        · next hnl =>
          obtain ⟨new, hout, hiff⟩ := ih (by rw [List.length_append, List.length_singleton]; omega) hread
          rw [List.length_append, List.length_singleton] at hiff
          refine ⟨ch :: new, by rw [hout, List.append_assoc, List.singleton_append], ?_⟩
          rw [and_iff_right hdst', or_iff_right hnl, ← hiff, Removed, Removed, hpop]
          simp only [List.cons_append, List.cons_inj_right]
    · next hge =>
      cases hread
      exact ⟨[], (List.append_nil _).symm, iff_of_true hnothing fun i hi hin => absurd hin (by omega)⟩

theorem waits_cons (hd : ch ≠ C 'D') (hn : ch ≠ newline) :
    Waits target o (ch :: u) ↔ Waits target (o + 1) u := by
  rw [Waits, Waits, List.mem_cons, List.mem_cons, or_iff_right hd.symm, or_iff_right hn.symm, List.length_cons]
  refine and_congr_left fun _ => ?_
  push_cast
  omega

/-- What the loop answers, if no copy fails. -/
theorem readFrom_answer {killed : Bool} {fuel : Nat} {out : List UInt8}
    (hfuel : target.toNat ≤ out.length + fuel) (hdst : ReachWritable dst target out.length c.unread) :
    ∀ {c' out' res}, c.readFrom killed dst target fuel out = (c', out', res) →
      (Waits target out.length c.unread →
        out' = out ++ c.unread ∧ res = if killed then some (-1) else none) ∧
      (¬Waits target out.length c.unread → res = some out'.length) := by
  induction fuel generalizing c out with
  | zero =>
    rintro c' out' res ⟨⟩
    exact ⟨fun h => absurd h.1 (by omega), fun _ => rfl⟩
  | succ fuel ih =>
    intro c' out' res hread
    rw [ConsoleInterface.readFrom] at hread
    split at hread
    · next hlt =>
      split at hread
      · next hempty =>
        cases hread
        rw [unread_nil hempty]
        refine ⟨fun _ => ⟨(List.append_nil _).symm, rfl⟩, fun h => absurd ⟨?_, by simp, by simp⟩ h⟩
        simpa using hlt
      · next hne =>
        have hpop := unread_pop hne
        generalize c.buf (c.r.toNat % INPUT_BUF_SIZE) = ch at hread hpop
        dsimp only at hread
        split at hread
        · next heof =>
          cases hread
          refine ⟨fun h => absurd (List.mem_cons_self ..) (heof ▸ hpop ▸ h.2.1), fun _ => rfl⟩
        next hd =>
        rw [hpop] at hdst
        obtain ⟨hdst, hrest⟩ := (reachWritable_cons hlt hd).1 hdst
        split at hread
        · next hfault => exact absurd (hdst.symm.trans hfault) (by decide)
        split at hread
        · next hnl =>
          cases hread
          exact ⟨fun h => absurd (List.mem_cons_self ..) (hnl ▸ hpop ▸ h.2.2), fun _ => rfl⟩
        · next hnl =>
          have hlen : (out ++ [ch]).length = out.length + 1 := by
            rw [List.length_append, List.length_singleton]
          obtain ⟨hwaits, hdone⟩ := ih (by rw [hlen]; omega) (hlen ▸ hrest.resolve_left hnl) hread
          rw [hlen, ← waits_cons hd hnl, ← hpop] at hwaits hdone
          refine ⟨fun h => ?_, hdone⟩
          obtain ⟨hout, hres⟩ := hwaits h
          refine ⟨?_, hres⟩
          rw [hout, hpop, List.append_assoc, List.singleton_append]
    · next hge =>
      cases hread
      exact ⟨fun h => absurd h.1 (by omega), fun _ => rfl⟩

/-- **A stretch of `console_interface::read`** takes out exactly the bytes that it stores, and counts them, unless
a byte in its reach cannot be stored, or the process was killed and it would wait with bytes stored. -/
theorem read_counted (c : ConsoleInterface) (killed : Bool) (dst : Nat → Bool) (target : Int) (out : List UInt8) :
    ∃ c' new res, c.read killed dst target out = (c', out ++ new, res) ∧
      (c.Removed new c' ∧ Counted (out ++ new).length res ↔
        ReachWritable dst target out.length c.unread ∧
          ¬(killed = true ∧ Waits target out.length c.unread ∧ out ++ c.unread ≠ [])) := by
  obtain ⟨c', out', res, hread⟩ : ∃ c' out' res, c.read killed dst target out = (c', out', res) :=
    ⟨_, _, _, rfl⟩
  obtain ⟨new, rfl, hiff⟩ := readFrom_removed (by omega) hread
  refine ⟨c', new, res, hread, ?_⟩
  rw [hiff]
  refine and_congr_right fun hdst => ?_
  obtain ⟨hwaits, hdone⟩ := readFrom_answer (by omega) hdst hread
  by_cases hw : Waits target out.length c.unread
  · obtain ⟨hout, hres⟩ := hwaits hw
    rw [hout, hres]
    cases killed with
    | false => exact iff_of_true (.inl rfl) fun h => absurd h.1 (by decide)
    | true =>
      constructor
      · rintro (h | h | ⟨h, -⟩) ⟨-, -, hne⟩
        · cases h
        · have := Option.some.inj h
          omega
        · exact hne (List.eq_nil_of_length_eq_zero h)
      · intro h
        have hnil : out ++ c.unread = [] := by
          by_contra hne
          exact h ⟨rfl, hw, hne⟩
        exact .inr (.inr ⟨by rw [hnil]; rfl, rfl⟩)
  · rw [hdone hw]
    exact iff_of_true (.inr (.inl rfl)) fun h => hw h.2.1

end

end ConsoleInterface

/-! ## Main result -/

/-- **A faulting read loses a byte.**  `pipe::read` takes out of the pipe exactly the bytes that it
copies and counts, if and only if all of the caller's buffer that the bytes in the pipe reach can be
written.  Each stretch of `console_interface::read` does so, apart from an end-of-file, if and only if this
holds of it and the process was not killed, if the read would have to wait with bytes stored. -/
theorem faulting_read {ι : Type} [DecidableEq ι] (s : PipeUsers ι) (p : ι) (n : Int)
    (c : ConsoleInterface) (killed : Bool) (target : Int) (out : List UInt8) (dst : Nat → Bool) :
    (∃ k s' bytes, Machine.Run PipeUsers.step (s.goto p (.readCopy n dst []))
        (List.replicate k (.step p)) s' ∧
      s'.reads = s.reads ++ [⟨n, bytes, bytes.length, s'.pipe⟩] ∧
      (s.pipe.contents = bytes ++ s'.pipe.contents ↔
        ∀ i < s.pipe.contents.length, i < n → dst i = true)) ∧
    ∃ c' new res, c.read killed dst target out = (c', out ++ new, res) ∧
      (c.Removed new c' ∧ ConsoleInterface.Counted (out ++ new).length res ↔
        ConsoleInterface.ReachWritable dst target out.length c.unread ∧
          ¬(killed = true ∧ ConsoleInterface.Waits target out.length c.unread ∧ out ++ c.unread ≠ [])) := by
  refine ⟨?_, c.read_counted killed dst target out⟩
  have hpc : (s.goto p (.readCopy n dst [])).pc p = .inside (.readCopy n dst []) :=
    Function.update_self ..
  obtain ⟨k, s', bytes, hrun, hreads, hiff⟩ := PipeUsers.run_readCopy hpc rfl
  have hpipe : (s.goto p (.readCopy n dst [])).pipe = s.pipe := rfl
  simp only [hpipe, List.length_nil, Int.ofNat_zero, Int.zero_add, Nat.zero_add] at hiff
  exact ⟨k, s', bytes, hrun, hreads, hiff⟩

/-- One byte in a pipe, and one character on the console, are gone after reads that copy nothing; and a read that
copies a character answers -1 to a killed process. -/
theorem faulting_read_loses :
    (∃ s s' : PipeUsers Unit, s.pipe.contents = [97] ∧
      Machine.Run PipeUsers.step (s.goto () (.readCopy 1 (fun _ => false) [])) [.step ()] s' ∧
      s'.reads.map ReadRecord.result = [0] ∧ s'.pipe.contents = []) ∧
    (∃ c c' : ConsoleInterface, c.unread = [97] ∧
      c.read false (fun _ => false) 1 [] = (c', [], some 0) ∧ c'.unread = []) ∧
    ∃ c c' : ConsoleInterface, c.unread = [97] ∧
      c.read true (fun _ => true) 2 [] = (c', [97], some (-1)) ∧ c'.unread = [] := by
  refine ⟨⟨{ PipeUsers.init (fun _ => 0) with pipe := (Pipe.opened fun _ => 0).put 97 }, _, rfl,
    Machine.run_of_exec rfl, rfl, rfl⟩, ⟨⟨fun _ => 97, 127, 128, 128⟩, ⟨fun _ => 97, 128, 128, 128⟩, rfl, rfl, rfl⟩,
    ⟨⟨fun _ => 97, 127, 128, 128⟩, ⟨fun _ => 97, 128, 128, 128⟩, rfl, rfl, rfl⟩⟩

end Xv6pp
