import Xv6pp.File.PipeUsers
import Mathlib.Order.Nat

/-!
# A pipe is a reliable queue

The writers' books say that the bytes accepted from a call are the first bytes of its buffer, and the
readers' books that the bytes they got, followed by those in the buffer, are all the accepted bytes.
-/

set_option autoImplicit false

namespace Xv6pp

namespace PipeUsers

variable {ι : Type} {s s' : PipeUsers ι} {p q : ι}

/-! ## The books of the writers -/

/-- The bytes of its buffer that a process has got into the pipe in its present call. -/
def sent : PipePc → List (Option UInt8)
  | .acquire (.writeTest _ src i) | .inside (.writeTest _ src i)
  | .acquire (.writeBody _ src i) | .inside (.writeBody _ src i) => (List.range i).map src
  | _ => []

section

variable [DecidableEq ι]

/-- The bytes that one call put into the buffer. -/
def byCall (accepted : List (Accepted ι)) (p : ι) (k : Nat) : List (Option UInt8) :=
  (accepted.filter fun a => a.caller = p ∧ a.call = k).map fun a => some a.byte

/-- The accepted bytes are those the writers sent, call by call. -/
structure Sent (s : PipeUsers ι) : Prop where
  /-- The call a process is in. -/
  now : ∀ p, byCall s.accepted p (s.calls p) = sent (s.pc p)
  /-- Nobody has bytes of a call it has not made. -/
  calls : ∀ a ∈ s.accepted, a.call ≤ s.calls a.caller
  /-- The finished writes. -/
  writes : ∀ w ∈ s.writes, w.call < s.calls w.caller ∧ (0 ≤ w.result →
    byCall s.accepted w.caller w.call = (List.range w.result.toNat).map w.src)

namespace Sent

theorem init (data : Nat → UInt8) : Sent (init data : PipeUsers ι) where
  now := fun _ => rfl
  calls := by intro a h; cases h
  writes := by intro w h; cases h

/-- A process moves within its call. -/
theorem move (h : Sent s) {pc : PipePc} (hpc : s'.pc = Function.update s.pc p pc)
    (hsent : sent pc = sent (s.pc p)) (haccepted : s'.accepted = s.accepted)
    (hcalls : s'.calls = s.calls) (hwrites : s'.writes = s.writes) : Sent s' where
  now := by
    intro q
    rw [haccepted, hcalls, hpc, h.now q]
    by_cases hqp : q = p
    · subst hqp
      rw [Function.update_self, hsent]
    · rw [Function.update_of_ne hqp]
  calls := by
    rw [haccepted, hcalls]
    exact h.calls
  writes := by
    rw [haccepted, hcalls, hwrites]
    exact h.writes

/-- A call ends. -/
theorem leave (h : Sent s) (hpc : s'.pc = Function.update s.pc p .user)
    (haccepted : s'.accepted = s.accepted)
    (hcalls : s'.calls = Function.update s.calls p (s.calls p + 1)) {ws : List (WriteRecord ι)}
    (hwrites : s'.writes = s.writes ++ ws)
    (hws : ∀ w ∈ ws, w.caller = p ∧ w.call = s.calls p ∧
      (0 ≤ w.result → sent (s.pc p) = (List.range w.result.toNat).map w.src)) : Sent s' := by
  have hmono : ∀ q, s.calls q ≤ s'.calls q := by
    intro q
    rw [hcalls]
    by_cases hqp : q = p
    · subst hqp
      rw [Function.update_self]
      exact Nat.le_succ _
    · rw [Function.update_of_ne hqp]
  refine ⟨fun q => ?_, fun a ha => ?_, fun w hw => ?_⟩
  · rw [haccepted, hcalls, hpc]
    by_cases hqp : q = p
    · subst hqp
      rw [Function.update_self, Function.update_self, byCall, List.filter_eq_nil_iff.2]
      · rfl
      · rintro a ha hmatch
        have hle := h.calls a ha
        obtain ⟨rfl, hcall⟩ := of_decide_eq_true hmatch
        omega
    · rw [Function.update_of_ne hqp, Function.update_of_ne hqp, h.now q]
  · rw [haccepted] at ha
    exact (h.calls a ha).trans (hmono _)
  · rw [haccepted]
    rw [hwrites, List.mem_append] at hw
    rcases hw with hw | hw
    · obtain ⟨hlt, hbytes⟩ := h.writes w hw
      exact ⟨hlt.trans_le (hmono _), hbytes⟩
    · obtain ⟨rfl, hcall, hbytes⟩ := hws w hw
      refine ⟨?_, fun hr => ?_⟩
      · rw [hcalls, Function.update_self, hcall]
        exact Nat.lt_succ_self _
      · rw [hcall, h.now, hbytes hr]

/-- A byte is accepted. -/
theorem store (h : Sent s) {n : Int} {src : Nat → Option UInt8} {i : Nat} {ch : UInt8}
    (hp : s.pc p = .inside (.writeBody n src i)) (hch : src i = some ch)
    (hpc : s'.pc = Function.update s.pc p (.inside (.writeTest n src (i + 1))))
    (haccepted : s'.accepted = s.accepted ++ [⟨p, s.calls p, ch⟩])
    (hcalls : s'.calls = s.calls) (hwrites : s'.writes = s.writes) : Sent s' := by
  have hother : ∀ q k, (q, k) ≠ (p, s.calls p) →
      byCall s'.accepted q k = byCall s.accepted q k := by
    intro q k hne
    have hno : ¬ (p = q ∧ s.calls p = k) := by
      rintro ⟨rfl, rfl⟩
      exact hne rfl
    rw [haccepted, byCall, byCall, List.filter_append, List.map_append]
    simp [hno]
  refine ⟨fun q => ?_, fun a ha => ?_, fun w hw => ?_⟩
  · rw [hcalls, hpc]
    by_cases hqp : q = p
    · subst hqp
      have hnow := h.now q
      rw [hp] at hnow
      rw [Function.update_self, haccepted, byCall, List.filter_append, List.map_append]
      rw [byCall] at hnow
      rw [hnow]
      simp [sent, List.range_succ, hch]
    · rw [Function.update_of_ne hqp, hother q _ (by simp [hqp]), h.now q]
  · rw [hcalls]
    rw [haccepted, List.mem_append, List.mem_singleton] at ha
    rcases ha with ha | rfl
    · exact h.calls a ha
    · exact Nat.le_refl _
  · rw [hwrites] at hw
    obtain ⟨hlt, hbytes⟩ := h.writes w hw
    rw [hcalls, hother]
    · exact ⟨hlt, hbytes⟩
    · intro heq
      obtain ⟨rfl, hcall⟩ := Prod.mk.inj heq
      omega

theorem advance (h : Sent s) {st : PipeStage} (hp : s.pc p = .inside st) :
    Sent (s.advance p st) := by
  have hleave : ∀ s' : PipeUsers ι, s'.pc = Function.update s.pc p .user →
      s'.accepted = s.accepted → s'.calls = Function.update s.calls p (s.calls p + 1) →
      s'.writes = s.writes → Sent s' := fun s' hpc ha hc hw =>
    h.leave hpc ha hc (hw.trans (List.append_nil _).symm) (by simp)
  cases st with
  | readTest n dst =>
    rw [PipeUsers.advance]
    split
    · split
      · exact hleave _ rfl rfl rfl rfl
      · exact h.move rfl (by rw [hp]; rfl) rfl rfl rfl
    · exact h.move rfl (by rw [hp]; rfl) rfl rfl rfl
  | readSleep n dst => exact h.move rfl (by rw [hp]; rfl) rfl rfl rfl
  | readCopy n dst out =>
    rw [PipeUsers.advance]
    split
    · dsimp only
      split
      · exact h.move rfl (by rw [hp]; rfl) rfl rfl rfl
      · exact hleave _ rfl rfl rfl rfl
    · exact hleave _ rfl rfl rfl rfl
  | writeTest n src i =>
    rw [PipeUsers.advance]
    split
    · split
      · exact h.leave rfl rfl rfl rfl (by simp)
      · exact h.move rfl (by rw [hp]; rfl) rfl rfl rfl
    · exact h.leave rfl rfl rfl rfl (by simp [wakeup, hp, sent])
  | writeBody n src i =>
    rw [PipeUsers.advance]
    split
    · exact h.move rfl (by rw [hp]; rfl) rfl rfl rfl
    · split
      · exact h.leave rfl rfl rfl rfl (by simp [wakeup, hp, sent])
      · next ch hch => exact h.store hp hch rfl rfl rfl rfl
  | close writable =>
    rw [PipeUsers.advance]
    split
    · exact hleave _ rfl rfl rfl rfl
    · exact hleave _ rfl rfl rfl rfl

theorem step (h : Sent s) {a : PipeAct ι} (ha : step s a = some (.ok s')) : Sent s' := by
  rcases step_cases ha with ⟨p, st, hst, hp, rfl⟩ | ⟨p, st, -, hp, -, -, rfl⟩ |
    ⟨p, st, rfl, hp, rfl⟩ | ⟨p, -, rfl⟩
  · refine h.move rfl ?_ rfl rfl rfl
    rw [hp]
    cases a <;> cases hst <;> rfl
  · refine h.move rfl ?_ rfl rfl rfl
    rw [hp]
    cases st <;> rfl
  · exact h.advance hp
  · exact ⟨h.now, h.calls, h.writes⟩

end Sent

end

/-! ## The books of the readers -/

/-- The bytes a reader inside has copied to its caller. -/
def copied : PipePc → List UInt8
  | .inside (.readCopy _ _ out) => out
  | _ => []

/-- The bytes copied by a read that has not returned yet. -/
def inFlight (s : PipeUsers ι) : List UInt8 :=
  match s.lock with
  | none => []
  | some p => copied (s.pc p)

/-- The bytes returned by reads. -/
def returned (s : PipeUsers ι) : List UInt8 := s.reads.flatMap ReadRecord.bytes

/-- The buffer of this stage's `read` is mapped. -/
def DstMapped : PipeStage → Prop
  | .readTest n dst | .readSleep n dst | .readCopy n dst _ => ∀ i : Nat, i < n → dst i = true
  | _ => True

/-- What a finished `read` tells its caller. -/
def Honest (r : ReadRecord) : Prop :=
  (r.result = r.bytes.length ∨ r.result = -1 ∧ r.bytes = []) ∧
    (0 < r.n → r.result = 0 → r.pipe.nread = r.pipe.nwrite ∧ r.pipe.writeopen = false)

/-- The bytes that went through the pipe are those the readers got and those in the buffer. -/
structure Queue (s : PipeUsers ι) : Prop where
  /-- The buffer is never overrun. -/
  bound : s.pipe.count ≤ PIPESIZE
  /-- First in, first out. -/
  books : s.returned ++ s.inFlight ++ s.pipe.contents = s.accepted.map Accepted.byte
  /-- A reader that starts on an empty pipe does so because the write end is closed. -/
  copy : ∀ p n dst, s.pc p = .inside (.readCopy n dst []) → s.pipe.empty = true →
    s.pipe.writeopen = false
  /-- The readers' buffers are mapped. -/
  mapped : ∀ p st, s.pc p = .acquire st ∨ s.pc p = .inside st → DstMapped st
  /-- The finished reads. -/
  reads : ∀ r ∈ s.reads, Honest r

theorem returned_append {r : ReadRecord} (h : s'.reads = s.reads ++ [r]) :
    s'.returned = s.returned ++ r.bytes := by
  rw [returned, returned, h, List.flatMap_append, List.flatMap_singleton]

theorem inFlight_none (h : s.lock = none) : s.inFlight = [] := by rw [inFlight, h]

theorem inFlight_some {pc : PipePc} (h : s.lock = some p) (hp : s.pc p = pc) :
    s.inFlight = copied pc := by
  rw [inFlight, h, ← hp]

theorem inFlight_goto [DecidableEq ι] {st : PipeStage} (h : s.lock = some p) :
    (s.goto p st).inFlight = copied (.inside st) :=
  inFlight_some h (Function.update_self ..)

theorem inFlight_call [DecidableEq ι] {st : PipeStage} (hp : s.pc p = .user) :
    ({ s with pc := Function.update s.pc p (.acquire st) } : PipeUsers ι).inFlight =
      s.inFlight := by
  have hcopied : ∀ q, copied (Function.update s.pc p (.acquire st) q) = copied (s.pc q) := by
    intro q
    by_cases hqp : q = p
    · subst hqp
      rw [Function.update_self, hp]
      rfl
    · rw [Function.update_of_ne hqp]
  simp only [inFlight, hcopied]

theorem returned_congr (h : s'.reads = s.reads) : s'.returned = s.returned := by
  rw [returned, returned, h]

namespace Queue

theorem init (data : Nat → UInt8) : Queue (init data : PipeUsers ι) where
  bound := by
    have hcount : (Pipe.opened data).count = 0 := Pipe.count_eq_zero.2 Pipe.empty_opened
    show (Pipe.opened data).count ≤ PIPESIZE
    rw [hcount]
    exact Nat.zero_le _
  books := by
    show [] ++ [] ++ (Pipe.opened data).contents = []
    rw [Pipe.contents_empty Pipe.empty_opened]
    rfl
  copy := by intro p n dst h; cases h
  mapped := by rintro p st (h | h) <;> cases h
  reads := by intro r h; cases h

variable [DecidableEq ι]

/-- The process inside moves. -/
theorem move (h : Queue s) {pc : PipePc} (hpc : s'.pc = Function.update s.pc p pc)
    (hin : ∀ q ≠ p, ∀ st, s.pc q ≠ .inside st) (hbound : s'.pipe.count ≤ PIPESIZE)
    (hbooks : s'.returned ++ s'.inFlight ++ s'.pipe.contents = s'.accepted.map Accepted.byte)
    (hcopy : ∀ n dst, pc = .inside (.readCopy n dst []) → s'.pipe.empty = true →
      s'.pipe.writeopen = false)
    (hmapped : ∀ st, pc = .acquire st ∨ pc = .inside st → DstMapped st)
    (hreads : ∀ r ∈ s'.reads, Honest r) : Queue s' := by
  refine ⟨hbound, hbooks, fun q n dst hq => ?_, fun q st hq => ?_, hreads⟩
  · rw [hpc] at hq
    by_cases hqp : q = p
    · subst hqp
      rw [Function.update_self] at hq
      exact hcopy n dst hq
    · rw [Function.update_of_ne hqp] at hq
      exact absurd hq (hin q hqp _)
  · rw [hpc] at hq
    by_cases hqp : q = p
    · subst hqp
      rw [Function.update_self] at hq
      exact hmapped st hq
    · rw [Function.update_of_ne hqp] at hq
      exact h.mapped q st hq

theorem advance (h : Queue s) (hc : Control s) {st : PipeStage} (hp : s.pc p = .inside st) :
    Queue (s.advance p st) := by
  have hin : ∀ q ≠ p, ∀ st, s.pc q ≠ .inside st := fun q hq st' hst' => hq (hc.unique hp hst')
  have hmapped := h.mapped p st (.inr hp)
  have hbooks := h.books
  have hlock := hc.lock p st hp
  rw [inFlight_some hlock hp] at hbooks
  -- the two ways to move on without touching the bytes
  have hstay : ∀ st', copied (.inside st') = copied (.inside st) →
      (s.goto p st').returned ++ (s.goto p st').inFlight ++ s.pipe.contents =
        s.accepted.map Accepted.byte := by
    intro st' hcopied
    rw [returned_congr rfl, inFlight_goto hlock, hcopied]
    exact hbooks
  have hleave : ∀ s' : PipeUsers ι, copied (.inside st) = [] → s'.lock = none →
      s'.reads = s.reads → s'.pipe.contents = s.pipe.contents → s'.accepted = s.accepted →
      s'.returned ++ s'.inFlight ++ s'.pipe.contents = s'.accepted.map Accepted.byte := by
    intro s' hcopied hfree hreads hcontents haccepted
    rw [returned_congr hreads, inFlight_none hfree, hcontents, haccepted, ← hbooks, hcopied]
  have hread : ∀ r, Honest r → ∀ r' ∈ s.reads ++ [r], Honest r' := by
    intro r hr r' hr'
    rw [List.mem_append, List.mem_singleton] at hr'
    rcases hr' with hr' | rfl
    · exact h.reads r' hr'
    · exact hr
  cases st with
  | readTest n dst =>
    rw [PipeUsers.advance]
    split
    · split
      · refine h.move rfl hin h.bound ?_ (by simp) (by simp) (hread _ ⟨.inr ⟨rfl, rfl⟩, (by rintro _ ⟨⟩)⟩)
        rw [returned_append rfl, inFlight_none rfl, List.append_nil]
        exact hbooks
      · exact h.move rfl hin h.bound (hstay _ rfl) (by simp) (by simpa [DstMapped] using hmapped)
          h.reads
    · next hgo =>
      refine h.move rfl hin h.bound (hstay _ rfl) ?_ (by simpa [DstMapped] using hmapped) h.reads
      intro n dst _ hempty
      cases hopen : s.pipe.writeopen
      · exact hopen
      · exact absurd ⟨hempty, hopen⟩ hgo
  | readSleep n dst =>
    exact h.move rfl hin h.bound (hleave _ rfl rfl rfl rfl rfl) (by simp)
      (by simpa [DstMapped] using hmapped) h.reads
  | readCopy n dst out =>
    rw [PipeUsers.advance]
    split
    · next hbyte =>
      dsimp only
      rw [if_pos (hmapped _ hbyte.1)]
      refine h.move rfl hin ?_ ?_ (by simp) (by simpa [DstMapped] using hmapped) h.reads
      · have hcount := Pipe.count_get hbyte.2
        have hbound := h.bound
        show s.pipe.get.2.count ≤ PIPESIZE
        omega
      · rw [returned_congr rfl, inFlight_goto]
        · show s.returned ++ (out ++ [s.pipe.get.1]) ++ s.pipe.get.2.contents =
            s.accepted.map Accepted.byte
          rw [← hbooks, Pipe.contents_get hbyte.2]
          simp [copied]
        · exact hlock
    · next hend =>
      refine h.move rfl hin h.bound ?_ (by simp) (by simp) (hread _ ⟨.inl rfl, ?_⟩)
      · rw [returned_append rfl, inFlight_none rfl, List.append_nil]
        exact hbooks
      · intro hn hzero
        have hout : out = [] := by simpa using hzero
        subst hout
        have hempty : s.pipe.empty = true := by
          cases he : s.pipe.empty
          · exact absurd ⟨hn, he⟩ hend
          · rfl
        exact ⟨Pipe.empty_iff.1 hempty, h.copy p n dst hp hempty⟩
  | writeTest n src i =>
    rw [PipeUsers.advance]
    split
    · split
      · exact h.move rfl hin h.bound (hleave _ rfl rfl rfl rfl rfl) (by simp) (by simp) h.reads
      · exact h.move rfl hin h.bound (hstay _ rfl) (by simp) (by simp [DstMapped]) h.reads
    · exact h.move rfl hin h.bound (hleave _ rfl rfl rfl rfl rfl) (by simp) (by simp) h.reads
  | writeBody n src i =>
    rw [PipeUsers.advance]
    split
    · exact h.move rfl hin h.bound (hleave _ rfl rfl rfl rfl rfl) (by simp) (by simp [DstMapped])
        h.reads
    · next hfull =>
      split
      · exact h.move rfl hin h.bound (hleave _ rfl rfl rfl rfl rfl) (by simp) (by simp) h.reads
      · next ch _ =>
        have hroom : s.pipe.count < PIPESIZE :=
          lt_of_le_of_ne h.bound fun heq => hfull (Pipe.full_iff.2 heq)
        refine h.move rfl hin ?_ ?_ (by simp) (by simp [DstMapped]) h.reads
        · show (s.pipe.put ch).count ≤ PIPESIZE
          rw [Pipe.count_put hroom]
          exact hroom
        · rw [returned_congr rfl, inFlight_goto]
          · show s.returned ++ [] ++ (s.pipe.put ch).contents =
              (s.accepted ++ [Accepted.mk p (s.calls p) ch]).map Accepted.byte
            rw [Pipe.contents_put hroom, List.map_append, ← hbooks, ← List.append_assoc]
            rfl
          · exact hlock
  | close writable =>
    rw [PipeUsers.advance]
    split
    · exact h.move rfl hin h.bound (hleave _ rfl rfl rfl rfl rfl) (by simp) (by simp) h.reads
    · exact h.move rfl hin h.bound (hleave _ rfl rfl rfl rfl rfl) (by simp) (by simp) h.reads

theorem step (h : Queue s) (hc : Control s) {a : PipeAct ι} (ha : step s a = some (.ok s'))
    (hdst : ∀ p st, starts a = some (p, st) → DstMapped st) : Queue s' := by
  rcases step_cases ha with ⟨p, st, hst, hp, rfl⟩ | ⟨p, st, -, hp, hlock, -, rfl⟩ |
    ⟨p, st, rfl, hp, rfl⟩ | ⟨p, -, rfl⟩
  · refine ⟨h.bound, ?_, fun q n dst hq => h.copy q n dst (inside_of_update (by simp) hq), ?_,
      h.reads⟩
    · rw [returned_congr rfl, inFlight_call hp]
      exact h.books
    · intro q st' hq
      by_cases hqp : q = p
      · subst hqp
        obtain rfl : st = st' := by simpa using hq
        exact hdst q st hst
      · refine h.mapped q st' ?_
        simpa only [Function.update_of_ne hqp] using hq
  · have hin : ∀ q ≠ p, ∀ st', s.pc q ≠ .inside st' := by
      intro q _ st' hq
      have := hc.lock q st' hq
      rw [hlock] at this
      cases this
    have hentry := hc.entry p st hp
    refine h.move rfl hin h.bound ?_ ?_ ?_ h.reads
    · rw [returned_congr rfl, inFlight_some rfl (Function.update_self ..)]
      have hnone : copied (.inside st) = [] := by
        cases st <;> first | rfl | cases hentry
      rw [hnone, ← h.books, inFlight_none hlock]
      rfl
    · rintro n dst ⟨⟩
      cases hentry
    · rintro st' (⟨⟨⟩⟩ | ⟨⟨⟩⟩)
      exact h.mapped p st (.inl hp)
  · exact h.advance hc hp
  · exact ⟨h.bound, h.books, h.copy, h.mapped, h.reads⟩

end Queue

/-- Are the user buffers of the reads mapped?  Those of the writes need not be. -/
def mapped : PipeUsers ι → PipeAct ι → Bool
  | _, .read _ n dst => (List.range n.toNat).all dst
  | _, _ => true

theorem dstMapped_of_mapped {a : PipeAct ι} (h : mapped s a = true) {st : PipeStage}
    (hst : starts a = some (p, st)) : DstMapped st := by
  cases a with
  | read p n dst =>
    cases hst
    intro i hi
    refine List.all_eq_true.1 h i (List.mem_range.2 ?_)
    omega
  | write p n src => cases hst; trivial
  | close p writable => cases hst; trivial
  | acquire p | step p | kill p => cases hst

end PipeUsers

open PipeUsers

/-- **A pipe is a reliable queue.**  In every run whose readers' buffers are mapped, the bytes
returned by the reads, with those a read inside has already copied, followed by those in the buffer
are the bytes accepted from the writes; a write that returns `r ≥ 0` had the first `r` bytes of its
buffer accepted in order; and a read of `n > 0` bytes that returns `0` found the pipe empty and its
write end closed. -/
theorem pipe_fifo {ι : Type} [DecidableEq ι] {data : Nat → UInt8} {as : List (PipeAct ι)}
    {s : PipeUsers ι}
    (h : Machine.Run (Machine.restrict mapped PipeUsers.step) (PipeUsers.init data) as s) :
    (s.pipe.nwrite - s.pipe.nread).toNat ≤ PIPESIZE ∧
    s.returned ++ s.inFlight ++ s.pipe.contents = s.accepted.map Accepted.byte ∧
    (s.lock = none → s.inFlight = []) ∧
    (∀ w ∈ s.writes, 0 ≤ w.result →
      byCall s.accepted w.caller w.call = (List.range w.result.toNat).map w.src) ∧
    (∀ r ∈ s.reads, r.result = r.bytes.length ∨ r.result = -1 ∧ r.bytes = []) ∧
    ∀ r ∈ s.reads, 0 < r.n → r.result = 0 →
      r.pipe.nread = r.pipe.nwrite ∧ r.pipe.writeopen = false := by
  have hinv : Control s ∧ Sent s ∧ Queue s := by
    refine h.invariant (P := fun s => Control s ∧ Sent s ∧ Queue s)
      ⟨control_init data, Sent.init data, Queue.init data⟩ ?_
    rintro s a s' ⟨hc, hs, hq⟩ ha
    obtain ⟨hok, ha⟩ := Machine.restrict_eq_some.1 ha
    exact ⟨hc.step ha, hs.step ha, hq.step hc ha fun p st => dstMapped_of_mapped hok⟩
  obtain ⟨-, hs, hq⟩ := hinv
  exact ⟨Pipe.count_eq s.pipe ▸ hq.bound, hq.books, inFlight_none, fun w hw => (hs.writes w hw).2,
    fun r hr => (hq.reads r hr).1, fun r hr => (hq.reads r hr).2⟩

/-- A writer sends two bytes, one of which a reader has taken. -/
theorem pipe_fifo_two : ∃ s : PipeUsers (Fin 2),
    Machine.Run (Machine.restrict mapped PipeUsers.step) (PipeUsers.init fun _ => 0)
      [.write 1 2 fun i => some (.ofNat (i + 7)), .acquire 1, .step 1, .step 1, .step 1, .step 1,
        .step 1, .read 0 1 fun _ => true, .acquire 0, .step 0, .step 0, .step 0] s ∧
    s.returned = [7] ∧ s.pipe.contents = [8] ∧
    s.returned ++ s.inFlight ++ s.pipe.contents = s.accepted.map Accepted.byte := by
  have hrun : ∃ s : PipeUsers (Fin 2),
      Machine.Run (Machine.restrict mapped PipeUsers.step) (PipeUsers.init fun _ => 0)
        [.write 1 2 fun i => some (.ofNat (i + 7)), .acquire 1, .step 1, .step 1, .step 1, .step 1,
          .step 1, .read 0 1 fun _ => true, .acquire 0, .step 0, .step 0, .step 0] s ∧
      s.returned = [7] ∧ s.pipe.contents = [8] := ⟨_, Machine.run_of_exec rfl, rfl, rfl⟩
  obtain ⟨s, hs, hreturned, hcontents⟩ := hrun
  exact ⟨s, hs, hreturned, hcontents, (pipe_fifo hs).2.1⟩

end Xv6pp
