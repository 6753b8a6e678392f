import Xv6pp.Log.Crash
import Xv6pp.Lib.Machine

/-!
# Crashes in a run of many transactions

A run issues the writes of one commit after another.  `Recoverable disk past l s` says that the disk held
`disk` at the beginning of the run and that `past` are the points between its transactions: wherever in the
run the machine stops, recovery leads back to one of these points, and to none that is older than the last
one whose writes had all reached the disk.
-/

set_option autoImplicit false

namespace Xv6pp

open BufM

namespace Log

/-! ## Which fields recovery depends on -/

section
variable {l l' : Log}

/-- Recovery depends on where the log is, and on nothing else that is in memory. -/
theorem issuedBy_recover_congr (h : l'.start = l.start) (d : Nat → Block) :
    issuedBy (recoverFromLog l') d = issuedBy (recoverFromLog l) d := by
  have hinstall : installTrans (l'.reload d) true = installTrans (l.reload d) true := by
    rw [installTrans, installTrans, reload, reload, h]
  have herase : writeHead (l'.reload d).clear = writeHead (l.reload d).clear := by
    rw [writeHead, writeHead]
    show (bread l'.start >>= _) = (bread l.start >>= _)
    rw [reload, reload, h]
    rfl
  have hread : ∀ l : Log, (readHead l).exec ⟨d, []⟩ =
      if LOGSIZE < diskN (d l.start) then .error .outOfBounds else .ok (l.reload d, ⟨d, []⟩) := by
    intro l
    rw [readHead, exec_bind_ok (exec_bread _ _)]
    split <;> rfl
  have hrun : ∀ l : Log, (recoverFromLog l).exec ⟨d, []⟩ =
      if LOGSIZE < diskN (d l.start) then .error .outOfBounds
      else ((installTrans (l.reload d) true >>= fun _ => writeHead (l.reload d).clear).exec
        ⟨d, []⟩).map fun r => ((l.reload d).clear, r.2) := by
    intro l
    rw [recoverFromLog, exec_bind, hread]
    split
    · rfl
    · dsimp only [Except.bind]
      rw [exec_bind, exec_bind]
      cases (installTrans (l.reload d) true).exec ⟨d, []⟩ with
      | error e => rfl
      | ok r =>
        dsimp only [Except.bind]
        rw [exec_bind]
        cases (writeHead (l.reload d).clear).exec r.2 <;> rfl
  rw [issuedBy, issuedBy, hrun, hrun, hinstall, herase, h]
  by_cases hfits : LOGSIZE < diskN (d l.start)
  · rw [if_pos hfits, if_pos hfits]
  · rw [if_neg hfits, if_neg hfits]
    cases (installTrans (l.reload d) true >>= fun _ => writeHead (l.reload d).clear).exec
      ⟨d, []⟩ <;> rfl

theorem recover_congr (h : l'.start = l.start) : recover l' = recover l := by
  funext d
  rw [recover, recover, issuedBy_recover_congr h]

theorem crashRecover_congr (h : l'.start = l.start) : crashRecover l' = crashRecover l := by
  funext d k
  rw [crashRecover, crashRecover, issuedBy_recover_congr h]

end

/-- The disk after the machine stopped when `k` of the writes `issued` had reached the disk, which held
`disk` before them, and after the recoveries, all of which but the last were interrupted too. -/
def recovered (l : Log) (disk : Nat → Block) (issued : List (Nat × Block)) (k : Nat) (ks : List Nat) :
    Nat → Block :=
  recover l (ks.foldl (crashRecover l) (Writes.perform (issued.take k) disk))

theorem recovered_congr {l l' : Log} (h : l'.start = l.start) : recovered l' = recovered l := by
  funext disk issued k ks
  rw [recovered, recovered, recover_congr h, crashRecover_congr h]

/-! ## What `commit` does to the cache -/

section
variable {l : Log}

/-- `commit`, whatever has been written to the disk before. -/
theorem exec_commit (hc : l.Committable) (s : Device) :
    (commit l).exec s = .ok (if 0 < l.header.n then l.clear else l,
      ⟨Writes.perform (issuedBy (commit l) s.data) s.data,
        s.issued ++ issuedBy (commit l) s.data⟩) := by
  by_cases hn : 0 < l.header.n
  · rw [issuedBy, commit, if_pos hn, if_pos hn]
    rw [exec_bind_ok (exec_writeLog hc _), exec_bind_ok (exec_writeHead l _),
      exec_bind_ok (exec_installTrans hc false _), exec_bind_ok (exec_writeHead l.clear _)]
    rw [exec_bind_ok (exec_writeLog hc _), exec_bind_ok (exec_writeHead l _),
      exec_bind_ok (exec_installTrans hc false _), exec_bind_ok (exec_writeHead l.clear _)]
    simp only [exec_pure, List.nil_append, List.append_assoc, Writes.perform_append,
      Writes.perform_cons, Writes.perform_nil]
  · rw [issuedBy_commit_nil (by omega), commit, if_neg hn, if_neg hn, exec_pure,
      Writes.perform_nil, List.append_nil]

/-- The disk after a complete `commit`, if the cache and the disk agreed outside of the transaction. -/
theorem perform_commit (hc : l.Committable) {data disk : Nat → Block}
    (hlogged : ∀ b, data b ≠ disk b → b ∈ l.header.blocks) :
    Writes.perform (issuedBy (commit l) data) data = Writes.perform (issuedBy (commit l) data) disk := by
  funext b
  refine Writes.perform_congr ?_
  by_cases hb : data b = disk b
  · exact .inr hb
  · obtain ⟨i, hi, rfl⟩ := mem_blocks.1 (hlogged b hb)
    rw [issuedBy_commit hc (by omega)]
    refine .inl ⟨(l.header.block i, data (l.header.block i)), ?_, rfl⟩
    refine List.mem_append_right _ (List.mem_cons_of_mem _ (List.mem_append_left _ ?_))
    exact mem_copies.2 ⟨i, hi, rfl⟩

/-- Outside of the log area `commit` leaves the cache as it is. -/
theorem perform_commit_data (hc : l.Committable) {data : Nat → Block}
    (h0 : headerCount (data l.start) = 0) :
    (∀ b, ¬ l.InArea b → Writes.perform (issuedBy (commit l) data) data b = data b) ∧
      headerCount (Writes.perform (issuedBy (commit l) data) data l.start) = 0 := by
  obtain ⟨ph, hsim, hph⟩ := Sim.crashCommit data hc h0 (issuedBy (commit l) data).length
  rw [crashCommit, List.take_length] at hsim
  have hafter : ∀ b, ¬ l.InArea b → l.newContents data data b = data b := fun b _ => by
    rw [newContents, ite_self]
  cases ph with
  | before => exact ⟨hsim.2, hsim.1⟩
  | after => exact ⟨fun b hb => (hsim.2 b hb).trans (hafter b hb), hsim.1⟩
  | committed =>
    -- the last write erases the header
    have hn := (hph.1 (by decide)).1
    have hcount : headerCount (Writes.perform (issuedBy (commit l) data) data l.start) = 0 := by
      rw [issuedBy_commit hc hn, ← List.cons_append, ← List.append_assoc, Writes.perform_append,
        Writes.perform_cons, Writes.perform_nil, Function.update_self]
      exact headerCount_erased _
    obtain ⟨hdisk, -⟩ := hsim
    rw [diskN_eq, hcount] at hdisk
    have hzero : l.header.n = 0 := hdisk.symm
    omega

end

/-! ## Runs of transactions -/

/-- A point between two transactions of a run: how many writes had been issued, and what the operations
up to then had written. -/
structure Point where
  writes : Nat
  data : Nat → Block

/-- The blocks outside of the log area have the contents of a point. -/
def Point.Shows (l : Log) (p : Point) (data : Nat → Block) : Prop := ∀ b, ¬ l.InArea b → data b = p.data b

/-- The disk held `disk` at the beginning, and a crash at any time up to now leads back to a point of
`past`. -/
structure Recoverable (disk : Nat → Block) (past : List Point) (l : Log) (s : Device) : Prop where
  committable : l.Committable
  /-- No transaction is on the disk. -/
  erased : headerCount (Writes.perform s.issued disk l.start) = 0
  /-- The cache differs from the disk in blocks of the transaction only. -/
  logged : ∀ b, s.data b ≠ Writes.perform s.issued disk b → b ∈ l.header.blocks
  /-- The last point is the one that the disk shows. -/
  now : ∃ p, past.getLast? = some p ∧ p.writes = s.issued.length ∧ p.Shows l (Writes.perform s.issued disk)
  le : ∀ q ∈ past, q.writes ≤ s.issued.length
  /-- Transactions after which nothing more was written changed nothing. -/
  same : ∀ q ∈ past, q.writes = s.issued.length → q.Shows l (Writes.perform s.issued disk)
  /-- The disk recovers to a point that is not older than any whose writes had reached it. -/
  survives : ∀ k ks, ∃ p ∈ past, p.Shows l (l.recovered disk s.issued k ks) ∧
    ∀ q ∈ past, q.writes ≤ k → q.writes ≤ p.writes

section
variable {disk : Nat → Block} {past : List Point} {l l' : Log} {s s' : Device}

theorem inArea_congr (hstart : l'.start = l.start) (hsize : l'.size = l.size) {b : Nat} :
    l'.InArea b ↔ l.InArea b := by
  rw [InArea, InArea, hstart, hsize]

theorem Point.Shows.congr {p : Point} {data : Nat → Block} (h : p.Shows l data)
    (hstart : l'.start = l.start) (hsize : l'.size = l.size) : p.Shows l' data :=
  fun b hb => h b fun hin => hb ((inArea_congr hstart hsize).2 hin)

/-- **`log_write`** that succeeds. -/
theorem logWrite_ok {b : Nat} {pinned : Bool} (h : l.logWrite b = .ok (l', pinned)) :
    b ∈ l'.header.blocks ∧ (∀ c ∈ l.header.blocks, c ∈ l'.header.blocks) ∧ l'.start = l.start ∧
      l'.size = l.size := by
  rw [logWrite_eq] at h
  split_ifs at h with hfull hout hin
  · cases h
    exact ⟨hin, fun _ => id, rfl, rfl⟩
  · cases h
    rw [blocks_push]
    exact ⟨List.mem_append_right _ (List.mem_singleton_self b), fun c hc => List.mem_append_left _ hc,
      rfl, rfl⟩

/-- The first critical section of `end_op`. -/
theorem endOp_ok {last : Bool} (h : l.endOp = .ok (l', last)) :
    l'.start = l.start ∧ l'.size = l.size ∧ l'.header = l.header := by
  rw [endOp] at h
  split_ifs at h
  · cases h
    exact ⟨rfl, rfl, rfl⟩
  · cases h
    exact ⟨rfl, rfl, rfl⟩

/-- The beginning of a run. -/
theorem Recoverable.start (hc : l.Committable) (h0 : headerCount (disk l.start) = 0) :
    Recoverable disk [⟨0, disk⟩] l ⟨disk, []⟩ where
  committable := hc
  erased := h0
  logged _ h := absurd rfl h
  now := ⟨_, rfl, rfl, fun _ _ => rfl⟩
  le q hq := by rw [List.mem_singleton.1 hq]; exact Nat.le_refl 0
  same q hq _ := by rw [List.mem_singleton.1 hq]; exact fun _ _ => rfl
  survives k ks := by
    have hsim : Sim l disk disk .before disk := ⟨h0, fun _ _ => rfl⟩
    obtain ⟨ph, hph, hiff⟩ := Sim.crashes hc ks hsim
    have hfinal := (Sim.recover hc hph).1
    rw [if_pos (hiff.1 rfl)] at hfinal
    refine ⟨⟨0, disk⟩, List.mem_singleton_self _, fun b hb => ?_, fun q hq _ => ?_⟩
    · rw [recovered, List.take_nil, Writes.perform_nil]
      exact hfinal.2 b hb
    · rw [List.mem_singleton.1 hq]

/-- Whether an operation is running does not matter. -/
theorem Committable.congr (hc : l.Committable) (hstart : l'.start = l.start) (hsize : l'.size = l.size)
    (hheader : l'.header = l.header) : l'.Committable := by
  refine ⟨?_, ?_, ?_, ?_, ?_⟩
  · rw [hheader]
    exact hc.le_logsize
  · rw [hheader, hsize]
    exact hc.lt_size
  · rw [hheader]
    exact hc.inj
  · intro i hi hin
    rw [hheader] at hi hin
    exact hc.home i hi ((inArea_congr hstart hsize).1 hin)
  · rw [hheader]
    exact hc.word

/-- **Changes in the cache** to blocks that are logged. -/
theorem Recoverable.change (h : Recoverable disk past l s) (hc : l'.Committable)
    (hstart : l'.start = l.start) (hsize : l'.size = l.size) (hissued : s'.issued = s.issued)
    (hlogged : ∀ b, s'.data b ≠ s.data b → b ∈ l'.header.blocks)
    (hkept : ∀ b ∈ l.header.blocks, b ∈ l'.header.blocks) : Recoverable disk past l' s' where
  committable := hc
  erased := by
    rw [hissued, hstart]
    exact h.erased
  logged b hb := by
    rw [hissued] at hb
    by_cases hsame : s'.data b = s.data b
    · exact hkept b (h.logged b (hsame ▸ hb))
    · exact hlogged b hsame
  now := by
    obtain ⟨p, hp, hw, hshow⟩ := h.now
    rw [hissued]
    exact ⟨p, hp, hw, hshow.congr hstart hsize⟩
  le q hq := by
    rw [hissued]
    exact h.le q hq
  same q hq hw := by
    rw [hissued] at hw ⊢
    exact (h.same q hq hw).congr hstart hsize
  survives k ks := by
    obtain ⟨p, hp, hshow, hle⟩ := h.survives k ks
    rw [hissued, recovered_congr hstart]
    exact ⟨p, hp, hshow.congr hstart hsize, hle⟩

theorem Recoverable.setLog (h : Recoverable disk past l s) (hstart : l'.start = l.start)
    (hsize : l'.size = l.size) (hheader : l'.header = l.header) : Recoverable disk past l' s :=
  h.change (h.committable.congr hstart hsize hheader) hstart hsize rfl (fun _ hb => absurd rfl hb)
    fun _ hb => hheader ▸ hb

/-- **The commit.** -/
theorem Recoverable.commit (h : Recoverable disk past l s) :
    ∃ l' s', (Log.commit l).exec s = .ok (l', s') ∧ l'.start = l.start ∧ l'.size = l.size ∧
      l'.outstanding = l.outstanding ∧ l'.header.n = 0 ∧ (∀ b, ¬ l.InArea b → s'.data b = s.data b) ∧
      Recoverable disk (past ++ [⟨s'.issued.length, s.data⟩]) l' s' := by
  have hc := h.committable
  -- the log area has not been touched
  have hdata0 : headerCount (s.data l.start) = 0 := by
    by_cases hsame : s.data l.start = Writes.perform s.issued disk l.start
    · rw [hsame]
      exact h.erased
    · obtain ⟨i, hi, heq⟩ := mem_blocks.1 (h.logged _ hsame)
      exact absurd heq (hc.ne_start hi)
  obtain ⟨hhome, herased⟩ := perform_commit_data hc hdata0
  have hsame := perform_commit hc h.logged
  generalize hws : issuedBy (Log.commit l) s.data = ws at hhome herased hsame
  have hl : ∀ l' : Log, l' = (if 0 < l.header.n then l.clear else l) →
      l'.start = l.start ∧ l'.size = l.size ∧ l'.outstanding = l.outstanding ∧ l'.header.n = 0 := by
    rintro _ rfl
    split
    · exact ⟨rfl, rfl, rfl, rfl⟩
    · exact ⟨rfl, rfl, rfl, by omega⟩
  obtain ⟨hstart', hsize', hout', hn'⟩ := hl _ rfl
  refine ⟨_, _, exec_commit hc _, hstart', hsize', hout', hn', fun b hb => hws ▸ hhome b hb, ?_⟩
  rw [hws]
  generalize (if 0 < l.header.n then l.clear else l) = l' at hstart' hsize' hout' hn'
  have hcontents : Writes.perform ws s.data = Writes.perform (s.issued ++ ws) disk := by
    rw [hsame, Writes.perform_append]
  -- the new point
  have hnew : ∀ q ∈ past ++ [Point.mk (s.issued ++ ws).length s.data],
      q.writes ≤ (s.issued ++ ws).length := fun q hq => by
    rcases List.mem_append.1 hq with hq | hq
    · rw [List.length_append]
      exact (h.le q hq).trans (Nat.le_add_right _ _)
    · rw [List.mem_singleton.1 hq]
  have hmem := List.mem_append_right past (List.mem_singleton_self (Point.mk (s.issued ++ ws).length s.data))
  have hshows : (Point.mk (s.issued ++ ws).length s.data).Shows l' (Writes.perform (s.issued ++ ws) disk) := by
    intro b hb
    rw [← hcontents]
    exact hhome b fun hin => hb ((inArea_congr hstart' hsize').2 hin)
  refine ⟨committable_of_n_eq_zero hn' (hsize' ▸ Nat.zero_lt_of_lt hc.lt_size), ?_,
    fun b hb => absurd (congrFun hcontents b) hb, ⟨_, List.getLast?_concat, rfl, hshows⟩, hnew,
    fun q hq hw => ?_, fun k ks => ?_⟩
  · rw [hstart']
    show headerCount (Writes.perform (s.issued ++ ws) disk l.start) = 0
    rw [← hcontents]
    exact herased
  · rcases List.mem_append.1 hq with hq | hq
    · have hle := h.le q hq
      have hlen : q.writes = s.issued.length + ws.length := by
        rw [hw]
        exact List.length_append
      have hws0 : ws = [] := List.eq_nil_of_length_eq_zero (by omega)
      rw [hws0] at hlen ⊢
      show q.Shows l' (Writes.perform (s.issued ++ []) disk)
      rw [List.append_nil]
      exact (h.same q hq hlen).congr hstart' hsize'
    · rw [List.mem_singleton.1 hq]
      exact hshows
  rw [recovered_congr hstart']
  rcases Nat.lt_or_ge s.issued.length k with hk | hk
  · -- the crash is in this commit
    obtain ⟨j, rfl⟩ : ∃ j, k = s.issued.length + j := ⟨k - s.issued.length, by omega⟩
    obtain ⟨hold, hafter, -, -⟩ := commit_crash_atomic l hc s.data (Writes.perform s.issued disk) h.erased j ks
    have hnewContents : ∀ b, l.newContents s.data (Writes.perform s.issued disk) b = s.data b := by
      intro b
      rw [newContents]
      split
      · rfl
      · next hmem =>
        by_contra hne
        exact hmem (h.logged b (Ne.symm hne))
    have hrecovered : l.recovered disk (s.issued ++ ws) (s.issued.length + j) ks =
        recover l (ks.foldl (crashRecover l) (crashCommit l s.data (Writes.perform s.issued disk) j)) := by
      rw [recovered, List.take_length_add_append, Writes.perform_append, crashCommit, hws]
    rw [hrecovered]
    rcases hold with hold | hnew'
    · by_cases hall : (s.issued ++ ws).length ≤ s.issued.length + j
      · -- all of its writes have reached the disk
        refine ⟨_, hmem, fun b hb => ?_, fun q hq _ => hnew q hq⟩
        rw [inArea_congr hstart' hsize'] at hb
        rcases Nat.eq_zero_or_pos l.header.n with hn | hn
        · rw [hold b hb]
          by_contra hne
          obtain ⟨i, hi, -⟩ := mem_blocks.1 (h.logged b (Ne.symm hne))
          omega
        · have hlen : l.header.n + 1 ≤ j := by
            rw [← hws, issuedBy_commit hc hn, List.length_append, List.length_append,
              List.length_cons, logCopies, length_copies] at hall
            omega
          rw [hafter hn hlen b hb, hnewContents b]
      · obtain ⟨p, hlast, hw, hshow⟩ := h.now
        have hp := List.mem_of_getLast? hlast
        refine ⟨p, List.mem_append_left _ hp, fun b hb => ?_, fun q hq hqk => ?_⟩
        · rw [inArea_congr hstart' hsize'] at hb
          rw [hold b hb]
          exact hshow b hb
        · rcases List.mem_append.1 hq with hq | hq
          · exact hw ▸ h.le q hq
          · rw [List.mem_singleton.1 hq] at hqk
            exact absurd hqk hall
    · refine ⟨_, hmem, fun b hb => ?_, fun q hq _ => hnew q hq⟩
      rw [inArea_congr hstart' hsize'] at hb
      rw [hnew' b hb, hnewContents b]
  · -- the crash was before
    obtain ⟨p, hp, hshow, hle⟩ := h.survives k ks
    refine ⟨p, List.mem_append_left _ hp, fun b hb => ?_, fun q hq hqk => ?_⟩
    · rw [inArea_congr hstart' hsize'] at hb
      rw [← hshow b hb, recovered, recovered, List.take_append_of_le_length hk]
    · rcases List.mem_append.1 hq with hq | hq
      · exact hle q hq hqk
      · rw [List.mem_singleton.1 hq] at hqk ⊢
        obtain ⟨p₀, hlast, hw, -⟩ := h.now
        have hp₀ := List.mem_of_getLast? hlast
        have hlen : (s.issued ++ ws).length ≤ k := hqk
        show (s.issued ++ ws).length ≤ p.writes
        rw [List.length_append] at hlen ⊢
        have hnow := hle p₀ hp₀ (by omega)
        omega

end

end Log

/-! ## The log in use -/

/-- The log, the cache, and the points between the transactions so far. -/
structure LogRun where
  log : Log
  dev : Device
  past : List Log.Point

/-- What happens to the log. -/
inductive LogStep
  /-- An operation begins. -/
  | beginOp
  /-- A block gets new contents and is logged. -/
  | write (b : Nat) (d : Block)
  /-- An operation ends, and if it is the last that is running, the transaction is committed. -/
  | endOp

namespace LogRun

/-- The log after recovery. -/
def boot (l : Log) (disk : Nat → Block) : LogRun := ⟨l, ⟨disk, []⟩, [⟨0, disk⟩]⟩

/-- One step.  An operation does not write to the log area, and block numbers have 32 bits. -/
def step (s : LogRun) : LogStep → Option (Except Panic LogRun)
  | .beginOp => s.log.beginOp.map fun l => .ok { s with log := l }
  | .write b d =>
    if s.log.InArea b ∨ 2 ^ 32 ≤ b then none
    else match s.log.logWrite b with
      | .error e => some (.error e)
      | .ok (l, _) =>
        some (.ok { s with log := l, dev := { s.dev with data := Function.update s.dev.data b d } })
  | .endOp =>
    if s.log.outstanding < 1 then none
    else match s.log.endOp with
      | .error e => some (.error e)
      | .ok (l, false) => some (.ok { s with log := l })
      | .ok (l, true) =>
        match l.commit.exec s.dev with
        | .error e => some (.error e)
        | .ok (l, dev) => some (.ok ⟨l.endCommit, dev, s.past ++ [⟨dev.issued.length, s.dev.data⟩]⟩)

/-- The last operation ends. -/
theorem step_commit {s : LogRun} {l l' : Log} {dev : Device} (ho : 1 ≤ s.log.outstanding)
    (he : s.log.endOp = .ok (l, true)) (hexec : l.commit.exec s.dev = .ok (l', dev)) :
    s.step .endOp = some (.ok ⟨l'.endCommit, dev, s.past ++ [⟨dev.issued.length, s.dev.data⟩]⟩) := by
  rw [step, if_neg (Int.not_lt.2 ho), he]
  simp only [hexec]

/-- A crash leads back to a point between two transactions. -/
structure Inv (l : Log) (disk : Nat → Block) (s : LogRun) : Prop where
  recoverable : Log.Recoverable disk s.past s.log s.dev
  start : s.log.start = l.start
  size : s.log.size = l.size

section
variable {l : Log} {disk : Nat → Block} {s s' : LogRun} {a : LogStep}

/-- The header stays as it is. -/
theorem Inv.setLog {l' : Log} (h : Inv l disk s) (hstart : l'.start = s.log.start)
    (hsize : l'.size = s.log.size) (hheader : l'.header = s.log.header) :
    Inv l disk { s with log := l' } :=
  ⟨h.recoverable.setLog hstart hsize hheader, hstart.trans h.start, hsize.trans h.size⟩

theorem Inv.step (h : Inv l disk s) (hs : s.step a = some (.ok s')) : Inv l disk s' := by
  cases a with
  | beginOp =>
    obtain ⟨l', hl, heq⟩ := Option.map_eq_some_iff.1 hs
    cases heq
    obtain ⟨-, -, rfl⟩ := Log.beginOp_eq_some.1 hl
    exact h.setLog rfl rfl rfl
  | write b d =>
    rw [LogRun.step] at hs
    split at hs
    · cases hs
    next hb =>
    rw [not_or, Nat.not_le] at hb
    cases hw : s.log.logWrite b with
    | error e =>
      rw [hw] at hs
      cases hs
    | ok r =>
      obtain ⟨l', pinned⟩ := r
      rw [hw] at hs
      cases hs
      have hc := h.recoverable.committable.logWrite hb.1 hb.2 hw
      obtain ⟨hmem, hkept, hstart, hsize⟩ := Log.logWrite_ok hw
      refine ⟨h.recoverable.change hc hstart hsize rfl (fun c hc => ?_) hkept, hstart.trans h.start,
        hsize.trans h.size⟩
      by_cases hcb : c = b
      · exact hcb ▸ hmem
      · exact absurd (Function.update_of_ne hcb _ _) hc
  | endOp =>
    by_cases ho : s.log.outstanding < 1
    · rw [LogRun.step, if_pos ho] at hs
      cases hs
    cases he : s.log.endOp with
    | error e =>
      rw [LogRun.step, if_neg ho, he] at hs
      cases hs
    | ok r =>
      obtain ⟨l', last⟩ := r
      obtain ⟨hstart, hsize, hheader⟩ := Log.endOp_ok he
      have h₁ := h.setLog hstart hsize hheader
      cases last with
      | false =>
        rw [LogRun.step, if_neg ho, he] at hs
        cases hs
        exact h₁
      | true =>
        obtain ⟨l₂, dev, hexec, hstart₂, hsize₂, -, -, -, hrec⟩ := h₁.recoverable.commit
        rw [step_commit (Int.not_lt.1 ho) he hexec] at hs
        cases hs
        exact ⟨hrec.setLog rfl rfl rfl, hstart₂.trans h₁.start, hsize₂.trans h₁.size⟩

end

end LogRun

/-- **A crash leads back to a point between two transactions.**  Any number of operations use the log, one
after the other or at the same time, and their transactions are committed one after the other.  Wherever in
the writes of the run the machine stops, and however often it stops again while it recovers, the disk
recovers to what the operations had written when some transaction was complete, and no transaction is lost
whose writes had all reached the disk. -/
theorem crash_between_transactions {l : Log} {disk : Nat → Block} {as : List LogStep} {s : LogRun}
    (hsize : 0 < l.size) (hn : l.header.n = 0) (h0 : Log.headerCount (disk l.start) = 0)
    (h : Machine.Run LogRun.step (.boot l disk) as s) (k : Nat) (ks : List Nat) :
    ∃ p ∈ s.past, p.Shows l (l.recovered disk s.dev.issued k ks) ∧
      ∀ q ∈ s.past, q.writes ≤ k → q.writes ≤ p.writes := by
  have hinv : LogRun.Inv l disk s := h.invariant (P := LogRun.Inv l disk)
    ⟨.start (Log.committable_of_n_eq_zero hn hsize) h0, rfl, rfl⟩ fun _ _ _ h hs => h.step hs
  obtain ⟨p, hp, hshow, hle⟩ := hinv.recoverable.survives k ks
  rw [Log.recovered_congr hinv.start] at hshow
  exact ⟨p, hp, hshow.congr hinv.start.symm hinv.size.symm, hle⟩

/-- The log that `mkfs` lays out. -/
def emptyLog : Log := ⟨2, LOGSIZE, 0, false, ⟨0, fun _ => 0⟩⟩

/-- One operation that writes a block, on an empty disk. -/
theorem crash_between_transactions_one : ∃ s,
    Machine.Run LogRun.step (.boot emptyLog fun _ => Bytes.zero BSIZE)
        [.beginOp, .write 45 fun _ => 1, .endOp] s ∧
      ∀ k ks, ∃ p ∈ s.past,
        p.Shows emptyLog (emptyLog.recovered (fun _ => Bytes.zero BSIZE) s.dev.issued k ks) ∧
        ∀ q ∈ s.past, q.writes ≤ k → q.writes ≤ p.writes := by
  have h0 : Log.headerCount (Bytes.zero BSIZE) = 0 := by decide
  have hwrite : Machine.Run LogRun.step (.boot emptyLog fun _ => Bytes.zero BSIZE)
      [.beginOp, .write 45 fun _ => 1] ⟨⟨2, LOGSIZE, 1, false, ⟨1, Function.update (fun _ => 0) 0 45⟩⟩,
        ⟨Function.update (fun _ => Bytes.zero BSIZE) 45 fun _ => 1, []⟩,
        [⟨0, fun _ => Bytes.zero BSIZE⟩]⟩ := (Machine.Run.nil.snoc rfl).snoc rfl
  have hboot : LogRun.Inv emptyLog (fun _ => Bytes.zero BSIZE) (.boot emptyLog fun _ => Bytes.zero BSIZE) :=
    ⟨@Log.Recoverable.start (fun _ => Bytes.zero BSIZE) emptyLog (Log.committable_of_n_eq_zero rfl (by decide)) h0,
      rfl, rfl⟩
  have hinv := hwrite.invariant (P := LogRun.Inv emptyLog fun _ => Bytes.zero BSIZE) hboot
    fun _ _ _ h hs => h.step hs
  have hended := @LogRun.Inv.setLog _ _ _ ⟨2, LOGSIZE, 0, true, ⟨1, Function.update (fun _ => 0) 0 45⟩⟩ hinv
    rfl rfl rfl
  obtain ⟨l, dev, hexec, -⟩ := hended.recoverable.commit
  have hrun := hwrite.snoc (LogRun.step_commit (by decide) rfl hexec)
  exact ⟨_, hrun, crash_between_transactions (by decide) rfl h0 hrun⟩

end Xv6pp
