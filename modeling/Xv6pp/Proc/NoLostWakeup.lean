import Xv6pp.Proc.SleepWakeup
import Mathlib.Data.List.Infix
import Mathlib.Data.Fin.Basic

/-!
# No wakeup is lost

A process that has decided to sleep holds `l` until it holds its own lock, and its own lock until the
scheduler has seen it `SLEEPING`.  So a `wakeup` made under a later acquisition of `l`, which locks every
process, gets to it only after it is asleep, and finds it on the channel.
-/

set_option autoImplicit false

namespace Xv6pp

/-- The two copies of `sleep` do the same. -/
theorem SleepImpl.code_eq (impl : SleepImpl) : impl.code = Process.sleep := by
  cases impl <;> rfl

namespace SleepState

variable {ι κ χ Λ : Type}

/-! ## What a place says about locks -/

/-- The process whose lock the process `p` holds at a place. -/
def owns (p : ι) : SleepPc ι χ Λ → Option ι
  | .sleep code _ _ => if .unlock ∈ code ∧ .lock ∉ code then some p else none
  | .wakeTest _ q _ | .wakeUnlock _ q _ | .killTest q | .killUnlock q => some q
  | .yieldState | .yieldSched | .unlockSelf => some p
  | _ => none

/-- A place at which the process calls `sched`. -/
def atSched : SleepPc ι χ Λ → Prop
  | .sleep (.sched :: _) _ _ | .yieldSched => True
  | _ => False

/-- The channel of a `wakeup` at this place, and the processes it has still to look at. -/
def toWake : SleepPc ι χ Λ → Option (χ × List ι)
  | .wakeup c rest | .wakeUnlock c _ rest => some (c, rest)
  | .wakeTest c q rest => some (c, q :: rest)
  | _ => none

/-- The process sleeps, or will before its present sleep is over. -/
def Pending (s : SleepState ι κ χ Λ) (p : ι) : Prop :=
  s.state p = .sleeping ∨ ∃ code c l, s.pc p = .sleep code c l ∧ .setSleeping ∈ code

/-- What is known about a process in a sleep. -/
structure InSleep (s : SleepState ι κ χ Λ) (p : ι) (code : List SleepStmt) (c : χ) (l : Λ)
    (n : Nat) : Prop where
  /-- It is executing `sleep`. -/
  suffix : code <:+ Process.sleep
  /-- It decided to. -/
  decision : s.decision p = some (c, l, n)
  /-- At first it holds `l`, under the acquisition of its decision. -/
  held : .releaseLk ∈ code → ∃ k, s.mode k = .running p ∧ s.lk l = some k ∧ n = s.acquired l
  /-- Its channel is set while it is `SLEEPING`. -/
  chan : .setChan ∉ code → .clearChan ∈ code → s.chan p = some c

/-- What holds in every reachable state. -/
structure Sound (s : SleepState ι κ χ Λ) : Prop where
  /-- A running process holds the lock its place says. -/
  lock : ∀ k p q, s.mode k = .running p → owns p (s.pc p) = some q → s.plock q = some k
  /-- The scheduler holds the lock of the process it deals with. -/
  sched : ∀ k p, s.mode k = .locked p ∨ s.mode k = .back p → s.plock p = some k
  /-- A process runs on one processor. -/
  unique : ∀ k k' p, s.mode k = .running p → s.mode k' = .running p → k = k'
  /-- A process on a processor is `RUNNING`, or about to switch. -/
  running : ∀ k p, s.mode k = .running p → s.state p = .running ∨ atSched (s.pc p)
  /-- A process on no processor has switched to the scheduler. -/
  off : ∀ p, (∀ k, s.mode k ≠ .running p) → s.pc p = .unlockSelf ∨
    ∃ c l, s.pc p = .sleep [.clearChan, .unlock, .acquireLk] c l
  /-- The processes in a sleep. -/
  inSleep : ∀ p code c l, s.pc p = .sleep code c l → ∃ n, InSleep s p code c l n
  /-- The sleeping processes. -/
  asleep : ∀ p, s.state p = .sleeping →
    ∃ code c l, s.pc p = .sleep code c l ∧ .setSleeping ∉ code ∧ .clearChan ∈ code
  /-- Acquisitions are numbered. -/
  count : ∀ r ∈ s.wakeups, ∀ l m, r.held l = some m → m ≤ s.acquired l
  /-- A finished `wakeup` under a later acquisition has woken the process. -/
  done : ∀ p c l n, s.decision p = some (c, l, n) → Pending s p →
    ∀ r ∈ s.wakeups, r.chan = c → ∀ m, r.held l = some m → m ≤ n
  /-- An unfinished one has not looked at it yet. -/
  todo : ∀ p c l n, s.decision p = some (c, l, n) → Pending s p →
    ∀ k q rest, s.mode k = .running q → q ≠ p → toWake (s.pc q) = some (c, rest) →
      s.lk l = some k → n < s.acquired l → p ∈ rest

variable {s s' : SleepState ι κ χ Λ} {k : κ} {p q : ι}

/-- The statements of a sleep that are left after the next one. -/
theorem suffix_cases {st : SleepStmt} {rest : List SleepStmt} (h : st :: rest <:+ Process.sleep) :
    (st = .lock ∧ rest =
      [.releaseLk, .setChan, .setSleeping, .sched, .clearChan, .unlock, .acquireLk]) ∨
    (st = .releaseLk ∧ rest = [.setChan, .setSleeping, .sched, .clearChan, .unlock, .acquireLk]) ∨
    (st = .setChan ∧ rest = [.setSleeping, .sched, .clearChan, .unlock, .acquireLk]) ∨
    (st = .setSleeping ∧ rest = [.sched, .clearChan, .unlock, .acquireLk]) ∨
    (st = .sched ∧ rest = [.clearChan, .unlock, .acquireLk]) ∨
    (st = .clearChan ∧ rest = [.unlock, .acquireLk]) ∨
    (st = .unlock ∧ rest = [.acquireLk]) ∨ (st = .acquireLk ∧ rest = []) := by
  simpa [Process.sleep, List.suffix_cons_iff] using h

/-- Others can only wake a process up. -/
theorem pending_of_woken (h : Pending s' q) (hpc : s'.pc q = s.pc q)
    (hstate : s'.state q = s.state q ∨ s.state q = .sleeping ∧ s'.state q = .runnable) :
    Pending s q := by
  rcases h with h | ⟨code, c, l, h, hmem⟩
  · rcases hstate with h' | ⟨h', -⟩
    · exact .inl (h' ▸ h)
    · exact .inl h'
  · exact .inr ⟨code, c, l, hpc ▸ h, hmem⟩

/-- **What the other processes keep** when the process `p` on the processor `k` makes a step that does
not switch. -/
theorem Sound.stay [DecidableEq κ] (h : Sound s) (hk : s.mode k = .running p) (hmode : s'.mode = s.mode)
    (hpc : ∀ q ≠ p, s'.pc q = s.pc q) (hchan : ∀ q ≠ p, s'.chan q = s.chan q)
    (hdecision : ∀ q ≠ p, s'.decision q = s.decision q)
    (hstate : ∀ q ≠ p, s'.state q = s.state q ∨ s.state q = .sleeping ∧ s'.state q = .runnable)
    (hplock : ∀ q k', k' ≠ k → s.plock q = some k' → s'.plock q = some k')
    (hlk : ∀ l k', k' ≠ k → (s'.lk l = some k' ↔ s.lk l = some k'))
    (hacquired : ∀ l, s.acquired l ≤ s'.acquired l)
    (hacquired' : ∀ l k', k' ≠ k → s.lk l = some k' → s'.acquired l = s.acquired l)
    (hcount : ∀ r ∈ s'.wakeups, r ∈ s.wakeups ∨ r.held = s.under k ∧ s'.acquired = s.acquired)
    -- the process itself
    (hlock : ∀ q, owns p (s'.pc p) = some q → s'.plock q = some k)
    (hrunning : s'.state p = .running ∨ atSched (s'.pc p))
    (hin : ∀ code c l, s'.pc p = .sleep code c l → ∃ n, InSleep s' p code c l n)
    (hasleep : s'.state p = .sleeping →
      ∃ code c l, s'.pc p = .sleep code c l ∧ .setSleeping ∉ code ∧ .clearChan ∈ code)
    (hself : ∀ c l n, s'.decision p = some (c, l, n) → Pending s' p →
      s.decision p = some (c, l, n) ∧ Pending s p ∨ n = s'.acquired l)
    (hdone : ∀ q c l n, s.decision q = some (c, l, n) → Pending s' q → ∀ r ∈ s'.wakeups,
      r.chan = c → ∀ m, r.held l = some m → r ∈ s.wakeups ∨ m ≤ n)
    (htodo : ∀ q c l n, q ≠ p → s.decision q = some (c, l, n) → Pending s' q →
      ∀ rest, toWake (s'.pc p) = some (c, rest) → s'.lk l = some k → n < s'.acquired l →
        q ∈ rest) : Sound s' := by
  have hne : ∀ k' q, s.mode k' = .running q → q ≠ p → k' ≠ k := by
    rintro k' q hk' hq rfl
    rw [hk] at hk'
    cases hk'
    exact hq rfl
  have hcount' : ∀ r ∈ s'.wakeups, ∀ l m, r.held l = some m → m ≤ s'.acquired l := by
    intro r hr l m hm
    rcases hcount r hr with hr' | ⟨hheld, hsame⟩
    · exact (h.count r hr' l m hm).trans (hacquired l)
    · rw [hheld, under] at hm
      split at hm
      · cases hm
        exact hacquired l
      · cases hm
  refine ⟨fun k' q r hk' hr => ?_, fun k' q hk' => ?_, fun k₁ k₂ q h₁ h₂ => ?_,
    fun k' q hk' => ?_, fun q hq => ?_, fun q code c l hq => ?_, fun q hq => ?_, hcount',
    fun q c l n hq hpend r hr hrc m hm => ?_, fun q c l n hq hpend k' r rest hk' hr hwake hl hn => ?_⟩
  · rw [hmode] at hk'
    by_cases hqp : q = p
    · subst hqp
      obtain rfl := h.unique k k' q hk hk'
      exact hlock r hr
    · rw [hpc q hqp] at hr
      exact hplock r k' (hne k' q hk' hqp) (h.lock k' q r hk' hr)
  · rw [hmode] at hk'
    refine hplock q k' ?_ (h.sched k' q hk')
    rintro rfl
    rw [hk] at hk'
    rcases hk' with hk' | hk' <;> cases hk'
  · rw [hmode] at h₁ h₂
    exact h.unique k₁ k₂ q h₁ h₂
  · rw [hmode] at hk'
    by_cases hqp : q = p
    · subst hqp
      exact hrunning
    · rw [hpc q hqp]
      rcases h.running k' q hk' with hrun | hat
      · rcases hstate q hqp with hs | ⟨hs, -⟩
        · exact .inl (hs.trans hrun)
        · rw [hs] at hrun
          cases hrun
      · exact .inr hat
  · rw [hmode] at hq
    have hqp : q ≠ p := by
      rintro rfl
      exact hq k hk
    rw [hpc q hqp]
    exact h.off q hq
  · by_cases hqp : q = p
    · subst hqp
      exact hin code c l hq
    · rw [hpc q hqp] at hq
      obtain ⟨n, hn⟩ := h.inSleep q code c l hq
      refine ⟨n, hn.suffix, (hdecision q hqp).trans hn.decision, fun hmem => ?_, fun hc hc' => ?_⟩
      · obtain ⟨k', hk', hl, hacq⟩ := hn.held hmem
        have hkk := hne k' q hk' hqp
        refine ⟨k', hmode ▸ hk', (hlk l k' hkk).2 hl, ?_⟩
        rw [hacq, hacquired' l k' hkk hl]
      · exact (hchan q hqp).trans (hn.chan hc hc')
  · by_cases hqp : q = p
    · subst hqp
      exact hasleep hq
    · rw [hpc q hqp]
      rcases hstate q hqp with hs | ⟨-, hs⟩
      · exact h.asleep q (hs ▸ hq)
      · rw [hs] at hq
        cases hq
  · by_cases hqp : q = p
    · subst hqp
      rcases hself c l n hq hpend with ⟨hd, hp⟩ | rfl
      · rcases hdone q c l n hd hpend r hr hrc m hm with hr' | hle
        · exact h.done q c l n hd hp r hr' hrc m hm
        · exact hle
      · exact hcount' r hr l m hm
    · rw [hdecision q hqp] at hq
      rcases hdone q c l n hq hpend r hr hrc m hm with hr' | hle
      · exact h.done q c l n hq (pending_of_woken hpend (hpc q hqp) (hstate q hqp)) r hr' hrc m hm
      · exact hle
  · rw [hmode] at hk'
    by_cases hrp : r = p
    · subst hrp
      obtain rfl := h.unique k k' r hk hk'
      rw [hdecision q (Ne.symm hr)] at hq
      exact htodo q c l n (Ne.symm hr) hq hpend rest hwake hl hn
    · have hkk := hne k' r hk' hrp
      have hl' := (hlk l k' hkk).1 hl
      rw [hpc r hrp] at hwake
      rw [hacquired' l k' hkk hl'] at hn
      by_cases hqp : q = p
      · subst hqp
        rcases hself c l n hq hpend with ⟨hd, hp⟩ | rfl
        · exact h.todo q c l n hd hp k' r rest hk' hr hwake hl' hn
        · rw [hacquired' l k' hkk hl'] at hn
          exact absurd hn (lt_irrefl _)
      · rw [hdecision q hqp] at hq
        exact h.todo q c l n hq (pending_of_woken hpend (hpc q hqp) (hstate q hqp)) k' r rest hk' hr
          hwake hl' hn

section
variable [DecidableEq ι] [DecidableEq κ] {pc : SleepPc ι χ Λ}

/-- The running process takes or gives up locks and goes on at `pc`. -/
theorem Sound.relock (h : Sound s) (hk : s.mode k = .running p) (hrun : s.state p = .running)
    (hpc : s'.pc = Function.update s.pc p pc) (hmode : s'.mode = s.mode)
    (hstate : s'.state = s.state) (hchan : s'.chan = s.chan) (hdecision : s'.decision = s.decision)
    (hwakeups : s'.wakeups = s.wakeups)
    (hplock : ∀ q k', k' ≠ k → s.plock q = some k' → s'.plock q = some k')
    (hlk : ∀ l k', k' ≠ k → (s'.lk l = some k' ↔ s.lk l = some k'))
    (hacquired : ∀ l, s.acquired l ≤ s'.acquired l)
    (hacquired' : ∀ l k', k' ≠ k → s.lk l = some k' → s'.acquired l = s.acquired l)
    (howns : ∀ q, owns p pc = some q → s'.plock q = some k)
    (hin : ∀ code c l, pc = .sleep code c l → ∃ n, InSleep s' p code c l n)
    (hself : (∃ code c l, pc = .sleep code c l ∧ .setSleeping ∈ code) → Pending s p)
    (htodo : ∀ q c l n, q ≠ p → s.decision q = some (c, l, n) → Pending s q →
      ∀ rest, toWake pc = some (c, rest) → s'.lk l = some k → n < s'.acquired l → q ∈ rest) :
    Sound s' := by
  have hp : s'.pc p = pc := by rw [hpc, Function.update_self]
  have hpc' : ∀ q ≠ p, s'.pc q = s.pc q := fun q hq => by rw [hpc, Function.update_of_ne hq]
  refine h.stay hk hmode hpc' (fun q _ => by rw [hchan]) (fun q _ => by rw [hdecision])
    (fun q _ => .inl (by rw [hstate])) hplock hlk hacquired hacquired'
    (fun r hr => .inl (hwakeups ▸ hr)) (hp ▸ howns) (.inl (by rw [hstate, hrun])) (hp ▸ hin)
    (fun hs => ?_) (fun c l n hd hpend => .inl ⟨hdecision ▸ hd, ?_⟩)
    (fun _ _ _ _ _ _ r hr _ _ _ => .inl (hwakeups ▸ hr))
    (fun q c l n hq hd hpend rest hwake => htodo q c l n hq hd ?_ rest (hp ▸ hwake))
  · rw [hstate, hrun] at hs
    cases hs
  · rcases hpend with hs | hcode
    · rw [hstate, hrun] at hs
      cases hs
    · exact hself (hp ▸ hcode)
  · exact pending_of_woken hpend (hpc' q hq) (.inl (by rw [hstate]))

/-- The process goes on at `pc`, holding the same locks. -/
theorem Sound.goto (h : Sound s) (hk : s.mode k = .running p) (hrun : s.state p = .running)
    (howns : ∀ q, owns p pc = some q → s.plock q = some k)
    (hin : ∀ code c l, pc = .sleep code c l → ∃ n, InSleep (s.goto p pc) p code c l n)
    (hself : (∃ code c l, pc = .sleep code c l ∧ .setSleeping ∈ code) → Pending s p)
    (htodo : ∀ q c l n, q ≠ p → s.decision q = some (c, l, n) → Pending s q →
      ∀ rest, toWake pc = some (c, rest) → s.lk l = some k → n < s.acquired l → q ∈ rest) :
    Sound (s.goto p pc) :=
  h.relock hk hrun rfl rfl rfl rfl rfl rfl (fun _ _ _ hr => hr) (fun _ _ _ => Iff.rfl)
    (fun _ => le_rfl) (fun _ _ _ _ => rfl) howns hin hself htodo

/-- The process takes the lock of a process. -/
theorem Sound.lockProc (h : Sound s) (hk : s.mode k = .running p) (hrun : s.state p = .running)
    (hok : (s.goto p pc).lockProc k q = some (.ok s')) (howns : owns p pc = some q)
    (hin : ∀ code c l, pc = .sleep code c l → ∃ n, InSleep s' p code c l n)
    (hself : (∃ code c l, pc = .sleep code c l ∧ .setSleeping ∈ code) → Pending s p)
    (htodo : ∀ r c l n, r ≠ p → s.decision r = some (c, l, n) → Pending s r →
      ∀ rest, toWake pc = some (c, rest) → s.lk l = some k → n < s.acquired l → r ∈ rest) :
    Sound s' := by
  rw [SleepState.lockProc] at hok
  split at hok
  · cases hok
  split at hok
  · cases hok
  next hfree =>
  have hfree : s.plock q = none := not_not.1 hfree
  cases hok
  refine h.relock hk hrun rfl rfl rfl rfl rfl rfl (fun r k' _ hr => ?_) (fun _ _ _ => Iff.rfl)
    (fun _ => le_rfl) (fun _ _ _ _ => rfl) (fun r hr => ?_) hin hself htodo
  · have hrq : r ≠ q := by
      rintro rfl
      rw [hfree] at hr
      cases hr
    exact (Function.update_of_ne hrq ..).trans hr
  · rw [howns] at hr
    cases hr
    exact Function.update_self ..

/-- The process gives up the lock of a process. -/
theorem Sound.unlockProc (h : Sound s) (hk : s.mode k = .running p) (hrun : s.state p = .running)
    (hok : (s.goto p pc).unlockProc k q = .ok s') (howns : owns p pc = none)
    (hin : ∀ code c l, pc = .sleep code c l → ∃ n, InSleep s' p code c l n)
    (hself : (∃ code c l, pc = .sleep code c l ∧ .setSleeping ∈ code) → Pending s p)
    (htodo : ∀ r c l n, r ≠ p → s.decision r = some (c, l, n) → Pending s r →
      ∀ rest, toWake pc = some (c, rest) → s.lk l = some k → n < s.acquired l → r ∈ rest) :
    Sound s' := by
  rw [SleepState.unlockProc] at hok
  split at hok
  · cases hok
  next hheld =>
  have hheld : s.plock q = some k := not_not.1 hheld
  cases hok
  refine h.relock hk hrun rfl rfl rfl rfl rfl rfl (fun r k' hk' hr => ?_) (fun _ _ _ => Iff.rfl)
    (fun _ => le_rfl) (fun _ _ _ _ => rfl) (fun r hr => ?_) hin hself htodo
  · have hrq : r ≠ q := by
      rintro rfl
      rw [hheld] at hr
      exact hk' (Option.some.inj hr).symm
    exact (Function.update_of_ne hrq ..).trans hr
  · rw [howns] at hr
    cases hr

/-- The process takes a lock, at the end of `acquire` or of a sleep. -/
theorem Sound.acquire [DecidableEq Λ] (h : Sound s) (hk : s.mode k = .running p) (hrun : s.state p = .running)
    {l : Λ} (hok : (s.goto p pc).lock k l = some (.ok s')) (howns : owns p pc = none)
    (hin : ∀ code c l, pc = .sleep code c l → ∃ n, InSleep s' p code c l n)
    (hself : ¬ ∃ code c l, pc = .sleep code c l ∧ .setSleeping ∈ code) (hwake : toWake pc = none) :
    Sound s' := by
  rw [SleepState.lock] at hok
  split at hok
  · cases hok
  split at hok
  · cases hok
  next hfree =>
  have hfree : s.lk l = none := not_not.1 hfree
  cases hok
  refine h.relock hk hrun rfl rfl rfl rfl rfl rfl (fun _ _ _ hr => hr) (fun l' k' hk' => ?_)
    (fun l' => ?_) (fun l' k' _ hl' => ?_) (fun r hr => ?_) hin (fun hc => absurd hc hself)
    (fun _ _ _ _ _ _ _ _ hw => ?_)
  · by_cases hll : l' = l
    · subst hll
      show Function.update s.lk l' (some k) l' = some k' ↔ s.lk l' = some k'
      rw [Function.update_self, hfree]
      exact ⟨fun heq => absurd (Option.some.inj heq).symm hk', nofun⟩
    · show Function.update s.lk l (some k) l' = some k' ↔ s.lk l' = some k'
      rw [Function.update_of_ne hll]
  · by_cases hll : l' = l
    · subst hll
      show s.acquired l' ≤ Function.update s.acquired l' (s.acquired l' + 1) l'
      rw [Function.update_self]
      exact Nat.le_succ _
    · show s.acquired l' ≤ Function.update s.acquired l (s.acquired l + 1) l'
      rw [Function.update_of_ne hll]
  · have hll : l' ≠ l := by
      rintro rfl
      rw [hfree] at hl'
      cases hl'
    exact Function.update_of_ne hll ..
  · rw [howns] at hr
    cases hr
  · rw [hwake] at hw
    cases hw

/-- The process gives up a lock, in `release` or in a sleep. -/
theorem Sound.release [DecidableEq Λ] (h : Sound s) (hk : s.mode k = .running p) (hrun : s.state p = .running)
    {l : Λ} (hok : (s.goto p pc).unlock k l = .ok s')
    (howns : ∀ q, owns p pc = some q → s.plock q = some k)
    (hin : ∀ code c l, pc = .sleep code c l → ∃ n, InSleep s' p code c l n)
    (hself : (∃ code c l, pc = .sleep code c l ∧ .setSleeping ∈ code) → Pending s p)
    (hwake : toWake pc = none) : Sound s' := by
  rw [SleepState.unlock] at hok
  split at hok
  · cases hok
  next hheld =>
  have hheld : s.lk l = some k := not_not.1 hheld
  cases hok
  refine h.relock hk hrun rfl rfl rfl rfl rfl rfl (fun _ _ _ hr => hr) (fun l' k' hk' => ?_)
    (fun _ => le_rfl) (fun _ _ _ _ => rfl) howns hin hself (fun _ _ _ _ _ _ _ _ hw => ?_)
  · by_cases hll : l' = l
    · subst hll
      show Function.update s.lk l' none l' = some k' ↔ s.lk l' = some k'
      rw [Function.update_self, hheld]
      exact ⟨nofun, fun heq => absurd (Option.some.inj heq).symm hk'⟩
    · show Function.update s.lk l none l' = some k' ↔ s.lk l' = some k'
      rw [Function.update_of_ne hll]
  · rw [hwake] at hw
    cases hw

/-! ## The scheduler -/

omit [DecidableEq ι] in
/-- Where a processor is after a change of another one. -/
theorem mode_update {m : CpuMode ι} {k' : κ} (hmode : s'.mode = Function.update s.mode k m)
    (hm : ∀ p, m ≠ .running p) (h : s'.mode k' = .running q) : k' ≠ k ∧ s.mode k' = .running q := by
  rw [hmode] at h
  by_cases hkk : k' = k
  · subst hkk
    rw [Function.update_self] at h
    exact absurd h (hm q)
  · rw [Function.update_of_ne hkk] at h
    exact ⟨hkk, h⟩

omit [DecidableEq ι] in
/-- The scheduler of a processor makes a step between two processes. -/
theorem Sound.scheduler (h : Sound s) {m : CpuMode ι} (hk : ∀ p, s.mode k ≠ .running p)
    (hm : ∀ p, m ≠ .running p) (hmode : s'.mode = Function.update s.mode k m)
    (hpc : s'.pc = s.pc) (hstate : s'.state = s.state) (hchan : s'.chan = s.chan)
    (hdecision : s'.decision = s.decision) (hwakeups : s'.wakeups = s.wakeups)
    (hlk : s'.lk = s.lk) (hacquired : s'.acquired = s.acquired)
    (hplock : ∀ q k', k' ≠ k → s.plock q = some k' → s'.plock q = some k')
    (hsched : ∀ p, m = .locked p ∨ m = .back p → s'.plock p = some k) : Sound s' := by
  have hrun : ∀ {k' q}, s'.mode k' = .running q → k' ≠ k ∧ s.mode k' = .running q :=
    mode_update hmode hm
  have hrun' : ∀ {k' q}, s.mode k' = .running q → s'.mode k' = .running q := by
    intro k' q hk'
    have hkk : k' ≠ k := by
      rintro rfl
      exact hk q hk'
    rw [hmode, Function.update_of_ne hkk, hk']
  have hpend : ∀ {q}, Pending s' q → Pending s q := fun {q} hq =>
    pending_of_woken hq (by rw [hpc]) (.inl (by rw [hstate]))
  refine ⟨fun k' q r hk' hr => ?_, fun k' q hk' => ?_, fun k₁ k₂ q h₁ h₂ => ?_,
    fun k' q hk' => ?_, fun q hq => ?_, fun q code c l hq => ?_, ?_, ?_,
    fun q c l n hq hp => ?_, fun q c l n hq hp k' r rest hk' hr hwake hl hn => ?_⟩
  · obtain ⟨hkk, hk'⟩ := hrun hk'
    rw [hpc] at hr
    exact hplock r k' hkk (h.lock k' q r hk' hr)
  · by_cases hkk : k' = k
    · subst hkk
      rw [hmode, Function.update_self] at hk'
      exact hsched q hk'
    · rw [hmode, Function.update_of_ne hkk] at hk'
      exact hplock q k' hkk (h.sched k' q hk')
  · exact h.unique k₁ k₂ q (hrun h₁).2 (hrun h₂).2
  · rw [hstate, hpc]
    exact h.running k' q (hrun hk').2
  · rw [hpc]
    exact h.off q fun k' hk' => hq k' (hrun' hk')
  · rw [hpc] at hq
    obtain ⟨n, hn⟩ := h.inSleep q code c l hq
    refine ⟨n, hn.suffix, by rw [hdecision, hn.decision], fun hmem => ?_, fun hc hc' => ?_⟩
    · obtain ⟨k', hk', hl, hacq⟩ := hn.held hmem
      exact ⟨k', hrun' hk', by rw [hlk, hl], by rw [hacq, hacquired]⟩
    · rw [hchan]
      exact hn.chan hc hc'
  · rw [hstate, hpc]
    exact h.asleep
  · rw [hwakeups, hacquired]
    exact h.count
  · rw [hdecision] at hq
    rw [hwakeups]
    exact h.done q c l n hq (hpend hp)
  · rw [hdecision] at hq
    rw [hpc] at hwake
    rw [hlk] at hl
    rw [hacquired] at hn
    exact h.todo q c l n hq (hpend hp) k' r rest (hrun hk').2 hr hwake hl hn

/-- The scheduler unlocks the process it dealt with. -/
theorem Sound.park (h : Sound s) (hk : s.mode k = .locked p ∨ s.mode k = .back p)
    (hok : SleepState.unlockProc k p { s with mode := Function.update s.mode k .scan } = .ok s') :
    Sound s' := by
  have hplock := h.sched k p hk
  rw [SleepState.unlockProc] at hok
  split at hok
  · cases hok
  cases hok
  refine h.scheduler (k := k) (m := .scan) (fun q hq => ?_) nofun rfl rfl rfl rfl rfl rfl rfl rfl
    (fun q k' hk' hq => ?_) (fun q hq => ?_)
  · rw [hq] at hk
    rcases hk with hk | hk <;> cases hk
  · have hqp : q ≠ p := by
      rintro rfl
      rw [hplock] at hq
      exact hk' (Option.some.inj hq).symm
    exact (Function.update_of_ne hqp ..).trans hq
  · rcases hq with hq | hq <;> cases hq

/-- The scheduler switches to a process. -/
theorem Sound.dispatch (h : Sound s) (hk : s.mode k = .locked p) (hp : s.state p = .runnable) :
    Sound { s with
      state := Function.update s.state p .running
      mode := Function.update s.mode k (.running p) } := by
  have hplock := h.sched k p (.inl hk)
  -- the process is on no other processor
  have hoff : ∀ k', s.mode k' ≠ .running p := by
    intro k' hk'
    rcases h.running k' p hk' with hrun | hat
    · rw [hp] at hrun
      cases hrun
    · have howns : owns p (s.pc p) = some p := by
        rcases hpc : s.pc p with _ | l | l | ⟨code, c, l⟩ | _ | _ | _ | _ | _ | _ | _ | _ | _ | _ <;>
          rw [hpc] at hat <;> try cases hat
        · rcases code with _ | ⟨st, rest⟩
          · cases hat
          obtain ⟨n, hn⟩ := h.inSleep p _ c l hpc
          rcases suffix_cases hn.suffix with ⟨rfl, rfl⟩ | ⟨rfl, rfl⟩ | ⟨rfl, rfl⟩ | ⟨rfl, rfl⟩ |
            ⟨rfl, rfl⟩ | ⟨rfl, rfl⟩ | ⟨rfl, rfl⟩ | ⟨rfl, rfl⟩ <;> first | rfl | cases hat
        · rfl
      have hk'' := h.lock k' p p hk' howns
      rw [hplock] at hk''
      cases hk''
      rw [hk] at hk'
      cases hk'
  have hmode : ∀ {k' q}, Function.update s.mode k (.running p) k' = .running q →
      k' = k ∧ q = p ∨ k' ≠ k ∧ q ≠ p ∧ s.mode k' = .running q := by
    intro k' q hk'
    by_cases hkk : k' = k
    · subst hkk
      rw [Function.update_self] at hk'
      cases hk'
      exact .inl ⟨rfl, rfl⟩
    · rw [Function.update_of_ne hkk] at hk'
      refine .inr ⟨hkk, ?_, hk'⟩
      rintro rfl
      exact hoff k' hk'
  have hsame : ∀ {q}, q ≠ p → Function.update s.state p .running q = s.state q :=
    fun hq => Function.update_of_ne hq ..
  have hmode' : ∀ {k' q}, s.mode k' = .running q →
      Function.update s.mode k (.running p) k' = .running q := by
    intro k' q hk'
    have hkk : k' ≠ k := by
      rintro rfl
      rw [hk] at hk'
      cases hk'
    rw [Function.update_of_ne hkk, hk']
  have hresume := h.off p hoff
  have hpend : ∀ {q}, Pending { s with
      state := Function.update s.state p .running
      mode := Function.update s.mode k (.running p) } q → Pending s q := by
    rintro q (hq | hq)
    · by_cases hqp : q = p
      · subst hqp
        have hq : Function.update s.state q .running q = .sleeping := hq
        rw [Function.update_self] at hq
        cases hq
      · exact .inl ((hsame hqp).symm.trans hq)
    · exact .inr hq
  refine ⟨fun k' q r hk' hr => ?_, fun k' q hk' => ?_, fun k₁ k₂ q h₁ h₂ => ?_,
    fun k' q hk' => ?_, fun q hq => ?_, fun q code c l hq => ?_, fun q hq => ?_, h.count,
    fun q c l n hq hp => h.done q c l n hq (hpend hp),
    fun q c l n hq hp k' r rest hk' hr hwake hl hn => ?_⟩
  · rcases hmode hk' with ⟨rfl, rfl⟩ | ⟨-, -, hk'⟩
    · have hr : owns q (s.pc q) = some r := hr
      rcases hresume with hpc | ⟨c, l, hpc⟩ <;> rw [hpc] at hr <;> cases hr <;> exact hplock
    · exact h.lock k' q r hk' hr
  · refine h.sched k' q ?_
    by_cases hkk : k' = k
    · subst hkk
      rcases hk' with hk' | hk' <;>
      · have hk' : Function.update s.mode k' (.running p) k' = _ := hk'
        rw [Function.update_self] at hk'
        cases hk'
    · simpa only [Function.update_of_ne hkk] using hk'
  · rcases hmode h₁ with ⟨rfl, rfl⟩ | ⟨-, hq, h₁⟩ <;> rcases hmode h₂ with ⟨rfl, hq'⟩ | ⟨-, hq', h₂⟩
    · rfl
    · exact absurd rfl hq'
    · exact absurd hq' hq
    · exact h.unique k₁ k₂ q h₁ h₂
  · rcases hmode hk' with ⟨-, rfl⟩ | ⟨-, hq, hk'⟩
    · exact .inl (Function.update_self ..)
    · exact (h.running k' q hk').imp_left fun hrun => (hsame hq).trans hrun
  · exact h.off q fun k' hk' => hq k' (hmode' hk')
  · obtain ⟨n, hn⟩ := h.inSleep q code c l hq
    refine ⟨n, hn.suffix, hn.decision, fun hmem => ?_, hn.chan⟩
    obtain ⟨k', hk', hl, hacq⟩ := hn.held hmem
    exact ⟨k', hmode' hk', hl, hacq⟩
  · have hqp : q ≠ p := by
      rintro rfl
      have hq : Function.update s.state q .running q = .sleeping := hq
      rw [Function.update_self] at hq
      cases hq
    exact h.asleep q ((hsame hqp).symm.trans hq)
  · rcases hmode hk' with ⟨-, rfl⟩ | ⟨-, -, hk'⟩
    · have hwake : toWake (s.pc r) = some (c, rest) := hwake
      rcases hresume with hpc | ⟨c, l, hpc⟩ <;> rw [hpc] at hwake <;> cases hwake
    · exact h.todo q c l n hq (hpend hp) k' r rest hk' hr hwake hl hn

/-- A process switches to the scheduler. -/
theorem Sound.switch (h : Sound s) (hk : s.mode k = .running p)
    (hok : s.sched k p pc = .ok s')
    (hpc : pc = .unlockSelf ∨ ∃ c l, pc = .sleep [.clearChan, .unlock, .acquireLk] c l ∧
      s.pc p = .sleep [.sched, .clearChan, .unlock, .acquireLk] c l)
    (hyield : pc = .unlockSelf → s.state p ≠ .sleeping) : Sound s' := by
  rw [SleepState.sched] at hok
  split at hok
  · cases hok
  next hplock =>
  have hplock : s.plock p = some k := not_not.1 hplock
  split at hok
  · cases hok
  split at hok
  · cases hok
  cases hok
  have hself : Function.update s.pc p pc p = pc := Function.update_self ..
  have hother : ∀ {q}, q ≠ p → Function.update s.pc p pc q = s.pc q :=
    fun hq => Function.update_of_ne hq ..
  have hmode : ∀ {k' q}, Function.update s.mode k (.back p) k' = .running q →
      k' ≠ k ∧ q ≠ p ∧ s.mode k' = .running q := by
    intro k' q hk'
    by_cases hkk : k' = k
    · subst hkk
      rw [Function.update_self] at hk'
      cases hk'
    · rw [Function.update_of_ne hkk] at hk'
      refine ⟨hkk, ?_, hk'⟩
      rintro rfl
      exact hkk (h.unique k' k q hk' hk)
  have hmode' : ∀ {k' q}, q ≠ p → s.mode k' = .running q →
      Function.update s.mode k (.back p) k' = .running q := by
    intro k' q hq hk'
    have hkk : k' ≠ k := by
      rintro rfl
      rw [hk] at hk'
      cases hk'
      exact hq rfl
    rw [Function.update_of_ne hkk, hk']
  have hpend : ∀ {q}, Pending (SleepState.goto p pc { s with mode := Function.update s.mode k (.back p) }) q →
      Pending s q := by
    rintro q (hq | ⟨code, c, l, hq, hmem⟩)
    · exact .inl hq
    · by_cases hqp : q = p
      · subst hqp
        have hq := hself.symm.trans hq
        rcases hpc with rfl | ⟨c', l', rfl, -⟩ <;> cases hq
        exact absurd hmem (by decide)
      · exact .inr ⟨code, c, l, (hother hqp).symm.trans hq, hmem⟩
  refine ⟨fun k' q r hk' hr => ?_, fun k' q hk' => ?_, fun k₁ k₂ q h₁ h₂ => ?_,
    fun k' q hk' => ?_, fun q hq => ?_, fun q code c l hq => ?_, fun q hq => ?_, h.count,
    fun q c l n hq hp => h.done q c l n hq (hpend hp),
    fun q c l n hq hp k' r rest hk' hr hwake hl hn => ?_⟩
  · obtain ⟨-, hqp, hk'⟩ := hmode hk'
    have hr : owns q (Function.update s.pc p pc q) = some r := hr
    rw [hother hqp] at hr
    exact h.lock k' q r hk' hr
  · by_cases hkk : k' = k
    · subst hkk
      have hk' : Function.update s.mode k' (.back p) k' = .locked q ∨
        Function.update s.mode k' (.back p) k' = .back q := hk'
      rw [Function.update_self] at hk'
      rcases hk' with hk' | hk' <;> cases hk'
      exact hplock
    · refine h.sched k' q ?_
      simpa only [SleepState.goto, Function.update_of_ne hkk] using hk'
  · exact h.unique k₁ k₂ q (hmode h₁).2.2 (hmode h₂).2.2
  · obtain ⟨-, hqp, hk'⟩ := hmode hk'
    refine (h.running k' q hk').imp_right fun hat => ?_
    show atSched (Function.update s.pc p pc q)
    rwa [hother hqp]
  · show Function.update s.pc p pc q = _ ∨ ∃ c l, Function.update s.pc p pc q = _
    by_cases hqp : q = p
    · subst hqp
      rw [hself]
      exact hpc.imp_right fun ⟨c, l, heq, _⟩ => ⟨c, l, heq⟩
    · rw [hother hqp]
      exact h.off q fun k' hk' => hq k' (hmode' hqp hk')
  · have hq : Function.update s.pc p pc q = .sleep code c l := hq
    by_cases hqp : q = p
    · subst hqp
      rw [hself] at hq
      rcases hpc with rfl | ⟨c', l', rfl, hold⟩ <;> cases hq
      obtain ⟨n, hn⟩ := h.inSleep q _ c l hold
      exact ⟨n, ⟨by decide, hn.decision, fun hmem => absurd hmem (by decide),
        fun _ _ => hn.chan (by decide) (by decide)⟩⟩
    · rw [hother hqp] at hq
      obtain ⟨n, hn⟩ := h.inSleep q code c l hq
      refine ⟨n, hn.suffix, hn.decision, fun hmem => ?_, hn.chan⟩
      obtain ⟨k', hk', hl, hacq⟩ := hn.held hmem
      exact ⟨k', hmode' hqp hk', hl, hacq⟩
  · show ∃ code c l, Function.update s.pc p pc q = .sleep code c l ∧ _
    by_cases hqp : q = p
    · subst hqp
      rw [hself]
      rcases hpc with rfl | ⟨c, l, rfl, -⟩
      · exact absurd hq (hyield rfl)
      · exact ⟨_, c, l, rfl, by decide, by decide⟩
    · rw [hother hqp]
      exact h.asleep q hq
  · obtain ⟨-, hrp, hk'⟩ := hmode hk'
    have hwake : toWake (Function.update s.pc p pc r) = some (c, rest) := hwake
    rw [hother hrp] at hwake
    exact h.todo q c l n hq (hpend hp) k' r rest hk' hr hwake hl hn

/-! ## Steps of a process -/

omit [DecidableEq ι] [DecidableEq κ] in
/-- A process whose lock another process has taken after a later acquisition of `l` is asleep. -/
theorem Sound.asleep_of_locked (h : Sound s) {k : κ} (hk : s.mode k = .running p)
    (hlock : s.plock q = some k) (hqp : q ≠ p) {c : χ} {l : Λ} {n : Nat}
    (hd : s.decision q = some (c, l, n)) (hpend : Pending s q) (hn : n < s.acquired l) :
    s.state q = .sleeping ∧ s.chan q = some c := by
  rcases hpend with hs | ⟨code, c', l', hpc, hmem⟩
  · refine ⟨hs, ?_⟩
    obtain ⟨code, c', l', hpc, hset, hclear⟩ := h.asleep q hs
    obtain ⟨n', hn'⟩ := h.inSleep q code c' l' hpc
    have hdec := hn'.decision
    rw [hd] at hdec
    cases hdec
    refine hn'.chan (fun hmem => hset ?_) hclear
    rcases code with _ | ⟨st, rest⟩
    · cases hmem
    rcases suffix_cases hn'.suffix with ⟨rfl, rfl⟩ | ⟨rfl, rfl⟩ | ⟨rfl, rfl⟩ | ⟨rfl, rfl⟩ |
      ⟨rfl, rfl⟩ | ⟨rfl, rfl⟩ | ⟨rfl, rfl⟩ | ⟨rfl, rfl⟩ <;> first | decide | simp at hmem
  · exfalso
    obtain ⟨n', hn'⟩ := h.inSleep q code c' l' hpc
    have hdec := hn'.decision
    rw [hd] at hdec
    cases hdec
    by_cases hrel : .releaseLk ∈ code
    · obtain ⟨k', -, -, rfl⟩ := hn'.held hrel
      exact absurd hn (lt_irrefl _)
    · -- it holds its own lock
      have howns : SleepState.owns q (s.pc q) = some q := by
        rw [hpc]
        rcases code with _ | ⟨st, rest⟩
        · cases hmem
        rcases suffix_cases hn'.suffix with ⟨rfl, rfl⟩ | ⟨rfl, rfl⟩ | ⟨rfl, rfl⟩ | ⟨rfl, rfl⟩ |
          ⟨rfl, rfl⟩ | ⟨rfl, rfl⟩ | ⟨rfl, rfl⟩ | ⟨rfl, rfl⟩ <;>
          first | rfl | (simp at hrel; done) | simp at hmem
      by_cases hrun : ∃ k', s.mode k' = .running q
      · obtain ⟨k', hk'⟩ := hrun
        have hl := h.lock k' q q hk' howns
        rw [hlock] at hl
        cases hl
        rw [hk] at hk'
        cases hk'
        exact hqp rfl
      · rcases h.off q (fun k' hk' => hrun ⟨k', hk'⟩) with hoff | ⟨c'', l'', hoff⟩
        · rw [hoff] at hpc
          cases hpc
        · rw [hoff] at hpc
          cases hpc
          exact absurd hmem (by decide)

omit [DecidableEq ι] [DecidableEq κ] in
/-- The process on a processor is `RUNNING`, except at `sched`. -/
theorem Sound.run_state (h : Sound s) (hk : s.mode k = .running p) (hat : ¬ atSched (s.pc p)) :
    s.state p = .running := (h.running k p hk).resolve_right hat

/-- A sleeping process is made runnable by the process that holds its lock. -/
theorem Sound.wake (h : Sound s) (hk : s.mode k = .running p) (hrun : s.state p = .running)
    {cond : Prop} [Decidable cond] (hcond : cond → s.state q = .sleeping)
    (howns : ∀ r, owns p pc = some r → s.plock r = some k)
    (hpc : ∀ code c l, pc ≠ .sleep code c l)
    (htodo : ∀ r c l n, r ≠ p → s.decision r = some (c, l, n) → Pending s r →
      (cond → r ≠ q) → ∀ rest, toWake pc = some (c, rest) → s.lk l = some k → n < s.acquired l →
        r ∈ rest) :
    Sound (SleepState.goto p pc (if cond then s.rouse q else s)) := by
  split
  · next hc =>
    have hs := hcond hc
    have hqp : q ≠ p := by
      rintro rfl
      rw [hs] at hrun
      cases hrun
    have hself : Function.update s.pc p pc p = pc := Function.update_self ..
    have hstate : ∀ r ≠ q, Function.update s.state q .runnable r = s.state r :=
      fun r hr => Function.update_of_ne hr ..
    -- a process that is woken is not going to sleep again in this sleep
    have hwoken : ∀ r, Pending (SleepState.goto p pc (s.rouse q)) r → r ≠ p →
        Pending s r ∧ r ≠ q := by
      intro r hpend hr
      have hold : Pending s r := by
        refine pending_of_woken hpend (Function.update_of_ne hr ..) ?_
        by_cases hrq : r = q
        · subst hrq
          exact .inr ⟨hs, Function.update_self ..⟩
        · exact .inl (hstate r hrq)
      refine ⟨hold, ?_⟩
      rintro rfl
      rcases hpend with hp | ⟨code, c, l, hp, hmem⟩
      · have hp : Function.update s.state r .runnable r = .sleeping := hp
        rw [Function.update_self] at hp
        cases hp
      · have hp : s.pc r = .sleep code c l := (Function.update_of_ne hr _ _).symm.trans hp
        obtain ⟨code', c', l', hpc', hset, -⟩ := h.asleep r hs
        rw [hp] at hpc'
        cases hpc'
        exact hset hmem
    refine h.stay hk rfl (fun r hr => Function.update_of_ne hr ..) (fun _ _ => rfl) (fun _ _ => rfl)
      (fun r _ => ?_) (fun _ _ _ hr => hr) (fun _ _ _ => Iff.rfl) (fun _ => le_rfl)
      (fun _ _ _ _ => rfl) (fun _ hr => .inl hr) (fun r hr => howns r (hself ▸ hr))
      (.inl ((hstate p (Ne.symm hqp)).trans hrun))
      (fun code c l hc => absurd (hself.symm.trans hc) (hpc code c l)) (fun hp => ?_)
      (fun c l n hd hpend => ?_) (fun _ _ _ _ _ _ r hr _ _ _ => .inl hr)
      (fun r c l n hr hd hpend rest hw => ?_)
    · by_cases hrq : r = q
      · subst hrq
        exact .inr ⟨hs, Function.update_self ..⟩
      · exact .inl (hstate r hrq)
    · have hp := (hstate p (Ne.symm hqp)).symm.trans hp
      rw [hrun] at hp
      cases hp
    · rcases hpend with hp | ⟨code, c', l', hp, -⟩
      · have hp := (hstate p (Ne.symm hqp)).symm.trans hp
        rw [hrun] at hp
        cases hp
      · exact absurd (hself.symm.trans hp) (hpc code c' l')
    · obtain ⟨hold, hrq⟩ := hwoken r hpend hr
      exact htodo r c l n hr hd hold (fun _ => hrq) rest (hself ▸ hw)
  · next hc =>
    exact h.goto hk hrun howns (fun code c l heq => absurd heq (hpc code c l))
      (fun ⟨code, c, l, heq, _⟩ => absurd heq (hpc code c l))
      fun r c l n hr hd hpend => htodo r c l n hr hd hpend fun hcon => absurd hcon hc

/-- The process writes its own channel. -/
theorem Sound.setChan (h : Sound s) (hk : s.mode k = .running p) (hrun : s.state p = .running)
    {x : Option χ} (howns : ∀ q, owns p pc = some q → s.plock q = some k)
    (hin : ∀ code c l, pc = .sleep code c l → ∃ n,
      InSleep (SleepState.goto p pc { s with chan := Function.update s.chan p x }) p code c l n)
    (hself : (∃ code c l, pc = .sleep code c l ∧ .setSleeping ∈ code) → Pending s p)
    (hwake : toWake pc = none) :
    Sound (SleepState.goto p pc { s with chan := Function.update s.chan p x }) := by
  have hp : Function.update s.pc p pc p = pc := Function.update_self ..
  refine h.stay hk rfl (fun r hr => Function.update_of_ne hr ..)
    (fun r hr => Function.update_of_ne hr ..) (fun _ _ => rfl) (fun _ _ => .inl rfl)
    (fun _ _ _ hr => hr) (fun _ _ _ => Iff.rfl) (fun _ => le_rfl) (fun _ _ _ _ => rfl)
    (fun _ hr => .inl hr) (fun r hr => howns r (hp ▸ hr)) (.inl hrun)
    (fun code c l hc => hin code c l (hp.symm.trans hc)) (fun hs => ?_)
    (fun c l n hd hpend => .inl ⟨hd, ?_⟩) (fun _ _ _ _ _ _ r hr _ _ _ => .inl hr)
    (fun r c l n hr hd hpend rest hw => ?_)
  · rw [show s.state p = .sleeping from hs] at hrun
    cases hrun
  · rcases hpend with hs | ⟨code, c, l, hc, hmem⟩
    · exact .inl hs
    · exact hself ⟨code, c, l, hp.symm.trans hc, hmem⟩
  · have hw : toWake (Function.update s.pc p pc p) = some (c, rest) := hw
    rw [hp, hwake] at hw
    cases hw

/-- The process writes its own state before it switches. -/
theorem Sound.setState (h : Sound s) (hk : s.mode k = .running p) {st : ProcessState}
    (hat : atSched pc) (howns : ∀ q, owns p pc = some q → s.plock q = some k)
    (hin : ∀ code c l, pc = .sleep code c l → ∃ n,
      InSleep (SleepState.goto p pc { s with state := Function.update s.state p st }) p code c l n)
    (hsleep : st = .sleeping → Pending s p ∧
      ∃ code c l, pc = .sleep code c l ∧ .setSleeping ∉ code ∧ .clearChan ∈ code)
    (hself : (∃ code c l, pc = .sleep code c l ∧ .setSleeping ∈ code) → Pending s p)
    (hwake : toWake pc = none) :
    Sound (SleepState.goto p pc { s with state := Function.update s.state p st }) := by
  have hp : Function.update s.pc p pc p = pc := Function.update_self ..
  have hst : Function.update s.state p st p = st := Function.update_self ..
  refine h.stay hk rfl (fun r hr => Function.update_of_ne hr ..) (fun _ _ => rfl) (fun _ _ => rfl)
    (fun r hr => .inl (Function.update_of_ne hr ..)) (fun _ _ _ hr => hr) (fun _ _ _ => Iff.rfl)
    (fun _ => le_rfl) (fun _ _ _ _ => rfl) (fun _ hr => .inl hr) (fun r hr => howns r (hp ▸ hr))
    (.inr ?_) (fun code c l hc => hin code c l (hp.symm.trans hc)) (fun hs => ?_)
    (fun c l n hd hpend => .inl ⟨hd, ?_⟩) (fun _ _ _ _ _ _ r hr _ _ _ => .inl hr)
    (fun r c l n hr hd hpend rest hw => ?_)
  · show atSched (Function.update s.pc p pc p)
    rwa [hp]
  · obtain ⟨-, code, c, l, hpc, hcode⟩ := hsleep (hst.symm.trans hs)
    exact ⟨code, c, l, hp.trans hpc, hcode⟩
  · rcases hpend with hs | ⟨code, c, l, hc, hmem⟩
    · exact (hsleep (hst.symm.trans hs)).1
    · exact hself ⟨code, c, l, hp.symm.trans hc, hmem⟩
  · have hw : toWake (Function.update s.pc p pc p) = some (c, rest) := hw
    rw [hp, hwake] at hw
    cases hw

/-- One statement of a sleep. -/
theorem Sound.sleepStep [DecidableEq Λ] (h : Sound s) (hk : s.mode k = .running p) {st : SleepStmt}
    {rest : List SleepStmt} {c : χ} {l : Λ} (hpc : s.pc p = .sleep (st :: rest) c l)
    (hok : s.sleepStep k p c l rest st = some (.ok s')) : Sound s' := by
  obtain ⟨n, hn⟩ := h.inSleep p _ c l hpc
  have hpend : .setSleeping ∈ st :: rest → Pending s p := fun hmem => .inr ⟨_, c, l, hpc, hmem⟩
  have hplock : owns p (s.pc p) = some p → s.plock p = some k := h.lock k p p hk
  have hdecision := hn.decision
  rcases suffix_cases hn.suffix with ⟨rfl, rfl⟩ | ⟨rfl, rfl⟩ | ⟨rfl, rfl⟩ | ⟨rfl, rfl⟩ |
    ⟨rfl, rfl⟩ | ⟨rfl, rfl⟩ | ⟨rfl, rfl⟩ | ⟨rfl, rfl⟩
  · have hrun := h.run_state hk (by rw [hpc]; exact id)
    refine h.lockProc hk hrun hok rfl ?_ (fun _ => hpend (by decide)) nofun
    rintro code c' l' ⟨⟩
    rw [SleepState.sleepStep, SleepState.lockProc] at hok
    split at hok
    · cases hok
    split at hok
    · cases hok
    cases hok
    exact ⟨n, by decide, hdecision, fun _ => hn.held (by decide), fun hm => absurd (by decide) hm⟩
  · have hrun := h.run_state hk (by rw [hpc]; exact id)
    have hself := hplock (by rw [hpc]; rfl)
    refine h.release hk hrun (Option.some.inj hok) ?_ ?_ (fun _ => hpend (by decide)) rfl
    · rintro q ⟨⟩
      exact hself
    rintro code c' l' ⟨⟩
    have hok := Option.some.inj hok
    rw [SleepState.unlock] at hok
    split at hok
    · cases hok
    cases hok
    exact ⟨n, by decide, hdecision, fun hm => absurd hm (by decide), fun hm => absurd (by decide) hm⟩
  · have hrun := h.run_state hk (by rw [hpc]; exact id)
    have hself := hplock (by rw [hpc]; rfl)
    cases hok
    refine h.setChan hk hrun ?_ ?_ (fun _ => hpend (by decide)) rfl
    · rintro q ⟨⟩
      exact hself
    rintro code c' l' ⟨⟩
    exact ⟨n, by decide, hdecision, fun hm => absurd hm (by decide),
      fun _ _ => Function.update_self ..⟩
  · have hself := hplock (by rw [hpc]; rfl)
    cases hok
    refine h.setState hk trivial ?_ ?_ (fun _ => ⟨hpend (by decide), _, c, l, rfl, by decide,
      by decide⟩) (fun _ => hpend (by decide)) rfl
    · rintro q ⟨⟩
      exact hself
    rintro code c' l' ⟨⟩
    exact ⟨n, by decide, hdecision, fun hm => absurd hm (by decide),
      fun _ _ => hn.chan (by decide) (by decide)⟩
  · exact h.switch hk (Option.some.inj hok) (.inr ⟨c, l, rfl, hpc⟩) nofun
  · have hrun := h.run_state hk (by rw [hpc]; exact id)
    have hself := hplock (by rw [hpc]; rfl)
    cases hok
    refine h.setChan hk hrun ?_ ?_ ?_ rfl
    · rintro q ⟨⟩
      exact hself
    · rintro code c' l' ⟨⟩
      exact ⟨n, by decide, hdecision, fun hm => absurd hm (by decide), fun _ hm => absurd hm (by decide)⟩
    · rintro ⟨code, c', l', ⟨⟩, hmem⟩
      exact absurd hmem (by decide)
  · have hrun := h.run_state hk (by rw [hpc]; exact id)
    refine h.unlockProc hk hrun (Option.some.inj hok) rfl ?_ ?_ nofun
    · rintro code c' l' ⟨⟩
      have hok := Option.some.inj hok
      rw [SleepState.unlockProc] at hok
      split at hok
      · cases hok
      cases hok
      exact ⟨n, by decide, hdecision, fun hm => absurd hm (by decide), fun _ hm => absurd hm (by decide)⟩
    · rintro ⟨code, c', l', ⟨⟩, hmem⟩
      exact absurd hmem (by decide)
  · have hrun := h.run_state hk (by rw [hpc]; exact id)
    refine h.acquire hk hrun hok rfl ?_ ?_ rfl
    · rintro code c' l' ⟨⟩
      rw [SleepState.sleepStep, SleepState.lock] at hok
      split at hok
      · cases hok
      split at hok
      · cases hok
      cases hok
      exact ⟨n, by decide, hdecision, fun hm => absurd hm (by decide), fun _ hm => absurd hm (by decide)⟩
    · rintro ⟨code, c', l', ⟨⟩, hmem⟩
      exact absurd hmem (by decide)

/-- A `wakeup` is finished. -/
theorem Sound.woke (h : Sound s) (hk : s.mode k = .running p) {c : χ}
    (hpc : s.pc p = .wakeup c []) :
    Sound (SleepState.goto p .idle { s with wakeups := ⟨p, c, s.under k⟩ :: s.wakeups }) := by
  have hrun := h.run_state hk (by rw [hpc]; exact id)
  have hidle : Function.update s.pc p .idle p = .idle := Function.update_self ..
  refine h.stay hk rfl (fun r hr => Function.update_of_ne hr ..) (fun _ _ => rfl) (fun _ _ => rfl)
    (fun _ _ => .inl rfl) (fun _ _ _ hr => hr) (fun _ _ _ => Iff.rfl) (fun _ => le_rfl)
    (fun _ _ _ _ => rfl) (fun r hr => ?_) (fun q hq => ?_) (.inl hrun)
    (fun code c l hc => absurd (hidle.symm.trans hc) nofun) (fun hs => ?_)
    (fun c l n hd hpend => ?_) (fun q c' l n hd hpend r hr hrc m hm => ?_)
    (fun r c l n hr hd hpend rest hw => ?_)
  · rcases List.mem_cons.1 hr with rfl | hr
    · exact .inr ⟨rfl, rfl⟩
    · exact .inl hr
  · have hq : owns p (Function.update s.pc p .idle p) = some q := hq
    rw [hidle] at hq
    cases hq
  · rw [show s.state p = .sleeping from hs] at hrun
    cases hrun
  · rcases hpend with hs | ⟨code, c, l, hc, -⟩
    · rw [show s.state p = .sleeping from hs] at hrun
      cases hrun
    · exact absurd (hidle.symm.trans hc) nofun
  · rcases List.mem_cons.1 hr with rfl | hr
    · -- it has looked at every process
      refine .inr (Nat.le_of_not_lt fun hlt => ?_)
      have hrc : c = c' := hrc
      subst hrc
      have hm : s.under k l = some m := hm
      rw [under] at hm
      split at hm
      · next hl =>
        cases hm
        have hqp : q ≠ p := by
          rintro rfl
          rcases hpend with hs | ⟨code, c, l, hc, -⟩
          · rw [show s.state q = .sleeping from hs] at hrun
            cases hrun
          · exact absurd (hidle.symm.trans hc) nofun
        have hold : Pending s q := pending_of_woken hpend (Function.update_of_ne hqp ..) (.inl rfl)
        have := h.todo q c l n hd hold k p [] hk (Ne.symm hqp) (by rw [hpc]; rfl) hl hlt
        cases this
      · cases hm
    · exact .inl hr
  · have hw : toWake (Function.update s.pc p .idle p) = some (c, rest) := hw
    rw [hidle] at hw
    cases hw

/-- One statement of the process on a processor. -/
theorem Sound.advance [DecidableEq χ] [DecidableEq Λ] (h : Sound s) (hk : s.mode k = .running p)
    (hok : s.advance k p (s.pc p) = some (.ok s')) : Sound s' := by
  have hrun : ¬ atSched (s.pc p) → s.state p = .running := h.run_state hk
  have hlock : ∀ q, owns p (s.pc p) = some q → s.plock q = some k := fun q => h.lock k p q hk
  have hwaking : ∀ q c l n, q ≠ p → s.decision q = some (c, l, n) → Pending s q →
      ∀ rest, toWake (s.pc p) = some (c, rest) → s.lk l = some k → n < s.acquired l → q ∈ rest :=
    fun q c l n hq hd hpend rest hw => h.todo q c l n hd hpend k p rest hk (Ne.symm hq) hw
  rcases hpc : s.pc p with _ | l | l | ⟨code, c, l⟩ | ⟨c, rest⟩ | ⟨c, q, rest⟩ | ⟨c, q, rest⟩ | q | q |
    q | _ | _ | _ | _ <;> rw [hpc] at hok hrun hlock hwaking
  · cases hok
  · exact h.acquire hk (hrun id) hok rfl nofun (by simp) rfl
  · exact h.release hk (hrun id) (Option.some.inj hok) nofun nofun (by simp) rfl
  · rcases code with _ | ⟨st, rest⟩
    · cases hok
      exact h.goto hk (hrun id) nofun nofun (by simp) nofun
    · exact h.sleepStep hk hpc hok
  · rcases rest with _ | ⟨q, rest⟩
    · cases hok
      exact h.woke hk hpc
    · rw [SleepState.advance] at hok
      split at hok
      · exact h.lockProc hk (hrun id) hok rfl nofun (by simp) fun r c' l n hr hd hpend rest' hw =>
          hwaking r c' l n hr hd hpend rest' hw
      · next hqp =>
        cases hok
        refine h.goto hk (hrun id) nofun nofun (by simp) fun r c' l n hr hd hpend rest' hw hl hn => ?_
        cases hw
        have hmem := hwaking r c l n hr hd hpend (q :: rest) rfl hl hn
        refine (List.mem_cons.1 hmem).resolve_left ?_
        rintro rfl
        exact hr (not_not.1 hqp)
  · cases hok
    refine h.wake hk (hrun id) And.left (fun r hr => hlock r hr) nofun
      fun r c' l n hr hd hpend hne rest' hw hl hn => ?_
    cases hw
    have hmem := hwaking r c l n hr hd hpend (q :: rest) rfl hl hn
    refine (List.mem_cons.1 hmem).resolve_left ?_
    rintro rfl
    exact hne (h.asleep_of_locked hk (hlock r rfl) hr hd hpend hn) rfl
  · exact h.unlockProc hk (hrun id) (Option.some.inj hok) rfl nofun (by simp) hwaking
  · exact h.lockProc hk (hrun id) hok rfl nofun (by simp) nofun
  · cases hok
    exact h.wake hk (hrun id) id (fun r hr => hlock r hr) nofun nofun
  · exact h.unlockProc hk (hrun id) (Option.some.inj hok) rfl nofun (by simp) nofun
  · exact h.lockProc hk (hrun id) hok rfl nofun (by simp) nofun
  · cases hok
    exact h.setState hk trivial (fun r hr => hlock r hr) nofun nofun (by simp) rfl
  · refine h.switch hk (Option.some.inj hok) (.inl rfl) fun _ hs => ?_
    obtain ⟨code, c, l, hc, -⟩ := h.asleep p hs
    rw [hpc] at hc
    cases hc
  · exact h.unlockProc hk (hrun id) (Option.some.inj hok) rfl nofun (by simp) nofun

/-- A call. -/
theorem Sound.call [DecidableEq Λ] {procs : List ι} (hall : ∀ p, p ∈ procs) (h : Sound s)
    (hk : s.mode k = .running p) (hpc : s.pc p = .idle) {f : SleepCall ι χ Λ}
    (hok : s.call procs k p f = some (.ok s')) : Sound s' := by
  have hrun := h.run_state hk (by rw [hpc]; exact id)
  cases f with
  | acquire l | release l | yield | kill q =>
    cases hok
    exact h.goto hk hrun nofun nofun (by simp [entry]) nofun
  | wakeup c =>
    cases hok
    refine h.goto hk hrun nofun nofun (by simp [entry]) fun r c' l n _ _ _ rest hw _ _ => ?_
    cases hw
    exact hall r
  | sleep impl c l =>
    rw [SleepState.call] at hok
    split at hok
    · next hl =>
      cases hok
      have hself : Function.update s.pc p (entry procs (.sleep impl c l)) p =
          .sleep Process.sleep c l := by
        rw [Function.update_self, entry, impl.code_eq]
      have hdec : Function.update s.decision p (some (c, l, s.acquired l)) p =
          some (c, l, s.acquired l) := Function.update_self ..
      refine h.stay hk rfl (fun r hr => Function.update_of_ne hr ..) (fun _ _ => rfl)
        (fun r hr => Function.update_of_ne hr ..) (fun _ _ => .inl rfl) (fun _ _ _ hr => hr)
        (fun _ _ _ => Iff.rfl) (fun _ => le_rfl) (fun _ _ _ _ => rfl) (fun _ hr => .inl hr)
        (fun r hr => ?_) (.inl hrun) (fun code c' l' hc => ?_) (fun hs => ?_)
        (fun c' l' n hd _ => ?_) (fun _ _ _ _ _ _ r hr _ _ _ => .inl hr)
        (fun r c' l' n hr hd hpend rest hw => ?_)
      · have hr : owns p (Function.update s.pc p (entry procs (.sleep impl c l)) p) = some r := hr
        rw [hself] at hr
        cases hr
      · have hc := hself.symm.trans hc
        cases hc
        exact ⟨s.acquired l, List.suffix_refl _, hdec, fun _ => ⟨k, hk, hl, rfl⟩,
          fun hm => absurd (by decide) hm⟩
      · rw [show s.state p = .sleeping from hs] at hrun
        cases hrun
      · have hd := hdec.symm.trans hd
        cases hd
        exact .inr rfl
      · have hw : toWake (Function.update s.pc p (entry procs (.sleep impl c l)) p) =
          some (c', rest) := hw
        rw [hself] at hw
        cases hw
    · cases hok

/-- **Every step keeps what holds in every reachable state.** -/
theorem Sound.step [DecidableEq χ] [DecidableEq Λ] {procs : List ι} (hall : ∀ p, p ∈ procs)
    (h : Sound s) {a : SleepAct ι κ χ Λ} (ha : step procs s a = some (.ok s')) : Sound s' := by
  cases a with
  | pick k p =>
    rw [SleepState.step] at ha
    split at ha
    · next hk =>
      rw [SleepState.lockProc] at ha
      split at ha
      · cases ha
      split at ha
      · cases ha
      next hfree =>
      have hfree : s.plock p = none := not_not.1 hfree
      cases ha
      refine h.scheduler (k := k) (m := .locked p) (fun q hq => absurd (hk.symm.trans hq) nofun) nofun
        rfl rfl rfl rfl rfl rfl rfl rfl (fun q k' _ hq => ?_) (fun q hq => ?_)
      · have hqp : q ≠ p := by
          rintro rfl
          rw [hfree] at hq
          cases hq
        exact (Function.update_of_ne hqp ..).trans hq
      · rcases hq with hq | hq <;> cases hq
        exact Function.update_self ..
    · cases ha
  | dispatch k =>
    rw [SleepState.step] at ha
    split at ha
    · next p hk =>
      split at ha
      · next hp =>
        cases ha
        exact h.dispatch hk hp
      · exact h.park (.inl hk) (Option.some.inj ha)
    · cases ha
  | finish k =>
    rw [SleepState.step] at ha
    split at ha
    · next p hk => exact h.park (.inr hk) (Option.some.inj ha)
    · cases ha
  | call k f =>
    rw [SleepState.step] at ha
    split at ha
    · next p hk =>
      split at ha
      · next hpc => exact h.call hall hk hpc ha
      · cases ha
    · cases ha
  | step k =>
    rw [SleepState.step] at ha
    split at ha
    · next p hk => exact h.advance hk ha
    · cases ha

end

theorem sound_init : Sound (init : SleepState ι κ χ Λ) where
  lock := fun _ _ _ h => absurd h nofun
  sched := fun _ _ h => h.elim nofun nofun
  unique := fun _ _ _ h => absurd h nofun
  running := fun _ _ h => absurd h nofun
  off := fun _ _ => .inl rfl
  inSleep := fun _ _ _ _ h => absurd h nofun
  asleep := fun _ h => absurd h nofun
  count := fun _ h => absurd h List.not_mem_nil
  done := fun _ _ _ _ h => absurd h nofun
  todo := fun _ _ _ _ h => absurd h nofun

end SleepState

open SleepState

/-- **No wakeup is lost.**  The process `p` has decided to sleep on `c` under acquisition number `n` of `l`,
and a `wakeup(c)` was made and finished under a later acquisition of `l`.  Then, until it decides to sleep
again, `p` is not `SLEEPING` and will not become so. -/
theorem no_lost_wakeup {N : Nat} {κ χ Λ : Type} [DecidableEq κ] [DecidableEq χ] [DecidableEq Λ]
    {as : List (SleepAct (Fin N) κ χ Λ)} {s : SleepState (Fin N) κ χ Λ}
    (h : Machine.Run (SleepState.step (List.finRange N)) SleepState.init as s) {p : Fin N} {c : χ}
    {l : Λ} {n m : Nat} (hp : s.decision p = some (c, l, n)) {w : WakeupRecord (Fin N) χ Λ}
    (hw : w ∈ s.wakeups) (hc : w.chan = c) (hl : w.held l = some m) (hlater : n < m) :
    s.state p ≠ .sleeping ∧
      ∀ code c' l', s.pc p = .sleep code c' l' → SleepStmt.setSleeping ∉ code := by
  have hs : Sound s := h.invariant sound_init fun _ _ _ h ha => h.step List.mem_finRange ha
  have hno : ¬ Pending s p := fun hpend =>
    absurd (hs.done p c l n hp hpend w hw hc m hl) (Nat.not_le.2 hlater)
  exact ⟨fun hsl => hno (.inl hsl), fun code c' l' hpc hmem => hno (.inr ⟨code, c', l', hpc, hmem⟩)⟩

/-- A schedule on two processors: process 0 takes the lock, decides to sleep and gives the lock up;
process 1 takes it and begins its `wakeup` while process 0 is still on its way to sleep. -/
def lateSleeper : List (SleepAct (Fin 2) Bool Unit Unit) :=
  [.pick false ⟨0, Nat.two_pos⟩, .dispatch false, .step false, .pick true ⟨1, Nat.one_lt_two⟩,
    .dispatch true, .step true,
    .call false (.acquire ()), .step false, .call false (.sleep .process () ()), .step false,
    .step false, .call true (.acquire ()), .step true, .call true (.wakeup ()), .step false,
    .step false, .step false, .finish false, .step true, .step true, .step true, .step true,
    .step true]

/-- The sleeper of `lateSleeper` is woken. -/
theorem no_lost_wakeup_late : ∃ s : SleepState (Fin 2) Bool Unit Unit, ∃ w ∈ s.wakeups,
    Machine.Run (SleepState.step (List.finRange 2)) SleepState.init lateSleeper s ∧
    s.decision 0 = some ((), (), 1) ∧ w.held () = some 2 ∧ s.state 0 ≠ .sleeping := by
  have hrun : ∃ s : SleepState (Fin 2) Bool Unit Unit, ∃ w ∈ s.wakeups,
      Machine.Run (SleepState.step (List.finRange 2)) SleepState.init lateSleeper s ∧
      s.decision 0 = some ((), (), 1) ∧ w.held () = some 2 :=
    ⟨_, _, List.mem_singleton_self _, Machine.run_of_exec rfl, rfl, rfl⟩
  obtain ⟨s, w, hw, hs, hd, hl⟩ := hrun
  exact ⟨s, w, hw, hs, hd, hl, (no_lost_wakeup hs hd hw rfl hl (by decide)).1⟩

end Xv6pp
