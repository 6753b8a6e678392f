import Mathlib.Order.Nat
import Xv6pp.Console.ConsoleInterface

/-!
# The line discipline of the console

What the console is for: it collects the characters that are typed into lines, lets the last line be
edited until it is committed, and hands the committed characters to readers.  `LineDiscipline` is this
machine on lists of characters, without indices and without a buffer that wraps around; the console
shows such a machine at all times (`ConsoleInterface.Shows`), and a reader takes characters off it as
`Stretch` says.
-/

set_option autoImplicit false

namespace Xv6pp

open ConsoleInterface

/-! ## Lines -/

/-- The characters typed at a console. -/
structure LineDiscipline where
  /-- The characters that have been committed. -/
  committed : List UInt8
  /-- How many of them readers have taken. -/
  taken : Nat
  /-- The line that is being edited. -/
  line : List UInt8

namespace LineDiscipline

/-- Nothing has been typed. -/
def empty : LineDiscipline := ⟨[], 0, []⟩

/-- The committed characters that no reader has taken. -/
def unread (l : LineDiscipline) : List UInt8 := l.committed.drop l.taken

/-- The number of characters that no reader has taken. -/
def held (l : LineDiscipline) : Nat := l.unread.length + l.line.length

/-- The line ends with a newline or an end-of-file, or the console is full. -/
def complete (l : LineDiscipline) : Bool :=
  l.line.getLast? = some newline || l.line.getLast? = some (C 'D') || l.held = INPUT_BUF_SIZE

/-- A complete line is committed. -/
def commit (l : LineDiscipline) : LineDiscipline :=
  if l.complete then { l with committed := l.committed ++ l.line, line := [] } else l

/-- A character is typed: `^P` is not for the reader, `^U` removes the line, `^H` and the delete key
its last character, NUL and what does not fit are dropped, and CR becomes a newline. -/
def type (l : LineDiscipline) (ch : UInt8) : LineDiscipline :=
  if ch = C 'P' then l
  else if ch = C 'U' then { l with line := [] }
  else if ch = C 'H' ∨ ch = delete then { l with line := l.line.dropLast }
  else if ch ≠ 0 ∧ l.held < INPUT_BUF_SIZE then
    commit { l with line := l.line ++ [if ch = carriageReturn then newline else ch] }
  else l

/-- One event. -/
def event (l : LineDiscipline) : ConsoleEvent → LineDiscipline
  | .typed ch => l.type ch
  | .taken n => { l with taken := l.taken + n }

/-- All events. -/
def run (trace : List ConsoleEvent) : LineDiscipline := trace.foldl event empty

theorem run_append (trace : List ConsoleEvent) (x : ConsoleEvent) :
    run (trace ++ [x]) = (run trace).event x := by
  rw [run, List.foldl_append]
  rfl

theorem committed_commit (l : LineDiscipline) : l.committed <+: l.commit.committed := by
  rw [commit]
  split
  · exact List.prefix_append _ _
  · exact List.prefix_rfl

/-- Nothing that is committed is ever removed. -/
theorem committed_type (l : LineDiscipline) (ch : UInt8) : l.committed <+: (l.type ch).committed := by
  rw [type]
  split
  · exact List.prefix_rfl
  split
  · exact List.prefix_rfl
  split
  · exact List.prefix_rfl
  split
  · exact committed_commit { l with line := l.line ++ [_] }
  · exact List.prefix_rfl

theorem taken_commit (l : LineDiscipline) : l.commit.taken = l.taken := by
  rw [commit]
  split <;> rfl

theorem taken_type (l : LineDiscipline) (ch : UInt8) : (l.type ch).taken = l.taken := by
  rw [type]
  split
  · rfl
  split
  · rfl
  split
  · rfl
  split
  · exact taken_commit { l with line := l.line ++ [_] }
  · rfl

end LineDiscipline

/-! ## The console shows lines -/

namespace ConsoleInterface

/-- The characters in the buffer, oldest first. -/
def contents (c : ConsoleInterface) : List UInt8 :=
  Ring.contents INPUT_BUF_SIZE (2 ^ 32) c.buf c.r.toNat c.e.toNat

theorem toNat_succ (x : UInt32) : (x + 1).toNat = (x.toNat + 1) % 2 ^ 32 := UInt32.toNat_add x 1

theorem toNat_pred (x : UInt32) : (x - 1).toNat = (x.toNat + 2 ^ 32 - 1) % 2 ^ 32 := by
  rw [UInt32.toNat_sub]
  congr 1
  have h1 : UInt32.toNat 1 = 1 := rfl
  rw [h1]
  omega

/-- The distance of two indices. -/
theorem toNat_sub (x y : UInt32) : (y - x).toNat = Ring.count (2 ^ 32) x.toNat y.toNat := by
  have hx := x.toNat_lt
  rw [Ring.count, UInt32.toNat_sub]
  congr 1
  omega

/-- The console shows the lines `l`. -/
structure Shows (c : ConsoleInterface) (l : LineDiscipline) : Prop where
  taken : l.taken ≤ l.committed.length
  contents : c.contents = l.unread ++ l.line
  unread : (c.w - c.r).toNat = l.unread.length
  /-- The line that is being edited has no newline in it. -/
  line : newline ∉ l.line
  held : l.held ≤ INPUT_BUF_SIZE

section
variable {c : ConsoleInterface} {l : LineDiscipline} {ch : UInt8}

theorem shows_opened (buf : Nat → UInt8) : (opened buf).Shows .empty := by
  have hcount : Ring.count (2 ^ 32) (UInt32.toNat 0) (UInt32.toNat 0) = 0 := by decide
  refine ⟨le_rfl, ?_, (toNat_sub _ _).trans hcount, List.not_mem_nil, Nat.zero_le _⟩
  rw [ConsoleInterface.contents, Ring.contents]
  exact congrArg (fun n => (List.range n).map _) hcount

namespace Shows

/-- The distance from `r` to `e`. -/
theorem edit (h : c.Shows l) : (c.e - c.r).toNat = l.held := by
  have hlen := congrArg List.length h.contents
  rw [ConsoleInterface.contents, Ring.contents, List.length_map, List.length_range,
    List.length_append] at hlen
  rw [toNat_sub, hlen]
  rfl

/-- `w` and `e` agree when there is no line. -/
theorem edit_eq (h : c.Shows l) : c.e = c.w ↔ l.line = [] := by
  have he := h.edit
  have hw := h.unread
  rw [toNat_sub] at he hw
  rw [← UInt32.toNat_inj, ← Ring.count_inj c.r.toNat_lt c.e.toNat_lt c.w.toNat_lt, he, hw,
    ← List.length_eq_zero_iff, LineDiscipline.held]
  omega

/-- The distance from `w` to `e`. -/
theorem line_length (h : c.Shows l) : (c.e - c.w).toNat = l.line.length := by
  have he := h.edit
  have hw := h.unread
  rw [toNat_sub] at he hw
  have hle : Ring.count (2 ^ 32) c.r.toNat c.w.toNat ≤ Ring.count (2 ^ 32) c.r.toNat c.e.toNat := by
    rw [he, hw]
    exact Nat.le_add_right _ _
  rw [toNat_sub, Ring.count_sub c.r.toNat_lt c.w.toNat_lt c.e.toNat_lt hle, he, hw, LineDiscipline.held]
  omega

/-- `r` and `w` agree when there is nothing to read. -/
theorem read_eq (h : c.Shows l) : c.r = c.w ↔ l.unread = [] := by
  have hw := h.unread
  rw [toNat_sub] at hw
  rw [← UInt32.toNat_inj, ← Ring.count_eq_zero c.r.toNat_lt c.w.toNat_lt, hw, List.length_eq_zero_iff]

/-! ### Typing -/

/-- The last character of the line is removed. -/
theorem back (h : c.Shows l) (hne : l.line ≠ []) :
    ({ c with e := c.e - 1 } : ConsoleInterface).Shows { l with line := l.line.dropLast } ∧
      c.buf ((c.e - 1).toNat % INPUT_BUF_SIZE) = l.line.getLast hne := by
  have hpos : 0 < (c.e - c.r).toNat := by
    rw [h.edit, LineDiscipline.held]
    have := List.length_pos_iff.2 hne
    omega
  have hre : c.r.toNat ≠ c.e.toNat := fun heq => by
    rw [toNat_sub, (Ring.count_eq_zero c.r.toNat_lt c.e.toNat_lt).2 heq] at hpos
    exact absurd hpos (Nat.lt_irrefl 0)
  have hdvd : INPUT_BUF_SIZE ∣ 2 ^ 32 := by decide
  have hpop := Ring.contents_unpush c.buf hdvd c.r.toNat_lt c.e.toNat_lt hre
  rw [← toNat_pred] at hpop
  have hall := h.contents
  rw [ConsoleInterface.contents, hpop, ← List.dropLast_append_getLast hne, ← List.append_assoc] at hall
  obtain ⟨hinit, hlast⟩ := List.append_inj_left' hall rfl, List.append_inj_right' hall rfl
  refine ⟨⟨h.taken, hinit, h.unread, fun hmem => h.line (List.dropLast_subset _ hmem), ?_⟩,
    List.singleton_inj.1 hlast⟩
  have hheld := h.held
  simp only [LineDiscipline.held, LineDiscipline.unread, List.length_dropLast] at *
  omega

/-- The loop that kills a line takes all of it away. -/
theorem killLineFrom {n : Nat} (h : c.Shows l) (hn : l.line.length = n) :
    (c.killLineFrom n).Shows { l with line := [] } := by
  induction n generalizing c l with
  | zero =>
    have hnil := List.eq_nil_of_length_eq_zero hn
    rw [ConsoleInterface.killLineFrom]
    rw [← hnil]
    exact h
  | succ n ih =>
    have hne : l.line ≠ [] := List.ne_nil_of_length_pos (hn ▸ Nat.succ_pos n)
    obtain ⟨hback, hcell⟩ := h.back hne
    rw [ConsoleInterface.killLineFrom, if_pos]
    · exact ih (l := { l with line := l.line.dropLast }) hback
        (by rw [List.length_dropLast, hn, Nat.add_sub_cancel])
    · refine ⟨fun heq => hne (h.edit_eq.1 heq), ?_⟩
      rw [hcell]
      exact fun heq => h.line (heq ▸ List.getLast_mem hne)

/-- A character is put in. -/
theorem push (h : c.Shows l) (hlt : l.held < INPUT_BUF_SIZE) (ch : UInt8) :
    let c' : ConsoleInterface :=
      { c with buf := Function.update c.buf (c.e.toNat % INPUT_BUF_SIZE) ch, e := c.e + 1 }
    c'.contents = l.unread ++ (l.line ++ [ch]) ∧ (c'.e - c'.r).toNat = l.held + 1 := by
  have he := h.edit
  rw [toNat_sub] at he
  have hsize : INPUT_BUF_SIZE = 128 := rfl
  refine ⟨?_, ?_⟩
  · rw [ConsoleInterface.contents, toNat_succ, ← List.append_assoc, ← h.contents]
    exact Ring.contents_push c.buf (by decide) (by decide) c.r.toNat_lt c.e.toNat_lt (by omega) ch
  · rw [toNat_sub, toNat_succ, ← he]
    exact Ring.count_push c.r.toNat_lt c.e.toNat_lt (by rw [he]; omega)

theorem store (h : c.Shows l) (hlt : l.held < INPUT_BUF_SIZE) (hch : ch ≠ 0) :
    (c.store ch).1.Shows
      (LineDiscipline.commit { l with line := l.line ++ [if ch = carriageReturn then newline else ch] }) := by
  rw [ConsoleInterface.store, if_pos ⟨hch, by rw [h.edit]; exact hlt⟩]
  generalize (if ch = carriageReturn then newline else ch) = x
  obtain ⟨hcontents, hdist⟩ := h.push hlt x
  have hlast : (l.line ++ [x]).getLast? = some x := List.getLast?_concat
  have hheld : LineDiscipline.held { l with line := l.line ++ [x] } = l.held + 1 := by
    rw [LineDiscipline.held, List.length_append, ← Nat.add_assoc]
    rfl
  have hcomplete : LineDiscipline.complete { l with line := l.line ++ [x] } = true ↔
      x = newline ∨ x = C 'D' ∨ l.held + 1 = INPUT_BUF_SIZE := by
    simp only [LineDiscipline.complete, hlast, hheld, Bool.or_eq_true, decide_eq_true_eq,
      Option.some.injEq, or_assoc]
  dsimp only at hcontents hdist ⊢
  simp only [hdist]
  rw [LineDiscipline.commit]
  split
  · next hc =>
    rw [if_pos (hcomplete.2 hc)]
    have hunread : (l.committed ++ (l.line ++ [x])).drop l.taken = l.unread ++ (l.line ++ [x]) :=
      List.drop_append_of_le_length h.taken
    refine ⟨?_, ?_, ?_, List.not_mem_nil, ?_⟩
    · exact h.taken.trans (List.prefix_append _ _).length_le
    · rw [LineDiscipline.unread, hunread, List.append_nil]
      exact hcontents
    · rw [LineDiscipline.unread, hunread, List.length_append]
      exact hdist.trans hheld.symm
    · rw [LineDiscipline.held, LineDiscipline.unread, hunread, List.length_append]
      exact hheld.le.trans hlt
  · next hc =>
    rw [if_neg fun hcomp => hc (hcomplete.1 hcomp)]
    refine ⟨h.taken, hcontents, h.unread, fun hmem => ?_, hheld.le.trans hlt⟩
    rcases List.mem_append.1 hmem with hline | hx
    · exact h.line hline
    · exact hc (.inl (List.mem_singleton.1 hx).symm)

/-- **Typing a character.** -/
theorem interrupt (h : c.Shows l) (ch : UInt8) : (c.interrupt ch).1.Shows (l.type ch) := by
  rw [ConsoleInterface.interrupt, LineDiscipline.type]
  split
  · exact h
  split
  · exact h.killLineFrom h.line_length.symm
  split
  · by_cases hline : l.line = []
    · rw [if_neg (not_not.2 (h.edit_eq.2 hline)), hline]
      have hl : { l with line := [] } = l := by rw [← hline]
      exact hl.symm ▸ h
    · rw [if_pos fun heq => hline (h.edit_eq.1 heq)]
      exact (h.back hline).1
  split
  · next hc => exact h.store hc.2 hc.1
  · next hc =>
    rw [ConsoleInterface.store, if_neg (by rw [h.edit]; exact hc)]
    exact h

/-! ### Reading -/

/-- A character is taken out. -/
theorem pop {rest : List UInt8} (h : c.Shows l) (hu : l.unread = ch :: rest) :
    c.buf (c.r.toNat % INPUT_BUF_SIZE) = ch ∧
      ({ c with r := c.r + 1 } : ConsoleInterface).Shows { l with taken := l.taken + 1 } ∧
      LineDiscipline.unread { l with taken := l.taken + 1 } = rest := by
  have hrest : LineDiscipline.unread { l with taken := l.taken + 1 } = rest := by
    show l.committed.drop (l.taken + 1) = rest
    rw [← List.tail_drop]
    exact congrArg List.tail hu
  have hre : c.r.toNat ≠ c.e.toNat := fun heq => by
    have hd := h.edit
    rw [toNat_sub, (Ring.count_eq_zero c.r.toNat_lt c.e.toNat_lt).2 heq, LineDiscipline.held, hu] at hd
    simp only [List.length_cons] at hd
    omega
  have hrw : c.r.toNat ≠ c.w.toNat := fun heq => by
    rw [h.read_eq.1 (UInt32.toNat_inj.1 heq)] at hu
    cases hu
  have hall := h.contents
  rw [ConsoleInterface.contents, Ring.contents_pop (by decide) c.r.toNat_lt c.e.toNat_lt hre, hu,
    List.cons_append] at hall
  obtain ⟨hcell, htail⟩ := List.cons.inj hall
  refine ⟨hcell, ⟨?_, ?_, ?_, h.line, ?_⟩, hrest⟩
  · show l.taken + 1 ≤ l.committed.length
    have hlen := congrArg List.length hu
    rw [LineDiscipline.unread, List.length_drop, List.length_cons] at hlen
    omega
  · rw [hrest, ConsoleInterface.contents, toNat_succ]
    exact htail
  · have hw := h.unread
    rw [toNat_sub, Ring.count_pop c.r.toNat_lt c.w.toNat_lt hrw, hu, List.length_cons] at hw
    rw [hrest, toNat_sub, toNat_succ]
    exact Nat.add_right_cancel hw
  · have hheld := h.held
    rw [LineDiscipline.held, hu, List.length_cons] at hheld
    rw [LineDiscipline.held, hrest]
    dsimp only
    omega

end Shows

end

end ConsoleInterface

/-- Neither a newline nor an end-of-file. -/
def Plain (x : List UInt8) : Prop := newline ∉ x ∧ C 'D' ∉ x

/-- **What a stretch of `read` does**: from the characters `u` it takes the first ones and adds them to
the bytes `out` that it has copied, up to a newline or an end-of-file. -/
inductive Stretch (target : Int) (out u : List UInt8) : Nat → List UInt8 → Option Int → Prop
  /-- There is nothing more to read. -/
  | sleeps (hu : Plain u) (hlt : (out ++ u).length < target) : Stretch target out u u.length (out ++ u) none
  /-- The caller has got what it asked for. -/
  | full (x rest : List UInt8) (hu : u = x ++ rest) (hx : Plain x) (hge : target ≤ (out ++ x).length) :
    Stretch target out u x.length (out ++ x) (some (out ++ x).length)
  /-- A whole line has arrived. -/
  | line (x rest : List UInt8) (hu : u = x ++ newline :: rest) (hx : Plain x)
    (hlt : (out ++ x).length < target) :
    Stretch target out u (x.length + 1) (out ++ x ++ [newline]) (some (out ++ x ++ [newline]).length)
  /-- An end-of-file after some bytes is left for the next call. -/
  | pushed (x rest : List UInt8) (hu : u = x ++ C 'D' :: rest) (hx : Plain x)
    (hlt : (out ++ x).length < target) (hne : out ++ x ≠ []) :
    Stretch target out u x.length (out ++ x) (some (out ++ x).length)
  /-- An end-of-file. -/
  | eof (rest : List UInt8) (hu : u = C 'D' :: rest) (hout : out = []) (hpos : 0 < target) :
    Stretch target out u 1 [] (some 0)

namespace Stretch

variable {target : Int} {out u out' : List UInt8} {ch : UInt8} {k : Nat} {res : Option Int}

theorem plain_cons {x : List UInt8} (hn : ch ≠ newline) (hd : ch ≠ C 'D') (hx : Plain x) :
    Plain (ch :: x) := by
  refine ⟨fun hmem => ?_, fun hmem => ?_⟩
  · rcases List.mem_cons.1 hmem with he | ht
    · exact hn he.symm
    · exact hx.1 ht
  · rcases List.mem_cons.1 hmem with he | ht
    · exact hd he.symm
    · exact hx.2 ht

theorem plain_nil : Plain [] := ⟨List.not_mem_nil, List.not_mem_nil⟩

/-- One more character in front. -/
theorem cons (hn : ch ≠ newline) (hd : ch ≠ C 'D') (h : Stretch target (out ++ [ch]) u k out' res) :
    Stretch target out (ch :: u) (k + 1) out' res := by
  have hassoc : ∀ x : List UInt8, out ++ [ch] ++ x = out ++ (ch :: x) := fun x => by
    rw [List.append_assoc, List.singleton_append]
  cases h with
  | sleeps hu hlt =>
    rw [hassoc] at hlt ⊢
    exact .sleeps (plain_cons hn hd hu) hlt
  | full x rest hu hx hge =>
    rw [hassoc] at hge ⊢
    exact .full (ch :: x) rest (by rw [hu, List.cons_append]) (plain_cons hn hd hx) hge
  | line x rest hu hx hlt =>
    rw [hassoc] at hlt ⊢
    exact .line (ch :: x) rest (by rw [hu, List.cons_append]) (plain_cons hn hd hx) hlt
  | pushed x rest hu hx hlt hne =>
    rw [hassoc] at hlt hne ⊢
    exact .pushed (ch :: x) rest (by rw [hu, List.cons_append]) (plain_cons hn hd hx) hlt hne
  | eof rest hu hout hpos => exact absurd hout (by simp)

end Stretch

namespace ConsoleInterface

section
variable {c : ConsoleInterface} {l : LineDiscipline} {target : Int} {out : List UInt8}

/-- The loop of `read`. -/
theorem Shows.readFrom {fuel : Nat} (h : c.Shows l) (hfuel : target.toNat ≤ out.length + fuel) :
    ∀ {c' out' res}, c.readFrom false (fun _ => true) target fuel out = (c', out', res) →
      ∃ k ≤ l.unread.length, Stretch target out l.unread k out' res ∧
        c'.Shows { l with taken := l.taken + k } ∧ c'.w = c.w := by
  induction fuel generalizing c l out with
  | zero =>
    rintro c' out' res ⟨⟩
    have hfull : Stretch target out l.unread _ _ _ := .full [] l.unread rfl
      Stretch.plain_nil (by rw [List.append_nil]; omega)
    rw [List.append_nil] at hfull
    exact ⟨0, Nat.zero_le _, hfull, h, rfl⟩
  | succ fuel ih =>
    intro c' out' res hread
    rw [ConsoleInterface.readFrom] at hread
    split at hread
    · next hlt =>
      split at hread
      · next hempty =>
        cases hread
        have hnil := h.read_eq.1 hempty
        have hsleep : Stretch target out l.unread _ _ _ := .sleeps
          (by rw [hnil]; exact Stretch.plain_nil) (by rw [hnil, List.append_nil]; exact hlt)
        rw [hnil, List.append_nil] at hsleep
        refine ⟨0, Nat.zero_le _, ?_, h, rfl⟩
        rw [hnil]
        exact hsleep
      · next hne =>
        obtain ⟨ch, rest, hu⟩ := List.exists_cons_of_ne_nil fun hnil => hne (h.read_eq.2 hnil)
        obtain ⟨hcell, hpop, hrest⟩ := h.pop hu
        simp only [hcell] at hread
        have hone : 1 ≤ l.unread.length := by
          rw [hu, List.length_cons]
          exact Nat.succ_pos _
        split at hread
        · next heof =>
          subst heof
          cases hread
          split
          · next hpos =>
            have hpushed : Stretch target out l.unread _ _ _ := .pushed [] rest hu
              Stretch.plain_nil (by rw [List.append_nil]; exact hlt)
              (by rw [List.append_nil]; exact List.ne_nil_of_length_pos hpos)
            rw [List.append_nil] at hpushed
            refine ⟨0, Nat.zero_le _, hpushed, ?_, rfl⟩
            have hback : c.r + 1 - 1 = c.r := by rw [UInt32.add_sub_cancel]
            rw [hback]
            exact h
          · next hpos =>
            have hout : out = [] := List.eq_nil_of_length_eq_zero (by omega)
            subst hout
            exact ⟨1, hone, .eof rest hu rfl hlt, hpop, rfl⟩
        split at hread
        · next hfault => cases hfault
        split at hread
        · next hnd _ hnl =>
          subst hnl
          cases hread
          have hline : Stretch target out l.unread _ _ _ := .line [] rest hu
            Stretch.plain_nil (by rw [List.append_nil]; exact hlt)
          rw [List.append_nil] at hline
          exact ⟨1, hone, hline, hpop, rfl⟩
        · next hnd _ hnl =>
          obtain ⟨k, hk, hstretch, hshows, hw⟩ := ih hpop
            (by rw [List.length_append, List.length_singleton]; omega) hread
          rw [hrest] at hk hstretch
          refine ⟨k + 1, by rw [hu, List.length_cons]; omega, hu ▸ hstretch.cons hnl hnd, ?_, hw⟩
          rw [Nat.add_assoc, Nat.add_comm 1 k] at hshows
          exact hshows
    · next hge =>
      cases hread
      have hfull : Stretch target out l.unread _ _ _ := .full [] l.unread rfl
        Stretch.plain_nil (by rw [List.append_nil]; omega)
      rw [List.append_nil] at hfull
      exact ⟨0, Nat.zero_le _, hfull, h, rfl⟩

/-- **A stretch of `read`.** -/
theorem Shows.read {c' : ConsoleInterface} {out' : List UInt8} {res : Option Int} (h : c.Shows l)
    (hread : c.read false (fun _ => true) target out = (c', out', res)) :
    ∃ k ≤ l.unread.length, Stretch target out l.unread k out' res ∧
      c'.Shows { l with taken := l.taken + k } ∧ (c'.r - c.r).toNat = k := by
  obtain ⟨k, hk, hstretch, hshows, hw⟩ := h.readFrom (by omega) hread
  refine ⟨k, hk, hstretch, hshows, ?_⟩
  have hdrop : (LineDiscipline.unread { l with taken := l.taken + k }).length = l.unread.length - k := by
    show (l.committed.drop (l.taken + k)).length = (l.committed.drop l.taken).length - k
    rw [List.length_drop, List.length_drop]
    omega
  have h1 := h.unread
  have h2 := hshows.unread
  rw [hdrop, hw] at h2
  have hr := c.r.toNat_lt
  have hr' := c'.r.toNat_lt
  have hw' := c.w.toNat_lt
  rw [UInt32.toNat_sub] at h1 h2 ⊢
  omega

end

/-- The committed characters in the buffer. -/
def unread (c : ConsoleInterface) : List UInt8 :=
  Ring.contents INPUT_BUF_SIZE (2 ^ 32) c.buf c.r.toNat c.w.toNat

theorem Shows.unread_eq {c : ConsoleInterface} {l : LineDiscipline} (h : c.Shows l) :
    c.unread = l.unread := by
  have he := h.edit
  have hw := h.unread
  rw [toNat_sub] at he hw
  have hle : Ring.count (2 ^ 32) c.r.toNat c.w.toNat ≤ Ring.count (2 ^ 32) c.r.toNat c.e.toNat := by
    rw [he, hw]
    exact Nat.le_add_right _ _
  rw [ConsoleInterface.unread, Ring.contents_take c.buf hle, hw]
  exact (congrArg (List.take _) h.contents).trans (List.take_left' rfl)

end ConsoleInterface

/-! ## Finished reads -/

/-- The call returned `0` because of an end-of-file. -/
def ConsoleRead.atEof (rd : ConsoleRead) : Bool := rd.bytes.isEmpty && decide (0 < rd.target)

/-- What a finished `read` has got: characters without an end-of-file, and at most one newline, which
is the last of them; and why it returned. -/
structure ConsoleRead.Finished (rd : ConsoleRead) : Prop where
  result : rd.result = rd.bytes.length
  noEof : C 'D' ∉ rd.bytes
  oneLine : newline ∉ rd.bytes.dropLast
  /-- It got what it asked for, or a line, or it came to an end-of-file. -/
  stopped : rd.target ≤ rd.bytes.length ∨ rd.bytes.getLast? = some newline ∨ rd.atEof = true ∨
    rd.bytes ≠ [] ∧ rd.console.unread.head? = some (C 'D')

namespace Stretch

variable {target : Int} {out u out' : List UInt8} {k : Nat} {res : Option Int}

theorem filter_plain {x : List UInt8} (hx : Plain x) : x.filter (· ≠ C 'D') = x :=
  List.filter_eq_self.2 fun _ hy => decide_eq_true fun he => hx.2 (he ▸ hy)

theorem plain_append {x y : List UInt8} (hx : Plain x) (hy : Plain y) : Plain (x ++ y) :=
  ⟨fun h => (List.mem_append.1 h).elim hx.1 hy.1, fun h => (List.mem_append.1 h).elim hx.2 hy.2⟩

/-- The bytes that are copied are those that are taken, but for an end-of-file. -/
theorem out_eq (h : Stretch target out u k out' res) :
    out' = out ++ (u.take k).filter (· ≠ C 'D') := by
  cases h with
  | sleeps hu hlt => rw [List.take_length, filter_plain hu]
  | full x rest hu hx hge => rw [hu, List.take_left' rfl, filter_plain hx]
  | line x rest hu hx hlt =>
    have hsplit : x ++ newline :: rest = (x ++ [newline]) ++ rest := by simp
    rw [hu, hsplit, List.take_left' (by simp), List.filter_append, filter_plain hx, List.append_assoc]
    rfl
  | pushed x rest hu hx hlt hne => rw [hu, List.take_left' rfl, filter_plain hx]
  | eof rest hu hout hpos =>
    rw [hu, hout]
    rfl

theorem count_plain {x : List UInt8} (hx : Plain x) : x.count (C 'D') = 0 := List.count_eq_zero.2 hx.2

/-- An end-of-file is taken by a call that returns `0`, and by no other. -/
theorem count_eof (h : Stretch target out u k out' res) (c : ConsoleInterface) :
    (u.take k).count (C 'D') =
      (res.map fun v => ({ target, bytes := out', result := v, console := c } : ConsoleRead)).toList.countP
        ConsoleRead.atEof := by
  have hnone : ∀ {v : Int}, (out' = [] → target ≤ 0) →
      [({ target, bytes := out', result := v, console := c } : ConsoleRead)].countP ConsoleRead.atEof = 0 := by
    intro v hne
    rw [List.countP_eq_zero]
    intro rd hrd
    rw [List.mem_singleton.1 hrd]
    by_cases hnil : out' = []
    · simp [ConsoleRead.atEof, hne hnil]
    · simp [ConsoleRead.atEof, hnil]
  cases h with
  | sleeps hu hlt =>
    rw [List.take_length, count_plain hu]
    rfl
  | full x rest hu hx hge =>
    rw [hu, List.take_left' rfl, count_plain hx]
    exact (hnone fun hnil => by rwa [hnil] at hge).symm
  | line x rest hu hx hlt =>
    have hsplit : x ++ newline :: rest = (x ++ [newline]) ++ rest := by simp
    rw [hu, hsplit, List.take_left' (by simp), List.count_append, count_plain hx]
    exact (hnone fun hnil => absurd hnil (by simp)).symm
  | pushed x rest hu hx hlt hne =>
    rw [hu, List.take_left' rfl, count_plain hx]
    exact (hnone fun hnil => absurd hnil hne).symm
  | eof rest hu hout hpos =>
    rw [hu]
    simp [ConsoleRead.atEof, hpos]

/-- A call that sleeps has copied characters of an unfinished line. -/
theorem pending (h : Stretch target out u k out' none) (hout : Plain out) : Plain out' := by
  cases h with
  | sleeps hu hlt => exact plain_append hout hu

/-- A call that returns is finished. -/
theorem finished {v : Int} {c : ConsoleInterface} (h : Stretch target out u k out' (some v))
    (hout : Plain out) (hc : c.unread = u.drop k) :
    ConsoleRead.Finished { target, bytes := out', result := v, console := c } := by
  have hplain : ∀ {x : List UInt8}, Plain x → newline ∉ x.dropLast := fun hx hmem =>
    hx.1 (List.dropLast_subset _ hmem)
  cases h with
  | full x rest hu hx hge =>
    have hp := plain_append hout hx
    exact ⟨rfl, hp.2, hplain hp, .inl hge⟩
  | line x rest hu hx hlt =>
    have hp := plain_append hout hx
    refine ⟨rfl, fun hmem => ?_, ?_, .inr (.inl List.getLast?_concat)⟩
    · rcases List.mem_append.1 hmem with hmem | hmem
      · exact hp.2 hmem
      · exact absurd (List.mem_singleton.1 hmem) (by decide)
    · dsimp only
      rw [List.dropLast_concat]
      exact hp.1
  | pushed x rest hu hx hlt hne =>
    have hp := plain_append hout hx
    refine ⟨rfl, hp.2, hplain hp, .inr (.inr (.inr ⟨hne, ?_⟩))⟩
    dsimp only
    rw [hc, hu, List.drop_left' rfl]
    rfl
  | eof rest hu hout hpos =>
    refine ⟨rfl, List.not_mem_nil, List.not_mem_nil, .inr (.inr (.inl ?_))⟩
    simp [ConsoleRead.atEof, hpos]

end Stretch

/-! ## Runs -/

/-- The character that an action brings. -/
def ConsoleAct.input {ι : Type} : ConsoleAct ι → Option UInt8
  | .interrupt ch => some ch
  | _ => none

/-- The character that an event records. -/
def ConsoleEvent.input : ConsoleEvent → Option UInt8
  | .typed ch => some ch
  | .taken _ => none

namespace ConsoleUsers

variable {ι : Type} {s s' : ConsoleUsers ι}

/-- The books are right. -/
structure Disciplined (acts : List (ConsoleAct ι)) (s : ConsoleUsers ι) : Prop where
  input : s.trace.filterMap ConsoleEvent.input = acts.filterMap ConsoleAct.input
  shows : s.console.Shows (.run s.trace)
  /-- A call that waits has copied characters of an unfinished line. -/
  pending : ∀ p call, s.calls p = some call → Plain call.out
  delivered : s.delivered =
    ((LineDiscipline.run s.trace).committed.take (LineDiscipline.run s.trace).taken).filter (· ≠ C 'D')
  finished : ∀ rd ∈ s.reads, rd.Finished
  eofs : ((LineDiscipline.run s.trace).committed.take (LineDiscipline.run s.trace).taken).count (C 'D') =
    s.reads.countP ConsoleRead.atEof

theorem disciplined_init (buf : Nat → UInt8) : Disciplined [] (init buf : ConsoleUsers ι) where
  input := rfl
  shows := shows_opened buf
  pending p call h := by cases h
  delivered := rfl
  finished rd h := absurd h List.not_mem_nil
  eofs := rfl

/-- A character arrives. -/
theorem Disciplined.interrupt {acts : List (ConsoleAct ι)} (h : Disciplined acts s) (ch : UInt8)
    (hconsole : s'.console = (s.console.interrupt ch).1)
    (hcalls : ∀ p call, s'.calls p = some call → ∃ call', s.calls p = some call' ∧ call.out = call'.out)
    (htrace : s'.trace = s.trace ++ [.typed ch]) (hdelivered : s'.delivered = s.delivered)
    (hreads : s'.reads = s.reads) : Disciplined (acts ++ [.interrupt ch]) s' := by
  obtain ⟨l, hl⟩ : ∃ l, LineDiscipline.run s.trace = l := ⟨_, rfl⟩
  have hrun : LineDiscipline.run s'.trace = l.type ch := by
    rw [htrace, LineDiscipline.run_append, hl]
    rfl
  have hshows := h.shows
  have hdel := h.delivered
  have heofs := h.eofs
  rw [hl] at hshows hdel heofs
  -- what readers have taken stays
  have htaken := l.taken_type ch
  have hprefix : (l.type ch).committed.take l.taken = l.committed.take l.taken := by
    obtain ⟨t, ht⟩ := l.committed_type ch
    rw [← ht, List.take_append_of_le_length hshows.taken]
  refine ⟨?_, ?_, fun p call hcall => ?_, ?_, ?_, ?_⟩
  · rw [htrace, List.filterMap_append, List.filterMap_append, h.input]
    rfl
  · rw [hrun, hconsole]
    exact hshows.interrupt ch
  · obtain ⟨call', hcall', hout⟩ := hcalls p call hcall
    rw [hout]
    exact h.pending p call' hcall'
  · rw [hrun, htaken, hprefix, hdelivered, hdel]
  · rw [hreads]
    exact h.finished
  · rw [hrun, htaken, hprefix, hreads, heofs]

section
variable [DecidableEq ι]

/-- A stretch of a `read`. -/
theorem Disciplined.stretch {acts : List (ConsoleAct ι)} {a : ConsoleAct ι} {p : ι} {target : Int}
    {out : List UInt8} (h : Disciplined acts s) (ha : a.input = none) (hout : Plain out) :
    Disciplined (acts ++ [a]) (s.stretch p target out) := by
  obtain ⟨l, hl⟩ : ∃ l, LineDiscipline.run s.trace = l := ⟨_, rfl⟩
  have hshows := h.shows
  have hdel := h.delivered
  have heofs := h.eofs
  rw [hl] at hshows hdel heofs
  obtain ⟨c, out', res, hread⟩ : ∃ c out' res,
      s.console.read false (fun _ => true) target out = (c, out', res) := ⟨_, _, _, rfl⟩
  obtain ⟨k, hk, hstretch, hshows', hdist⟩ := hshows.read hread
  have hrun : LineDiscipline.run (s.trace ++ [.taken (c.r - s.console.r).toNat]) =
      { l with taken := l.taken + k } := by
    rw [LineDiscipline.run_append, hl, hdist]
    rfl
  have htake : l.committed.take (l.taken + k) = l.committed.take l.taken ++ l.unread.take k :=
    List.take_add
  have hdrop : c.unread = l.unread.drop k := by
    rw [hshows'.unread_eq]
    exact List.drop_drop.symm
  rw [ConsoleUsers.stretch, hread]
  refine ⟨?_, ?_, fun q call hcall => ?_, ?_, fun rd hrd => ?_, ?_⟩
  · dsimp only
    rw [List.filterMap_append, List.filterMap_append, h.input]
    simp [ConsoleEvent.input, ha]
  · dsimp only
    rw [hrun]
    exact hshows'
  · dsimp only at hcall
    by_cases hq : q = p
    · rw [hq, Function.update_self] at hcall
      split at hcall
      · next hnone =>
        cases hcall
        rw [hnone] at hstretch
        exact hstretch.pending hout
      · cases hcall
    · rw [Function.update_of_ne hq] at hcall
      exact h.pending q call hcall
  · dsimp only
    rw [hrun]
    dsimp only
    rw [htake, List.filter_append, hdel, hstretch.out_eq, List.drop_left' rfl]
  · dsimp only at hrd
    rcases List.mem_append.1 hrd with hold | hnew
    · exact h.finished rd hold
    · obtain ⟨v, hv, rfl⟩ : ∃ v, res = some v ∧ _ = rd := by simpa using hnew
      rw [hv] at hstretch
      exact hstretch.finished hout hdrop
  · dsimp only
    rw [hrun]
    dsimp only
    rw [htake, List.count_append, heofs, hstretch.count_eof c, List.countP_append]

theorem Disciplined.step {acts : List (ConsoleAct ι)} {a : ConsoleAct ι} (h : Disciplined acts s)
    (hs : s.step a = some (.ok s')) : Disciplined (acts ++ [a]) s' := by
  cases a with
  | interrupt ch =>
    cases hs
    refine h.interrupt ch rfl (fun p call hcall => ?_) rfl rfl rfl
    obtain ⟨call', hcall', rfl⟩ := Option.map_eq_some_iff.1 hcall
    exact ⟨call', hcall', rfl⟩
  | read p n =>
    rw [ConsoleUsers.step] at hs
    split at hs
    · cases hs
      exact h.stretch rfl Stretch.plain_nil
    · cases hs
  | resume p =>
    rw [ConsoleUsers.step] at hs
    split at hs
    · next target out hcall =>
      cases hs
      exact h.stretch rfl (h.pending p _ hcall)
    · cases hs

end

end ConsoleUsers

/-! ## Main result -/

/-- **The line discipline of the console.**  Whatever characters arrive and whoever reads, the indices
are in order and at most `INPUT_BUF_SIZE` apart; the console shows the lines that were typed; the bytes
handed to readers are the committed characters, in order and without the end-of-files; every read that
has returned has got at most one newline, or stopped before an end-of-file; and each end-of-file that
has been taken made one read return `0`. -/
theorem console_line_discipline {ι : Type} [DecidableEq ι] {buf : Nat → UInt8}
    {acts : List (ConsoleAct ι)} {s : ConsoleUsers ι}
    (h : Machine.Run ConsoleUsers.step (.init buf) acts s) :
    let l := LineDiscipline.run s.trace
    s.trace.filterMap ConsoleEvent.input = acts.filterMap ConsoleAct.input ∧
    (s.console.w - s.console.r).toNat + (s.console.e - s.console.w).toNat =
      (s.console.e - s.console.r).toNat ∧
    (s.console.e - s.console.r).toNat ≤ INPUT_BUF_SIZE ∧
    s.console.contents = l.unread ++ l.line ∧ s.console.unread = l.unread ∧
    l.taken ≤ l.committed.length ∧
    s.delivered = (l.committed.take l.taken).filter (· ≠ C 'D') ∧
    (∀ rd ∈ s.reads, rd.Finished) ∧
    (l.committed.take l.taken).count (C 'D') = s.reads.countP ConsoleRead.atEof := by
  have hd : ConsoleUsers.Disciplined acts s :=
    h.invariant_hist (ConsoleUsers.disciplined_init buf) fun _ _ _ _ hd hs => hd.step hs
  have hshows := hd.shows
  refine ⟨hd.input, ?_, ?_, hshows.contents, hshows.unread_eq, hshows.taken, hd.delivered, hd.finished,
    hd.eofs⟩
  · rw [hshows.unread, hshows.line_length, hshows.edit]
    rfl
  · rw [hshows.edit]
    exact hshows.held

/-- The line `ab`, its `b` corrected to `c`, and an end-of-file, with one reader. -/
def typedLine : List (ConsoleAct Unit) :=
  [.read () 10, .interrupt 97, .interrupt 98, .interrupt 8, .interrupt 99, .interrupt 13,
    .interrupt (C 'D'), .resume (), .read () 10]

/-- The reader gets the line, and then an end-of-file. -/
theorem console_line_discipline_typed : ∃ s : ConsoleUsers Unit,
    Machine.Run ConsoleUsers.step (.init fun _ => 0) typedLine s ∧
      s.delivered = [97, 99, newline] ∧ s.reads.map ConsoleRead.bytes = [[97, 99, newline], []] ∧
      s.delivered = ((LineDiscipline.run s.trace).committed.take
        (LineDiscipline.run s.trace).taken).filter (· ≠ C 'D') := by
  obtain ⟨s, hs, hdelivered, hreads⟩ : ∃ s : ConsoleUsers Unit,
      Machine.exec ConsoleUsers.step typedLine (.init fun _ => 0) = some (.ok s) ∧
        s.delivered = [97, 99, newline] ∧ s.reads.map ConsoleRead.bytes = [[97, 99, newline], []] :=
    ⟨_, rfl, rfl, rfl⟩
  have hrun := Machine.run_of_exec hs
  exact ⟨s, hrun, hdelivered, hreads, (console_line_discipline hrun).2.2.2.2.2.2.1⟩

end Xv6pp
