import Xv6pp.User.Matcher

/-!
# The output of `grep`

The loop of `user/grep.c` over the pieces in which `read` delivers a file.  The part of a line that has
been read so far is kept at the front of a buffer of fixed size, and the next piece is read behind it.

Whatever the pieces are, the lines that match are written, in order and complete, as long as every line
fits into the buffer.  A line that does not fit fills the buffer: `grep` then asks `read` for no bytes
at all, and takes the answer for the end of the file.
-/

set_option autoImplicit false

namespace Xv6pp

namespace Grep

/-! ## The code -/

/-- The character that ends a line. -/
def newline : UInt8 := 10

/-- `sizeof(buf)`. -/
def BUFSIZE : Nat := 1024

/-- `strchr`: how far from the beginning of a string the character is.  The list may have a zero, at
which the string ends, and is followed by one. -/
def strchr : List UInt8 → UInt8 → Option Nat
  | [], _ => none
  | d :: s, c => if d = 0 then none else if d = c then some 0 else (strchr s c).map (· + 1)

theorem length_drop_strchr {s : List UInt8} {c : UInt8} {q : Nat} (h : strchr s c = some q) :
    (s.drop (q + 1)).length < s.length := by
  cases s with
  | nil => cases h
  | cons d s =>
    rw [List.length_drop, List.length_cons]
    omega

/-- The inner loop, over the bytes from `p` on: what is written, one entry for each `write`, and the
bytes behind the last newline. -/
def scan (pattern p : List UInt8) : List (List UInt8) × List UInt8 :=
  match h : strchr p newline with
  | none => ([], p)
  | some q =>
    let r := scan pattern (p.drop (q + 1))
    (if matchText pattern (p.take q) then p.take (q + 1) :: r.1 else r.1, r.2)
termination_by p.length
decreasing_by exact length_drop_strchr h

/-- What `read` returns if it is asked for `n` bytes of `avail` and delivers pieces of the size `want`:
a piece that is not empty, unless it is asked for nothing or there is nothing. -/
def pieceSize (want n avail : Nat) : Nat := min (max want 1) (min n avail)

theorem pieceSize_le (want n avail : Nat) : pieceSize want n avail ≤ n ∧ pieceSize want n avail ≤ avail := by
  rw [pieceSize]
  omega

theorem length_drop_piece {want n : Nat} {input : List UInt8} (h : pieceSize want n input.length ≠ 0) :
    (input.drop (pieceSize want n input.length)).length < input.length := by
  have hle := pieceSize_le want n input.length
  rw [List.length_drop]
  omega

theorem pieceSize_eq_zero {want n avail : Nat} : pieceSize want n avail = 0 ↔ n = 0 ∨ avail = 0 := by
  rw [pieceSize]
  omega

/-- The outer loop, where the first bytes of the buffer are `data` and `input` has not been read: what
is written, and what is left of the input.  The `k`th piece is of the size `chop k`. -/
def grepFrom (pattern : List UInt8) (chop : Nat → Nat) (k : Nat) (data input : List UInt8) :
    List (List UInt8) × List UInt8 :=
  let n := pieceSize (chop k) (BUFSIZE - data.length - 1) input.length
  if _h : n = 0 then ([], input)
  else
    let r := scan pattern (data ++ input.take n)
    let r' := grepFrom pattern chop (k + 1) r.2 (input.drop n)
    (r.1 ++ r'.1, r'.2)
termination_by input.length
decreasing_by exact length_drop_piece _h

/-- `grep`. -/
def grep (pattern : List UInt8) (chop : Nat → Nat) (input : List UInt8) : List (List UInt8) × List UInt8 :=
  grepFrom pattern chop 0 [] input

/-! ## Lines -/

/-- The bytes of a file with these lines. -/
def text (lines : List (List UInt8)) : List UInt8 := lines.flatMap (· ++ [newline])

/-- What is to be written: the lines that match, each with its newline. -/
def matching (pattern : List UInt8) (lines : List (List UInt8)) : List (List UInt8) :=
  (lines.filter (matchText pattern)).map (· ++ [newline])

/-- A line: no byte of it ends a line or a string. -/
structure IsLine (l : List UInt8) : Prop where
  newline : newline ∉ l
  zero : (0 : UInt8) ∉ l

section
variable {pattern p data input l rest : List UInt8} {lines : List (List UInt8)} {chop : Nat → Nat} {k : Nat}

@[simp] theorem text_nil : text [] = [] := rfl

@[simp] theorem text_cons (l : List UInt8) (lines : List (List UInt8)) :
    text (l :: lines) = l ++ newline :: text lines := by
  rw [text, List.flatMap_cons, List.append_assoc]
  rfl

theorem matching_cons (l : List UInt8) (lines : List (List UInt8)) : matching pattern (l :: lines) =
    if matchText pattern l then (l ++ [newline]) :: matching pattern lines else matching pattern lines := by
  rw [matching, List.filter_cons]
  split
  · rfl
  · rfl

theorem matching_append (lines lines' : List (List UInt8)) :
    matching pattern (lines ++ lines') = matching pattern lines ++ matching pattern lines' := by
  rw [matching, List.filter_append, List.map_append]
  rfl

theorem strchr_of_line (h : IsLine l) : strchr l newline = none := by
  induction l with
  | nil => rfl
  | cons d l ih =>
    have hd0 : d ≠ 0 := fun e => h.zero (e ▸ List.mem_cons_self ..)
    have hdn : d ≠ newline := fun e => h.newline (e ▸ List.mem_cons_self ..)
    rw [strchr, if_neg hd0, if_neg hdn, ih ⟨fun hm => h.newline (List.mem_cons_of_mem _ hm),
      fun hm => h.zero (List.mem_cons_of_mem _ hm)⟩]
    rfl

theorem strchr_line (h : IsLine l) : strchr (l ++ newline :: rest) newline = some l.length := by
  induction l with
  | nil => rfl
  | cons d l ih =>
    have hd0 : d ≠ 0 := fun e => h.zero (e ▸ List.mem_cons_self ..)
    have hdn : d ≠ newline := fun e => h.newline (e ▸ List.mem_cons_self ..)
    rw [List.cons_append, strchr, if_neg hd0, if_neg hdn, ih ⟨fun hm => h.newline (List.mem_cons_of_mem _ hm),
      fun hm => h.zero (List.mem_cons_of_mem _ hm)⟩]
    rfl

theorem scan_none (h : strchr p newline = none) : scan pattern p = ([], p) := by
  rw [scan]
  split
  · rfl
  · next hq => rw [h] at hq; cases hq

theorem scan_some {q : Nat} (h : strchr p newline = some q) : scan pattern p =
    (if matchText pattern (p.take q) then p.take (q + 1) :: (scan pattern (p.drop (q + 1))).1
      else (scan pattern (p.drop (q + 1))).1, (scan pattern (p.drop (q + 1))).2) := by
  rw [scan]
  split
  · next hq => rw [h] at hq; cases hq
  · next q' hq =>
    obtain rfl : q = q' := Option.some.inj (h.symm.trans hq)
    rfl

/-- **The inner loop** takes the complete lines off the buffer. -/
theorem scan_text (hlines : ∀ l ∈ lines, IsLine l) (hrest : IsLine rest) :
    scan pattern (text lines ++ rest) = (matching pattern lines, rest) := by
  induction lines with
  | nil =>
    rw [text_nil, List.nil_append, scan_none (strchr_of_line hrest)]
    rfl
  | cons l lines ih =>
    have hl := hlines l (List.mem_cons_self ..)
    have hshape : text (l :: lines) ++ rest = l ++ newline :: (text lines ++ rest) := by
      rw [text_cons, List.append_assoc, List.cons_append]
    have htake : (l ++ newline :: (text lines ++ rest)).take (l.length + 1) = l ++ [newline] := by
      rw [List.take_length_add_append, List.take_succ_cons, List.take_zero]
    have hdrop : (l ++ newline :: (text lines ++ rest)).drop (l.length + 1) = text lines ++ rest := by
      rw [List.drop_length_add_append, List.drop_succ_cons, List.drop_zero]
    rw [hshape, scan_some (strchr_line hl), htake, hdrop, List.take_left,
      ih fun l hm => hlines l (List.mem_cons_of_mem _ hm), matching_cons]

/-- A beginning of a file consists of complete lines and a part of the next one. -/
theorem exists_lines (hlines : ∀ l ∈ lines, IsLine l) (h : data ++ input = text lines) :
    ∃ done todo rest, lines = done ++ todo ∧ data = text done ++ rest ∧ IsLine rest ∧
      rest ++ input = text todo := by
  induction lines generalizing data with
  | nil =>
    obtain ⟨rfl, rfl⟩ := List.append_eq_nil_iff.1 h
    exact ⟨[], [], [], rfl, rfl, ⟨List.not_mem_nil, List.not_mem_nil⟩, rfl⟩
  | cons l lines ih =>
    have hl := hlines l (List.mem_cons_self ..)
    have hlines' : ∀ l ∈ lines, IsLine l := fun l hm => hlines l (List.mem_cons_of_mem _ hm)
    rw [text_cons] at h
    rcases List.append_eq_append_iff.1 h with ⟨as, hl', hinput⟩ | ⟨bs, hdata, hbs⟩
    · -- the data end within the first line, or right before its newline
      refine ⟨[], l :: lines, data, rfl, rfl, ⟨fun hm => hl.newline ?_, fun hm => hl.zero ?_⟩, ?_⟩
      · exact hl' ▸ List.mem_append_left _ hm
      · exact hl' ▸ List.mem_append_left _ hm
      · rw [text_cons, hinput, hl', List.append_assoc]
    · cases bs with
      | nil =>
        rw [List.append_nil] at hdata
        refine ⟨[], l :: lines, data, rfl, rfl, hdata ▸ hl, ?_⟩
        rw [text_cons, hdata, show newline :: text lines = input from hbs]
      | cons b bs =>
        obtain ⟨rfl, hbs'⟩ := List.cons.inj hbs
        obtain ⟨done, todo, rest, rfl, rfl, hrest, htodo⟩ := ih hlines' hbs'.symm
        refine ⟨l :: done, todo, rest, rfl, ?_, hrest, htodo⟩
        rw [hdata, text_cons, List.append_assoc, List.cons_append]

/-- A part of a line that begins where the line `l` does is no longer than it. -/
theorem length_le_of_prefix (hdata : IsLine data) (h : data ++ input = l ++ newline :: rest) :
    data.length ≤ l.length := by
  rcases List.append_eq_append_iff.1 h with ⟨as, rfl, -⟩ | ⟨bs, rfl, hbs⟩
  · rw [List.length_append]
    omega
  · cases bs with
    | nil => rw [List.append_nil]
    | cons b bs =>
      obtain ⟨rfl, -⟩ := List.cons.inj hbs
      exact absurd (List.mem_append_right _ (List.mem_cons_self ..)) hdata.newline

theorem length_text_le (h : l ∈ lines) : l.length + 1 ≤ (text lines).length := by
  induction lines with
  | nil => exact absurd h List.not_mem_nil
  | cons l' lines ih =>
    rw [text_cons, List.length_append, List.length_cons]
    rcases List.mem_cons.1 h with rfl | h
    · omega
    · have := ih h
      omega

theorem grepFrom_stop (h : pieceSize (chop k) (BUFSIZE - data.length - 1) input.length = 0) :
    grepFrom pattern chop k data input = ([], input) := by
  rw [grepFrom]
  exact dif_pos h

theorem grepFrom_next (h : pieceSize (chop k) (BUFSIZE - data.length - 1) input.length ≠ 0) {n : Nat}
    (hn : n = pieceSize (chop k) (BUFSIZE - data.length - 1) input.length) {writes : List (List UInt8)}
    (hscan : scan pattern (data ++ input.take n) = (writes, rest)) : grepFrom pattern chop k data input =
      (writes ++ (grepFrom pattern chop (k + 1) rest (input.drop n)).1,
        (grepFrom pattern chop (k + 1) rest (input.drop n)).2) := by
  rw [grepFrom]
  subst hn
  refine (dif_neg h).trans ?_
  simp only [hscan]

/-- **The loop of `grep`**, where the buffer has a part of the next line. -/
theorem grepFrom_eq_iff {n : Nat} : ∀ {k : Nat} {data input : List UInt8} {lines : List (List UInt8)},
    input.length < n → (∀ l ∈ lines, IsLine l) → IsLine data → data.length < BUFSIZE →
      data ++ input = text lines →
      (grepFrom pattern chop k data input = (matching pattern lines, []) ↔
        ∀ l ∈ lines, l.length + 1 < BUFSIZE) := by
  induction n with
  | zero => exact fun h => absurd h (Nat.not_lt_zero _)
  | succ n ih =>
    intro k data input lines hn hlines hdata hlen htext
    by_cases hstop : pieceSize (chop k) (BUFSIZE - data.length - 1) input.length = 0
    · rw [grepFrom_stop hstop]
      cases lines with
      | nil =>
        obtain ⟨-, rfl⟩ := List.append_eq_nil_iff.1 htext
        exact iff_of_true rfl fun l hl => absurd hl List.not_mem_nil
      | cons l lines =>
        -- the first line has not been read to its end, and fills the buffer
        rw [text_cons] at htext
        have hpart := length_le_of_prefix hdata htext
        have hinput : input ≠ [] := fun e => by
          rw [e, List.append_nil] at htext
          refine hdata.newline ?_
          rw [htext]
          exact List.mem_append_right _ (List.mem_cons_self ..)
        have hfull := (pieceSize_eq_zero.1 hstop).resolve_right fun e =>
          hinput (List.eq_nil_of_length_eq_zero e)
        refine iff_of_false (fun h => hinput (Prod.mk.inj h).2) fun h => ?_
        have hl := h l (List.mem_cons_self ..)
        omega
    · have hle := pieceSize_le (chop k) (BUFSIZE - data.length - 1) input.length
      obtain ⟨n', hn'⟩ : ∃ n', n' = pieceSize (chop k) (BUFSIZE - data.length - 1) input.length := ⟨_, rfl⟩
      have hsplit : data ++ input.take n' ++ input.drop n' = text lines := by
        rw [List.append_assoc, List.take_append_drop, htext]
      obtain ⟨done, todo, rest, rfl, hread, hrest, htodo⟩ := exists_lines hlines hsplit
      have hscan : scan pattern (data ++ input.take n') = (matching pattern done, rest) := by
        rw [hread, scan_text (fun l hl => hlines l (List.mem_append_left _ hl)) hrest]
      have hlength : (text done).length + rest.length = data.length + n' := by
        have := congrArg List.length hread
        rw [List.length_append, List.length_append, List.length_take] at this
        omega
      have hih := ih (k := k + 1) (by rw [List.length_drop]; omega)
        (fun l hl => hlines l (List.mem_append_right _ hl)) hrest (by omega) htodo
      have hdone : ∀ l ∈ done, l.length + 1 < BUFSIZE := fun l hl => by
        have := length_text_le hl
        omega
      rw [grepFrom_next hstop hn' hscan, matching_append, Prod.mk.injEq, List.append_cancel_left_eq,
        List.forall_mem_append, ← hih, Prod.ext_iff]
      exact ⟨fun h => ⟨hdone, h⟩, And.right⟩

end

/-! ## Main result -/

/-- **The output of `grep`.**  However `read` chops the input, `grep` writes exactly the lines that match,
each with its newline and in order, and reads the input to its end, if and only if every line fits into
the buffer, with its newline and the zero behind it. -/
theorem grep_output_iff {lines : List (List UInt8)} (hlines : ∀ l ∈ lines, IsLine l)
    (pattern : List UInt8) (chop : Nat → Nat) :
    grep pattern chop (text lines) = (matching pattern lines, []) ↔ ∀ l ∈ lines, l.length + 1 < BUFSIZE :=
  grepFrom_eq_iff (Nat.lt_succ_self _) hlines ⟨List.not_mem_nil, List.not_mem_nil⟩ (by decide) rfl

/-- A line of 1023 characters. -/
def longLine : List UInt8 := List.replicate 1023 97

theorem longLine_isLine : IsLine longLine :=
  ⟨fun h => absurd (List.eq_of_mem_replicate h) (by decide),
    fun h => absurd (List.eq_of_mem_replicate h) (by decide)⟩

/-- A file of one line that does not fit: the line, which matches, is not written. -/
theorem grep_long_line : (∀ l ∈ [longLine], IsLine l) ∧
    grep [] (fun _ => BUFSIZE) (text [longLine]) ≠ (matching [] [longLine], []) := by
  have hlines : ∀ l ∈ [longLine], IsLine l := fun l hl => by
    rw [List.mem_singleton.1 hl]
    exact longLine_isLine
  refine ⟨hlines, fun h => ?_⟩
  have hall := (grepFrom_eq_iff (Nat.lt_succ_self _) hlines ⟨List.not_mem_nil, List.not_mem_nil⟩
    (by decide) rfl).1 h
  have hlong := hall longLine (List.mem_singleton_self _)
  rw [longLine, List.length_replicate] at hlong
  exact absurd hlong (by decide)

/-- Two short lines, of which one matches, read byte by byte. -/
theorem grep_output_short : grep [98] (fun _ => 1) (text [[97], [98, 99]]) = ([[98, 99, newline]], []) := by
  have hlines : ∀ l ∈ [[97], [98, 99]], IsLine l := by
    intro l hl
    rcases List.mem_cons.1 hl with rfl | hl
    · exact ⟨by decide, by decide⟩
    · rw [List.mem_singleton.1 hl]
      exact ⟨by decide, by decide⟩
  have hmatching : matching [98] [[97], [98, 99]] = [[98, 99, newline]] := by
    simp [matching, matchText, matchFrom, matchhere, caret, star, dollar, dot]
  rw [← hmatching]
  exact (grep_output_iff hlines [98] fun _ => 1).2 (by decide)

end Grep

end Xv6pp
