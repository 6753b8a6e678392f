import Mathlib.Data.List.TakeWhile
import Mathlib.Logic.Function.Iterate
import Mathlib.Tactic.Tauto
import Xv6pp.User.Shell

/-!
# The grammar of the shell

The tokens of a line, and what the commands of the shell are in terms of them:

    line  ::= pipe '&'* [';' line]
    pipe  ::= cmd ['|' pipe]
    cmd   ::= '(' line ')' redir*  |  redir* (word redir*)*
    redir ::= ('<' | '>' | '>>') word

`Derives` is this grammar, with the command that each derivation stands for.  The rest of the file says
what `peek` and `gettoken` do in terms of tokens.
-/

set_option autoImplicit false

namespace Xv6pp

namespace Shell

open Prog

/-! ## Tokens -/

/-- A token.  A word is where it is in the line. -/
inductive Tok
  | word (w : Word)
  | bar
  | lpar
  | rpar
  | semi
  | amp
  | lt
  | gt
  /-- `>>`. -/
  | append
  deriving DecidableEq

/-- The token that a character alone is. -/
def symbolTok (c : UInt8) : Tok :=
  if c = 124 then .bar else if c = 40 then .lpar else if c = 41 then .rpar else if c = 59 then .semi
  else if c = 38 then .amp else if c = 60 then .lt else .gt

/-- The tokens of what is left of a line that ends at `es`.  A word is as long as it can be. -/
def lex (es : Nat) : List UInt8 → List Tok
  | [] => []
  | c :: s =>
    if isSpace c then lex es s
    else if isWord c then
      .word ⟨es - (c :: s).length, es - (s.dropWhile isWord).length⟩ :: lex es (s.dropWhile isWord)
    else if c = 62 ∧ s.head? = some 62 then .append :: lex es s.tail
    else symbolTok c :: lex es s
termination_by s => s.length
decreasing_by
  · exact Nat.lt_succ_self _
  · exact Nat.lt_succ_of_le (List.dropWhile_suffix _).length_le
  · exact Nat.lt_succ_of_le (List.tail_suffix _).length_le
  · exact Nat.lt_succ_self _

/-- The tokens of a line. -/
def tokens (str : List UInt8) : List Tok := lex str.length str

/-- What `gettoken` returns for a token. -/
def Tok.code : Tok → UInt8
  | .word _ => 97
  | .bar => 124
  | .lpar => 40
  | .rpar => 41
  | .semi => 59
  | .amp => 38
  | .lt => 60
  | .gt => 62
  | .append => 43

/-- The character that a symbol begins with; a letter for a word. -/
def Tok.start : Tok → UInt8
  | .append => 62
  | t => t.code

/-- The first token begins with one of the characters. -/
def StartsWith (chars : List UInt8) (ts : List Tok) : Prop := ∃ t ∈ ts.head?, t.start ∈ chars

instance (chars : List UInt8) (ts : List Tok) : Decidable (StartsWith chars ts) :=
  match ts with
  | [] => .isFalse (by rintro ⟨t, ht, -⟩; cases ht)
  | t :: _ => decidable_of_iff (t.start ∈ chars)
    ⟨fun h => ⟨t, rfl, h⟩, fun ⟨u, hu, h⟩ => by cases hu; exact h⟩

/-! ## The grammar -/

/-- A redirection: the file, and the mode and descriptor of the operator. -/
structure Redir where
  file : Word
  mode : Nat
  fd : Nat

/-- The mode and the descriptor of a redirection operator. -/
def redirOf : Tok → Option (Nat × Nat)
  | .lt => some (O_RDONLY, 0)
  | .gt => some (O_WRONLY ||| O_CREATE ||| O_TRUNC, 1)
  | .append => some (O_WRONLY ||| O_CREATE, 1)
  | _ => none

/-- A command with redirections, the first of them innermost. -/
def redirected (c : Cmd) (rs : List Redir) : Cmd := rs.foldl (fun c r => .redir c r.file r.mode r.fd) c

/-- A command with so many `&`. -/
def background (n : Nat) (c : Cmd) : Cmd := Cmd.back^[n] c

/-- `redir*`. -/
inductive Redirs : List Tok → List Redir → Prop
  | nil : Redirs [] []
  | cons {t : Tok} {mode fd : Nat} {w : Word} {ts : List Tok} {rs : List Redir}
      (hop : redirOf t = some (mode, fd)) (hrest : Redirs ts rs) :
      Redirs (t :: .word w :: ts) (⟨w, mode, fd⟩ :: rs)

/-- `(word redir*)*`, with the words and the redirections. -/
inductive Args : List Tok → List Word → List Redir → Prop
  | nil : Args [] [] []
  | cons {w : Word} {us ts : List Tok} {ws : List Word} {rs rs' : List Redir} (hredirs : Redirs us rs)
      (hrest : Args ts ws rs') : Args (.word w :: (us ++ ts)) (w :: ws) (rs ++ rs')

inductive Nonterminal
  | line
  | pipe
  | cmd

/-- The grammar. -/
inductive Derives : Nonterminal → List Tok → Cmd → Prop
  | line {ts : List Tok} {c : Cmd} (n : Nat) (hpipe : Derives .pipe ts c) :
      Derives .line (ts ++ List.replicate n .amp) (background n c)
  | list {ts us : List Tok} {c d : Cmd} (n : Nat) (hpipe : Derives .pipe ts c) (hline : Derives .line us d) :
      Derives .line (ts ++ List.replicate n .amp ++ .semi :: us) (.list (background n c) d)
  | last {ts : List Tok} {c : Cmd} (hcmd : Derives .cmd ts c) : Derives .pipe ts c
  | pipe {ts us : List Tok} {c d : Cmd} (hcmd : Derives .cmd ts c) (hpipe : Derives .pipe us d) :
      Derives .pipe (ts ++ .bar :: us) (.pipe c d)
  | block {ts us : List Tok} {c : Cmd} {rs : List Redir} (hline : Derives .line ts c) (hredirs : Redirs us rs) :
      Derives .cmd (.lpar :: ts ++ .rpar :: us) (redirected c rs)
  | simple {us ts : List Tok} {ws : List Word} {rs rs' : List Redir} (hredirs : Redirs us rs)
      (hargs : Args ts ws rs') : Derives .cmd (us ++ ts) (redirected (.exec ws) (rs ++ rs'))

/-- No simple command among the tokens has `MAXARGS` or more words, if the one that has been begun has
`n`.  The word behind a redirection operator is its file. -/
def Short : Nat → List Tok → Prop
  | n, [] => n < MAXARGS
  | n, .word _ :: ts => Short (n + 1) ts
  | n, .lt :: .word _ :: ts => Short n ts
  | n, .gt :: .word _ :: ts => Short n ts
  | n, .append :: .word _ :: ts => Short n ts
  | n, .lt :: ts => Short n ts
  | n, .gt :: ts => Short n ts
  | n, .append :: ts => Short n ts
  | n, _ :: ts => n < MAXARGS ∧ Short 0 ts

/-! ## `peek` and `gettoken` -/

/-- What is left of the line has no zero and these tokens. -/
def Reads (es : Nat) (s : List UInt8) (ts : List Tok) : Prop := 0 ∉ s ∧ lex es s = ts

section
variable {es : Nat} {s : List UInt8} {ts : List Tok} {t : Tok} {E : Panic → Prop}

theorem lex_dropWhile (s : List UInt8) : lex es (s.dropWhile isSpace) = lex es s := by
  induction s with
  | nil => rfl
  | cons c s ih =>
    rw [List.dropWhile_cons]
    split
    · next h => rw [ih, lex, if_pos h]
    · rfl

theorem Reads.dropWhile (h : Reads es s ts) : Reads es (s.dropWhile isSpace) ts :=
  ⟨fun hmem => h.1 ((List.dropWhile_suffix _).subset hmem), (lex_dropWhile s).trans h.2⟩

/-- A character is white space, in a word, or a symbol. -/
theorem symbol_of_not {c : UInt8} (hs : isSpace c = false) (hw : isWord c = false) :
    c = 60 ∨ c = 124 ∨ c = 62 ∨ c = 38 ∨ c = 59 ∨ c = 40 ∨ c = 41 := by
  rw [isWord, Bool.and_eq_false_iff, Bool.not_eq_false', Bool.not_eq_false'] at hw
  have hmem : symbols.contains c = true := hw.resolve_left (by rw [← isSpace, hs]; exact Bool.false_ne_true)
  rw [symbols, List.contains_iff_mem] at hmem
  simpa using hmem

/-- What `scan` makes of a character that is not white space is what `lex` makes of it. -/
theorem scan_eq {c : UInt8} (hc : c ≠ 0) (hs : isSpace c = false) :
    ∃ t s', scan (c :: s) = (t.code, s') ∧ lex es (c :: s) = t :: lex es s' ∧ s' <:+ c :: s ∧
      (t = .word ⟨es - (c :: s).length, es - s'.length⟩ ∧ isWord c = true ∨
        (∀ w, t ≠ .word w) ∧ t.start = c ∧ c ∈ symbols) := by
  have hs' : ¬ isSpace c = true := by rw [hs]; exact Bool.false_ne_true
  rw [scan, if_neg hc, lex, if_neg hs']
  by_cases hw : isWord c = true
  · have hnot : ∀ {d : UInt8}, isWord d = false → c ≠ d := by
      rintro d hd rfl
      exact Bool.false_ne_true (hd.symm.trans hw)
    have hdrop : (c :: s).dropWhile isWord = s.dropWhile isWord := List.dropWhile_cons_of_pos hw
    have h1 : ¬ (c = 124 ∨ c = 40 ∨ c = 41 ∨ c = 59 ∨ c = 38 ∨ c = 60) := by
      rintro (h | h | h | h | h | h) <;> exact hnot (by decide) h
    rw [if_neg h1, if_neg (hnot (by decide)), if_pos hw]
    refine ⟨.word ⟨es - (c :: s).length, es - (s.dropWhile isWord).length⟩, s.dropWhile isWord, ?_, rfl, ?_,
      .inl ⟨rfl, hw⟩⟩
    · rw [hdrop]
      rfl
    · exact (List.dropWhile_suffix _).trans (List.suffix_cons c s)
  · rw [if_neg hw]
    rw [Bool.not_eq_true] at hw
    by_cases hgt : c = 62
    · subst hgt
      rw [if_neg (by decide), if_pos rfl]
      by_cases hhead : s.head? = some 62
      · rw [if_pos hhead, if_pos ⟨rfl, hhead⟩]
        exact ⟨.append, s.tail, rfl, rfl, (List.tail_suffix s).trans (List.suffix_cons 62 s),
          .inr ⟨fun w => by rintro ⟨⟩, rfl, by decide⟩⟩
      · rw [if_neg hhead, if_neg fun h => hhead h.2]
        exact ⟨.gt, s, rfl, rfl, List.suffix_cons 62 s, .inr ⟨fun w => by rintro ⟨⟩, rfl, by decide⟩⟩
    · have hsym := symbol_of_not hs hw
      have hone : c = 124 ∨ c = 40 ∨ c = 41 ∨ c = 59 ∨ c = 38 ∨ c = 60 := by tauto
      have hcond : ¬ (c = 62 ∧ s.head? = some 62) := fun h => hgt h.1
      rw [if_pos hone, if_neg hcond]
      refine ⟨symbolTok c, s, ?_, rfl, List.suffix_cons c s, .inr ?_⟩
      · obtain rfl | rfl | rfl | rfl | rfl | rfl | rfl := hsym <;> rfl
      · obtain rfl | rfl | rfl | rfl | rfl | rfl | rfl := hsym
        all_goals first | exact absurd rfl hgt | exact ⟨fun w => by rintro ⟨⟩, rfl, by decide⟩

/-- What is left when white space is passed over, and its first token. -/
theorem Reads.cases (h : Reads es s ts) :
    s.dropWhile isSpace = [] ∧ ts = [] ∨
    ∃ c r, s.dropWhile isSpace = c :: r ∧ c ≠ 0 ∧ isSpace c = false := by
  have hread := h.dropWhile
  cases hdrop : s.dropWhile isSpace with
  | nil =>
    rw [hdrop] at hread
    refine .inl ⟨rfl, ?_⟩
    rw [← hread.2, lex]
  | cons c r =>
    rw [hdrop] at hread
    refine .inr ⟨c, r, rfl, (List.ne_of_not_mem_cons hread.1).symm, ?_⟩
    have hhead := List.head?_dropWhile_not isSpace s
    rwa [hdrop] at hhead

/-- **`peek`** looks at the first token. -/
theorem wp_peek {chars : List UInt8} (hchars : ∀ c ∈ chars, c ∈ symbols) (h : Reads es s ts) :
    wp (peek chars) E (fun b s' => (b = true ↔ StartsWith chars ts) ∧ Reads es s' ts) s := by
  show (((s.dropWhile isSpace).headD 0 != 0 && chars.contains ((s.dropWhile isSpace).headD 0)) = true ↔
    StartsWith chars ts) ∧ Reads es (s.dropWhile isSpace) ts
  refine ⟨?_, h.dropWhile⟩
  obtain ⟨hdrop, rfl⟩ | ⟨c, r, hdrop, hc, hs⟩ := h.cases
  · rw [hdrop]
    refine iff_of_false Bool.false_ne_true ?_
    rintro ⟨t, ht, -⟩
    cases ht
  · obtain ⟨t, s', -, hlex, -, hcases⟩ := @scan_eq es r _ hc hs
    have hts : ts = t :: lex es s' := by rw [← hlex, ← hdrop, h.dropWhile.2]
    have hstart : StartsWith chars ts ↔ t.start ∈ chars := by
      rw [hts]
      constructor
      · rintro ⟨u, hu, hmem⟩
        cases hu
        exact hmem
      · exact fun hmem => ⟨t, rfl, hmem⟩
    rw [hdrop, hstart]
    simp only [List.headD_cons, Bool.and_eq_true, bne_iff_ne, List.contains_iff_mem]
    obtain ⟨rfl, hw⟩ | ⟨-, hstart, -⟩ := hcases
    · refine iff_of_false ?_ fun hmem => absurd (show (97 : UInt8) ∈ symbols from hchars _ hmem) (by decide)
      rintro ⟨-, hmem⟩
      have hcontains : symbols.contains c = true := List.contains_iff_mem.2 (hchars c hmem)
      rw [isWord, hcontains, Bool.not_true, Bool.and_false] at hw
      exact Bool.false_ne_true hw
    · rw [hstart]
      exact and_iff_right hc

/-- **`gettoken`** takes the first token. -/
theorem wp_gettoken (h : Reads es s (t :: ts)) :
    wp (gettoken es) E (fun r s' => r.1 = t.code ∧ (∀ w, t = .word w → r.2 = (w.q, w.eq)) ∧
      Reads es s' ts) s := by
  show (scan (s.dropWhile isSpace)).1 = t.code ∧ (∀ w, t = .word w →
    (es - (s.dropWhile isSpace).length, es - (scan (s.dropWhile isSpace)).2.length) = (w.q, w.eq)) ∧
      Reads es ((scan (s.dropWhile isSpace)).2.dropWhile isSpace) ts
  obtain ⟨-, hts⟩ | ⟨c, r, hdrop, hc, hs⟩ := h.cases
  · cases hts
  · obtain ⟨u, s', hscan, hlex, hsuffix, hcases⟩ := @scan_eq es r _ hc hs
    have hread := h.dropWhile
    rw [hdrop] at hread
    obtain ⟨rfl, hts⟩ := List.cons.inj (hread.2.symm.trans hlex)
    rw [hdrop, hscan]
    refine ⟨rfl, fun w hw => ?_, Reads.dropWhile ⟨fun hmem => hread.1 (hsuffix.subset hmem), hts.symm⟩⟩
    obtain ⟨htok, -⟩ | ⟨hno, -⟩ := hcases
    · obtain rfl := Tok.word.inj (htok.symm.trans hw)
      rfl
    · exact absurd hw (hno w)

/-- At the end of the line `gettoken` returns zero. -/
theorem wp_gettoken_nil (h : Reads es s []) :
    wp (gettoken es) E (fun r s' => r.1 = 0 ∧ Reads es s' []) s := by
  show (scan (s.dropWhile isSpace)).1 = 0 ∧ Reads es ((scan (s.dropWhile isSpace)).2.dropWhile isSpace) []
  obtain ⟨hdrop, -⟩ | ⟨c, r, hdrop, hc, hs⟩ := h.cases
  · rw [hdrop]
    refine ⟨rfl, List.not_mem_nil, ?_⟩
    show lex es [] = []
    rw [lex]
  · obtain ⟨u, s', -, hlex, -⟩ := @scan_eq es r _ hc hs
    have hread := h.dropWhile
    rw [hdrop] at hread
    cases hread.2.symm.trans hlex

end

end Shell

end Xv6pp
