import Xv6pp.User.ShellGrammar

/-!
# What the parser of the shell accepts

Each parsing function is shown to take from the tokens what the grammar lets it take (the lemmas
`wp_parse...`, by induction on the bound), and to take what a derivation has when nothing behind it could
be taken as well (the lemmas `...complete`, by induction on the derivation).  `parsecmd_iff` puts the two
together: `parsecmd` accepts the lines that the grammar derives, with the command of the derivation.
-/

set_option autoImplicit false

namespace Xv6pp

namespace Shell

open Prog

/-- A line that is given up because of its syntax. -/
def IsSyntax (e : Panic) : Prop := e ≠ .tooManyArgs ∧ e ≠ .running

/-! ## Steps of the parser -/

section
variable {es : Nat} {s : List UInt8} {ts : List Tok} {t : Tok} {E : Panic → Prop} {α : Type}

/-- A branch on `peek`. -/
theorem wp_peek_if {chars : List UInt8} (hchars : chars.all symbols.contains = true) {m m' : ParseM α}
    {Q : α → List UInt8 → Prop} (h : Reads es s ts)
    (hyes : StartsWith chars ts → ∀ s', Reads es s' ts → wp m E Q s')
    (hno : ¬ StartsWith chars ts → ∀ s', Reads es s' ts → wp m' E Q s') :
    wp (peek chars >>= fun b => if b = true then m else m') E Q s := by
  have hmem : ∀ c ∈ chars, c ∈ symbols := fun c hc =>
    List.contains_iff_mem.1 (List.all_eq_true.1 hchars c hc)
  refine wp_seq (wp_peek hmem h) fun b s' hb => ?_
  rw [wp_ite]
  exact ⟨fun h => hyes (hb.1.1 h) s' hb.2, fun h => hno (fun hs => h (hb.1.2 hs)) s' hb.2⟩

/-- A token is taken. -/
theorem wp_take {f : UInt8 × Nat × Nat → ParseM α} {Q : α → List UInt8 → Prop} (h : Reads es s (t :: ts))
    (hf : ∀ q eq s', (∀ w, t = .word w → q = w.q ∧ eq = w.eq) → Reads es s' ts →
      wp (f (t.code, q, eq)) E Q s') : wp (gettoken es >>= f) E Q s := by
  refine wp_seq (wp_gettoken h) fun r s' hr => ?_
  obtain ⟨tok, q, eq⟩ := r
  obtain ⟨htok, hw, hread⟩ := hr
  obtain rfl : tok = t.code := htok
  exact hf q eq s' (fun w hword => Prod.mk.inj (hw w hword)) hread

/-- The end of the line is taken. -/
theorem wp_take_nil {f : UInt8 × Nat × Nat → ParseM α} {Q : α → List UInt8 → Prop} (h : Reads es s [])
    (hf : ∀ q eq s', Reads es s' [] → wp (f (0, q, eq)) E Q s') : wp (gettoken es >>= f) E Q s := by
  refine wp_seq (wp_gettoken_nil h) fun r s' hr => ?_
  obtain ⟨tok, q, eq⟩ := r
  obtain ⟨htok, hread⟩ := hr
  obtain rfl : tok = 0 := htok
  exact hf q eq s' hread

end

/-! ## Tokens that go on -/

section
variable {ts us vs : List Tok} {t : Tok} {n : Nat} {rs : List Redir} {c : Cmd} {w : Word}

theorem startsWith_cons {chars : List UInt8} : StartsWith chars (t :: ts) ↔ t.start ∈ chars := by
  constructor
  · rintro ⟨u, hu, hmem⟩
    cases hu
    exact hmem
  · exact fun hmem => ⟨t, rfl, hmem⟩

theorem not_startsWith_nil {chars : List UInt8} : ¬ StartsWith chars [] := by
  rintro ⟨t, ht, -⟩
  cases ht

/-- The operators of a redirection are the tokens that `parseredirs` looks for. -/
theorem redirOf_isSome : t.start ∈ ([60, 62] : List UInt8) ↔ ∃ mode fd, redirOf t = some (mode, fd) := by
  cases t with
  | lt => exact iff_of_true (by decide) ⟨_, _, rfl⟩
  | gt => exact iff_of_true (by decide) ⟨_, _, rfl⟩
  | append => exact iff_of_true (by decide) ⟨_, _, rfl⟩
  | _ => exact iff_of_false (by simp [Tok.start, Tok.code]) (by rintro ⟨mode, fd, ⟨⟩⟩)

theorem code_eq_word : t.code = 97 ↔ ∃ w, t = .word w := by
  cases t with
  | word w => exact iff_of_true rfl ⟨w, rfl⟩
  | _ => exact iff_of_false (by decide) (by rintro ⟨w, ⟨⟩⟩)

theorem code_ne_zero : t.code ≠ 0 := by
  cases t <;> rintro ⟨⟩

theorem Short.lt (h : Short n ts) : n < MAXARGS := by
  fun_induction Short n ts with
  | case1 n => exact h
  | case2 n w ts ih => exact Nat.lt_of_succ_lt (ih h)
  | case9 n t ts => exact h.1
  | _ => simp_all

/-- After an operator that is not a redirection, a new command begins. -/
theorem Short.control (h : Short n (t :: ts))
    (ht : t = .bar ∨ t = .lpar ∨ t = .rpar ∨ t = .semi ∨ t = .amp) : Short 0 ts := by
  obtain rfl | rfl | rfl | rfl | rfl := ht <;> exact h.2

theorem short_redir {mode fd : Nat} (ht : redirOf t = some (mode, fd)) :
    Short n (t :: .word w :: ts) = Short n ts := by
  cases t with
  | lt => rfl
  | gt => rfl
  | append => rfl
  | _ => cases ht

/-- Redirections do not count. -/
theorem Redirs.short_iff (h : Redirs us rs) : Short n (us ++ vs) ↔ Short n vs := by
  induction h with
  | nil => rfl
  | cons hop _ ih =>
    rw [List.cons_append, List.cons_append, short_redir hop]
    exact ih

end

/-! ## Redirections -/

section
variable {es fuel : Nat} {s : List UInt8} {ts us vs : List Tok} {cmd : Cmd} {rs rs' : List Redir}

theorem redirected_append : redirected cmd (rs ++ rs') = redirected (redirected cmd rs) rs' :=
  List.foldl_append ..

/-- The `switch` of `parseredirs`, for the three operators. -/
theorem wp_redir_branch {t : Tok} {mode fd : Nat} (ht : redirOf t = some (mode, fd)) {w : Word}
    {E : Panic → Prop} {Q : Cmd → List UInt8 → Prop}
    (h : wp (parseredirs es fuel (.redir cmd w mode fd)) E Q s) :
    wp (if t.code = 60 then parseredirs es fuel (.redir cmd ⟨w.q, w.eq⟩ O_RDONLY 0)
      else if t.code = 62 then
        parseredirs es fuel (.redir cmd ⟨w.q, w.eq⟩ (O_WRONLY ||| O_CREATE ||| O_TRUNC) 1)
      else if t.code = 43 then parseredirs es fuel (.redir cmd ⟨w.q, w.eq⟩ (O_WRONLY ||| O_CREATE) 1)
      else parseredirs es fuel cmd) E Q s := by
  cases t with
  | lt =>
    cases ht
    rw [if_pos (by decide)]
    exact h
  | gt =>
    cases ht
    rw [if_neg (by decide), if_pos (by decide)]
    exact h
  | append =>
    cases ht
    rw [if_neg (by decide), if_neg (by decide), if_pos (by decide)]
    exact h
  | _ => cases ht

/-- **`parseredirs`** takes the redirections, or gives up because one has no file. -/
theorem wp_parseredirs (hread : Reads es s ts) (hfuel : ts.length < fuel) :
    wp (parseredirs es fuel cmd) IsSyntax (fun c s' => ∃ us vs rs, ts = us ++ vs ∧ Redirs us rs ∧
      c = redirected cmd rs ∧ Reads es s' vs ∧ ¬ StartsWith [60, 62] vs) s := by
  induction fuel generalizing s ts cmd with
  | zero => exact absurd hfuel (Nat.not_lt_zero _)
  | succ fuel ih =>
    rw [parseredirs]
    refine wp_peek_if (by decide) hread (fun hstart s' hread => ?_) fun hstart s' hread => ?_
    · cases ts with
      | nil => exact absurd hstart not_startsWith_nil
      | cons t ts =>
        obtain ⟨mode, fd, hop⟩ := redirOf_isSome.1 (startsWith_cons.1 hstart)
        refine wp_take hread fun _ _ s' _ hread => ?_
        cases ts with
        | nil => exact wp_take_nil hread fun _ _ s' _ => ⟨by decide, by decide⟩
        | cons u ts =>
          refine wp_take hread fun q eq s₂ hword hread₂ => ?_
          by_cases hu : u.code = 97
          · obtain ⟨w, rfl⟩ := code_eq_word.1 hu
            obtain ⟨rfl, rfl⟩ := hword w rfl
            show wp (if Tok.code (.word w) ≠ 97 then _ else _) _ _ _
            rw [if_neg (not_not.2 hu)]
            refine wp_redir_branch hop (wp_imp (ih hread₂ ?_) ?_)
            · simp only [List.length_cons] at hfuel
              omega
            · rintro c s'' ⟨us, vs, rs, rfl, hredirs, rfl, hrest⟩
              exact ⟨t :: .word w :: us, vs, _ :: rs, rfl, .cons hop hredirs, rfl, hrest⟩
          · show wp (if u.code ≠ 97 then _ else _) _ _ _
            rw [if_pos hu]
            exact ⟨by decide, by decide⟩
    · exact ⟨[], ts, [], rfl, .nil, rfl, hread, hstart⟩

/-- `parseredirs` takes all of a sequence of redirections. -/
theorem parseredirs_complete (hredirs : Redirs us rs) (hread : Reads es s (us ++ vs))
    (hfollow : ¬ StartsWith [60, 62] vs) :
    wp (parseredirs es fuel cmd) (· = .running) (fun c s' => c = redirected cmd rs ∧ Reads es s' vs) s := by
  induction hredirs generalizing s cmd fuel with
  | nil =>
    cases fuel with
    | zero => exact rfl
    | succ fuel =>
      rw [parseredirs]
      refine wp_peek_if (by decide) hread (fun hstart s' _ => absurd hstart hfollow) fun _ s' hread => ?_
      exact ⟨rfl, hread⟩
  | @cons t mode fd w ts rs hop hrest ih =>
    cases fuel with
    | zero => exact rfl
    | succ fuel =>
      rw [parseredirs]
      refine wp_peek_if (by decide) hread (fun _ s' hread => ?_) fun hstart s' _ => ?_
      · refine wp_take hread fun _ _ s₁ _ hread₁ => wp_take hread₁ fun q eq s₂ hword hread₂ => ?_
        obtain ⟨rfl, rfl⟩ := hword w rfl
        show wp (if Tok.code (.word w) ≠ 97 then _ else _) _ _ _
        rw [if_neg (not_not.2 (code_eq_word.2 ⟨w, rfl⟩))]
        exact wp_redir_branch hop (ih hread₂)
      · exact absurd (startsWith_cons.2 (redirOf_isSome.2 ⟨mode, fd, hop⟩)) hstart

end

/-! ## Arguments -/

/-- What may follow a simple command. -/
def Ends (ts : List Tok) : Prop := ts = [] ∨ StartsWith [124, 41, 38, 59] ts

theorem Ends.not_redir {ts : List Tok} (h : Ends ts) : ¬ StartsWith [60, 62] ts := by
  obtain rfl | ⟨t, ht, hmem⟩ := h
  · exact not_startsWith_nil
  · rintro ⟨u, hu, hmem'⟩
    obtain rfl : t = u := Option.some.inj (ht.symm.trans hu)
    simp only [List.mem_cons, List.not_mem_nil, or_false] at hmem hmem'
    obtain h' | h' := hmem' <;> rw [h'] at hmem <;> exact absurd hmem (by decide)

theorem Args.not_redir {ts vs : List Tok} {ws : List Word} {rs : List Redir} (h : Args ts ws rs)
    (hvs : Ends vs) : ¬ StartsWith [60, 62] (ts ++ vs) := by
  cases h with
  | nil => exact hvs.not_redir
  | cons => exact fun h => absurd (startsWith_cons.1 h) (show (97 : UInt8) ∉ ([60, 62] : List UInt8) by decide)

theorem Cmd.push_redirected (w : Word) (c : Cmd) (rs : List Redir) :
    (redirected c rs).push w = redirected (c.push w) rs := by
  induction rs generalizing c with
  | nil => rfl
  | cons r rs ih => exact ih _

section
variable {es fuel argc : Nat} {s : List UInt8} {ts us vs : List Tok} {ws ws' : List Word} {rs rs' : List Redir}

/-- **The loop of `parseexec`** takes words and redirections, or gives up at a token that is neither and
does not end a command. -/
theorem wp_parseargs (hread : Reads es s ts) (hfuel : ts.length < fuel) (hshort : Short argc ts) :
    wp (parseargs es fuel argc (redirected (.exec ws) rs)) IsSyntax
      (fun c s' => ∃ us vs ws' rs', ts = us ++ vs ∧ Args us ws' rs' ∧
        c = redirected (.exec (ws ++ ws')) (rs ++ rs') ∧ Reads es s' vs ∧ Ends vs ∧ ∃ n, Short n vs) s := by
  induction fuel generalizing s ts argc ws rs with
  | zero => exact absurd hfuel (Nat.not_lt_zero _)
  | succ fuel ih =>
    rw [parseargs]
    refine wp_peek_if (by decide) hread (fun hstart s₁ hread₁ => ?_) fun hstart s₁ hread₁ => ?_
    · refine ⟨[], ts, [], [], rfl, .nil, ?_, hread₁, .inr hstart, argc, hshort⟩
      rw [List.append_nil, List.append_nil]
    · cases ts with
      | nil =>
        refine wp_take_nil hread₁ fun _ _ s₂ hread₂ => ?_
        refine ⟨[], [], [], [], rfl, .nil, ?_, hread₂, .inl rfl, argc, hshort⟩
        rw [List.append_nil, List.append_nil]
      | cons t ts =>
        refine wp_take hread₁ fun q eq s₂ hword hread₂ => ?_
        show wp (if t.code = 0 then _ else _) _ _ _
        rw [if_neg code_ne_zero]
        by_cases ht : t.code = 97
        · obtain ⟨w, rfl⟩ := code_eq_word.1 ht
          obtain ⟨rfl, rfl⟩ := hword w rfl
          replace hshort : Short (argc + 1) ts := hshort
          have hlt : ¬ argc + 1 ≥ MAXARGS := Nat.not_le_of_lt hshort.lt
          have hlength : ts.length < fuel := Nat.lt_of_succ_lt_succ hfuel
          rw [if_neg (not_not.2 ht), if_neg hlt, Cmd.push_redirected]
          refine wp_seq (wp_parseredirs hread₂ hlength) ?_
          rintro c s₃ ⟨us, vs, rs₁, rfl, hredirs, rfl, hread₃, -⟩
          rw [← redirected_append]
          rw [List.length_append] at hlength
          refine wp_imp (ih hread₃ (by omega) (hredirs.short_iff.1 hshort)) ?_
          rintro c s₄ ⟨us', vs', ws', rs', rfl, hargs, rfl, hrest⟩
          refine ⟨.word w :: (us ++ us'), vs', w :: ws', rs₁ ++ rs', ?_, .cons hredirs hargs, ?_, hrest⟩
          · rw [List.cons_append, List.append_assoc]
          · rw [List.append_assoc, List.append_assoc]
            rfl
        · rw [if_pos ht]
          exact ⟨by decide, by decide⟩

/-- The loop of `parseexec` takes all of a sequence of words and redirections. -/
theorem parseargs_complete (hargs : Args us ws' rs') (hread : Reads es s (us ++ vs)) (hvs : Ends vs)
    (hshort : Short argc (us ++ vs)) :
    wp (parseargs es fuel argc (redirected (.exec ws) rs)) (· = .running)
      (fun c s' => c = redirected (.exec (ws ++ ws')) (rs ++ rs') ∧ Reads es s' vs) s := by
  induction hargs generalizing s fuel argc ws rs with
  | nil =>
    rw [List.append_nil, List.append_nil]
    cases fuel with
    | zero => exact rfl
    | succ fuel =>
      rw [parseargs]
      refine wp_peek_if (by decide) hread (fun _ s₁ hread₁ => ⟨rfl, hread₁⟩) fun hstart s₁ hread₁ => ?_
      obtain rfl : vs = [] := hvs.resolve_right hstart
      exact wp_take_nil hread₁ fun _ _ s₂ hread₂ => ⟨rfl, hread₂⟩
  | @cons w us ts ws' rs₁ rs₂ hredirs hrest ih =>
    cases fuel with
    | zero => exact rfl
    | succ fuel =>
      rw [parseargs]
      refine wp_peek_if (by decide) hread (fun hstart s₁ _ => ?_) fun _ s₁ hread₁ => ?_
      · exact absurd (startsWith_cons.1 hstart)
          (show (97 : UInt8) ∉ ([124, 41, 38, 59] : List UInt8) by decide)
      · refine wp_take hread₁ fun q eq s₂ hword hread₂ => ?_
        obtain ⟨rfl, rfl⟩ := hword w rfl
        have hcode : Tok.code (.word w) = 97 := rfl
        have hassoc : (us ++ ts).append vs = us ++ (ts ++ vs) := List.append_assoc ..
        rw [hassoc] at hread₂
        replace hshort : Short (argc + 1) (us ++ (ts ++ vs)) := hassoc ▸ hshort
        have hlt : ¬ argc + 1 ≥ MAXARGS := Nat.not_le_of_lt hshort.lt
        show wp (if Tok.code (.word w) = 0 then _ else _) _ _ _
        rw [if_neg code_ne_zero, if_neg (not_not.2 hcode), if_neg hlt, Cmd.push_redirected]
        refine wp_seq (parseredirs_complete hredirs hread₂ (hrest.not_redir hvs)) ?_
        rintro c s₃ ⟨rfl, hread₃⟩
        rw [← redirected_append]
        refine wp_imp (ih hread₃ (hredirs.short_iff.1 hshort)) ?_
        rintro c s₄ ⟨rfl, hread₄⟩
        refine ⟨?_, hread₄⟩
        rw [List.append_assoc, List.append_assoc]
        rfl

end

/-! ## What the parsing functions take -/

/-- A list that begins with a symbol of its own. -/
theorem startsWith_code {ts : List Tok} {t : Tok}
    (ht : t = .bar ∨ t = .lpar ∨ t = .rpar ∨ t = .semi ∨ t = .amp) :
    StartsWith [t.code] ts ↔ ∃ us, ts = t :: us := by
  have hstart : ∀ u : Tok, u.start = t.code → u = t := by
    intro u hu
    obtain rfl | rfl | rfl | rfl | rfl := ht <;> cases u <;> first | rfl | exact absurd hu (by decide) | cases hu
  constructor
  · rintro ⟨u, hu, hmem⟩
    cases ts with
    | nil => cases hu
    | cons v us =>
      obtain rfl : v = u := Option.some.inj hu
      exact ⟨us, by rw [hstart v (List.mem_singleton.1 hmem)]⟩
  · rintro ⟨us, rfl⟩
    refine startsWith_cons.2 (List.mem_singleton.2 ?_)
    obtain rfl | rfl | rfl | rfl | rfl := ht <;> rfl

section
variable {es fuel : Nat} {s : List UInt8} {ts vs : List Tok} {cmd : Cmd}

/-- The loop of `parseline` takes the `&`. -/
theorem wp_parsebacks {n : Nat} (hread : Reads es s ts) (hfuel : ts.length < fuel) (hshort : Short n ts) :
    wp (parsebacks es fuel cmd) IsSyntax (fun c s' => ∃ k vs, ts = List.replicate k .amp ++ vs ∧
      c = background k cmd ∧ Reads es s' vs ∧ ∃ n, Short n vs) s := by
  induction fuel generalizing s ts cmd n with
  | zero => exact absurd hfuel (Nat.not_lt_zero _)
  | succ fuel ih =>
    rw [parsebacks]
    refine wp_peek_if (by decide) hread (fun hstart s₁ hread₁ => ?_) fun _ s₁ hread₁ => ?_
    · obtain ⟨us, rfl⟩ := (startsWith_code (t := .amp) (by simp)).1 hstart
      refine wp_take hread₁ fun _ _ s₂ _ hread₂ => ?_
      refine wp_imp (ih hread₂ (Nat.lt_of_succ_lt_succ hfuel) (hshort.control (by simp))) ?_
      rintro c s₃ ⟨k, vs, rfl, rfl, hrest⟩
      exact ⟨k + 1, vs, rfl, rfl, hrest⟩
    · exact ⟨0, ts, rfl, rfl, hread₁, n, hshort⟩

/-- The loop of `parseline` takes all of the `&`. -/
theorem parsebacks_complete (k : Nat) (hread : Reads es s (List.replicate k .amp ++ vs))
    (hfollow : ¬ StartsWith [38] vs) :
    wp (parsebacks es fuel cmd) (· = .running) (fun c s' => c = background k cmd ∧ Reads es s' vs) s := by
  induction k generalizing s cmd fuel with
  | zero =>
    cases fuel with
    | zero => exact rfl
    | succ fuel =>
      rw [parsebacks]
      exact wp_peek_if (by decide) hread (fun hstart _ _ => absurd hstart hfollow)
        fun _ s₁ hread₁ => ⟨rfl, hread₁⟩
  | succ k ih =>
    cases fuel with
    | zero => exact rfl
    | succ fuel =>
      rw [parsebacks]
      refine wp_peek_if (by decide) hread (fun _ s₁ hread₁ => ?_) fun hstart _ _ => ?_
      · exact wp_take hread₁ fun _ _ s₂ _ hread₂ => ih hread₂
      · exact absurd ((startsWith_code (t := .amp) (by simp)).2 ⟨_, rfl⟩) hstart

end

/-- What a parsing function makes of the tokens: it takes a phrase of the grammar, or gives up. -/
def Parses (es : Nat) (m : ParseM Cmd) (nt : Nonterminal) (s : List UInt8) (ts : List Tok) : Prop :=
  wp m IsSyntax (fun c s' => ∃ us vs, ts = us ++ vs ∧ Derives nt us c ∧ Reads es s' vs ∧ ∃ n, Short n vs) s

/-- **Soundness**, and that the functions come to their end. -/
theorem wp_parse {es : Nat} (fuel : Nat) : ∀ {s : List UInt8} {ts : List Tok}, Reads es s ts → Short 0 ts →
    (4 * ts.length + 4 ≤ fuel → Parses es (parseline es fuel) .line s ts) ∧
    (4 * ts.length + 3 ≤ fuel → Parses es (parsepipe es fuel) .pipe s ts) ∧
    (4 * ts.length + 2 ≤ fuel → Parses es (parseexec es fuel) .cmd s ts) ∧
    (4 * ts.length + 1 ≤ fuel → StartsWith [40] ts → Parses es (parseblock es fuel) .cmd s ts) := by
  induction fuel with
  | zero =>
    intro s ts _ _
    refine ⟨?_, ?_, ?_, ?_⟩ <;> intro h <;> omega
  | succ fuel ih =>
    intro s ts hread hshort
    refine ⟨fun hfuel => ?_, fun hfuel => ?_, fun hfuel => ?_, fun hfuel hstart => ?_⟩
    · rw [Parses, parseline]
      refine wp_seq ((ih hread hshort).2.1 (by omega)) ?_
      rintro c s₁ ⟨us, vs, rfl, hpipe, hread₁, n, hshort₁⟩
      rw [List.length_append] at hfuel
      refine wp_seq (wp_parsebacks hread₁ (by omega) hshort₁) ?_
      rintro c₁ s₂ ⟨k, vs, rfl, rfl, hread₂, n₂, hshort₂⟩
      refine wp_peek_if (by decide) hread₂ (fun hstart s₃ hread₃ => ?_) fun _ s₃ hread₃ => ?_
      · obtain ⟨vs, rfl⟩ := (startsWith_code (t := .semi) (by simp)).1 hstart
        refine wp_take hread₃ fun _ _ s₄ _ hread₄ => ?_
        simp only [List.length_append, List.length_cons] at hfuel
        refine wp_seq ((ih hread₄ (hshort₂.control (by simp))).1 (by omega)) ?_
        rintro d s₅ ⟨us', vs, rfl, hline, hread₅, hshort₅⟩
        refine ⟨us ++ List.replicate k .amp ++ .semi :: us', vs, ?_, .list k hpipe hline, hread₅, hshort₅⟩
        simp only [List.append_assoc, List.cons_append]
      · refine ⟨us ++ List.replicate k .amp, vs, ?_, .line k hpipe, hread₃, n₂, hshort₂⟩
        rw [List.append_assoc]
    · rw [Parses, parsepipe]
      refine wp_seq ((ih hread hshort).2.2.1 (by omega)) ?_
      rintro c s₁ ⟨us, vs, rfl, hcmd, hread₁, n, hshort₁⟩
      refine wp_peek_if (by decide) hread₁ (fun hstart s₂ hread₂ => ?_) fun _ s₂ hread₂ => ?_
      · obtain ⟨vs, rfl⟩ := (startsWith_code (t := .bar) (by simp)).1 hstart
        refine wp_take hread₂ fun _ _ s₃ _ hread₃ => ?_
        simp only [List.length_append, List.length_cons] at hfuel
        refine wp_seq ((ih hread₃ (hshort₁.control (by simp))).2.1 (by omega)) ?_
        rintro d s₄ ⟨us', vs, rfl, hpipe, hrest⟩
        refine ⟨us ++ .bar :: us', vs, ?_, .pipe hcmd hpipe, hrest⟩
        rw [List.append_assoc, List.cons_append]
      · exact ⟨us, vs, rfl, .last hcmd, hread₂, n, hshort₁⟩
    · rw [Parses, parseexec]
      refine wp_peek_if (by decide) hread (fun hstart s₁ hread₁ => ?_) fun _ s₁ hread₁ => ?_
      · exact (ih hread₁ hshort).2.2.2 (by omega) hstart
      · refine wp_seq (wp_parseredirs hread₁ (by omega)) ?_
        rintro c s₂ ⟨us, vs, rs, rfl, hredirs, rfl, hread₂, -⟩
        rw [List.length_append] at hfuel
        refine wp_imp (@wp_parseargs _ _ _ _ _ [] _ hread₂ (by omega) (hredirs.short_iff.1 hshort)) ?_
        rintro c s₃ ⟨us', vs, ws, rs', rfl, hargs, rfl, hread₃, -, hshort₃⟩
        refine ⟨us ++ us', vs, ?_, .simple hredirs hargs, hread₃, hshort₃⟩
        rw [List.append_assoc]
    · rw [Parses, parseblock]
      refine wp_peek_if (by decide) hread (fun _ s₁ hread₁ => ?_) fun hno _ _ => absurd hstart hno
      obtain ⟨ts, rfl⟩ := (startsWith_code (t := .lpar) (by simp)).1 hstart
      refine wp_take hread₁ fun _ _ s₂ _ hread₂ => ?_
      rw [List.length_cons] at hfuel
      refine wp_seq ((ih hread₂ (hshort.control (by simp))).1 (by omega)) ?_
      rintro c s₃ ⟨us, vs, rfl, hline, hread₃, n, hshort₃⟩
      refine wp_peek_if (by decide) hread₃ (fun hstart s₄ hread₄ => ?_) fun _ s₄ _ => ?_
      · obtain ⟨vs, rfl⟩ := (startsWith_code (t := .rpar) (by simp)).1 hstart
        refine wp_take hread₄ fun _ _ s₅ _ hread₅ => ?_
        simp only [List.length_append, List.length_cons] at hfuel
        have hshort₄ : Short 0 vs := hshort₃.control (by simp)
        refine wp_imp (wp_parseredirs hread₅ (by omega)) ?_
        rintro d s₆ ⟨us', vs', rs, rfl, hredirs, rfl, hread₆, -⟩
        refine ⟨.lpar :: us ++ .rpar :: us', vs', ?_, .block hline hredirs, hread₆, 0,
          hredirs.short_iff.1 hshort₄⟩
        simp only [List.append_assoc, List.cons_append]
      · exact ⟨by decide, by decide⟩

/-! ## What the grammar derives is taken -/

/-- What may follow a phrase without being taken for a part of it. -/
def Follows : Nonterminal → List Tok → Prop
  | .line, vs => vs = [] ∨ StartsWith [41] vs
  | .pipe, vs => vs = [] ∨ StartsWith [41, 38, 59] vs
  | .cmd, vs => Ends vs

/-- The function for a phrase. -/
def parser (es fuel : Nat) : Nonterminal → ParseM Cmd
  | .line => parseline es fuel
  | .pipe => parsepipe es fuel
  | .cmd => parseexec es fuel

section
variable {es : Nat} {ts us vs : List Tok} {ws : List Word} {rs : List Redir} {c : Cmd} {nt : Nonterminal}

/-- Tokens that begin with one of the characters begin with one of more. -/
theorem StartsWith.mono {chars chars' : List UInt8} (h : StartsWith chars ts) (hsub : chars ⊆ chars') :
    StartsWith chars' ts := by
  obtain ⟨t, ht, hmem⟩ := h
  exact ⟨t, ht, hsub hmem⟩

theorem not_startsWith_of {chars chars' : List UInt8} (h : ts = [] ∨ StartsWith chars ts)
    (hdisjoint : chars.all (fun c => !chars'.contains c) = true) : ¬ StartsWith chars' ts := by
  obtain rfl | ⟨t, ht, hmem⟩ := h
  · exact not_startsWith_nil
  · rintro ⟨u, hu, hmem'⟩
    obtain rfl : t = u := Option.some.inj (ht.symm.trans hu)
    have hnot := List.all_eq_true.1 hdisjoint _ hmem
    rw [List.contains_iff_mem.2 hmem'] at hnot
    cases hnot

theorem Args.short {n : Nat} (h : Args ts ws rs) (hshort : Short n (ts ++ vs)) : ∃ m, Short m vs := by
  induction h generalizing n with
  | nil => exact ⟨n, hshort⟩
  | @cons w us ts ws rs rs' hredirs _ ih =>
    replace hshort : Short (n + 1) (us ++ ts ++ vs) := hshort
    rw [List.append_assoc] at hshort
    exact ih (hredirs.short_iff.1 hshort)

theorem short_amps {n : Nat} (k : Nat) (hshort : Short n (List.replicate k .amp ++ vs)) :
    ∃ m, Short m vs := by
  induction k generalizing n with
  | zero => exact ⟨n, hshort⟩
  | succ k ih => exact ih (hshort.control (t := .amp) (by simp))

/-- The words of a phrase are its own: what follows is short if the whole is. -/
theorem Derives.short (h : Derives nt ts c) : ∀ {vs}, Short 0 (ts ++ vs) → ∃ m, Short m vs := by
  induction h with
  | line k _ ih =>
    intro vs hshort
    rw [List.append_assoc] at hshort
    obtain ⟨m, hm⟩ := ih hshort
    exact short_amps k hm
  | list k _ _ ih₁ ih₂ =>
    intro vs hshort
    rw [List.append_assoc, List.append_assoc] at hshort
    obtain ⟨m, hm⟩ := ih₁ hshort
    obtain ⟨m', hm'⟩ := short_amps k hm
    exact ih₂ (hm'.control (by simp))
  | last _ ih => exact ih
  | pipe _ _ ih₁ ih₂ =>
    intro vs hshort
    rw [List.append_assoc] at hshort
    obtain ⟨m, hm⟩ := ih₁ hshort
    exact ih₂ (hm.control (by simp))
  | block _ hredirs ih =>
    intro vs hshort
    rw [List.append_assoc] at hshort
    obtain ⟨m, hm⟩ := ih (hshort.control (t := .lpar) (by simp))
    exact ⟨0, hredirs.short_iff.1 (hm.control (t := .rpar) (by simp))⟩
  | simple hredirs hargs =>
    intro vs hshort
    rw [List.append_assoc] at hshort
    exact hargs.short (hredirs.short_iff.1 hshort)

/-- A simple command does not begin with a parenthesis. -/
theorem simple_not_lpar (hredirs : Redirs us rs) {rs' : List Redir} (hargs : Args ts ws rs') (hvs : Ends vs) :
    ¬ StartsWith [40] (us ++ (ts ++ vs)) := by
  cases hredirs with
  | nil =>
    cases hargs with
    | nil => exact not_startsWith_of hvs (by decide)
    | cons => exact fun h => absurd (startsWith_cons.1 h) (show (97 : UInt8) ∉ ([40] : List UInt8) by decide)
  | @cons t mode fd w us rs hop _ =>
    intro h
    have hstart := startsWith_cons.1 h
    cases t with
    | lt => exact absurd hstart (by decide)
    | gt => exact absurd hstart (by decide)
    | append => exact absurd hstart (by decide)
    | _ => cases hop

/-- **Completeness**: what a derivation has is taken, and nothing more, unless the bound is too small. -/
theorem Derives.complete (h : Derives nt ts c) : ∀ {vs s}, Reads es s (ts ++ vs) → Follows nt vs →
    Short 0 (ts ++ vs) → ∀ fuel, wp (parser es fuel nt) (· = .running)
      (fun c' s' => c' = c ∧ Reads es s' vs) s := by
  induction h with
  | @line ts c k hpipe ih =>
    intro vs s hread hfollow hshort fuel
    rw [List.append_assoc] at hread hshort
    cases fuel with
    | zero => exact rfl
    | succ fuel =>
      rw [parser, parseline]
      have hpipeFollow : Follows .pipe (List.replicate k .amp ++ vs) := by
        cases k with
        | zero => exact hfollow.imp_right fun h => h.mono (by simp)
        | succ k => exact .inr (startsWith_cons.2 (by decide))
      refine wp_seq (ih hread hpipeFollow hshort fuel) ?_
      rintro c₁ s₁ ⟨rfl, hread₁⟩
      refine wp_seq (parsebacks_complete k hread₁ (not_startsWith_of hfollow (by decide))) ?_
      rintro c₂ s₂ ⟨rfl, hread₂⟩
      exact wp_peek_if (by decide) hread₂
        (fun hstart _ _ => absurd hstart (not_startsWith_of hfollow (by decide)))
        fun _ s₃ hread₃ => ⟨rfl, hread₃⟩
  | @list ts us c d k hpipe hline ih₁ ih₂ =>
    intro vs s hread hfollow hshort fuel
    rw [List.append_assoc, List.append_assoc] at hread hshort
    cases fuel with
    | zero => exact rfl
    | succ fuel =>
      rw [parser, parseline]
      have hpipeFollow : Follows .pipe (List.replicate k .amp ++ (.semi :: us ++ vs)) := by
        cases k with
        | zero => exact .inr (startsWith_cons.2 (by decide))
        | succ k => exact .inr (startsWith_cons.2 (by decide))
      refine wp_seq (ih₁ hread hpipeFollow hshort fuel) ?_
      rintro c₁ s₁ ⟨rfl, hread₁⟩
      refine wp_seq (parsebacks_complete k hread₁ fun h => absurd (startsWith_cons.1 h) (by decide)) ?_
      rintro c₂ s₂ ⟨rfl, hread₂⟩
      refine wp_peek_if (by decide) hread₂ (fun _ s₃ hread₃ => ?_) fun hstart _ _ => ?_
      · obtain ⟨m, hm⟩ := hpipe.short hshort
        obtain ⟨m', hm'⟩ := short_amps k hm
        refine wp_take hread₃ fun _ _ s₄ _ hread₄ => ?_
        refine wp_seq (ih₂ hread₄ hfollow (hm'.control (by simp)) fuel) ?_
        rintro d₁ s₅ ⟨rfl, hread₅⟩
        exact ⟨rfl, hread₅⟩
      · exact absurd (startsWith_cons.2 (by decide)) hstart
  | @last ts c hcmd ih =>
    intro vs s hread hfollow hshort fuel
    cases fuel with
    | zero => exact rfl
    | succ fuel =>
      rw [parser, parsepipe]
      have hcmdFollow : Follows .cmd vs := hfollow.imp_right fun h => h.mono (by simp)
      refine wp_seq (ih hread hcmdFollow hshort fuel) ?_
      rintro c₁ s₁ ⟨rfl, hread₁⟩
      exact wp_peek_if (by decide) hread₁
        (fun hstart _ _ => absurd hstart (not_startsWith_of hfollow (by decide)))
        fun _ s₂ hread₂ => ⟨rfl, hread₂⟩
  | @pipe ts us c d hcmd hpipe ih₁ ih₂ =>
    intro vs s hread hfollow hshort fuel
    rw [List.append_assoc] at hread hshort
    cases fuel with
    | zero => exact rfl
    | succ fuel =>
      rw [parser, parsepipe]
      have hcmdFollow : Follows .cmd (.bar :: us ++ vs) := .inr (startsWith_cons.2 (by decide))
      refine wp_seq (ih₁ hread hcmdFollow hshort fuel) ?_
      rintro c₁ s₁ ⟨rfl, hread₁⟩
      refine wp_peek_if (by decide) hread₁ (fun _ s₂ hread₂ => ?_) fun hstart _ _ => ?_
      · obtain ⟨m, hm⟩ := hcmd.short hshort
        refine wp_take hread₂ fun _ _ s₃ _ hread₃ => ?_
        refine wp_seq (ih₂ hread₃ hfollow (hm.control (by simp)) fuel) ?_
        rintro d₁ s₄ ⟨rfl, hread₄⟩
        exact ⟨rfl, hread₄⟩
      · exact absurd (startsWith_cons.2 (by decide)) hstart
  | @block ts us c rs hline hredirs ih =>
    intro vs s hread hfollow hshort fuel
    rw [List.append_assoc] at hread hshort
    cases fuel with
    | zero => exact rfl
    | succ fuel =>
      rw [parser, parseexec]
      refine wp_peek_if (by decide) hread (fun hstart s₁ hread₁ => ?_) fun hstart _ _ => ?_
      · cases fuel with
        | zero => exact rfl
        | succ fuel =>
          rw [parseblock]
          refine wp_peek_if (by decide) hread₁ (fun _ s₂ hread₂ => ?_) fun hno _ _ => absurd hstart hno
          refine wp_take hread₂ fun _ _ s₃ _ hread₃ => ?_
          have hlineFollow : Follows .line (.rpar :: us ++ vs) := .inr (startsWith_cons.2 (by decide))
          refine wp_seq (ih hread₃ hlineFollow (hshort.control (t := .lpar) (by simp)) fuel) ?_
          rintro c₁ s₄ ⟨rfl, hread₄⟩
          refine wp_peek_if (by decide) hread₄ (fun _ s₅ hread₅ => ?_) fun hno _ _ => ?_
          · refine wp_take hread₅ fun _ _ s₆ _ hread₆ => ?_
            exact parseredirs_complete hredirs hread₆ hfollow.not_redir
          · exact absurd (startsWith_cons.2 (by decide)) hno
      · exact absurd (startsWith_cons.2 (by decide)) hstart
  | @simple us ts ws rs rs' hredirs hargs =>
    intro vs s hread hfollow hshort fuel
    rw [List.append_assoc] at hread hshort
    cases fuel with
    | zero => exact rfl
    | succ fuel =>
      rw [parser, parseexec]
      refine wp_peek_if (by decide) hread
        (fun hstart _ _ => absurd hstart (simple_not_lpar hredirs hargs hfollow)) fun _ s₁ hread₁ => ?_
      refine wp_seq (parseredirs_complete hredirs hread₁ (hargs.not_redir hfollow)) ?_
      rintro c₁ s₂ ⟨rfl, hread₂⟩
      exact @parseargs_complete _ _ _ _ _ _ [] _ _ _ hargs hread₂ hfollow (hredirs.short_iff.1 hshort)

end

end Shell

end Xv6pp
