import Xv6pp.User.ShellParser

/-!
# The strings of a parsed line

`nulterminate` puts a zero behind each word that is in the command, over whatever stands there: white
space, an operator, or the end of the line.  As no word goes on behind its end, no word is cut short.
The file ends with the theorem about `parsecmd`.
-/

set_option autoImplicit false

namespace Xv6pp

namespace Shell

open Prog

/-! ## Words -/

/-- The bytes of a word. -/
def text (str : List UInt8) (w : Word) : List UInt8 := (str.drop w.q).take (w.eq - w.q)

/-- The word is made of word characters, and ends before one that is not. -/
structure WordAt (str : List UInt8) (w : Word) : Prop where
  le : w.q ≤ w.eq
  bound : w.eq ≤ str.length
  inside : ∀ c ∈ text str w, isWord c = true
  behind : ∀ c, str[w.eq]? = some c → isWord c = false

/-- The words among the tokens of a line. -/
theorem wordAt_of_mem {str pre : List UInt8} {s : List UInt8} {w : Word} (hstr : str = pre ++ s)
    (h : .word w ∈ lex str.length s) : WordAt str w := by
  induction hn : s.length using Nat.strong_induction_on generalizing s pre with
  | _ n ih =>
    subst hn
    cases s with
    | nil =>
      rw [lex] at h
      cases h
    | cons c s =>
      have hstr' : str = pre ++ [c] ++ s := by rw [hstr, List.append_assoc]; rfl
      rw [lex] at h
      split at h
      · exact ih _ (Nat.lt_succ_self _) hstr' h rfl
      · split at h
        · next hword =>
          have hsplit : c :: s = (c :: s).takeWhile isWord ++ (c :: s).dropWhile isWord :=
            List.takeWhile_append_dropWhile.symm
          have hdrop : (c :: s).dropWhile isWord = s.dropWhile isWord := List.dropWhile_cons_of_pos hword
          rw [hdrop] at hsplit
          have hstr'' : str = pre ++ (c :: s).takeWhile isWord ++ s.dropWhile isWord := by
            rw [List.append_assoc, ← hsplit, hstr]
          obtain h | h := List.mem_cons.1 h
          · obtain rfl := Tok.word.inj h
            have hq : str.length - (c :: s).length = pre.length := by
              rw [hstr, List.length_append]
              omega
            have heq : str.length - (s.dropWhile isWord).length =
                pre.length + ((c :: s).takeWhile isWord).length := by
              rw [hstr'', List.length_append, List.length_append]
              omega
            have htext : text str ⟨pre.length, pre.length + ((c :: s).takeWhile isWord).length⟩ =
                (c :: s).takeWhile isWord := by
              rw [text, hstr'', List.append_assoc, List.drop_left, Nat.add_sub_cancel_left, List.take_left]
            rw [hq, heq]
            refine ⟨Nat.le_add_right .., ?_, ?_, ?_⟩
            · rw [hstr'', List.length_append, List.length_append]
              exact Nat.le_add_right ..
            · rw [htext]
              exact fun d hd => List.mem_takeWhile_imp hd
            · intro d hd
              have hhead := List.head?_dropWhile_not isWord s
              rw [hstr'', List.getElem?_append_right (by rw [List.length_append]), List.length_append,
                Nat.sub_self] at hd
              cases hrest : s.dropWhile isWord with
              | nil =>
                rw [hrest] at hd
                cases hd
              | cons e r =>
                rw [hrest] at hd hhead
                cases hd
                exact hhead
          · refine ih _ (Nat.lt_succ_of_le (List.dropWhile_suffix _).length_le) hstr'' h rfl
        · split at h
          · obtain h | h := List.mem_cons.1 h
            · cases h
            · cases s with
              | nil =>
                rw [List.tail_nil, lex] at h
                cases h
              | cons d s =>
                have hstr'' : str = pre ++ [c, d] ++ s := by rw [hstr, List.append_assoc]; rfl
                exact ih _ (Nat.lt_succ_of_lt (Nat.lt_succ_self _)) hstr'' h rfl
          · obtain h | h := List.mem_cons.1 h
            · rw [symbolTok] at h
              split_ifs at h
            · exact ih _ (Nat.lt_succ_self _) hstr' h rfl

/-! ## Words of a command -/

/-- The words of a command, in the order in which `nulterminate` ends them. -/
def Cmd.words : Cmd → List Word
  | .exec argv => argv
  | .redir cmd file _ _ => cmd.words ++ [file]
  | .pipe left right => left.words ++ right.words
  | .list left right => left.words ++ right.words
  | .back cmd => cmd.words

theorem words_redirected (c : Cmd) (rs : List Redir) :
    (redirected c rs).words = c.words ++ rs.map Redir.file := by
  induction rs generalizing c with
  | nil => exact (List.append_nil _).symm
  | cons r rs ih =>
    show (redirected (.redir c r.file r.mode r.fd) rs).words = _
    rw [ih, Cmd.words, List.append_assoc]
    rfl

theorem words_background (n : Nat) (c : Cmd) : (background n c).words = c.words := by
  induction n generalizing c with
  | zero => rfl
  | succ n ih => exact ih (.back c)

theorem Redirs.mem {ts : List Tok} {rs : List Redir} (h : Redirs ts rs) {w : Word}
    (hw : w ∈ rs.map Redir.file) : .word w ∈ ts := by
  induction h with
  | nil => cases hw
  | cons _ _ ih =>
    obtain rfl | hw := List.mem_cons.1 hw
    · exact List.mem_cons_of_mem _ (List.mem_cons_self ..)
    · exact List.mem_cons_of_mem _ (List.mem_cons_of_mem _ (ih hw))

theorem Args.mem {ts : List Tok} {ws : List Word} {rs : List Redir} (h : Args ts ws rs) {w : Word}
    (hw : w ∈ ws ∨ w ∈ rs.map Redir.file) : .word w ∈ ts := by
  induction h with
  | nil => obtain hw | hw := hw <;> cases hw
  | cons hredirs _ ih =>
    rw [List.map_append, List.mem_append] at hw
    obtain hw | hw | hw := hw
    · obtain rfl | hw := List.mem_cons.1 hw
      · exact List.mem_cons_self ..
      · exact List.mem_cons_of_mem _ (List.mem_append_right _ (ih (.inl hw)))
    · exact List.mem_cons_of_mem _ (List.mem_append_left _ (hredirs.mem hw))
    · exact List.mem_cons_of_mem _ (List.mem_append_right _ (ih (.inr hw)))

/-- The words of a command are among the tokens that it is derived from. -/
theorem Derives.mem {nt : Nonterminal} {ts : List Tok} {c : Cmd} (h : Derives nt ts c) {w : Word}
    (hw : w ∈ c.words) : .word w ∈ ts := by
  induction h with
  | line k _ ih =>
    rw [words_background] at hw
    exact List.mem_append_left _ (ih hw)
  | list k _ _ ih₁ ih₂ =>
    rw [Cmd.words, words_background] at hw
    obtain hw | hw := List.mem_append.1 hw
    · exact List.mem_append_left _ (List.mem_append_left _ (ih₁ hw))
    · exact List.mem_append_right _ (List.mem_cons_of_mem _ (ih₂ hw))
  | last _ ih => exact ih hw
  | pipe _ _ ih₁ ih₂ =>
    obtain hw | hw := List.mem_append.1 hw
    · exact List.mem_append_left _ (ih₁ hw)
    · exact List.mem_append_right _ (List.mem_cons_of_mem _ (ih₂ hw))
  | block _ hredirs ih =>
    rw [words_redirected] at hw
    obtain hw | hw := List.mem_append.1 hw
    · exact List.mem_append_left _ (List.mem_cons_of_mem _ (ih hw))
    · exact List.mem_append_right _ (List.mem_cons_of_mem _ (hredirs.mem hw))
  | simple hredirs hargs =>
    rw [words_redirected, List.map_append, ← List.append_assoc] at hw
    obtain hw | hw := List.mem_append.1 hw
    · obtain hw | hw := List.mem_append.1 hw
      · exact List.mem_append_right _ (hargs.mem (.inl hw))
      · exact List.mem_append_left _ (hredirs.mem hw)
    · exact List.mem_append_right _ (hargs.mem (.inr hw))

/-! ## Zeros -/

/-- Zeros are written at some places. -/
def zeros (ps : List Nat) (buf : List UInt8) : List UInt8 := ps.foldl (fun buf p => buf.set p 0) buf

theorem nulterminate_eq (c : Cmd) (buf : List UInt8) :
    nulterminate c buf = zeros (c.words.map Word.eq) buf := by
  induction c generalizing buf with
  | exec argv => rw [nulterminate, Cmd.words, zeros, List.foldl_map]
  | redir cmd file mode fd ih =>
    rw [nulterminate, ih, Cmd.words, List.map_append, zeros, zeros, List.foldl_append]
    rfl
  | pipe left right ih₁ ih₂ =>
    rw [nulterminate, ih₁, ih₂, Cmd.words, List.map_append, zeros, zeros, zeros, List.foldl_append]
  | list left right ih₁ ih₂ =>
    rw [nulterminate, ih₁, ih₂, Cmd.words, List.map_append, zeros, zeros, zeros, List.foldl_append]
  | back cmd ih => exact ih buf

theorem getElem?_zeros_of_not_mem {ps : List Nat} {i : Nat} (hi : i ∉ ps) (buf : List UInt8) :
    (zeros ps buf)[i]? = buf[i]? := by
  induction ps generalizing buf with
  | nil => rfl
  | cons p ps ih =>
    show (zeros ps (buf.set p 0))[i]? = _
    rw [ih (List.not_mem_of_not_mem_cons hi), List.getElem?_set_ne (List.ne_of_not_mem_cons hi).symm]

theorem length_zeros (ps : List Nat) (buf : List UInt8) : (zeros ps buf).length = buf.length := by
  induction ps generalizing buf with
  | nil => rfl
  | cons p ps ih => exact (ih _).trans List.length_set

theorem getElem?_zeros_of_mem {ps : List Nat} {i : Nat} (hi : i ∈ ps) {buf : List UInt8}
    (hbuf : i < buf.length) : (zeros ps buf)[i]? = some 0 := by
  induction ps generalizing buf with
  | nil => cases hi
  | cons p ps ih =>
    show (zeros ps (buf.set p 0))[i]? = _
    have hbuf' : i < (buf.set p 0).length := by rwa [List.length_set]
    by_cases hmem : i ∈ ps
    · exact ih hmem hbuf'
    · obtain rfl : i = p := (List.mem_cons.1 hi).resolve_right hmem
      rw [getElem?_zeros_of_not_mem hmem, List.getElem?_set_self hbuf]

/-- **A word is a string of its own** when zeros have been written behind it and other words. -/
theorem stringAt_zeros {str : List UInt8} {ws : List Word} (hnul : 0 ∉ str) (hws : ∀ w ∈ ws, WordAt str w)
    {w : Word} (hw : w ∈ ws) : stringAt (zeros (ws.map Word.eq) (str ++ [0])) w.q = text str w := by
  obtain ⟨hle, hbound, hinside, hbehind⟩ := hws w hw
  have hlength : (str ++ [0]).length = str.length + 1 := List.length_append
  have hzero : (zeros (ws.map Word.eq) (str ++ [0]))[w.eq]? = some 0 :=
    getElem?_zeros_of_mem (List.mem_map_of_mem hw) (by omega)
  have hsame : (((zeros (ws.map Word.eq) (str ++ [0])).drop w.q).take (w.eq - w.q)) = text str w := by
    refine List.ext_getElem? fun i => ?_
    rw [text, List.getElem?_take, List.getElem?_take]
    split
    · next hi =>
      have hi' : w.q + i < str.length := by omega
      rw [List.getElem?_drop, List.getElem?_drop]
      have hget : (str ++ [0])[w.q + i]? = str[w.q + i]? := List.getElem?_append_left hi'
      rw [getElem?_zeros_of_not_mem, hget]
      -- a zero is not written inside a word
      rintro hmem
      obtain ⟨v, hv, hveq⟩ := List.mem_map.1 hmem
      have hin : str[w.q + i] ∈ text str w := by
        rw [text, List.mem_take_iff_getElem]
        refine ⟨i, ?_, ?_⟩
        · rw [List.length_drop]
          omega
        · rw [List.getElem_drop]
      have hword := hinside _ hin
      have hnot := (hws v hv).behind str[w.q + i] (by rw [hveq]; exact List.getElem?_eq_getElem hi')
      rw [hword] at hnot
      cases hnot
    · rfl
  have hrest : (zeros (ws.map Word.eq) (str ++ [0])).drop w.q = text str w ++
      0 :: (zeros (ws.map Word.eq) (str ++ [0])).drop (w.eq + 1) := by
    rw [← List.take_append_drop (w.eq - w.q) ((zeros (ws.map Word.eq) (str ++ [0])).drop w.q), hsame,
      List.drop_drop, Nat.add_sub_cancel' hle]
    have hlt : w.eq < (zeros (ws.map Word.eq) (str ++ [0])).length := by
      rw [length_zeros, hlength]
      omega
    rw [List.getElem?_eq_getElem hlt] at hzero
    rw [List.drop_eq_getElem_cons hlt, Option.some.inj hzero]
  have hnonzero : ∀ c ∈ text str w, (decide (c ≠ 0)) = true := by
    intro c hc
    refine decide_eq_true ?_
    rintro rfl
    exact hnul (List.mem_of_mem_drop (List.mem_of_mem_take hc))
  rw [stringAt, hrest, List.takeWhile_append_of_pos hnonzero, List.takeWhile_cons_of_neg (by decide),
    List.append_nil]

/-! ## `parsecmd` -/

section
variable {es : Nat} {s : List UInt8} {ts : List Tok} {E : Panic → Prop} {cmd : Cmd}

/-- The end of `parsecmd`: there are leftovers just if there are tokens left. -/
theorem wp_leftovers {Q : Cmd → Prop} (hread : Reads es s ts) (hend : ts = [] → Q cmd)
    (hleft : ts ≠ [] → E .syntaxError) :
    wp (peek [] >>= fun _ => (get : ParseM (List UInt8)) >>= fun rest =>
      if rest.length ≠ 0 then throw .syntaxError else pure cmd) E (fun c _ => Q c) s := by
  have hrest : ((s.dropWhile isSpace).length ≠ 0 → ts ≠ []) ∧ (¬ (s.dropWhile isSpace).length ≠ 0 → ts = []) := by
    obtain ⟨hdrop, rfl⟩ | ⟨c, r, hdrop, hc, hs⟩ := hread.cases
    · rw [hdrop]
      exact ⟨fun h => absurd rfl h, fun _ => rfl⟩
    · rw [hdrop]
      refine ⟨fun _ hnil => ?_, fun h => absurd (Nat.succ_ne_zero _) h⟩
      obtain ⟨t, s', -, hlex, -⟩ := @scan_eq es r _ hc hs
      have hts := hread.dropWhile.2
      rw [hdrop, hnil, hlex] at hts
      cases hts
  show wp (if (s.dropWhile isSpace).length ≠ 0 then throw .syntaxError else pure cmd) E (fun c _ => Q c)
    (s.dropWhile isSpace)
  rw [wp_ite]
  exact ⟨fun h => hleft (hrest.1 h), fun h => hend (hrest.2 h)⟩

end

/-- What `parsecmd` is, before the zeros are written. -/
def parseall (fuel : Nat) (str : List UInt8) : ParseM Cmd :=
  parseline str.length fuel >>= fun cmd => peek [] >>= fun _ =>
    (get : ParseM (List UInt8)) >>= fun rest => if rest.length ≠ 0 then throw .syntaxError else pure cmd

theorem parsecmd_eq (fuel : Nat) (str : List UInt8) : parsecmd fuel str =
    ((parseall fuel str).run str).map fun r => (r.1, nulterminate r.1 (str ++ [0])) := rfl

section
variable {fuel : Nat} {str : List UInt8}

theorem wp_parseall (hnul : 0 ∉ str) (hshort : Short 0 (tokens str)) (hfuel : 4 * (tokens str).length + 4 ≤ fuel) :
    wp (parseall fuel str) IsSyntax (fun c _ => Derives .line (tokens str) c) str := by
  have hread : Reads str.length str (tokens str) := ⟨hnul, rfl⟩
  refine wp_seq ((wp_parse fuel hread hshort).1 hfuel) ?_
  rintro c s₁ ⟨us, vs, hsplit, hline, hread₁, -⟩
  refine wp_leftovers hread₁ (fun hvs => ?_) fun _ => ⟨by decide, by decide⟩
  rw [hsplit, hvs, List.append_nil]
  exact hline

theorem parseall_complete (hnul : 0 ∉ str) (hshort : Short 0 (tokens str)) {c : Cmd}
    (hline : Derives .line (tokens str) c) :
    wp (parseall fuel str) (· = .running) (fun c' _ => c' = c) str := by
  have hall : tokens str ++ [] = tokens str := List.append_nil _
  have hread : Reads str.length str (tokens str ++ []) := ⟨hnul, hall.symm⟩
  refine wp_seq (hline.complete hread (.inl rfl) (hall.symm ▸ hshort) fuel) ?_
  rintro c₁ s₁ ⟨rfl, hread₁⟩
  exact wp_leftovers hread₁ (fun _ => rfl) fun h => absurd rfl h

end

/-- **The parser of the shell.**  With enough rounds it accepts the lines that the grammar derives, with the
command of the derivation, and gives up on the others; and the strings of a command are the words of the
line. -/
theorem parsecmd_iff {str : List UInt8} (hnul : 0 ∉ str) (hshort : Short 0 (tokens str)) :
    ∃ N, ∀ fuel, N ≤ fuel →
      (∀ c, (∃ buf, parsecmd fuel str = .ok (c, buf)) ↔ Derives .line (tokens str) c) ∧
      ((∀ c, ¬ Derives .line (tokens str) c) → ∃ e, parsecmd fuel str = .error e ∧ IsSyntax e) ∧
      ∀ c buf, parsecmd fuel str = .ok (c, buf) → ∀ w ∈ c.words,
        .word w ∈ tokens str ∧ stringAt buf w.q = text str w := by
  refine ⟨4 * (tokens str).length + 4, fun fuel hfuel => ?_⟩
  have hsound := wp_parseall hnul hshort hfuel
  have hok : ∀ {c buf}, parsecmd fuel str = .ok (c, buf) →
      Derives .line (tokens str) c ∧ buf = nulterminate c (str ++ [0]) := by
    intro c buf hrun
    rw [parsecmd_eq] at hrun
    cases hparse : (parseall fuel str).run str with
    | error e =>
      rw [hparse] at hrun
      cases hrun
    | ok r =>
      rw [hparse] at hrun
      cases hrun
      have hline := wp_ok hsound hparse
      exact ⟨hline, rfl⟩
  refine ⟨fun c => ⟨?_, fun hline => ?_⟩, fun hnone => ?_, fun c buf hrun w hw => ?_⟩
  · rintro ⟨buf, hrun⟩
    exact (hok hrun).1
  · have hcomplete := @parseall_complete fuel _ hnul hshort _ hline
    rw [parsecmd_eq]
    cases hparse : (parseall fuel str).run str with
    | error e =>
      have hrunning := wp_error hcomplete hparse
      have hsyntax := wp_error hsound hparse
      exact absurd hrunning hsyntax.2
    | ok r =>
      have hc := wp_ok hcomplete hparse
      subst hc
      exact ⟨_, rfl⟩
  · rw [parsecmd_eq]
    cases hparse : (parseall fuel str).run str with
    | error e =>
      have hsyntax := wp_error hsound hparse
      exact ⟨e, rfl, hsyntax⟩
    | ok r =>
      have hline := wp_ok hsound hparse
      exact absurd hline (hnone r.1)
  · obtain ⟨hline, rfl⟩ := hok hrun
    have hwords : ∀ v ∈ c.words, WordAt str v := fun v hv =>
      @wordAt_of_mem _ [] _ _ rfl (hline.mem hv)
    refine ⟨hline.mem hw, ?_⟩
    rw [nulterminate_eq]
    exact stringAt_zeros hnul hwords hw

/-- The line `a>b`: a redirection, without white space. -/
theorem parsecmd_redirection : ∃ N, ∀ fuel, N ≤ fuel → ∃ buf,
    parsecmd fuel [97, 62, 98] = .ok (.redir (.exec [⟨0, 1⟩]) ⟨2, 3⟩ 0x601 1, buf) ∧
      stringAt buf 0 = [97] ∧ stringAt buf 2 = [98] := by
  have htokens : tokens [97, 62, 98] = [.word ⟨0, 1⟩, .gt, .word ⟨2, 3⟩] := by
    simp [tokens, lex, isSpace, isWord, whitespace, symbols, symbolTok]
  have hredirs : Redirs [.gt, .word ⟨2, 3⟩] [⟨⟨2, 3⟩, 0x601, 1⟩] := .cons rfl .nil
  have hline : Derives .line (tokens [97, 62, 98]) (.redir (.exec [⟨0, 1⟩]) ⟨2, 3⟩ 0x601 1) := by
    rw [htokens]
    exact .line 0 (.last (.simple .nil (.cons (w := ⟨0, 1⟩) hredirs .nil)))
  obtain ⟨N, hN⟩ := @parsecmd_iff [97, 62, 98] (by decide) (by
    rw [htokens]
    exact (by decide : 1 < MAXARGS))
  refine ⟨N, fun fuel hfuel => ?_⟩
  obtain ⟨haccept, -, hstrings⟩ := hN fuel hfuel
  obtain ⟨buf, hrun⟩ := (haccept _).2 hline
  have hwords := hstrings _ buf hrun
  exact ⟨buf, hrun, (hwords ⟨0, 1⟩ (by decide)).2, (hwords ⟨2, 3⟩ (by decide)).2⟩

end Shell

end Xv6pp
