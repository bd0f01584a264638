import BlockScript.Proofs.Program.ErrorOrder
import BlockScript.Proofs.Program.Layout

/-!
# Errors are reported on lines that exist

Lines come from the scanner, which counts them, and go through tokens and trees into errors. Nothing
on the way makes up a line of its own, with one exception: who runs out of tokens reports line 0.

* Lexical errors stand on the lines of their segments.
* Grammar errors are found at tokens. None of them is about running out of tokens, since the mark of
  the end is never taken and so is always there to be found (`HasEof`).
* Errors of a run carry lines of the tree. They need not be followed through parsing and execution:
  if a line is moved that no token stands on, the tree does not change, but every error on that line
  would have to move (`exists_token_of_runWithin`).
-/

namespace BlockScript

/-! ## Lines of the scanner -/

private theorem Segment.bounds_of_mem_collect {α : Type} {g : Segment → Nat → Option α}
    {lineOf : α → Nat} (hg : ∀ s l a, g s l = some a → lineOf a = l) {a : α} {line : Nat}
    {segments : List Segment} (h : a ∈ collect g line segments) :
    line ≤ lineOf a ∧ lineOf a ≤ lastLine line segments := by
  obtain ⟨⟨s, l⟩, hs, ha⟩ := List.mem_filterMap.mp h
  rw [hg s l a ha]
  exact ⟨le_of_mem_locate hs, le_lastLine_of_mem_locate hs⟩

/-- A line that a source has. -/
def HasLine (source : List Char) (line : Nat) : Prop := 1 ≤ line ∧ line ≤ 1 + source.count '\n'

section

variable {source : List Char}

private theorem hasLine_of_mem_tokens {t : Token} (h : t ∈ (scanChars source).tokens) :
    HasLine source t.line := by
  rw [scanChars_eq] at h
  rcases List.mem_append.mp h with h | h
  · have hbounds := Segment.bounds_of_mem_collect (fun _ _ _ ↦ line_of_token?) h
    rwa [Segment.lastLine_split] at hbounds
  · rw [List.mem_singleton.mp h]
    exact ⟨Nat.le_add_right 1 _, Nat.le_refl _⟩

private theorem hasLine_of_mem_errors {e : LexError} (h : e ∈ (scanChars source).errors) :
    HasLine source e.line := by
  rw [scanChars_eq] at h
  have hbounds := Segment.bounds_of_mem_collect (g := Segment.error?)
    (fun _ _ _ ↦ line_of_error?) h
  rwa [Segment.lastLine_split] at hbounds

end

/-! ## Errors at tokens -/

/-- The mark of the end is among some tokens. -/
def HasEof (tokens : List Token) : Prop := ∃ t ∈ tokens, t.kind = .eof

/-- An error that names one of some tokens. -/
def ParseError.FoundAmong (tokens : List Token) (e : ParseError) : Prop :=
  ∃ t ∈ tokens, ∃ cause, e = .at cause t

namespace ParseError.FoundAmong

variable {ts rest : List Token} {e : ParseError}

theorem behind (h : TakenFrom ts rest) (he : e.FoundAmong rest) : e.FoundAmong ts := by
  obtain ⟨t, ht, hcause⟩ := he
  exact ⟨t, h.suffix.mem ht, hcause⟩

/-- Who names a token has not run out of them, even if the mark of the end is on line 0 and the two
errors look alike. -/
theorem of_exhausted (h : exhausted.FoundAmong ts) : ∃ t ∈ ts, t.kind = .eof ∧ t.line = 0 := by
  obtain ⟨t, ht, cause, heq⟩ := h
  have hplace : t.place = .atEnd := (congrArg ParseError.place heq).symm
  have hline : t.line = 0 := (congrArg ParseError.line heq).symm
  refine ⟨t, ht, ?_, hline⟩
  rw [Token.place] at hplace
  split at hplace
  · assumption
  · nomatch hplace

end ParseError.FoundAmong

section

variable {ts rest : List Token} {e : ParseError} {errors : List ParseError} {s r : Progress}

private theorem FoundAt.foundAmong (h : FoundAt ts rest e) (hrest : TakenFrom ts rest)
    (heof : HasEof ts) : e.FoundAmong ts := by
  rcases h with _ | ⟨-, htarget, -⟩ | _
  · exact ⟨_, hrest.suffix.mem List.mem_cons_self, _, rfl⟩
  · exact ⟨_, htarget.suffix.mem List.mem_cons_self, _, rfl⟩
  · obtain ⟨t, ht, -⟩ := hrest.exists_eof heof
    nomatch ht

private theorem Trail.foundAmong (h : Trail ts errors rest) (heof : HasEof ts) :
    ∀ e ∈ errors, e.FoundAmong ts := by
  induction h with
  | nil _ => exact nofun
  | cons hstart hstop he _ ih =>
    have hstartEof := hstart.exists_eof heof
    rw [List.forall_mem_cons]
    refine ⟨(he.foundAmong hstop hstartEof).behind hstart, fun e' he' ↦ ?_⟩
    exact (ih (hstop.exists_eof hstartEof) e' he').behind (hstart.trans hstop)

/-- Parsing has gone on from one state to another and has not run out of tokens. -/
structure GoesOn (s r : Progress) : Prop where
  /-- The mark of the end is still there. -/
  eof : HasEof r.rest
  /-- All errors that have been recorded name tokens. -/
  found : ∃ errors, r.found = s.found ++ errors ∧ ∀ e ∈ errors, e.FoundAmong s.rest

private theorem Follows.goesOn (h : Follows s r) (heof : HasEof s.rest) : GoesOn s r := by
  obtain ⟨errors, hfound, htrail⟩ := h
  exact ⟨htrail.takenFrom.exists_eof heof, errors, hfound, htrail.foundAmong heof⟩

private theorem FailsAfter.goesOn (h : FailsAfter Follows s e r) (heof : HasEof s.rest) :
    GoesOn s r ∧ e.FoundAmong s.rest := by
  obtain ⟨mid, hmid, hfound, htaken, he⟩ := h
  have hmidOn := hmid.goesOn heof
  obtain ⟨_, _, htrail⟩ := hmid
  refine ⟨⟨htaken.exists_eof hmidOn.eof, ?_⟩, ?_⟩
  · rw [hfound]
    exact hmidOn.found
  · exact (he.foundAmong htaken hmidOn.eof).behind htrail.takenFrom

end

/-! ## Rules on tokens that have an end -/

/-- However a rule ends, the mark of the end is still there, and an error names a token. -/
def EndsBeforeEof (tokens : List Token) {α : Type} :
    EStateM.Result ParseError (List Token) α → Prop :=
  Ends (fun _ rest ↦ HasEof rest) fun e rest ↦ HasEof rest ∧ e.FoundAmong tokens

/-- The same for a rule that recovers from errors. -/
def RecoversBeforeEof (s : Progress) {α : Type} : EStateM.Result ParseError Progress α → Prop :=
  Ends (fun _ r ↦ GoesOn s r) fun e r ↦ GoesOn s r ∧ e.FoundAmong s.rest

private theorem Spots.endsBeforeEof {n : Nat} {α : Type} {x : Parse α} {tokens : List Token}
    (hx : Spots n x) (hn : tokens.length ≤ n) (heof : HasEof tokens) :
    EndsBeforeEof tokens (x tokens) :=
  (hx hn).mono (fun _ _ h ↦ h.exists_eof heof) fun _ _ h ↦
    ⟨h.1.exists_eof heof, h.2.foundAmong h.1 heof⟩

private theorem Expr.endsBeforeEof_parse (level : Level) {tokens : List Token}
    (heof : HasEof tokens) : EndsBeforeEof tokens (Expr.parse level tokens) :=
  (spots_parse level _).endsBeforeEof (Nat.le_refl _) heof

private theorem GoesBy.recoversBeforeEof {α : Type} {x : Recover α} {s : Progress}
    (hx : GoesBy Follows s.rest.length x) (heof : HasEof s.rest) : RecoversBeforeEof s (x s) :=
  (hx (Nat.le_refl _)).mono (fun _ _ h ↦ h.goesOn heof) fun _ _ h ↦ h.goesOn heof

namespace Stmt

variable {s : Progress}

private theorem recoversBeforeEof_parse (heof : HasEof s.rest) :
    RecoversBeforeEof s (Stmt.parse s) :=
  (goesBy_parse recovering_follows _).recoversBeforeEof heof

private theorem recoversBeforeEof_parseBlock (line : Nat) (heof : HasEof s.rest) :
    RecoversBeforeEof s (parseBlock line s) :=
  (goesBy_parseBlock recovering_follows line _).recoversBeforeEof heof

end Stmt

private theorem foundAmong_grammarErrors {tokens : List Token} (heof : HasEof tokens) :
    ∀ e ∈ grammarErrors tokens, e.FoundAmong tokens := by
  rw [grammarErrors_eq]
  exact (trail_parseAll tokens).foundAmong heof

/-! ## Errors of a source -/

private theorem hasEof_scan (source : String) : HasEof (scan source).tokens := by
  obtain ⟨w, hw, -⟩ := exists_tokens_eq source.toList
  rw [scan, hw]
  exact ⟨_, List.mem_append_right w List.mem_cons_self, rfl⟩

private theorem hasLine_of_parse {source : String} {errors : List SyntaxError}
    (h : parse source = .error errors) : ∀ e ∈ errors, HasLine source.toList e.line := by
  rw [eq_mergeErrors_of_parse h]
  intro e he
  rw [mergeErrors, List.mem_mergeSort, List.mem_append, List.mem_map, List.mem_map] at he
  obtain ⟨e, he, rfl⟩ | ⟨e, he, rfl⟩ := he
  · exact hasLine_of_mem_errors he
  · obtain ⟨t, ht, cause, rfl⟩ := foundAmong_grammarErrors (hasEof_scan source) e he
    exact hasLine_of_mem_tokens ht

/-- **A line on which there is no token is not in the program.** It can be moved, and the program
stays as it is. -/
theorem mapLinesAll_of_parse {source : String} {program : Program} {f : Nat → Nat}
    (h : parse source = .ok program)
    (hf : ∀ t ∈ (scan source).tokens, t.kind ≠ .eof → f t.line = t.line) :
    Stmt.mapLinesAll f program = program := by
  obtain ⟨-, hparse⟩ := parse_eq_ok_iff.mp h
  obtain ⟨w, hw, hne⟩ := exists_tokens_eq source.toList
  rw [scan, hw] at hparse hf
  have hfixed : w.map (.mapLine f) = w := by
    refine (List.map_congr_left fun t ht ↦ ?_).trans (List.map_id w)
    rw [Token.mapLine, hf t (List.mem_append_left _ ht) (hne t ht)]
    rfl
  have hderives := (derives_of_parseTokens_concat hne rfl hparse).relabel (relabels_mapLine f)
  rw [hfixed] at hderives
  -- the mark of the end may have been moved, but nothing depends on its line
  have hend : Stmt.Derives w (.sequence (Stmt.mapLinesAll f program))
      [.eof (1 + source.toList.count '\n')] := by
    refine hderives.exchange fun _ ↦ ?_
    rintro _ ⟨⟩
    simp [Token.eof]
  have hparse' := parseTokens_of_derives hend (by rintro _ ⟨⟩; rfl)
  rw [hparse] at hparse'
  exact (Except.ok.inj hparse').symm

/-- **An error of a run stands on the line of a token.** -/
theorem exists_token_of_runWithin [Memory] {source : String} {fuel : Nat} {m m' : Machine}
    {e : RuntimeError} (h : runWithin fuel source m = .error (.stopped (.error e)) m') :
    ∃ t ∈ (scan source).tokens, t.kind ≠ .eof ∧ e.line = t.line := by
  rcases hparse : parse source with errors | program
  · rw [runWithin, hparse] at h
    cases h
  by_contra hnone
  -- the line of the error is moved, and no other
  let f (line : Nat) : Nat := if line = e.line then line + 1 else line
  have hprogram : Stmt.mapLinesAll f program = program := by
    refine mapLinesAll_of_parse hparse fun t ht heof ↦ if_neg fun hline ↦ hnone ?_
    exact ⟨t, ht, heof, hline.symm⟩
  have hsame : (runWithin fuel source).adaptExcept (Failure.mapLine f) = runWithin fuel source := by
    rw [runWithin_adaptExcept f fuel hparse, hprogram, runWithin_of_parse fuel hparse]
  have hmoved := adaptExcept_of_error (f := Failure.mapLine f) h
  rw [hsame, h] at hmoved
  have hline : e.line = f e.line := by
    injection hmoved with hfailure
    injection hfailure with hstop
    injection hstop with herror
    exact congrArg RuntimeError.line herror
  rw [show f e.line = e.line + 1 from if_pos rfl] at hline
  exact Nat.succ_ne_self _ hline.symm

/-- **Every line that is reported exists.** The errors for which a source is rejected stand on lines
of the source, and an error that stops it stands on the line of one of its tokens, which is not the
mark of the end. On tokens that have such a mark no rule runs out of tokens: all errors that it
returns or records name a token, and the mark is still there when it ends. -/
theorem error_lines_exist [Memory] (source : String) :
    (∀ errors, parse source = .error errors → ∀ e ∈ errors,
      1 ≤ e.line ∧ e.line ≤ 1 + source.toList.count '\n') ∧
    (∀ fuel m e m', runWithin fuel source m = .error (.stopped (.error e)) m' →
      ∃ t ∈ (scan source).tokens, t.kind ≠ .eof ∧ e.line = t.line) ∧
    ∀ tokens, HasEof tokens →
      (∀ e rest, Parse.peek tokens ≠ .error e rest ∧ Parse.take tokens ≠ .error e rest) ∧
      (∀ symbol what, EndsBeforeEof tokens (Parse.expect (.symbol symbol) what tokens)) ∧
      (∀ after, EndsBeforeEof tokens (Parse.expectName after tokens)) ∧
      (∀ level, EndsBeforeEof tokens (Expr.parse level tokens)) ∧
      (∀ found, RecoversBeforeEof ⟨tokens, found⟩ (Stmt.parse ⟨tokens, found⟩)) ∧
      (∀ line found, RecoversBeforeEof ⟨tokens, found⟩ (Stmt.parseBlock line ⟨tokens, found⟩)) ∧
      (∀ errors, parseTokens tokens = .error errors → ∀ e ∈ errors, e.FoundAmong tokens) ∧
      (ParseError.exhausted.FoundAmong tokens → ∃ t ∈ tokens, t.kind = .eof ∧ t.line = 0) := by
  refine ⟨fun errors ↦ hasLine_of_parse, fun fuel m e m' ↦ exists_token_of_runWithin,
    fun tokens heof ↦ ⟨fun e rest ↦ ?_, fun symbol what ↦ ?_, fun after ↦ ?_,
      fun level ↦ Expr.endsBeforeEof_parse level heof,
      fun found ↦ Stmt.recoversBeforeEof_parse heof,
      fun line found ↦ Stmt.recoversBeforeEof_parseBlock line heof, fun errors herrors ↦ ?_,
      ParseError.FoundAmong.of_exhausted⟩⟩
  · obtain ⟨t, ht, -⟩ := heof
    obtain ⟨first, others, rfl⟩ := List.exists_cons_of_ne_nil (List.ne_nil_of_mem ht)
    exact ⟨nofun, nofun⟩
  · exact (spots_expect symbol what).endsBeforeEof (Nat.le_refl _) heof
  · exact (spots_expectName after).endsBeforeEof (Nat.le_refl _) heof
  · have hfound := foundAmong_grammarErrors heof
    rwa [grammarErrors, herrors] at hfound

open scoped Memory

/-- A group that is not closed, a variable that is not declared, and the mark of the end alone. -/
theorem error_lines_exist_unclosed :
    (parse "\n(x" = .error [.grammar ⟨.expected .closingParen, .atEnd, 2⟩] ∧
      1 ≤ 2 ∧ 2 ≤ 1 + "\n(x".toList.count '\n') ∧
    (runWithin 0 "\nx;" {} = .error (.stopped (.error ⟨.undefinedVariable "x", 2⟩)) {} ∧
      ∃ t ∈ (scan "\nx;").tokens, t.kind ≠ .eof ∧ 2 = t.line) ∧
    HasEof [.eof 3] ∧ ∀ level, EndsBeforeEof [.eof 3] (Expr.parse level [.eof 3]) := by
  have hmerge : mergeErrors [] [⟨.expected .closingParen, .atEnd, 2⟩] =
      [.grammar ⟨.expected .closingParen, .atEnd, 2⟩] := by simp [mergeErrors]
  have hparse : parse "\n(x" = .error [.grammar ⟨.expected .closingParen, .atEnd, 2⟩] := by
    rw [← hmerge, parse, scan, show "\n(x".toList = ['\n', '(', 'x'] by simp]
    rfl
  have hrun : runWithin 0 "\nx;" {} =
      .error (.stopped (.error ⟨.undefinedVariable "x", 2⟩)) {} := by
    rw [runWithin, parse, scan, show "\nx;".toList = ['\n', 'x', ';'] by simp]
    rfl
  have heof : HasEof [.eof 3] := ⟨_, List.mem_cons_self, rfl⟩
  exact ⟨⟨hparse, (error_lines_exist _).1 _ hparse _ List.mem_cons_self⟩,
    ⟨hrun, (error_lines_exist _).2.1 _ _ _ _ hrun⟩, heof,
    ((error_lines_exist "").2.2 _ heof).2.2.2.1⟩

end BlockScript
