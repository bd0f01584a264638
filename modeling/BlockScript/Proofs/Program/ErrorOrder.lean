import BlockScript.Proofs.Program.Seam
import BlockScript.Proofs.Stmt.Finding

/-!
# All errors, line by line

A source that is rejected is rejected with everything that is wrong with it. Lexical errors are
found in the order of the source because segments are, and grammar errors because each of them is
found at a token in front of all that is parsed afterwards. Sorting by line is stable, so it only
merges the two lists: each of them is still there with its own order, and where both have errors on
one line the lexical ones come first, as they do before sorting. With nothing to merge, sorting
would change nothing, and it is left out.
-/

namespace BlockScript

/-! ## Grammar errors -/

namespace TakenFrom

variable {ts rest : List Token}

theorem suffix (h : TakenFrom ts rest) : rest <:+ ts := by
  obtain ⟨_, w, hw, -, -⟩ := h
  exact ⟨w, hw.symm⟩

/-- The mark of the end stays. -/
theorem exists_eof (h : TakenFrom ts rest) (heof : ∃ t ∈ ts, t.kind = .eof) :
    ∃ t ∈ rest, t.kind = .eof := by
  obtain ⟨_, w, rfl, -, hw⟩ := h
  obtain ⟨t, ht, heof⟩ := heof
  rcases List.mem_append.mp ht with ht | ht
  · exact absurd heof (hw t ht)
  · exact ⟨t, ht, heof⟩

end TakenFrom

/-- Nothing that is left stands on a line in front of the error. -/
theorem FoundAt.exists_line {ts rest : List Token} {e : ParseError} (h : FoundAt ts rest e)
    (hrest : TakenFrom ts rest) (heof : ∃ t ∈ ts, t.kind = .eof)
    (hts : ts.Pairwise (·.line ≤ ·.line)) :
    ∃ t ∈ ts, e.line = t.line ∧ ∀ t' ∈ rest, t.line ≤ t'.line := by
  cases h with
  | @next t after cause _ =>
    have hordered := hts.sublist hrest.suffix.sublist
    refine ⟨t, hrest.suffix.mem List.mem_cons_self, rfl, fun t' ht' ↦ ?_⟩
    rcases List.mem_cons.mp ht' with rfl | ht'
    · exact Nat.le_refl _
    · exact List.rel_of_pairwise_cons hordered ht'
  | @target t value _ _ htarget hvalue =>
    have hordered := hts.sublist htarget.suffix.sublist
    exact ⟨t, htarget.suffix.mem List.mem_cons_self, rfl, fun t' ht' ↦
      List.rel_of_pairwise_cons hordered (hvalue.suffix.mem ht')⟩
  | nowhere =>
    obtain ⟨t, ht, -⟩ := hrest.exists_eof heof
    nomatch ht

/-- Errors that are found from left to right come in the order of their lines. -/
theorem Trail.pairwise_line {ts rest : List Token} {errors : List ParseError}
    (h : Trail ts errors rest) (heof : ∃ t ∈ ts, t.kind = .eof)
    (hts : ts.Pairwise (·.line ≤ ·.line)) :
    errors.Pairwise (·.line ≤ ·.line) ∧ ∀ e ∈ errors, ∃ t ∈ ts, e.line = t.line := by
  induction h with
  | nil _ => exact ⟨.nil, nofun⟩
  | @cons ts start stop rest e errors hstart hstop he _ ih =>
    have hstartOrdered := hts.sublist hstart.suffix.sublist
    have hstartEof := hstart.exists_eof heof
    obtain ⟨t, ht, hline, hle⟩ := he.exists_line hstop hstartEof hstartOrdered
    obtain ⟨hordered, hlines⟩ :=
      ih (hstop.exists_eof hstartEof) (hstartOrdered.sublist hstop.suffix.sublist)
    refine ⟨.cons (fun e' he' ↦ ?_) hordered, List.forall_mem_cons.mpr ⟨?_, fun e' he' ↦ ?_⟩⟩
    · obtain ⟨t', ht', hline'⟩ := hlines e' he'
      rw [hline, hline']
      exact hle t' ht'
    · exact ⟨t, hstart.suffix.mem ht, hline⟩
    · obtain ⟨t', ht', hline'⟩ := hlines e' he'
      exact ⟨t', hstart.suffix.mem (hstop.suffix.mem ht'), hline'⟩

/-- The errors in a list of tokens. -/
def grammarErrors (tokens : List Token) : List ParseError :=
  match parseTokens tokens with
  | .ok _ => []
  | .error errors => errors

theorem grammarErrors_eq (tokens : List Token) :
    grammarErrors tokens = (parseAll tokens).2.found := by
  rw [grammarErrors, parseTokens_eq]
  by_cases h : (parseAll tokens).2.found = []
  · rw [if_pos h, h]
  · rw [if_neg h]

private theorem pairwise_grammarErrors (source : List Char) :
    (grammarErrors (scanChars source).tokens).Pairwise (·.line ≤ ·.line) := by
  obtain ⟨w, hw, -⟩ := exists_tokens_eq source
  have heof : ∃ t ∈ (scanChars source).tokens, t.kind = .eof := by
    rw [hw]
    exact ⟨_, List.mem_append_right w List.mem_cons_self, rfl⟩
  rw [grammarErrors_eq]
  exact ((trail_parseAll _).pairwise_line heof (pairwise_tokens source)).1

/-! ## Both kinds together -/

namespace SyntaxError

/-- Whether an error is a lexical one. -/
def isLexical : SyntaxError → Bool
  | lexical _ => true
  | grammar _ => false

@[simp] theorem line_lexical (e : LexError) : (lexical e).line = e.line := rfl

@[simp] theorem line_grammar (e : ParseError) : (grammar e).line = e.line := rfl

private theorem line_trans (a b c : SyntaxError) (hab : decide (a.line ≤ b.line) = true)
    (hbc : decide (b.line ≤ c.line) = true) : decide (a.line ≤ c.line) = true :=
  decide_eq_true (Nat.le_trans (of_decide_eq_true hab) (of_decide_eq_true hbc))

private theorem line_total (a b : SyntaxError) :
    (decide (a.line ≤ b.line) || decide (b.line ≤ a.line)) = true := by
  rw [Bool.or_eq_true, decide_eq_true_eq, decide_eq_true_eq]
  exact Nat.le_total a.line b.line

/-- **Sorting is stable.** Errors that are in order by line stay in the order they have. -/
theorem filter_mergeSort {errors : List SyntaxError} {p : SyntaxError → Bool}
    (h : (errors.filter p).Pairwise (·.line ≤ ·.line)) :
    (errors.mergeSort fun a b ↦ a.line ≤ b.line).filter p = errors.filter p := by
  have hsub : (errors.filter p).Sublist (errors.mergeSort fun a b ↦ a.line ≤ b.line) :=
    List.sublist_mergeSort line_trans line_total (h.imp fun hle ↦ decide_eq_true hle)
      List.filter_sublist
  have hfilter := hsub.filter p
  rw [List.filter_filter] at hfilter
  simp only [Bool.and_self] at hfilter
  have hlength := ((List.mergeSort_perm errors fun a b ↦ a.line ≤ b.line).filter p).length_eq
  exact (hfilter.eq_of_length hlength.symm).symm

end SyntaxError

section Merge

variable {lexical : List LexError} {grammar : List ParseError}

private theorem pairwise_mergeErrors (lexical : List LexError) (grammar : List ParseError) :
    (mergeErrors lexical grammar).Pairwise (·.line ≤ ·.line) :=
  (List.pairwise_mergeSort SyntaxError.line_trans SyntaxError.line_total _).imp of_decide_eq_true

/-- Lexical errors alone need no sorting. -/
theorem mergeErrors_nil (h : lexical.Pairwise (·.line ≤ ·.line)) :
    mergeErrors lexical [] = lexical.map .lexical := by
  have hsorted : (lexical.map SyntaxError.lexical).Pairwise fun a b ↦
      decide (a.line ≤ b.line) = true :=
    List.pairwise_map.mpr (h.imp fun hle ↦ decide_eq_true hle)
  rw [mergeErrors, List.map_nil, List.append_nil, List.mergeSort_of_pairwise hsorted]

/-- Errors of both kinds that satisfy a condition, as they stand before they are sorted. -/
theorem filter_both (p : SyntaxError → Bool) (lexical : List LexError)
    (grammar : List ParseError) :
    (lexical.map SyntaxError.lexical ++ grammar.map SyntaxError.grammar).filter p =
      (lexical.filter fun e ↦ p (.lexical e)).map .lexical ++
        (grammar.filter fun e ↦ p (.grammar e)).map .grammar := by
  rw [List.filter_append, List.filter_map, List.filter_map]
  rfl

private theorem filter_isLexical_mergeErrors (h : lexical.Pairwise (·.line ≤ ·.line)) :
    (mergeErrors lexical grammar).filter (·.isLexical) = lexical.map .lexical := by
  rw [mergeErrors, SyntaxError.filter_mergeSort, filter_both]
  · simp [SyntaxError.isLexical]
  · rw [filter_both]
    simpa [SyntaxError.isLexical, List.pairwise_map] using h

private theorem filter_not_isLexical_mergeErrors (h : grammar.Pairwise (·.line ≤ ·.line)) :
    (mergeErrors lexical grammar).filter (!·.isLexical) = grammar.map .grammar := by
  rw [mergeErrors, SyntaxError.filter_mergeSort, filter_both]
  · simp [SyntaxError.isLexical]
  · rw [filter_both]
    simpa [SyntaxError.isLexical, List.pairwise_map] using h

private theorem filter_line_mergeErrors (line : Nat) :
    (mergeErrors lexical grammar).filter (·.line = line) =
      (lexical.filter (·.line = line)).map .lexical ++
        (grammar.filter (·.line = line)).map .grammar := by
  rw [mergeErrors, SyntaxError.filter_mergeSort, filter_both]
  · rfl
  · -- errors on one line are in order by line, whatever their order is
    refine List.pairwise_filter.mpr (List.pairwise_of_forall fun a b ha hb ↦ ?_)
    exact Nat.le_of_eq ((of_decide_eq_true ha).trans (of_decide_eq_true hb).symm)

end Merge

/-! ## Sources -/

theorem eq_mergeErrors_of_parse {source : String} {errors : List SyntaxError}
    (h : parse source = .error errors) :
    errors = mergeErrors (scan source).errors (grammarErrors (scan source).tokens) := by
  have hordered : (scan source).errors.Pairwise (·.line ≤ ·.line) := pairwise_errors source.toList
  rw [parse] at h
  rw [grammarErrors]
  generalize (scan source).errors = lexical at h hordered ⊢
  generalize parseTokens (scan source).tokens = result at h ⊢
  rcases lexical with _ | ⟨e, lexical⟩
  · rcases result with grammar | program
    · exact (Except.error.inj h).symm
    · cases h
  · rcases result with grammar | program
    · exact (Except.error.inj h).symm
    · rw [mergeErrors_nil hordered]
      exact (Except.error.inj h).symm

/-- **All errors are reported, in order.** A source is a program exactly if scanning it gives no
error and its tokens make up a program. The errors of any other source come by line. Among them are
exactly the lexical errors in their own order and exactly the grammar errors in theirs, and of those
on one line the lexical ones come first. Running such a source reports them and does nothing
else. -/
theorem errors_complete_and_ordered [Memory] (source : String) :
    (∀ program, parse source = .ok program ↔
      (scan source).errors = [] ∧ parseTokens (scan source).tokens = .ok program) ∧
    ∀ errors, parse source = .error errors →
      errors.Pairwise (·.line ≤ ·.line) ∧
      errors.filter (·.isLexical) = (scan source).errors.map .lexical ∧
      errors.filter (!·.isLexical) = (grammarErrors (scan source).tokens).map .grammar ∧
      (∀ line, errors.filter (·.line = line) =
        ((scan source).errors.filter (·.line = line)).map .lexical ++
          ((grammarErrors (scan source).tokens).filter (·.line = line)).map .grammar) ∧
      ∀ fuel m, runWithin fuel source m = .error (.rejected errors) m := by
  refine ⟨fun program ↦ parse_eq_ok_iff, fun errors herrors ↦ ?_⟩
  have hrun (fuel : Nat) (m : Machine) :
      runWithin fuel source m = .error (.rejected errors) m := by
    rw [runWithin, herrors]
  obtain rfl := eq_mergeErrors_of_parse herrors
  exact ⟨pairwise_mergeErrors _ _, filter_isLexical_mergeErrors (pairwise_errors _),
    filter_not_isLexical_mergeErrors (pairwise_grammarErrors _), filter_line_mergeErrors, hrun⟩

open scoped Memory

/-- Two characters that begin nothing, and between them a semicolon that is missing. -/
theorem errors_complete_and_ordered_between :
    parse "@x\ny;\n@" = .error
      [.lexical ⟨.unexpectedCharacter '@', 1⟩,
        .grammar ⟨.expected (.semicolon "expression"), .lexeme "y", 2⟩,
        .lexical ⟨.unexpectedCharacter '@', 3⟩] ∧
    ∀ fuel m, runWithin fuel "@x\ny;\n@" m = .error (.rejected
      [.lexical ⟨.unexpectedCharacter '@', 1⟩,
        .grammar ⟨.expected (.semicolon "expression"), .lexeme "y", 2⟩,
        .lexical ⟨.unexpectedCharacter '@', 3⟩]) m := by
  have hchars : "@x\ny;\n@".toList = ['@', 'x', '\n', 'y', ';', '\n', '@'] := by simp
  have hmerge : mergeErrors [⟨.unexpectedCharacter '@', 1⟩, ⟨.unexpectedCharacter '@', 3⟩]
      [⟨.expected (.semicolon "expression"), .lexeme "y", 2⟩] =
      [.lexical ⟨.unexpectedCharacter '@', 1⟩,
        .grammar ⟨.expected (.semicolon "expression"), .lexeme "y", 2⟩,
        .lexical ⟨.unexpectedCharacter '@', 3⟩] := by
    simp [mergeErrors, List.mergeSort, List.MergeSort.Internal.splitInTwo]
  have hparse : parse "@x\ny;\n@" = .error
      [.lexical ⟨.unexpectedCharacter '@', 1⟩,
        .grammar ⟨.expected (.semicolon "expression"), .lexeme "y", 2⟩,
        .lexical ⟨.unexpectedCharacter '@', 3⟩] := by
    rw [← hmerge, parse, scan, hchars]
    rfl
  exact ⟨hparse, ((errors_complete_and_ordered _).2 _ hparse).2.2.2.2⟩

end BlockScript
