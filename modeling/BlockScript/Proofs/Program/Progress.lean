import BlockScript.Proofs.Stmt.Lockstep

/-!
# Parsing ends, makes progress and stays in front of the end

A parser that runs beside itself says something about a single run. With everything counting as a
difference, two runs in lockstep give equal results, so a bound can be exchanged for a larger one
and tokens behind the mark of the end for others. What the two runs have taken, one run has taken:
never the mark of the end, always something in a round of a loop, and at least one token for each
error.

None of this asks tokens to come from a source. They may be any list, with the mark of the end
anywhere in it or missing.
-/

namespace BlockScript

/-- The tokens up to the first mark of the end, and that mark. -/
def throughEof : List Token → List Token
  | [] => []
  | t :: ts => if t.kind = .eof then [t] else t :: throughEof ts

/-- What the statements of a list of tokens are, and what is left after them. -/
def parseAll (tokens : List Token) : Program × Progress :=
  programRule (Stmt.statement tokens.length) tokens.length ⟨tokens, []⟩

/-! ## Exactly alike -/

private theorem Expr.mapLines_id (e : Expr) : e.mapLines id = e := by
  induction e with
  | literal value line => rfl
  | group inner line ih => rw [mapLines, ih, id]
  | unary op operand line ih => rw [mapLines, ih, id]
  | binary left op right line ihl ihr => rw [mapLines, ihl, ihr, id]
  | logical left op right line ihl ihr => rw [mapLines, ihl, ihr, id]
  | var name line => rfl
  | assign name value line ih => rw [mapLines, ih, id]

namespace Stmt

private theorem map_mapLines_id (o : Option Expr) : o.map (Expr.mapLines id) = o := by
  cases o with
  | none => rfl
  | some e => rw [Option.map_some, Expr.mapLines_id]

private theorem mapLinesAll_id_of_forall {ss : List Stmt} (h : ∀ s ∈ ss, s.mapLines id = s) :
    mapLinesAll id ss = ss := by
  induction ss with
  | nil => rfl
  | cons s ss ih =>
    rw [List.forall_mem_cons] at h
    rw [mapLinesAll, h.1, ih h.2]

private theorem mapLines_id (s : Stmt) : s.mapLines id = s := by
  induction s using Stmt.induction with
  | expression value line => rw [mapLines, Expr.mapLines_id, id]
  | write value terminator line => rw [mapLines, Expr.mapLines_id, id]
  | declare name initial line => rw [mapLines, map_mapLines_id, id]
  | block body line ih => rw [mapLines, mapLinesAll_id_of_forall ih, id]
  | ifThen condition yes line ih => rw [mapLines, Expr.mapLines_id, ih, id]
  | ifElse condition yes no line ihy ihn => rw [mapLines, Expr.mapLines_id, ihy, ihn, id]
  | loop condition body increment line ih =>
    rw [mapLines, Expr.mapLines_id, ih, map_mapLines_id, id]
  | repeatUntil body condition line ih => rw [mapLines, Expr.mapLines_id, ih, id]
  | repeatFor body count line ih => rw [mapLines, Expr.mapLines_id, ih, id]
  | jump kind line => rfl
  | read name line => rfl
  | readNumber name line => rfl

private theorem mapLinesAll_id (ss : List Stmt) : mapLinesAll id ss = ss :=
  mapLinesAll_id_of_forall fun s _ ↦ mapLines_id s

end Stmt

namespace Likeness

variable {L : Likeness} {k : Nat} {ts rest rest' : List Token}

theorem Same.refl (t : Token) : L.Same t t := ⟨rfl, rfl, rfl, fun _ ↦ rfl⟩

theorem Alike.refl (ts : List Token) : L.Alike ts ts := by
  induction ts with
  | nil => exact .nil
  | cons t ts ih =>
    by_cases ht : t.kind = .eof
    · exact .eof (.refl t) ht
    · exact .cons (.refl t) ht ih

theorem Ready.refl {n m : Nat} (hn : ts.length ≤ n) (hm : ts.length ≤ m) : L.Ready n m ts ts :=
  ⟨.refl ts, hn, hm⟩

private theorem Alike.throughEof (ts : List Token) : L.Alike ts (throughEof ts) := by
  induction ts with
  | nil => exact .nil
  | cons t ts ih =>
    rw [BlockScript.throughEof]
    split
    · next ht => exact .eof (.refl t) ht
    · next ht => exact .cons (.refl t) ht ih

theorem SameExpr.eq {e e' : Expr} (h : exact.SameExpr e e') : e = e' := by
  rw [← e.mapLines_id, ← e'.mapLines_id]
  exact h

theorem SameStmt.eq {s s' : Stmt} (h : exact.SameStmt s s') : s = s' := by
  rw [← s.mapLines_id, ← s'.mapLines_id]
  exact h

theorem SameStmts.eq {ss ss' : List Stmt} (h : exact.SameStmts ss ss') : ss = ss' := by
  rw [← Stmt.mapLinesAll_id ss, ← Stmt.mapLinesAll_id ss']
  exact h

theorem SameError.eq {e e' : ParseError} (h : exact.SameError e e') : e = e' := by
  obtain ⟨cause, place, line⟩ := e
  obtain ⟨cause', place', line'⟩ := e'
  obtain ⟨hcause, hplace, hline⟩ := h
  congr

theorem eq_of_forall₂_sameError {es es' : List ParseError}
    (h : List.Forall₂ exact.SameError es es') : es = es' := by
  have heq := h.imp fun _ _ ↦ SameError.eq
  rwa [List.forall₂_eq_eq_eq] at heq

/-- What two runs leave of one list is one list. -/
theorem Lockstep.eq (h : L.Lockstep k ts ts rest rest') : rest = rest' := by
  obtain ⟨j, -, ⟨w, hw, hj, -⟩, ⟨w', hw', hj', -⟩, -⟩ := h
  exact (List.append_inj (hw.symm.trans hw') (hj.trans hj'.symm)).2

theorem Ahead.eq {s r r' : Progress} (h : exact.Ahead k s s r r') : r = r' := by
  have hrest := h.lockstep.eq
  obtain ⟨j, new, new', -, -, -, hnew, hnew', hsame, -⟩ := h
  have hfound : r.found = r'.found := by
    rw [hnew, hnew', eq_of_forall₂_sameError hsame]
  obtain ⟨rest, found⟩ := r
  obtain ⟨rest', found'⟩ := r'
  congr

theorem Begun.eq {s r r' : Progress} (h : exact.Begun s s r r') : r = r' := by
  rcases h with h | ⟨rfl, rfl⟩
  · exact h.eq
  · rfl

end Likeness

/-! ## Bounds are never reached -/

open Likeness

private theorem Expr.expression_eq_parse {n : Nat} {ts : List Token} (h : ts.length ≤ n) :
    expression n ts = parse .assignment ts := by
  have hsteps := steps_expression (L := exact) n ts.length (.refl h (Nat.le_refl _))
  exact hsteps.eq (fun _ _ ↦ SameExpr.eq) (fun _ _ ↦ SameError.eq) (fun _ _ ↦ Lockstep.eq)
    fun _ _ ↦ Lockstep.eq

theorem Stmt.statement_eq_parse {n : Nat} {s : Progress} (h : s.rest.length ≤ n) :
    statement n s = parse s := by
  have hparses := parses_statement (L := exact) n s.rest.length (.refl h (Nat.le_refl _))
  exact hparses.eq (fun _ _ ↦ SameStmt.eq) (fun _ _ ↦ SameError.eq) (fun _ _ ↦ Ahead.eq)
    fun _ _ ↦ Begun.eq

theorem programRule_eq_parseAll {tokens : List Token} {n m : Nat} (hn : tokens.length ≤ n)
    (hm : tokens.length ≤ m) :
    programRule (Stmt.statement n) m ⟨tokens, []⟩ = parseAll tokens := by
  have hparses := Stmt.parses_statement (L := exact) n tokens.length
  obtain ⟨hprogram, hahead⟩ := programRule_lockstep hparses ⟨tokens, []⟩ ⟨tokens, []⟩
    (.refl hm (Nat.le_refl _)) (.refl hn (Nat.le_refl _))
  exact Prod.ext hprogram.eq hahead.eq

/-! ## What is taken -/

namespace Likeness.Lockstep

variable {L : Likeness} {k : Nat} {ts ts' rest rest' : List Token}

private theorem exists_le_taken (h : L.Lockstep k ts ts' rest rest') :
    ∃ j, k ≤ j ∧ Taken j ts rest := by
  obtain ⟨j, hj, ht, -, -⟩ := h
  exact ⟨j, hj, ht⟩

theorem exists_taken (h : L.Lockstep k ts ts' rest rest') : ∃ j, Taken j ts rest := by
  obtain ⟨j, -, ht⟩ := h.exists_le_taken
  exact ⟨j, ht⟩

end Likeness.Lockstep

private theorem Expr.taken_parse (level : Level) (ts : List Token) :
    ∃ j, Taken j ts (stateAfter (parse level ts)) := by
  have hlockstep := (inStep_parse level (Alike.refl (L := exact) ts)).stateAfter
    (Q := exact.Lockstep 0 ts ts) (fun _ _ h ↦ h.mono (Nat.zero_le 1)) fun _ _ h ↦ h
  exact hlockstep.exists_taken

namespace Stmt

private theorem taken_parse (s : Progress) : ∃ j, Taken j s.rest (stateAfter (parse s)).rest := by
  have hparses := parses_statement (L := exact) s.rest.length s.rest.length
  have hahead := (hparses.recovers (.refl (Nat.le_refl _) (Nat.le_refl _))).stateAfter
    (Q := exact.Ahead 0 s s) (fun _ _ h ↦ h) fun _ _ h ↦ h
  exact hahead.lockstep.exists_taken

private theorem taken_parseBlock (line : Nat) (s : Progress) :
    ∃ j, Taken j s.rest (stateAfter (parseBlock line s)).rest := by
  have hparses := parses_statement (L := exact) s.rest.length s.rest.length
  have hblock := recovers_blockRule hparses (Nat.le_refl _) (Nat.le_refl _)
  have hahead := (hblock (.refl (Nat.le_refl _) (Nat.le_refl _))).stateAfter
    (Q := exact.Ahead 0 s s) (fun _ _ h ↦ h) fun _ _ h ↦ h
  have htaken := hahead.lockstep.exists_taken
  simp only [parseBlock]
  generalize blockRule (statement s.rest.length) s.rest.length s = r at htaken ⊢
  cases r <;> exact htaken

/-- A round of a loop takes something, whether or not the statement in it can be parsed. -/
theorem taken_recorded {n : Nat} {s : Progress} (hn : s.rest.length ≤ n)
    {skip : List Token → List Token}
    (hskip : ∀ {ts ts'}, exact.Alike ts ts' → exact.Lockstep 0 ts ts' (skip ts) (skip ts'))
    (hhead : exact.Lockstep 1 s.rest s.rest (skip s.rest) (skip s.rest)) :
    ∃ j, 0 < j ∧ Taken j s.rest (recorded (statement n) skip s).2.rest := by
  have hrecorded := recorded_of_parses hskip (parses_statement n n) (.refl hn hn) hhead
  exact hrecorded.lockstep.exists_le_taken

theorem taken_recorded_synchronize {n : Nat} {s : Progress} (hn : s.rest.length ≤ n) {t : Token}
    {ts : List Token} (hs : s.rest = t :: ts) (ht : t.kind ≠ .eof) :
    ∃ j, 0 < j ∧ Taken j s.rest (recorded (statement n) synchronize s).2.rest := by
  refine taken_recorded hn lockstep_synchronize ?_
  rw [hs]
  exact lockstep_one_synchronize (.refl _) ht

theorem taken_recorded_synchronizeInBlock {n : Nat} {s : Progress} (hn : s.rest.length ≤ n)
    {t : Token} {ts : List Token} (hs : s.rest = t :: ts) (ht : t.kind ≠ .eof)
    (hbrace : t.kind ≠ .symbol .rightBrace) :
    ∃ j, 0 < j ∧ Taken j s.rest (recorded (statement n) synchronizeInBlock s).2.rest := by
  refine taken_recorded hn lockstep_synchronizeInBlock ?_
  rw [hs]
  exact lockstep_one_synchronizeInBlock (.refl _) ht hbrace

end Stmt

/-! ## Programs -/

/-- The statements of a program come to an end at the mark of the end, or where the tokens do. -/
theorem kind_eq_eof_of_programRule {n b : Nat} {s : Progress} (hb : s.rest.length ≤ b)
    (hn : s.rest.length ≤ n) :
    ∀ t ∈ (programRule (Stmt.statement n) b s).2.rest.head?, t.kind = .eof := by
  induction b generalizing s with
  | zero =>
    obtain ⟨ts, found⟩ := s
    obtain rfl := List.length_eq_zero_iff.mp (Nat.le_zero.mp hb)
    rintro _ ⟨⟩
  | succ b ih =>
    rcases hs : s.rest with _ | ⟨t, ts⟩
    · rw [programRule, hs]
      dsimp only
      rw [hs]
      rintro _ ⟨⟩
    · rw [programRule, hs]
      dsimp only
      split
      · next ht =>
        rw [hs]
        rintro _ ⟨⟩
        exact ht
      · next ht =>
        obtain ⟨j, hj, htaken⟩ := Stmt.taken_recorded_synchronize hn hs ht
        have hlength := htaken.length
        exact ih (by omega) (by omega)

theorem parseAll_lockstep {L : Likeness} {tokens tokens' : List Token}
    (h : L.Alike tokens tokens') :
    L.SameStmts (parseAll tokens).1 (parseAll tokens').1 ∧
      L.Ahead 0 ⟨tokens, []⟩ ⟨tokens', []⟩ (parseAll tokens).2 (parseAll tokens').2 := by
  have hready : L.Ready tokens.length tokens'.length tokens tokens' :=
    ⟨h, Nat.le_refl _, Nat.le_refl _⟩
  exact programRule_lockstep (Stmt.parses_statement tokens.length tokens'.length) _ _ hready hready

theorem found_parseAll {L : Likeness} {tokens tokens' : List Token} (h : L.Alike tokens tokens') :
    List.Forall₂ L.SameError (parseAll tokens).2.found (parseAll tokens').2.found := by
  obtain ⟨j, new, new', -, -, -, hnew, hnew', hsame, -⟩ := (parseAll_lockstep h).2
  rw [hnew, hnew']
  exact hsame

theorem parseTokens_eq (tokens : List Token) :
    parseTokens tokens = if (parseAll tokens).2.found = [] then .ok (parseAll tokens).1
      else .error (parseAll tokens).2.found := by
  simp only [← List.isEmpty_iff]
  rfl

/-- Each error has cost a token in front of the mark of the end. -/
theorem length_found_parseAll_le (tokens : List Token) :
    (parseAll tokens).2.found.length ≤ (tokens.takeWhile (·.kind ≠ .eof)).length := by
  obtain ⟨j, new, -, ⟨w, hw, rfl, hne⟩, -, -, hnew, -, -, hle⟩ :=
    (parseAll_lockstep (Alike.refl (L := exact) tokens)).2
  have hw' : ∀ t ∈ w, decide (t.kind ≠ .eof) = true := fun t ht ↦ decide_eq_true (hne t ht)
  change tokens = w ++ (parseAll tokens).2.rest at hw
  rw [hnew, List.nil_append, hw, List.takeWhile_append_of_pos hw', List.length_append]
  omega

private theorem taken_parseAll (tokens : List Token) :
    ∃ j, Taken j tokens (parseAll tokens).2.rest := by
  have hahead := (parseAll_lockstep (Alike.refl (L := exact) tokens)).2
  exact hahead.lockstep.exists_taken

private theorem parseTokens_throughEof (tokens : List Token) :
    parseTokens tokens = parseTokens (throughEof tokens) := by
  have halike : exact.Alike tokens (throughEof tokens) := .throughEof tokens
  have hprogram := (parseAll_lockstep halike).1.eq
  have hfound := eq_of_forall₂_sameError (found_parseAll halike)
  rw [parseTokens_eq, parseTokens_eq, hprogram, hfound]

/-- **Parsing ends, makes progress and stays in front of the end**, whatever the tokens are.

* Bounds on its depth are never reached if there are as many tokens: larger ones make no difference.
  The loop over the statements stops at the mark of the end or where the tokens do.
* A round of this loop takes at least one token, and so does a round of the loop over the statements
  of a block, whether or not a statement can be parsed there.
* No rule takes the mark of the end. So the result depends on no token behind the first one.
* There are at most as many errors as there are tokens in front of it. -/
theorem parsing_stays_before_eof (tokens : List Token) :
    ((∀ n m, tokens.length ≤ n → tokens.length ≤ m →
        programRule (Stmt.statement n) m ⟨tokens, []⟩ = parseAll tokens) ∧
      (∀ n s, s.rest.length ≤ n → Stmt.statement n s = Stmt.parse s) ∧
      (∀ n ts, ts.length ≤ n → Expr.expression n ts = Expr.parse .assignment ts) ∧
      ∀ t ∈ (parseAll tokens).2.rest.head?, t.kind = .eof) ∧
    (∀ n s t ts, s.rest.length ≤ n → s.rest = t :: ts → t.kind ≠ .eof →
      (∃ j, 0 < j ∧ Taken j s.rest (Stmt.recorded (Stmt.statement n) synchronize s).2.rest) ∧
      (t.kind ≠ .symbol .rightBrace → ∃ j, 0 < j ∧
        Taken j s.rest (Stmt.recorded (Stmt.statement n) synchronizeInBlock s).2.rest)) ∧
    ((∀ level ts, ∃ j, Taken j ts (stateAfter (Expr.parse level ts))) ∧
      (∀ s, ∃ j, Taken j s.rest (stateAfter (Stmt.parse s)).rest) ∧
      (∀ line s, ∃ j, Taken j s.rest (stateAfter (Stmt.parseBlock line s)).rest) ∧
      (∀ ts, ∃ j, Taken j ts (synchronize ts)) ∧
      (∀ ts, ∃ j, Taken j ts (synchronizeInBlock ts)) ∧
      ∃ j, Taken j tokens (parseAll tokens).2.rest) ∧
    parseTokens tokens = parseTokens (throughEof tokens) ∧
    ∀ errors, parseTokens tokens = .error errors →
      errors.length ≤ (tokens.takeWhile (·.kind ≠ .eof)).length := by
  refine ⟨⟨fun n m ↦ programRule_eq_parseAll, fun n s ↦ Stmt.statement_eq_parse,
    fun n ts ↦ Expr.expression_eq_parse,
    kind_eq_eof_of_programRule (Nat.le_refl _) (Nat.le_refl _)⟩, ?_, ?_,
    parseTokens_throughEof tokens, ?_⟩
  · intro n s t ts hn hs ht
    exact ⟨Stmt.taken_recorded_synchronize hn hs ht,
      Stmt.taken_recorded_synchronizeInBlock hn hs ht⟩
  · refine ⟨Expr.taken_parse, Stmt.taken_parse, Stmt.taken_parseBlock, fun ts ↦ ?_, fun ts ↦ ?_,
      taken_parseAll tokens⟩
    · exact (Stmt.lockstep_synchronize (Alike.refl (L := exact) ts)).exists_taken
    · exact (Stmt.lockstep_synchronizeInBlock (Alike.refl (L := exact) ts)).exists_taken
  · intro errors herrors
    rw [parseTokens_eq] at herrors
    split at herrors
    · cases herrors
    · cases herrors
      exact length_found_parseAll_le tokens

end BlockScript
