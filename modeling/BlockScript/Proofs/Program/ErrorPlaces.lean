import BlockScript.Proofs.Stmt.Finding

/-!
# Errors point at the first token that is left

Whoever recovers from an error looks at the next token, so it matters that a rule which fails leaves
the token that it complains about. Between the place where an error is noticed and the rule that
returns it there may be many other rules, and none of them takes a token on the way.

There are two exceptions. A rule that runs out of tokens has none to point at. And the target of an
assignment is judged behind its value, so that error points back, at an equals sign that has been
taken.

An error that has been recovered from is not returned by anything, and what was left when it was
recorded is no longer there in the end. So it is said of such an error at which moment it was
recorded (`RecordedAt`): a statement began somewhere and failed, and the errors in front of it had
been recorded by then and no others.
-/

namespace BlockScript

/-- Where the error of a rule points that began with the tokens `ts` and has left `rest` of them. -/
structure PointsAt (ts rest : List Token) (e : ParseError) : Prop where
  /-- At the first token that is left: the error has its line, its place and, if it is about a word
  that is set aside, its text. If no token is left, the error is that of having run out. -/
  next : e.cause ≠ .invalidTarget →
    (rest = [] ∧ e = ⟨.expectedExpression, .atEnd, 0⟩) ∨
    ∃ t after, rest = t :: after ∧ e.line = t.line ∧ e.place = t.place ∧
      ∀ word, e.cause = .reserved word → word = t.lexeme
  /-- At an equals sign that has been taken, if it is about a target. -/
  target : e.cause = .invalidTarget →
    ∃ before equals value, ts = before ++ equals :: (value ++ rest) ∧
      equals.kind = .symbol .equals ∧ e.line = equals.line ∧ e.place = .lexeme equals.lexeme

private theorem FoundAt.pointsAt {ts rest : List Token} {e : ParseError} (h : FoundAt ts rest e) :
    PointsAt ts rest e := by
  cases h with
  | @next t after cause hfits =>
    refine ⟨fun _ ↦ .inr ⟨t, after, rfl, rfl, rfl, fun word hword ↦ ?_⟩, fun htarget ↦ ?_⟩
    · obtain rfl : cause = .reserved word := hword
      exact hfits
    · obtain rfl : cause = .invalidTarget := htarget
      exact hfits.elim
  | @target equals _ _ hequals htarget hvalue =>
    refine ⟨fun hne ↦ absurd rfl hne, fun _ ↦ ?_⟩
    obtain ⟨_, before, rfl, -, -⟩ := htarget
    obtain ⟨_, value, rfl, -, -⟩ := hvalue
    refine ⟨before, equals, value, rfl, hequals, rfl, ?_⟩
    rw [ParseError.at, Token.place, hequals]
  | nowhere => exact ⟨fun _ ↦ .inl ⟨rfl, rfl⟩, nofun⟩

private theorem FailsAfter.pointsAt {F : Progress → Progress → Prop} {s r : Progress}
    {e : ParseError} (hF : ∀ {s r}, F s r → TakenFrom s.rest r.rest) (h : FailsAfter F s e r) :
    PointsAt s.rest r.rest e := by
  obtain ⟨mid, hmid, -, -, hat⟩ := h
  exact (hat.behind (hF hmid)).pointsAt

/-! ## Errors that have been recovered from -/

/-- **The moment at which an error is recorded.** A statement that began at `start` has failed with
it and has left `stop`. -/
structure RecordedAt (e : ParseError) (start stop : Progress) : Prop where
  /-- The statement fails. -/
  failed : Stmt.parse start = .error e stop
  /-- The error points where errors do. -/
  pointsAt : PointsAt start.rest stop.rest e

/-- From one state of parsing to a later one, errors have been recorded. Each has its moment, and in
the record of that moment are the errors in front of it. -/
structure Recorded (s r : Progress) : Prop where
  /-- Tokens have been taken. -/
  taken : TakenFrom s.rest r.rest
  /-- The moments, all of them on the way from the first state to the second. -/
  moments : ∃ errors, r.found = s.found ++ errors ∧ ∀ i e, errors[i]? = some e →
    ∃ start stop, RecordedAt e start stop ∧ stop.found = s.found ++ errors.take i ∧
      TakenFrom s.rest start.rest ∧ TakenFrom stop.rest r.rest

namespace Recorded

variable {s r q : Progress} {e : ParseError}

private theorem of_takenFrom {ts rest : List Token} (h : TakenFrom ts rest)
    (found : List ParseError) : Recorded ⟨ts, found⟩ ⟨rest, found⟩ :=
  ⟨h, [], (List.append_nil found).symm, fun _ _ hi ↦ nomatch hi⟩

theorem trans (h : Recorded s r) (h' : Recorded r q) : Recorded s q := by
  obtain ⟨errors, hfound, hmoments⟩ := h.moments
  obtain ⟨more, hmore, hmoments'⟩ := h'.moments
  refine ⟨h.taken.trans h'.taken, errors ++ more, ?_, fun i e hi ↦ ?_⟩
  · rw [hmore, hfound, List.append_assoc]
  rw [List.getElem?_append] at hi
  split at hi
  · next hlt =>
    obtain ⟨start, stop, hat, hstop, hbefore, hafter⟩ := hmoments i e hi
    refine ⟨start, stop, hat, ?_, hbefore, hafter.trans h'.taken⟩
    rw [List.take_append_of_le_length (Nat.le_of_lt hlt), hstop]
  · next hge =>
    obtain ⟨start, stop, hat, hstop, hbefore, hafter⟩ := hmoments' _ e hi
    refine ⟨start, stop, hat, ?_, h.taken.trans hbefore, hafter⟩
    rw [List.take_append, List.take_of_length_le (Nat.not_lt.mp hge), hstop, hfound,
      List.append_assoc]

/-- One more error is recorded, at the moment when the statement has failed with it. -/
theorem record {rest : List Token} (h : Recorded s r) (hat : RecordedAt e s r)
    (hskip : TakenFrom r.rest rest) : Recorded s ⟨rest, r.found ++ [e]⟩ := by
  obtain ⟨errors, hfound, hmoments⟩ := h.moments
  refine ⟨h.taken.trans hskip, errors ++ [e], ?_, fun i e' hi ↦ ?_⟩
  · rw [hfound, List.append_assoc]
  rw [List.getElem?_append] at hi
  split at hi
  · next hlt =>
    obtain ⟨start, stop, hat, hstop, hbefore, hafter⟩ := hmoments i e' hi
    refine ⟨start, stop, hat, ?_, hbefore, hafter.trans hskip⟩
    rw [List.take_append_of_le_length (Nat.le_of_lt hlt), hstop]
  · next hge =>
    obtain ⟨hlast, rfl⟩ := List.getElem?_eq_some_iff.mp hi
    rw [List.length_singleton, Nat.lt_one_iff] at hlast
    refine ⟨s, r, by simpa [hlast] using hat, ?_, .refl _, hskip⟩
    rw [List.take_append, List.take_of_length_le (Nat.not_lt.mp hge), hlast, List.take_zero,
      List.append_nil, hfound]

end Recorded

/-- A rule that fails leaves the record as it was when it began to take its last tokens. -/
theorem FailsAfter.recorded {s r : Progress} {e : ParseError} (h : FailsAfter Recorded s e r) :
    Recorded s r := by
  obtain ⟨mid, hmid, hfound, htaken, -⟩ := h
  obtain ⟨midRest, midFound⟩ := mid
  obtain ⟨rest, found⟩ := r
  obtain rfl : found = midFound := hfound
  exact hmid.trans (.of_takenFrom htaken found)

private theorem recovering_recorded : Recovering Recorded where
  refl s := .of_takenFrom (.refl s.rest) s.found
  trans h h' := h.trans h'
  length_le h := h.taken.length_le
  taken h found := .of_takenFrom h found
  record := by
    intro n s r e rest hn hrun hfails hskip
    rw [Stmt.statement_eq_parse hn] at hrun
    exact hfails.recorded.record ⟨hrun, hfails.pointsAt Recorded.taken⟩ hskip

namespace GoesBy

variable {α : Type} {x : Recover α}

theorem recorded (h : ∀ n, GoesBy Recorded n x) (s : Progress) :
    Recorded s (stateAfter (x s)) := by
  have hs := h s.rest.length (Nat.le_refl s.rest.length)
  generalize x s = result at hs ⊢
  rcases hs with hgoes | hfails
  · exact hgoes
  · exact hfails.recorded

private theorem pointsAt (h : ∀ n, GoesBy Recorded n x) {s r : Progress} {e : ParseError}
    (hrun : x s = .error e r) : PointsAt s.rest r.rest e := by
  have hs := h s.rest.length (Nat.le_refl s.rest.length)
  rw [hrun] at hs
  obtain _ | hfails := hs
  exact hfails.pointsAt Recorded.taken

end GoesBy

private theorem Expr.pointsAt_of_parse {level : Level} {ts rest : List Token} {e : ParseError}
    (h : Expr.parse level ts = .error e rest) : PointsAt ts rest e := by
  have hs := Expr.spots_parse level ts.length (Nat.le_refl ts.length)
  rw [h] at hs
  obtain _ | ⟨-, hat⟩ := hs
  exact hat.pointsAt

/-- **Errors point at the first token that is left.** This holds of every rule for expressions, of
statements and of blocks, on all tokens and whatever has been recorded before. It also holds of each
error that is recorded on the way, at the moment when it is: in a statement, in a block and in a
whole list of tokens, where all errors are recorded. -/
theorem errors_point_at_next_token :
    (∀ level ts e rest, Expr.parse level ts = .error e rest → PointsAt ts rest e) ∧
    (∀ s e r, Stmt.parse s = .error e r → PointsAt s.rest r.rest e) ∧
    (∀ line s e r, Stmt.parseBlock line s = .error e r → PointsAt s.rest r.rest e) ∧
    (∀ s, Recorded s (stateAfter (Stmt.parse s))) ∧
    (∀ line s, Recorded s (stateAfter (Stmt.parseBlock line s))) ∧
    ∀ tokens errors, parseTokens tokens = .error errors →
      ∃ rest, Recorded ⟨tokens, []⟩ ⟨rest, errors⟩ := by
  have hstatement := Stmt.goesBy_parse recovering_recorded
  have hblock := Stmt.goesBy_parseBlock recovering_recorded
  refine ⟨fun _ _ _ _ h ↦ Expr.pointsAt_of_parse h, fun _ _ _ h ↦ GoesBy.pointsAt hstatement h,
    fun line _ _ _ h ↦ GoesBy.pointsAt (hblock line) h, GoesBy.recorded hstatement,
    fun line ↦ GoesBy.recorded (hblock line), fun tokens errors h ↦ ?_⟩
  have hall := goesBy_programRule recovering_recorded (s := ⟨tokens, []⟩)
    (Nat.le_refl tokens.length) (Nat.le_refl tokens.length)
  rw [parseTokens_eq] at h
  split at h
  · cases h
  · obtain rfl := Except.error.inj h
    exact ⟨(parseAll tokens).2.rest, hall⟩

/-- The tokens of a block that is not closed. In it stand a target that is no variable and a word
that is set aside. -/
def openBlock : List Token :=
  [⟨.symbol .leftBrace, "\x7b", 1⟩, ⟨.keyword .true_, "true", 2⟩, ⟨.symbol .equals, "=", 2⟩,
    ⟨.keyword .nil, "nil", 3⟩, ⟨.symbol .semicolon, ";", 3⟩, ⟨.keyword .fun_, "fun", 4⟩, .eof 5]

/-- Two errors are recovered from, and the third is returned. -/
theorem errors_point_at_next_token_openBlock :
    Stmt.parse ⟨openBlock, []⟩ = .error ⟨.expected .closingBrace, .atEnd, 5⟩
      ⟨[.eof 5], [⟨.invalidTarget, .lexeme "=", 2⟩, ⟨.reserved "fun", .lexeme "fun", 4⟩]⟩ ∧
    PointsAt openBlock [.eof 5] ⟨.expected .closingBrace, .atEnd, 5⟩ ∧
    Recorded ⟨openBlock, []⟩
      ⟨[.eof 5], [⟨.invalidTarget, .lexeme "=", 2⟩, ⟨.reserved "fun", .lexeme "fun", 4⟩]⟩ := by
  have hrun : Stmt.parse ⟨openBlock, []⟩ = .error ⟨.expected .closingBrace, .atEnd, 5⟩
      ⟨[.eof 5], [⟨.invalidTarget, .lexeme "=", 2⟩, ⟨.reserved "fun", .lexeme "fun", 4⟩]⟩ := rfl
  have hrecorded := errors_point_at_next_token.2.2.2.1 ⟨openBlock, []⟩
  rw [hrun] at hrecorded
  exact ⟨hrun, errors_point_at_next_token.2.1 _ _ _ hrun, hrecorded⟩

end BlockScript
