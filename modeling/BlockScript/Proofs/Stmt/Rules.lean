import BlockScript.Proofs.Stmt.Grammar
import BlockScript.Proofs.Stmt.Recovery

/-!
# When a rule for statements succeeds

One equation for each rule, in terms of the rules it calls. A rule with a statement inside is
described where it leaves the record of errors as it was: then the statement inside has not been
recovered from, and the rule has read all of it.
-/

namespace BlockScript.Stmt

open Recover

variable {expr : Parse Expr} {body : Recover Stmt} {ts rest : List Token} {s : Stmt}
  {found : List ParseError}

/-! ## Simple statements -/

theorem expressionRule_eq_ok_iff : expressionRule expr ts = .ok s rest ↔
    ∃ t e semi, ts.head? = some t ∧ expr ts = .ok e (semi :: rest) ∧
      semi.kind = .symbol .semicolon ∧ s = expression e t.line := by
  simp only [expressionRule, bind_eq_ok_iff, Parse.peek_eq_ok_iff, Parse.expect_eq_ok_iff,
    pure_eq_ok_iff]
  constructor
  · rintro ⟨t, _, ⟨rfl, ht⟩, e, _, he, semi, _, ⟨rfl, hsemi⟩, rfl, rfl⟩
    exact ⟨t, e, semi, ht, he, hsemi, rfl⟩
  · rintro ⟨t, e, semi, ht, he, hsemi, rfl⟩
    exact ⟨t, ts, ⟨rfl, ht⟩, e, _, he, semi, rest, ⟨rfl, hsemi⟩, rfl, rfl⟩

theorem writeRule_eq_ok_iff {terminator : String} : writeRule expr terminator ts = .ok s rest ↔
    ∃ k ts' e semi, ts = k :: ts' ∧ expr ts' = .ok e (semi :: rest) ∧
      semi.kind = .symbol .semicolon ∧ s = write e terminator k.line := by
  simp only [writeRule, bind_eq_ok_iff, Parse.take_eq_ok_iff, Parse.expect_eq_ok_iff,
    pure_eq_ok_iff]
  constructor
  · rintro ⟨k, ts', rfl, e, _, he, semi, _, ⟨rfl, hsemi⟩, rfl, rfl⟩
    exact ⟨k, ts', e, semi, rfl, he, hsemi, rfl⟩
  · rintro ⟨k, ts', e, semi, rfl, he, hsemi, rfl⟩
    exact ⟨k, ts', rfl, e, _, he, semi, rest, ⟨rfl, hsemi⟩, rfl, rfl⟩

theorem readRule_eq_ok_iff {node : String → Nat → Stmt} : readRule node ts = .ok s rest ↔
    ∃ k x semi name, ts = k :: x :: semi :: rest ∧ x.kind = .name name ∧
      semi.kind = .symbol .semicolon ∧ s = node name k.line := by
  simp only [readRule, bind_eq_ok_iff, Parse.take_eq_ok_iff, Parse.expectName_eq_ok_iff,
    Parse.expect_eq_ok_iff, pure_eq_ok_iff]
  constructor
  · rintro ⟨k, _, rfl, name, _, ⟨x, rfl, hx⟩, semi, _, ⟨rfl, hsemi⟩, rfl, rfl⟩
    exact ⟨k, x, semi, name, rfl, hx, hsemi, rfl⟩
  · rintro ⟨k, x, semi, name, rfl, hx, hsemi, rfl⟩
    exact ⟨k, _, rfl, name, _, ⟨x, rfl, hx⟩, semi, rest, ⟨rfl, hsemi⟩, rfl, rfl⟩

theorem jumpRule_eq_ok_iff {kind : Jump} : jumpRule kind ts = .ok s rest ↔
    ∃ k semi, ts = k :: semi :: rest ∧ semi.kind = .symbol .semicolon ∧ s = jump kind k.line := by
  simp only [jumpRule, bind_eq_ok_iff, Parse.take_eq_ok_iff, Parse.expect_eq_ok_iff,
    pure_eq_ok_iff]
  constructor
  · rintro ⟨k, _, rfl, semi, _, ⟨rfl, hsemi⟩, rfl, rfl⟩
    exact ⟨k, semi, rfl, hsemi, rfl⟩
  · rintro ⟨k, semi, rfl, hsemi, rfl⟩
    exact ⟨k, _, rfl, semi, rest, ⟨rfl, hsemi⟩, rfl, rfl⟩

theorem declareRule_eq_ok_iff : declareRule expr ts = .ok s rest ↔
    (∃ k x semi name, ts = k :: x :: semi :: rest ∧ x.kind = .name name ∧
      semi.kind = .symbol .semicolon ∧ s = declare name none k.line) ∨
    ∃ k x equals semi name ts' e, ts = k :: x :: equals :: ts' ∧ x.kind = .name name ∧
      equals.kind = .symbol .equals ∧ expr ts' = .ok e (semi :: rest) ∧
      semi.kind = .symbol .semicolon ∧ s = declare name (some e) k.line := by
  simp only [declareRule, bind_eq_ok_iff, Parse.take_eq_ok_iff, Parse.expectName_eq_ok_iff]
  constructor
  · rintro ⟨k, _, rfl, name, mid, ⟨x, rfl, hx⟩, equals?, _, haccept, h⟩
    cases equals? with
    | none =>
      obtain ⟨rfl, -⟩ := Parse.accept?_eq_none_iff.mp haccept
      simp only [bind_eq_ok_iff, Parse.expect_eq_ok_iff, pure_eq_ok_iff] at h
      obtain ⟨_, _, ⟨rfl, rfl⟩, semi, _, ⟨rfl, hsemi⟩, rfl, rfl⟩ := h
      exact .inl ⟨k, x, semi, name, rfl, hx, hsemi, rfl⟩
    | some equals =>
      obtain ⟨rfl, heq⟩ := Parse.accept?_eq_some_iff.mp haccept
      simp only [bind_eq_ok_iff, map_eq_ok_iff, Parse.expect_eq_ok_iff, pure_eq_ok_iff] at h
      obtain ⟨_, _, ⟨e, he, rfl⟩, semi, _, ⟨rfl, hsemi⟩, rfl, rfl⟩ := h
      exact .inr ⟨k, x, equals, semi, name, _, e, rfl, hx, heq, he, hsemi, rfl⟩
  · rintro (⟨k, x, semi, name, rfl, hx, hsemi, rfl⟩ |
      ⟨k, x, equals, semi, name, ts', e, rfl, hx, heq, he, hsemi, rfl⟩)
    · refine ⟨k, _, rfl, name, _, ⟨x, rfl, hx⟩, none, semi :: rest, ?_, ?_⟩
      · refine Parse.accept?_eq_none_iff.mpr ⟨rfl, ?_⟩
        rintro _ ⟨⟩
        rw [hsemi]
        intro h
        cases h
      · simp only [bind_eq_ok_iff, Parse.expect_eq_ok_iff, pure_eq_ok_iff]
        exact ⟨none, _, ⟨rfl, rfl⟩, semi, rest, ⟨rfl, hsemi⟩, rfl, rfl⟩
    · refine ⟨k, _, rfl, name, _, ⟨x, rfl, hx⟩, some equals, ts',
        Parse.accept?_eq_some_iff.mpr ⟨rfl, heq⟩, ?_⟩
      simp only [bind_eq_ok_iff, map_eq_ok_iff, Parse.expect_eq_ok_iff, pure_eq_ok_iff]
      exact ⟨some e, _, ⟨e, he, rfl⟩, semi, rest, ⟨rfl, hsemi⟩, rfl, rfl⟩

/-! ## The header of a counted loop -/

theorem initialRule_eq_ok_iff {initial : Option Stmt} : initialRule expr ts = .ok initial rest ↔
    (∃ semi, ts = semi :: rest ∧ semi.kind = .symbol .semicolon ∧ initial = none) ∨
    (∃ k s, ts.head? = some k ∧ k.kind = .keyword .let_ ∧ declareRule expr ts = .ok s rest ∧
      initial = some s) ∨
    ∃ t s, ts.head? = some t ∧ t.kind ≠ .symbol .semicolon ∧ t.kind ≠ .keyword .let_ ∧
      expressionRule expr ts = .ok s rest ∧ initial = some s := by
  rw [initialRule]
  constructor
  · intro h
    obtain ⟨t, _, rule, hpeek, hrule, h⟩ := exists_rest_of_bind_eq_ok h
    obtain ⟨rfl, hhead⟩ := Parse.peek_eq_ok_iff.mp hpeek
    split at hrule <;> subst hrule
    · next hsemi =>
      simp only [bind_eq_ok_iff, Parse.take_eq_ok_iff, pure_eq_ok_iff] at h
      obtain ⟨semi, _, rfl, rfl, rfl⟩ := h
      cases hhead
      exact .inl ⟨t, rfl, hsemi, rfl⟩
    · next hk =>
      obtain ⟨s, hs, rfl⟩ := map_eq_ok_iff.mp h
      exact .inr (.inl ⟨t, s, hhead, hk, hs, rfl⟩)
    · next hsemi hk =>
      obtain ⟨s, hs, rfl⟩ := map_eq_ok_iff.mp h
      exact .inr (.inr ⟨t, s, hhead, hsemi, hk, hs, rfl⟩)
  · rintro (⟨semi, rfl, hsemi, rfl⟩ | ⟨k, s, hhead, hk, hs, rfl⟩ |
      ⟨t, s, hhead, hsemi, hk, hs, rfl⟩)
    · rw [bind_of_ok (Parse.peek_eq_ok_iff.mpr ⟨rfl, rfl⟩), hsemi]
      rfl
    · rw [bind_of_ok (Parse.peek_eq_ok_iff.mpr ⟨rfl, hhead⟩), hk]
      exact map_eq_ok_iff.mpr ⟨s, hs, rfl⟩
    · rw [bind_of_ok (Parse.peek_eq_ok_iff.mpr ⟨rfl, hhead⟩)]
      refine (congrFun (?_ : _ = some <$> expressionRule expr) ts).trans
        (map_eq_ok_iff.mpr ⟨s, hs, rfl⟩)
      split
      · next h => exact absurd h hsemi
      · next h => exact absurd h hk
      · rfl

theorem conditionRule_eq_ok_iff {line : Nat} {c : Expr} :
    conditionRule expr line ts = .ok c rest ↔
      (∃ semi, ts = semi :: rest ∧ semi.kind = .symbol .semicolon ∧
        c = .literal (.bool true) line) ∨
      ∃ t semi, ts.head? = some t ∧ t.kind ≠ .symbol .semicolon ∧ expr ts = .ok c (semi :: rest) ∧
        semi.kind = .symbol .semicolon := by
  rw [conditionRule]
  constructor
  · intro h
    obtain ⟨t, _, rule, hpeek, hrule, h⟩ := exists_rest_of_bind_eq_ok h
    obtain ⟨rfl, hhead⟩ := Parse.peek_eq_ok_iff.mp hpeek
    split at hrule <;> subst hrule
    · simp only [bind_eq_ok_iff, Parse.expect_eq_ok_iff, pure_eq_ok_iff] at h
      obtain ⟨_, _, ⟨rfl, rfl⟩, semi, _, ⟨rfl, hsemi⟩, rfl, rfl⟩ := h
      exact .inl ⟨semi, rfl, hsemi, rfl⟩
    · next hne =>
      simp only [bind_eq_ok_iff, Parse.expect_eq_ok_iff, pure_eq_ok_iff] at h
      obtain ⟨_, _, hc, semi, _, ⟨rfl, hsemi⟩, rfl, rfl⟩ := h
      exact .inr ⟨t, semi, hhead, hne, hc, hsemi⟩
  · rintro (⟨semi, rfl, hsemi, rfl⟩ | ⟨t, semi, hhead, hne, hc, hsemi⟩)
    · rw [bind_of_ok (Parse.peek_eq_ok_iff.mpr ⟨rfl, rfl⟩), if_pos hsemi]
      simp only [bind_eq_ok_iff, Parse.expect_eq_ok_iff, pure_eq_ok_iff]
      exact ⟨_, _, ⟨rfl, rfl⟩, semi, rest, ⟨rfl, hsemi⟩, rfl, rfl⟩
    · rw [bind_of_ok (Parse.peek_eq_ok_iff.mpr ⟨rfl, hhead⟩), if_neg hne]
      simp only [bind_eq_ok_iff, Parse.expect_eq_ok_iff, pure_eq_ok_iff]
      exact ⟨c, _, hc, semi, rest, ⟨rfl, hsemi⟩, rfl, rfl⟩

theorem incrementRule_eq_ok_iff {step : Option Expr} : incrementRule expr ts = .ok step rest ↔
    (∃ t e, ts.head? = some t ∧ t.kind.startsExpression = true ∧ expr ts = .ok e rest ∧
      step = some e) ∨
    ∃ t, ts.head? = some t ∧ t.kind.startsExpression = false ∧ ts = rest ∧ step = none := by
  rw [incrementRule]
  constructor
  · intro h
    obtain ⟨t, _, rule, hpeek, hrule, h⟩ := exists_rest_of_bind_eq_ok h
    obtain ⟨rfl, hhead⟩ := Parse.peek_eq_ok_iff.mp hpeek
    split at hrule <;> subst hrule
    · next hstart =>
      obtain ⟨e, he, rfl⟩ := map_eq_ok_iff.mp h
      exact .inl ⟨t, e, hhead, hstart, he, rfl⟩
    · next hstart =>
      obtain ⟨rfl, rfl⟩ := pure_eq_ok_iff.mp h
      exact .inr ⟨t, hhead, Bool.eq_false_iff.mpr hstart, rfl, rfl⟩
  · rintro (⟨t, e, hhead, hstart, he, rfl⟩ | ⟨t, hhead, hstart, rfl, rfl⟩)
    · rw [bind_of_ok (Parse.peek_eq_ok_iff.mpr ⟨rfl, hhead⟩), if_pos hstart]
      exact map_eq_ok_iff.mpr ⟨e, he, rfl⟩
    · rw [bind_of_ok (Parse.peek_eq_ok_iff.mpr ⟨rfl, hhead⟩), if_neg (Bool.eq_false_iff.mp hstart)]
      rfl

/-! ## Statements that contain statements -/

theorem ifRule_eq_ok_iff (hbody : Grows body) :
    ifRule expr body ⟨ts, found⟩ = .ok s ⟨rest, found⟩ ↔
      ∃ k ts' c mid yes mid', ts = k :: ts' ∧ expr ts' = .ok c mid ∧
        body ⟨mid, found⟩ = .ok yes ⟨mid', found⟩ ∧
        ((∃ alt mid'' no, mid' = alt :: mid'' ∧ alt.kind = .keyword .else_ ∧
          body ⟨mid'', found⟩ = .ok no ⟨rest, found⟩ ∧ s = ifElse c yes no k.line) ∨
        (∀ t ∈ rest.head?, t.kind ≠ .keyword .else_) ∧ mid' = rest ∧ s = ifThen c yes k.line) := by
  simp only [ifRule, lift_bind_eq_ok_iff, Parse.take_eq_ok_iff]
  constructor
  · rintro ⟨k, ts', rfl, c, mid, hc, h⟩
    rw [bind_eq_ok_iff_of_grows hbody] at h
    · obtain ⟨yes, mid', hyes, h⟩ := h
      obtain ⟨alt?, mid'', haccept, hafter⟩ := lift_bind_eq_ok_iff.mp h
      refine ⟨k, ts', c, mid, yes, mid', rfl, hc, hyes, ?_⟩
      cases alt? with
      | some alt =>
        obtain ⟨rfl, halt⟩ := Parse.accept?_eq_some_iff.mp haccept
        simp only [bind_eq_ok_iff, pure_eq_ok_iff] at hafter
        obtain ⟨no, _, hno, rfl, rfl⟩ := hafter
        exact .inl ⟨alt, mid'', no, rfl, halt, hno, rfl⟩
      | none =>
        obtain ⟨rfl, hno⟩ := Parse.accept?_eq_none_iff.mp haccept
        obtain ⟨rfl, hrest⟩ := pure_eq_ok_iff.mp hafter
        cases hrest
        exact .inr ⟨hno, rfl, rfl⟩
    · intro yes
      refine (Grows.lift _).bind fun alt ↦ ?_
      split
      · exact hbody.bind fun _ ↦ .pure _
      · exact .pure _
  · rintro ⟨k, ts', c, mid, yes, mid', rfl, hc, hyes, h⟩
    refine ⟨k, ts', rfl, c, mid, hc, ?_⟩
    rw [bind_of_ok hyes]
    obtain ⟨alt, mid'', no, rfl, halt, hno, rfl⟩ | ⟨hno, rfl, rfl⟩ := h
    · rw [bind_of_ok (lift_of_ok (Parse.accept?_eq_some_iff.mpr ⟨rfl, halt⟩))]
      exact bind_of_ok hno
    · rw [bind_of_ok (lift_of_ok (Parse.accept?_eq_none_iff.mpr ⟨rfl, hno⟩))]
      rfl

theorem whileRule_eq_ok_iff :
    whileRule expr body ⟨ts, found⟩ = .ok s ⟨rest, found⟩ ↔
      ∃ k ts' c mid inner, ts = k :: ts' ∧ expr ts' = .ok c mid ∧
        body ⟨mid, found⟩ = .ok inner ⟨rest, found⟩ ∧ s = loop c inner none k.line := by
  simp only [whileRule, lift_bind_eq_ok_iff, Parse.take_eq_ok_iff]
  simp only [bind_eq_ok_iff, pure_eq_ok_iff]
  constructor
  · rintro ⟨k, ts', rfl, c, mid, hc, inner, _, hinner, rfl, rfl⟩
    exact ⟨k, ts', c, mid, inner, rfl, hc, hinner, rfl⟩
  · rintro ⟨k, ts', c, mid, inner, rfl, hc, hinner, rfl⟩
    exact ⟨k, ts', rfl, c, mid, hc, inner, _, hinner, rfl, rfl⟩

theorem forRule_eq_ok_iff :
    forRule expr body ⟨ts, found⟩ = .ok s ⟨rest, found⟩ ↔
      ∃ k ts' initial mid c mid' step mid'' inner, ts = k :: ts' ∧
        initialRule expr ts' = .ok initial mid ∧ conditionRule expr k.line mid = .ok c mid' ∧
        incrementRule expr mid' = .ok step mid'' ∧
        body ⟨mid'', found⟩ = .ok inner ⟨rest, found⟩ ∧
        s = match initial with
          | some first => block [first, loop c inner step k.line] k.line
          | none => loop c inner step k.line := by
  simp only [forRule, lift_bind_eq_ok_iff, Parse.take_eq_ok_iff]
  simp only [bind_eq_ok_iff]
  constructor
  · rintro ⟨k, ts', rfl, initial, mid, hi, c, mid', hc, step, mid'', hstep, inner, _, hinner, h⟩
    cases initial with
    | none =>
      obtain ⟨rfl, rfl⟩ := pure_eq_ok_iff.mp h
      exact ⟨k, ts', none, mid, c, mid', step, mid'', inner, rfl, hi, hc, hstep, hinner, rfl⟩
    | some first =>
      obtain ⟨rfl, rfl⟩ := pure_eq_ok_iff.mp h
      exact ⟨k, ts', some first, mid, c, mid', step, mid'', inner, rfl, hi, hc, hstep, hinner, rfl⟩
  · rintro ⟨k, ts', initial, mid, c, mid', step, mid'', inner, rfl, hi, hc, hstep, hinner, rfl⟩
    refine ⟨k, ts', rfl, initial, mid, hi, c, mid', hc, step, mid'', hstep, inner, _, hinner, ?_⟩
    cases initial <;> rfl

theorem repeatTail_eq_ok_iff {inner : Stmt} {line : Nat} :
    repeatTail expr inner line ts = .ok s rest ↔
      ∃ tail ts' e, ts = tail :: ts' ∧ expr ts' = .ok e rest ∧
        (tail.kind = .keyword .until_ ∧ s = repeatUntil inner e line ∨
          tail.kind = .keyword .for_ ∧ s = repeatFor inner e tail.line) := by
  rw [repeatTail]
  constructor
  · intro h
    obtain ⟨tail, _, rule, hpeek, hrule, h⟩ := exists_rest_of_bind_eq_ok h
    obtain ⟨rfl, hhead⟩ := Parse.peek_eq_ok_iff.mp hpeek
    split at hrule <;> subst hrule
    · next hk =>
      simp only [bind_eq_ok_iff, Parse.take_eq_ok_iff, pure_eq_ok_iff] at h
      obtain ⟨_, ts', rfl, e, _, he, rfl, rfl⟩ := h
      cases hhead
      exact ⟨tail, ts', e, rfl, he, .inl ⟨hk, rfl⟩⟩
    · next hk =>
      simp only [bind_eq_ok_iff, Parse.take_eq_ok_iff, pure_eq_ok_iff] at h
      obtain ⟨_, ts', rfl, e, _, he, rfl, rfl⟩ := h
      cases hhead
      exact ⟨tail, ts', e, rfl, he, .inr ⟨hk, rfl⟩⟩
    · cases h
  · rintro ⟨tail, ts', e, rfl, he, ⟨hk, rfl⟩ | ⟨hk, rfl⟩⟩
    · rw [bind_of_ok (Parse.peek_eq_ok_iff.mpr ⟨rfl, rfl⟩), hk]
      exact (bind_of_ok (Parse.take_eq_ok_iff.mpr rfl)).trans (bind_of_ok he)
    · rw [bind_of_ok (Parse.peek_eq_ok_iff.mpr ⟨rfl, rfl⟩), hk]
      exact (bind_of_ok (Parse.take_eq_ok_iff.mpr rfl)).trans (bind_of_ok he)

theorem repeatRule_eq_ok_iff (hbody : Grows body) :
    repeatRule expr body ⟨ts, found⟩ = .ok s ⟨rest, found⟩ ↔
      ∃ k ts' inner mid semi, ts = k :: ts' ∧ body ⟨ts', found⟩ = .ok inner ⟨mid, found⟩ ∧
        repeatTail expr inner k.line mid = .ok s (semi :: rest) ∧
        semi.kind = .symbol .semicolon := by
  simp only [repeatRule, lift_bind_eq_ok_iff, Parse.take_eq_ok_iff]
  constructor
  · rintro ⟨k, ts', rfl, h⟩
    rw [bind_eq_ok_iff_of_grows hbody fun _ ↦ (Grows.lift _).bind fun _ ↦ (Grows.lift _).bind
      fun _ ↦ .pure _] at h
    obtain ⟨inner, mid, hinner, h⟩ := h
    obtain ⟨s', _, htail, hafter⟩ := lift_bind_eq_ok_iff.mp h
    obtain ⟨semi, _, hexpect, hret⟩ := lift_bind_eq_ok_iff.mp hafter
    obtain ⟨rfl, hsemi⟩ := Parse.expect_eq_ok_iff.mp hexpect
    obtain ⟨rfl, hrest⟩ := pure_eq_ok_iff.mp hret
    cases hrest
    exact ⟨k, ts', inner, mid, semi, rfl, hinner, htail, hsemi⟩
  · rintro ⟨k, ts', inner, mid, semi, rfl, hinner, htail, hsemi⟩
    refine ⟨k, ts', rfl, ?_⟩
    rw [bind_of_ok hinner, bind_of_ok (lift_of_ok htail),
      bind_of_ok (lift_of_ok (Parse.expect_eq_ok_iff.mpr ⟨rfl, hsemi⟩))]
    rfl

/-! ## Sequences of statements

A block and a program run the same step: a statement is read, and if it does not fit it is recorded.
Where the record ends as it was, the step has read a statement. -/

private theorem recorded_of_ok {skip : List Token → List Token}
    (h : body ⟨ts, found⟩ = .ok s ⟨rest, found⟩) :
    recorded body skip ⟨ts, found⟩ = (some s, ⟨rest, found⟩) := by
  rw [recorded, h]

private theorem exists_ok_of_recorded (hbody : Grows body) {skip : List Token → List Token}
    (h : (recorded body skip ⟨ts, found⟩).2.found <+: found) :
    ∃ s mid, body ⟨ts, found⟩ = .ok s ⟨mid, found⟩ := by
  have hbefore := hbody ⟨ts, found⟩
  rw [recorded] at h
  cases hs : body ⟨ts, found⟩ with
  | ok s s' =>
    rw [hs] at h hbefore
    obtain ⟨mid, found'⟩ := s'
    obtain rfl : found = found' := hbefore.eq_of_length_le h.length_le
    exact ⟨s, mid, rfl⟩
  | error e s' =>
    rw [hs] at h hbefore
    -- a failure would have made the record longer
    have hlong := h.length_le
    have hshort := hbefore.length_le
    simp only [List.length_append, List.length_singleton, stateAfter_error] at hlong hshort
    omega

theorem blockRule_eq_ok_iff (hbody : Grows body) {n : Nat} {ss : List Stmt} :
    blockRule body (n + 1) ⟨ts, found⟩ = .ok ss ⟨rest, found⟩ ↔
      (∃ right, ts = right :: rest ∧ right.kind = .symbol .rightBrace ∧ ss = []) ∨
      ∃ t ts' s mid ss', ts = t :: ts' ∧ t.kind ≠ .symbol .rightBrace ∧ t.kind ≠ .eof ∧
        body ⟨ts, found⟩ = .ok s ⟨mid, found⟩ ∧
        blockRule body n ⟨mid, found⟩ = .ok ss' ⟨rest, found⟩ ∧ ss = s :: ss' := by
  rw [blockRule]
  cases ts with
  | nil => simp
  | cons t ts =>
    dsimp only
    constructor
    · intro h
      split at h
      · next hright =>
        cases h
        exact .inl ⟨t, rfl, hright, rfl⟩
      · next hright =>
        split at h
        · cases h
        · next heof =>
          cases hothers :
            blockRule body n (recorded body synchronizeInBlock ⟨t :: ts, found⟩).2 with
          | error e s' =>
            rw [hothers] at h
            cases h
          | ok others s' =>
            rw [hothers] at h
            cases h
            have hgrows := grows_blockRule hbody n
              (recorded body synchronizeInBlock ⟨t :: ts, found⟩).2
            rw [hothers] at hgrows
            obtain ⟨s, mid, hs⟩ := exists_ok_of_recorded hbody hgrows
            rw [recorded_of_ok hs] at hothers ⊢
            exact .inr ⟨t, ts, s, mid, others, rfl, hright, heof, hs, hothers, rfl⟩
    · rintro (⟨right, heq, hright, rfl⟩ | ⟨_, _, s, mid, ss', ⟨⟩, hright, heof, hs, hothers, rfl⟩)
      · cases heq
        rw [if_pos hright]
      · rw [if_neg hright, if_neg heof, recorded_of_ok hs]
        dsimp only
        rw [hothers]
        rfl

theorem programRule_eq_iff (hbody : Grows body) {n : Nat} {ss : List Stmt} :
    programRule body (n + 1) ⟨ts, found⟩ = (ss, ⟨rest, found⟩) ↔
      (∀ t ∈ ts.head?, t.kind = .eof) ∧ ss = [] ∧ ts = rest ∨
      ∃ t ts' s mid ss', ts = t :: ts' ∧ t.kind ≠ .eof ∧ body ⟨ts, found⟩ = .ok s ⟨mid, found⟩ ∧
        programRule body n ⟨mid, found⟩ = (ss', ⟨rest, found⟩) ∧ ss = s :: ss' := by
  rw [programRule]
  cases ts with
  | nil => simp [eq_comm]
  | cons t ts =>
    dsimp only
    constructor
    · intro h
      split at h
      · next heof =>
        cases h
        refine .inl ⟨?_, rfl, rfl⟩
        rintro _ ⟨⟩
        exact heof
      · next heof =>
        have hgrows := found_prefix_programRule hbody n
          (recorded body synchronize ⟨t :: ts, found⟩).2
        have hstate : (programRule body n (recorded body synchronize ⟨t :: ts, found⟩).2).2
            = ⟨rest, found⟩ := congrArg Prod.snd h
        rw [hstate] at hgrows
        obtain ⟨s, mid, hs⟩ := exists_ok_of_recorded hbody hgrows
        rw [recorded_of_ok hs] at h hstate
        refine .inr ⟨t, ts, s, mid, (programRule body n ⟨mid, found⟩).1, rfl, heof, hs, ?_, ?_⟩
        · exact Prod.ext rfl hstate
        · exact (congrArg Prod.fst h).symm
    · rintro (⟨heof, rfl, rfl⟩ | ⟨_, _, s, mid, ss', ⟨⟩, heof, hs, hothers, rfl⟩)
      · rw [if_pos (heof t rfl)]
      · rw [if_neg heof, recorded_of_ok hs]
        dsimp only
        rw [hothers]
        rfl

/-! ## The form of a statement

The first token decides which rule reads a statement. -/

section Form

variable {n : Nat} {t : Token}

theorem form_of_writes {terminator : String} (h : t.kind.Writes terminator) :
    form expr body n ⟨t :: ts, found⟩ =
      (liftM (writeRule expr terminator) : Recover Stmt) ⟨t :: ts, found⟩ := by
  rw [form, bind_of_ok (lift_of_ok (Parse.peek_eq_ok_iff.mpr ⟨rfl, rfl⟩))]
  generalize t.kind = kind at h
  cases h <;> rfl

theorem form_of_reads {node : String → Nat → Stmt} (h : t.kind.Reads node) :
    form expr body n ⟨t :: ts, found⟩ =
      (liftM (readRule node) : Recover Stmt) ⟨t :: ts, found⟩ := by
  rw [form, bind_of_ok (lift_of_ok (Parse.peek_eq_ok_iff.mpr ⟨rfl, rfl⟩))]
  generalize t.kind = kind at h
  cases h <;> rfl

theorem form_of_jumps {kind : Jump} (h : t.kind.Jumps kind) :
    form expr body n ⟨t :: ts, found⟩ =
      (liftM (jumpRule kind) : Recover Stmt) ⟨t :: ts, found⟩ := by
  rw [form, bind_of_ok (lift_of_ok (Parse.peek_eq_ok_iff.mpr ⟨rfl, rfl⟩))]
  generalize t.kind = kind at h
  cases h <;> rfl

theorem form_of_let (h : t.kind = .keyword .let_) :
    form expr body n ⟨t :: ts, found⟩ =
      (liftM (declareRule expr) : Recover Stmt) ⟨t :: ts, found⟩ := by
  rw [form, bind_of_ok (lift_of_ok (Parse.peek_eq_ok_iff.mpr ⟨rfl, rfl⟩)), h]

theorem form_of_brace (h : t.kind = .symbol .leftBrace) {ss : List Stmt} {s' : Progress}
    (hblock : blockRule body n ⟨ts, found⟩ = .ok ss s') :
    form expr body n ⟨t :: ts, found⟩ = .ok (block ss t.line) s' := by
  rw [form, bind_of_ok (lift_of_ok (Parse.peek_eq_ok_iff.mpr ⟨rfl, rfl⟩)), h]
  exact (bind_of_ok (lift_of_ok (Parse.take_eq_ok_iff.mpr rfl))).trans (bind_of_ok hblock)

theorem form_of_if (h : t.kind = .keyword .if_) :
    form expr body n ⟨t :: ts, found⟩ = ifRule expr body ⟨t :: ts, found⟩ := by
  rw [form, bind_of_ok (lift_of_ok (Parse.peek_eq_ok_iff.mpr ⟨rfl, rfl⟩)), h]

theorem form_of_while (h : t.kind = .keyword .while_) :
    form expr body n ⟨t :: ts, found⟩ = whileRule expr body ⟨t :: ts, found⟩ := by
  rw [form, bind_of_ok (lift_of_ok (Parse.peek_eq_ok_iff.mpr ⟨rfl, rfl⟩)), h]

theorem form_of_for (h : t.kind = .keyword .for_) :
    form expr body n ⟨t :: ts, found⟩ = forRule expr body ⟨t :: ts, found⟩ := by
  rw [form, bind_of_ok (lift_of_ok (Parse.peek_eq_ok_iff.mpr ⟨rfl, rfl⟩)), h]

theorem form_of_repeat (h : t.kind = .keyword .repeat_) :
    form expr body n ⟨t :: ts, found⟩ = repeatRule expr body ⟨t :: ts, found⟩ := by
  rw [form, bind_of_ok (lift_of_ok (Parse.peek_eq_ok_iff.mpr ⟨rfl, rfl⟩)), h]

theorem form_of_startsExpression (h : t.kind.startsExpression = true) :
    form expr body n ⟨t :: ts, found⟩ =
      (liftM (expressionRule expr) : Recover Stmt) ⟨t :: ts, found⟩ := by
  rw [form, bind_of_ok (lift_of_ok (Parse.peek_eq_ok_iff.mpr ⟨rfl, rfl⟩))]
  generalize hkind : t.kind = kind at h
  -- the kinds that begin an expression are neither those of a rule of its own nor set aside
  revert h
  unfold TokenKind.startsExpression
  split <;> simp [TokenKind.isReserved, Keyword.isReserved]

end Form

end BlockScript.Stmt
