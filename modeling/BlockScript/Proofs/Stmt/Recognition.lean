import BlockScript.Proofs.Expr.Recognition
import BlockScript.Proofs.Stmt.Grammar
import BlockScript.Proofs.Stmt.Rules

/-!
# The rules for statements recognize their grammar

A program is what the tokens in front of the end of the source derive, and there is no other: the
rules succeed without an error exactly on derivable tokens, and what they return is the tree of the
derivation.

*Soundness* is an induction on the bound of the rules, with one step for each form of a statement.
*Completeness* is an induction on the derivation. What is proved of a sequence there speaks of the
two loops that read one, that of a block and that of a program, since they end at different tokens.
-/

namespace BlockScript.Stmt

open Recover
open BlockScript.Expr (Fills)

variable {expr : Parse Expr} {body : Recover Stmt} {n : Nat} {ts rest next w : List Token}
  {s : Stmt} {found : List ParseError}

/-! ## Soundness -/

/-- On at most `n` tokens, a rule for expressions fills a slot. -/
def FillsWithin (expr : Parse Expr) (n : Nat) : Prop :=
  ∀ ⦃ts e rest⦄, ts.length ≤ n → expr ts = .ok e rest → ∃ w, ts = w ++ rest ∧ Fills w e rest

/-- On at most `n` tokens, a rule for statements that records nothing reads a statement. -/
def Sound (rule : Recover Stmt) (n : Nat) : Prop :=
  ∀ ⦃ts s rest found⦄, ts.length ≤ n → rule ⟨ts, found⟩ = .ok s ⟨rest, found⟩ →
    ∃ w, ts = w ++ rest ∧ Derives w (.statement s) rest

private theorem fillsWithin_expression (n : Nat) : FillsWithin (Expr.expression n) n := by
  intro ts e rest hn h
  obtain ⟨w, rfl, hw, hends⟩ := Expr.sound_expression n hn h
  exact ⟨w, rfl, hw, hends⟩

private theorem derivesExpression_of_ok (hexpr : FillsWithin expr n) (hn : ts.length ≤ n)
    (h : expressionRule expr ts = .ok s rest) :
      ∃ w, ts = w ++ rest ∧ DerivesExpression w s rest := by
  obtain ⟨t, e, semi, hhead, he, hsemi, rfl⟩ := expressionRule_eq_ok_iff.mp h
  obtain ⟨w, rfl, hw⟩ := hexpr hn he
  obtain ⟨first, w', rfl, -⟩ := hw.derives.exists_head
  cases hhead
  exact ⟨t :: w' ++ [semi], by simp, .intro hw hsemi⟩

private theorem derivesDeclaration_of_ok {k : Token} (hexpr : FillsWithin expr n)
    (hn : ts.length ≤ n) (hhead : ts.head? = some k) (hk : k.kind = .keyword .let_)
    (h : declareRule expr ts = .ok s rest) : ∃ w, ts = w ++ rest ∧ DerivesDeclaration w s rest := by
  obtain ⟨k', x, semi, name, rfl, hx, hsemi, rfl⟩ |
    ⟨k', x, equals, semi, name, ts', e, rfl, hx, heq, he, hsemi, rfl⟩ := declareRule_eq_ok_iff.mp h
  · cases hhead
    exact ⟨[k, x, semi], rfl, .bare hk hx hsemi⟩
  · cases hhead
    simp only [List.length_cons] at hn
    obtain ⟨w, rfl, hw⟩ := hexpr (by omega) he
    exact ⟨k :: x :: equals :: w ++ [semi], by simp, .initialized hk hx heq hw hsemi⟩

private theorem derivesInitial_of_ok {initial : Option Stmt} (hexpr : FillsWithin expr n)
    (hn : ts.length ≤ n) (h : initialRule expr ts = .ok initial rest) :
    ∃ w, ts = w ++ rest ∧ DerivesInitial w initial rest := by
  obtain ⟨semi, rfl, hsemi, rfl⟩ | ⟨k, s, hhead, hk, hs, rfl⟩ | ⟨t, s, -, -, -, hs, rfl⟩ :=
    initialRule_eq_ok_iff.mp h
  · exact ⟨[semi], rfl, .none hsemi⟩
  · obtain ⟨w, rfl, hw⟩ := derivesDeclaration_of_ok hexpr hn hhead hk hs
    exact ⟨w, rfl, .declaration hw⟩
  · obtain ⟨w, rfl, hw⟩ := derivesExpression_of_ok hexpr hn hs
    exact ⟨w, rfl, .expression hw⟩

private theorem derivesCondition_of_ok {line : Nat} {c : Expr} (hexpr : FillsWithin expr n)
    (hn : ts.length ≤ n) (h : conditionRule expr line ts = .ok c rest) :
    ∃ w semi, ts = w ++ semi :: rest ∧ DerivesCondition line w c (semi :: rest) ∧
      semi.kind = .symbol .semicolon := by
  obtain ⟨semi, rfl, hsemi, rfl⟩ | ⟨t, semi, -, -, hc, hsemi⟩ := conditionRule_eq_ok_iff.mp h
  · exact ⟨[], semi, rfl, .none, hsemi⟩
  · obtain ⟨w, rfl, hw⟩ := hexpr hn hc
    exact ⟨w, semi, rfl, .some hw, hsemi⟩

private theorem derivesIncrement_of_ok {step : Option Expr} (hexpr : FillsWithin expr n)
    (hn : ts.length ≤ n) (h : incrementRule expr ts = .ok step rest) :
    ∃ w, ts = w ++ rest ∧ DerivesIncrement w step rest := by
  obtain ⟨t, e, -, -, he, rfl⟩ | ⟨t, hhead, hstart, rfl, rfl⟩ := incrementRule_eq_ok_iff.mp h
  · obtain ⟨w, rfl, hw⟩ := hexpr hn he
    exact ⟨w, rfl, .some hw⟩
  · refine ⟨[], rfl, .none ?_⟩
    rw [hhead]
    rintro _ ⟨⟩
    rw [← Expr.startsExpression_iff_begins, hstart]
    exact Bool.false_ne_true

private theorem derives_of_writeRule {k : Token} {terminator : String} (hexpr : FillsWithin expr n)
    (hn : ts.length ≤ n) (hhead : ts.head? = some k) (hk : k.kind.Writes terminator)
    (h : writeRule expr terminator ts = .ok s rest) :
    ∃ w, ts = w ++ rest ∧ Derives w (.statement s) rest := by
  obtain ⟨k', ts', e, semi, rfl, he, hsemi, rfl⟩ := writeRule_eq_ok_iff.mp h
  cases hhead
  rw [List.length_cons] at hn
  obtain ⟨w, rfl, hw⟩ := hexpr (by omega) he
  exact ⟨k :: w ++ [semi], by simp, .write hk hw hsemi⟩

private theorem derives_of_readRule {k : Token} {node : String → Nat → Stmt}
    (hhead : ts.head? = some k) (hk : k.kind.Reads node) (h : readRule node ts = .ok s rest) :
    ∃ w, ts = w ++ rest ∧ Derives w (.statement s) rest := by
  obtain ⟨k', x, semi, name, rfl, hx, hsemi, rfl⟩ := readRule_eq_ok_iff.mp h
  cases hhead
  exact ⟨[k, x, semi], rfl, .read hk hx hsemi⟩

private theorem derives_of_jumpRule {k : Token} {kind : Jump} (hhead : ts.head? = some k)
    (hk : k.kind.Jumps kind) (h : jumpRule kind ts = .ok s rest) :
    ∃ w, ts = w ++ rest ∧ Derives w (.statement s) rest := by
  obtain ⟨k', semi, rfl, hsemi, rfl⟩ := jumpRule_eq_ok_iff.mp h
  cases hhead
  exact ⟨[k, semi], rfl, .jump hk hsemi⟩

private theorem derives_of_ifRule {k : Token} (hexpr : FillsWithin expr (n + 1))
    (hbody : Sound body n) (hgrows : Grows body) (hn : ts.length ≤ n + 1)
    (hhead : ts.head? = some k) (hk : k.kind = .keyword .if_)
    (h : ifRule expr body ⟨ts, found⟩ = .ok s ⟨rest, found⟩) :
    ∃ w, ts = w ++ rest ∧ Derives w (.statement s) rest := by
  obtain ⟨k', ts', c, mid, yes, mid', rfl, hc, hyes, hafter⟩ := (ifRule_eq_ok_iff hgrows).mp h
  cases hhead
  rw [List.length_cons] at hn
  obtain ⟨wc, rfl, hwc⟩ := hexpr (by omega) hc
  rw [List.length_append] at hn
  obtain ⟨wy, rfl, hwy⟩ := hbody (by omega) hyes
  rw [List.length_append] at hn
  obtain ⟨alt, mid'', no, rfl, halt, hno, rfl⟩ | ⟨hno, rfl, rfl⟩ := hafter
  · rw [List.length_cons] at hn
    obtain ⟨wn, rfl, hwn⟩ := hbody (by omega) hno
    exact ⟨k :: wc ++ wy ++ alt :: wn, by simp, .ifElse hk hwc hwy halt hwn⟩
  · exact ⟨k :: wc ++ wy, by simp, .ifThen hk hwc hwy hno⟩

private theorem derives_of_whileRule {k : Token} (hexpr : FillsWithin expr (n + 1))
    (hbody : Sound body n) (hn : ts.length ≤ n + 1) (hhead : ts.head? = some k)
    (hk : k.kind = .keyword .while_) (h : whileRule expr body ⟨ts, found⟩ = .ok s ⟨rest, found⟩) :
    ∃ w, ts = w ++ rest ∧ Derives w (.statement s) rest := by
  obtain ⟨k', ts', c, mid, inner, rfl, hc, hinner, rfl⟩ := whileRule_eq_ok_iff.mp h
  cases hhead
  rw [List.length_cons] at hn
  obtain ⟨wc, rfl, hwc⟩ := hexpr (by omega) hc
  rw [List.length_append] at hn
  obtain ⟨wb, rfl, hwb⟩ := hbody (by omega) hinner
  exact ⟨k :: wc ++ wb, by simp, .while_ hk hwc hwb⟩

private theorem derives_of_forRule {k : Token} (hexpr : FillsWithin expr (n + 1))
    (hbody : Sound body n) (hn : ts.length ≤ n + 1) (hhead : ts.head? = some k)
    (hk : k.kind = .keyword .for_) (h : forRule expr body ⟨ts, found⟩ = .ok s ⟨rest, found⟩) :
    ∃ w, ts = w ++ rest ∧ Derives w (.statement s) rest := by
  obtain ⟨k', ts', initial, mid, c, mid', step, mid'', inner, rfl, hi, hc, hstep, hinner, rfl⟩ :=
    forRule_eq_ok_iff.mp h
  cases hhead
  rw [List.length_cons] at hn
  obtain ⟨wi, rfl, hwi⟩ := derivesInitial_of_ok hexpr (by omega) hi
  rw [List.length_append] at hn
  obtain ⟨wc, semi, rfl, hwc, hsemi⟩ := derivesCondition_of_ok hexpr (by omega) hc
  rw [List.length_append, List.length_cons] at hn
  obtain ⟨ws, rfl, hws⟩ := derivesIncrement_of_ok hexpr (by omega) hstep
  rw [List.length_append] at hn
  obtain ⟨wb, rfl, hwb⟩ := hbody (by omega) hinner
  exact ⟨k :: wi ++ (wc ++ semi :: (ws ++ wb)), by simp, .for_ hk hwi hwc hsemi hws hwb⟩

private theorem derives_of_repeatRule {k : Token} (hexpr : FillsWithin expr (n + 1))
    (hbody : Sound body n) (hgrows : Grows body) (hn : ts.length ≤ n + 1)
    (hhead : ts.head? = some k) (hk : k.kind = .keyword .repeat_)
    (h : repeatRule expr body ⟨ts, found⟩ = .ok s ⟨rest, found⟩) :
    ∃ w, ts = w ++ rest ∧ Derives w (.statement s) rest := by
  obtain ⟨k', ts', inner, mid, semi, rfl, hinner, htail, hsemi⟩ :=
    (repeatRule_eq_ok_iff hgrows).mp h
  obtain ⟨tail, ts'', e, rfl, he, hform⟩ := repeatTail_eq_ok_iff.mp htail
  cases hhead
  rw [List.length_cons] at hn
  obtain ⟨wb, rfl, hwb⟩ := hbody (by omega) hinner
  rw [List.length_append, List.length_cons] at hn
  obtain ⟨wc, rfl, hwc⟩ := hexpr (by omega) he
  refine ⟨k :: wb ++ (tail :: wc ++ [semi]), by simp, ?_⟩
  obtain ⟨huntil, rfl⟩ | ⟨hfor, rfl⟩ := hform
  · exact .repeatUntil hk hwb huntil hwc hsemi
  · exact .repeatFor hk hwb hfor hwc hsemi

private theorem derives_of_blockRule (hbody : Sound body n) (hgrows : Grows body) (bound : Nat) :
    ∀ {ts : List Token} {ss : List Stmt}, ts.length ≤ n →
      blockRule body bound ⟨ts, found⟩ = .ok ss ⟨rest, found⟩ →
      ∃ w right, ts = w ++ right :: rest ∧ Derives w (.sequence ss) (right :: rest) ∧
        right.kind = .symbol .rightBrace := by
  induction bound with
  | zero => exact fun _ h ↦ nomatch h
  | succ bound ih =>
    intro ts ss hn h
    obtain ⟨right, rfl, hright, rfl⟩ | ⟨t, ts', s, mid, ss', heq, -, -, hs, hothers, rfl⟩ :=
      (blockRule_eq_ok_iff hgrows).mp h
    · exact ⟨[], right, rfl, .nil, hright⟩
    · -- what is known of the first token stands in the way of replacing `ts`
      clear heq
      obtain ⟨w₁, rfl, hw₁⟩ := hbody hn hs
      rw [List.length_append] at hn
      obtain ⟨w₂, right, rfl, hw₂, hright⟩ := ih (by omega) hothers
      exact ⟨w₁ ++ w₂, right, by simp, .cons hw₁ hw₂, hright⟩

private theorem derives_of_form (hexpr : FillsWithin expr (n + 1)) (hbody : Sound body n)
    (hgrows : Grows body) (hn : ts.length ≤ n + 1)
    (h : form expr body n ⟨ts, found⟩ = .ok s ⟨rest, found⟩) :
    ∃ w, ts = w ++ rest ∧ Derives w (.statement s) rest := by
  obtain ⟨t, _, rule, hpeek, hrule, h⟩ := exists_rest_of_bind_eq_ok h
  obtain ⟨_, hlook, rfl⟩ := lift_eq_ok_iff.mp hpeek
  obtain ⟨rfl, hhead⟩ := Parse.peek_eq_ok_iff.mp hlook
  split at hrule <;> subst hrule
  · next hk =>
    obtain ⟨_, hw, ⟨⟩⟩ := lift_eq_ok_iff.mp h
    exact derives_of_writeRule hexpr hn hhead (hk ▸ .write) hw
  · next hk =>
    obtain ⟨_, hw, ⟨⟩⟩ := lift_eq_ok_iff.mp h
    exact derives_of_writeRule hexpr hn hhead (hk ▸ .writeln) hw
  · next hk =>
    obtain ⟨_, hr, ⟨⟩⟩ := lift_eq_ok_iff.mp h
    exact derives_of_readRule hhead (hk ▸ .read) hr
  · next hk =>
    obtain ⟨_, hr, ⟨⟩⟩ := lift_eq_ok_iff.mp h
    exact derives_of_readRule hhead (hk ▸ .readnum) hr
  · next hk =>
    obtain ⟨_, hd, ⟨⟩⟩ := lift_eq_ok_iff.mp h
    obtain ⟨w, rfl, hw⟩ := derivesDeclaration_of_ok hexpr hn hhead hk hd
    exact ⟨w, rfl, .declaration hw⟩
  · next hk =>
    obtain ⟨left, ts', htake, hafter⟩ := lift_bind_eq_ok_iff.mp h
    obtain rfl := Parse.take_eq_ok_iff.mp htake
    cases hhead
    rw [List.length_cons] at hn
    obtain ⟨inner, _, hinner, hret⟩ := bind_eq_ok_iff.mp hafter
    obtain ⟨rfl, rfl⟩ := pure_eq_ok_iff.mp hret
    obtain ⟨w, right, rfl, hw, hright⟩ := derives_of_blockRule hbody hgrows n (by omega) hinner
    exact ⟨t :: w ++ [right], by simp, .block hk hw hright⟩
  · next hk => exact derives_of_ifRule hexpr hbody hgrows hn hhead hk h
  · next hk => exact derives_of_whileRule hexpr hbody hn hhead hk h
  · next hk => exact derives_of_forRule hexpr hbody hn hhead hk h
  · next hk => exact derives_of_repeatRule hexpr hbody hgrows hn hhead hk h
  · next hk =>
    obtain ⟨_, hj, ⟨⟩⟩ := lift_eq_ok_iff.mp h
    exact derives_of_jumpRule hhead (hk ▸ .break_) hj
  · next hk =>
    obtain ⟨_, hj, ⟨⟩⟩ := lift_eq_ok_iff.mp h
    exact derives_of_jumpRule hhead (hk ▸ .continue_) hj
  · split at h
    · cases h
    · obtain ⟨_, he, ⟨⟩⟩ := lift_eq_ok_iff.mp h
      obtain ⟨w, rfl, hw⟩ := derivesExpression_of_ok hexpr hn he
      exact ⟨w, rfl, .expression hw⟩

private theorem sound_statement (n : Nat) : Sound (statement n) n := by
  induction n with
  | zero => exact fun _ _ _ _ _ h ↦ nomatch h
  | succ n ih =>
    exact fun _ _ _ _ hn h ↦
      derives_of_form (fillsWithin_expression (n + 1)) ih (grows_statement n) hn h

private theorem derives_of_programRule (hbody : Sound body n) (hgrows : Grows body) (bound : Nat) :
    ∀ {ts : List Token} {ss : List Stmt}, ts.length ≤ n → ts.length ≤ bound →
      programRule body bound ⟨ts, found⟩ = (ss, ⟨rest, found⟩) →
      ∃ w, ts = w ++ rest ∧ Derives w (.sequence ss) rest ∧ ∀ t ∈ rest.head?, t.kind = .eof := by
  induction bound with
  | zero =>
    intro ts ss _ hbound h
    obtain rfl := List.length_eq_zero_iff.mp (Nat.le_zero.mp hbound)
    cases h
    exact ⟨[], rfl, .nil, nofun⟩
  | succ bound ih =>
    intro ts ss hn hbound h
    obtain ⟨heof, rfl, rfl⟩ | ⟨t, ts', s, mid, ss', heq, -, hs, hothers, rfl⟩ :=
      (programRule_eq_iff hgrows).mp h
    · exact ⟨[], rfl, .nil, heof⟩
    · clear heq
      obtain ⟨w₁, rfl, hw₁⟩ := hbody hn hs
      have hpos := List.length_pos_iff.mpr hw₁.ne_nil
      rw [List.length_append] at hn hbound
      obtain ⟨w₂, rfl, hw₂, heof⟩ := ih (by omega) (by omega) hothers
      exact ⟨w₁ ++ w₂, by simp, .cons hw₁ hw₂, heof⟩

/-! ## Completeness -/

theorem Fills.expression_eq {e : Expr} (h : Fills w e next) (hn : w.length ≤ n) :
    Expr.expression n (w ++ next) = .ok e next := h.derives.expression_eq h.ends hn

theorem DerivesExpression.rule_eq (h : DerivesExpression w s next) (hn : w.length ≤ n) :
    expressionRule (Expr.expression n) (w ++ next) = .ok s next := by
  obtain @⟨first, semi, w, e, next, hw, hsemi⟩ := h
  rw [List.length_append, List.length_singleton] at hn
  rw [List.append_assoc]
  exact expressionRule_eq_ok_iff.mpr
    ⟨first, e, semi, rfl, Fills.expression_eq hw (by omega), hsemi, rfl⟩

theorem DerivesDeclaration.rule_eq (h : DerivesDeclaration w s next) (hn : w.length ≤ n) :
    declareRule (Expr.expression n) (w ++ next) = .ok s next := by
  obtain @⟨k, x, semi, name, next, hk, hx, hsemi⟩ |
    @⟨k, x, equals, semi, name, w, e, next, hk, hx, heq, hw, hsemi⟩ := h
  · exact declareRule_eq_ok_iff.mpr (.inl ⟨k, x, semi, name, rfl, hx, hsemi, rfl⟩)
  · simp only [List.cons_append, List.length_cons, List.length_append] at hn
    refine declareRule_eq_ok_iff.mpr
      (.inr ⟨k, x, equals, semi, name, w ++ semi :: next, e, by simp, hx, heq, ?_, hsemi, rfl⟩)
    exact Fills.expression_eq hw (by omega)

private theorem DerivesDeclaration.head_eq (h : DerivesDeclaration w s next) :
    ∃ k, w.head? = some k ∧ k.kind = .keyword .let_ := by
  obtain ⟨hk, -, -⟩ | ⟨hk, -, -, -, -⟩ := h
  · exact ⟨_, rfl, hk⟩
  · exact ⟨_, rfl, hk⟩

theorem DerivesInitial.rule_eq {initial : Option Stmt} (h : DerivesInitial w initial next)
    (hn : w.length ≤ n) : initialRule (Expr.expression n) (w ++ next) = .ok initial next := by
  rw [initialRule_eq_ok_iff]
  obtain hsemi | hd | he := h
  · exact .inl ⟨_, rfl, hsemi, rfl⟩
  · obtain ⟨k, hhead, hk⟩ := hd.head_eq
    refine .inr (.inl ⟨k, _, ?_, hk, hd.rule_eq hn, rfl⟩)
    rw [List.head?_append, hhead, Option.some_or]
  · obtain @⟨first, semi, w, e, next, hw, hsemi⟩ := he
    obtain ⟨t, rest, heq, ht⟩ := hw.derives.exists_head
    cases heq
    refine .inr (.inr ⟨first, _, rfl, ?_, ?_, (DerivesExpression.intro hw hsemi).rule_eq hn, rfl⟩)
    · intro hk
      rw [hk] at ht
      cases ht
    · intro hk
      rw [hk] at ht
      cases ht

theorem DerivesCondition.rule_eq {line : Nat} {c : Expr} {semi : Token}
    (h : DerivesCondition line w c (semi :: next)) (hsemi : semi.kind = .symbol .semicolon)
    (hn : w.length ≤ n) :
      conditionRule (Expr.expression n) line (w ++ semi :: next) = .ok c next := by
  rw [conditionRule_eq_ok_iff]
  obtain _ | hw := h
  · exact .inl ⟨semi, rfl, hsemi, rfl⟩
  · obtain ⟨t, rest, rfl, ht⟩ := hw.derives.exists_head
    refine .inr ⟨t, semi, rfl, ?_, Fills.expression_eq hw hn, hsemi⟩
    intro hk
    rw [hk] at ht
    cases ht

theorem DerivesIncrement.rule_eq {step : Option Expr} (h : DerivesIncrement w step next)
    (hnext : next ≠ []) (hn : w.length ≤ n) :
    incrementRule (Expr.expression n) (w ++ next) = .ok step next := by
  rw [incrementRule_eq_ok_iff]
  obtain hbegins | hw := h
  · obtain ⟨t, rest, rfl⟩ := List.exists_cons_of_ne_nil hnext
    refine .inr ⟨t, rfl, ?_, rfl, rfl⟩
    rw [← Bool.not_eq_true, Expr.startsExpression_iff_begins]
    exact hbegins t rfl
  · obtain ⟨t, rest, rfl, ht⟩ := hw.derives.exists_head
    exact .inl ⟨t, _, rfl, ht, Fills.expression_eq hw hn, rfl⟩

/-- What the rules do with the tokens of a phrase. A sequence is read by two loops: a block ends
behind its brace, and a program ends in front of the end of the source. -/
def Phrase.ReadFrom (w : List Token) (phrase : Phrase) (next : List Token) : Prop :=
  match phrase with
  | statement s => ∀ n found, w.length ≤ n →
    Stmt.statement n ⟨w ++ next, found⟩ = .ok s ⟨next, found⟩
  | sequence ss => ∀ n bound found, w.length ≤ n → w.length ≤ bound →
    (∀ right rest, next = right :: rest → right.kind = .symbol .rightBrace →
      blockRule (Stmt.statement n) (bound + 1) ⟨w ++ next, found⟩ = .ok ss ⟨rest, found⟩) ∧
    ((∀ t ∈ next.head?, t.kind = .eof) →
      programRule (Stmt.statement n) bound ⟨w ++ next, found⟩ = (ss, ⟨next, found⟩))

namespace Phrase

section Forms

variable {k semi : Token} {wb wc : List Token} {c : Expr}

private theorem readFrom_statement (hw : w ≠ [])
    (h : ∀ m found, w.length ≤ m + 1 → form (Expr.expression (m + 1)) (Stmt.statement m) m
      ⟨w ++ next, found⟩ = .ok s ⟨next, found⟩) : (statement s).ReadFrom w next := by
  intro n found hn
  have hpos := List.length_pos_iff.mpr hw
  obtain ⟨m, rfl⟩ : ∃ m, n = m + 1 := ⟨n - 1, by omega⟩
  exact h m found hn

private theorem readFrom_expression (h : DerivesExpression w s next) :
    (statement s).ReadFrom w next := by
  obtain @⟨first, semi, w, e, next, hw, hsemi⟩ := h
  obtain ⟨t, rest, heq, ht⟩ := hw.derives.exists_head
  cases heq
  refine readFrom_statement (by simp) fun m found hn ↦ ?_
  exact (form_of_startsExpression ht).trans
    (lift_of_ok ((DerivesExpression.intro hw hsemi).rule_eq hn))

private theorem readFrom_declaration (h : DerivesDeclaration w s next) :
    (statement s).ReadFrom w next := by
  obtain ⟨k, hhead, hk⟩ := h.head_eq
  obtain ⟨w, rfl⟩ := List.head?_eq_some_iff.mp hhead
  refine readFrom_statement (by simp) fun m found hn ↦ ?_
  exact (form_of_let hk).trans (lift_of_ok (h.rule_eq hn))

private theorem readFrom_write {terminator : String} (hk : k.kind.Writes terminator)
    (hc : Fills wc c (semi :: next)) (hsemi : semi.kind = .symbol .semicolon) :
    (statement (.write c terminator k.line)).ReadFrom (k :: wc ++ [semi]) next := by
  refine readFrom_statement (by simp) fun m found hn ↦ ?_
  simp only [List.cons_append, List.length_cons, List.length_append] at hn
  refine (form_of_writes hk).trans (lift_of_ok (writeRule_eq_ok_iff.mpr
    ⟨k, wc ++ semi :: next, c, semi, by simp, ?_, hsemi, rfl⟩))
  exact Fills.expression_eq hc (by omega)

private theorem readFrom_read {x : Token} {node : String → Nat → Stmt} {name : String}
    (hk : k.kind.Reads node) (hx : x.kind = .name name) (hsemi : semi.kind = .symbol .semicolon) :
    (statement (node name k.line)).ReadFrom [k, x, semi] next := by
  refine readFrom_statement (by simp) fun m found hn ↦ ?_
  exact (form_of_reads hk).trans
    (lift_of_ok (readRule_eq_ok_iff.mpr ⟨k, x, semi, name, rfl, hx, hsemi, rfl⟩))

private theorem readFrom_jump {kind : Jump} (hk : k.kind.Jumps kind)
    (hsemi : semi.kind = .symbol .semicolon) :
    (statement (.jump kind k.line)).ReadFrom [k, semi] next := by
  refine readFrom_statement (by simp) fun m found hn ↦ ?_
  exact (form_of_jumps hk).trans (lift_of_ok (jumpRule_eq_ok_iff.mpr ⟨k, semi, rfl, hsemi, rfl⟩))

private theorem readFrom_block {left right : Token} {body : List Stmt}
    (hleft : left.kind = .symbol .leftBrace)
    (hbody : (sequence body).ReadFrom w (right :: next))
    (hright : right.kind = .symbol .rightBrace) :
    (statement (.block body left.line)).ReadFrom (left :: w ++ [right]) next := by
  refine readFrom_statement (by simp) fun m found hn ↦ ?_
  simp only [List.cons_append, List.length_cons, List.length_append] at hn
  -- two of the tokens are braces, so the loop of the block has a round left for the closing one
  obtain ⟨bound, rfl⟩ : ∃ bound, m = bound + 1 := ⟨m - 1, by omega⟩
  have hassoc : left :: w ++ [right] ++ next = left :: (w ++ right :: next) := by simp
  rw [hassoc]
  have hread := (hbody (bound + 1) bound found (by omega) (by omega)).1 right next rfl hright
  exact form_of_brace hleft hread

private theorem readFrom_ifThen {yes : Stmt} (hk : k.kind = .keyword .if_)
    (hc : Fills wc c (wb ++ next)) (hyes : (statement yes).ReadFrom wb next)
    (hno : NoElse next) :
    (statement (.ifThen c yes k.line)).ReadFrom (k :: wc ++ wb) next := by
  refine readFrom_statement (by simp) fun m found hn ↦ ?_
  simp only [List.cons_append, List.length_cons, List.length_append] at hn
  have hassoc : k :: wc ++ wb ++ next = k :: (wc ++ (wb ++ next)) := by simp
  rw [hassoc, form_of_if hk, ifRule_eq_ok_iff (grows_statement m)]
  exact ⟨k, _, c, wb ++ next, yes, next, rfl, Fills.expression_eq hc (by omega),
    hyes m found (by omega), .inr ⟨hno, rfl, rfl⟩⟩

private theorem readFrom_ifElse {alt : Token} {wn : List Token} {yes no : Stmt}
    (hk : k.kind = .keyword .if_) (hc : Fills wc c (wb ++ (alt :: wn ++ next)))
    (hyes : (statement yes).ReadFrom wb (alt :: wn ++ next))
    (halt : alt.kind = .keyword .else_) (hno : (statement no).ReadFrom wn next) :
    (statement (.ifElse c yes no k.line)).ReadFrom (k :: wc ++ wb ++ alt :: wn) next := by
  refine readFrom_statement (by simp) fun m found hn ↦ ?_
  simp only [List.cons_append, List.length_cons, List.length_append] at hn
  have hassoc : k :: wc ++ wb ++ alt :: wn ++ next =
      k :: (wc ++ (wb ++ (alt :: wn ++ next))) := by simp
  rw [hassoc, form_of_if hk, ifRule_eq_ok_iff (grows_statement m)]
  exact ⟨k, _, c, wb ++ (alt :: wn ++ next), yes, alt :: wn ++ next, rfl,
    Fills.expression_eq hc (by omega), hyes m found (by omega),
    .inl ⟨alt, wn ++ next, no, rfl, halt, hno m found (by omega), rfl⟩⟩

private theorem readFrom_while {body : Stmt} (hk : k.kind = .keyword .while_)
    (hc : Fills wc c (wb ++ next)) (hbody : (statement body).ReadFrom wb next) :
    (statement (.loop c body none k.line)).ReadFrom (k :: wc ++ wb) next := by
  refine readFrom_statement (by simp) fun m found hn ↦ ?_
  simp only [List.cons_append, List.length_cons, List.length_append] at hn
  have hassoc : k :: wc ++ wb ++ next = k :: (wc ++ (wb ++ next)) := by simp
  rw [hassoc, form_of_while hk, whileRule_eq_ok_iff]
  exact ⟨k, _, c, wb ++ next, body, rfl, Fills.expression_eq hc (by omega),
    hbody m found (by omega), rfl⟩

private theorem readFrom_for {wi ws : List Token} {initial : Option Stmt} {step : Option Expr}
    {body : Stmt} (hk : k.kind = .keyword .for_)
    (hi : DerivesInitial wi initial (wc ++ semi :: (ws ++ (wb ++ next))))
    (hc : DerivesCondition k.line wc c (semi :: (ws ++ (wb ++ next))))
    (hsemi : semi.kind = .symbol .semicolon) (hs : DerivesIncrement ws step (wb ++ next))
    (hne : wb ≠ []) (hbody : (statement body).ReadFrom wb next) :
    (statement (counted initial c step body k.line)).ReadFrom
      (k :: wi ++ (wc ++ semi :: (ws ++ wb))) next := by
  refine readFrom_statement (by simp) fun m found hn ↦ ?_
  simp only [List.cons_append, List.length_cons, List.length_append] at hn
  have hassoc : k :: wi ++ (wc ++ semi :: (ws ++ wb)) ++ next =
      k :: (wi ++ (wc ++ semi :: (ws ++ (wb ++ next)))) := by simp
  rw [hassoc, form_of_for hk, forRule_eq_ok_iff]
  refine ⟨k, _, initial, _, c, ws ++ (wb ++ next), step, wb ++ next, body, rfl,
    hi.rule_eq (by omega), hc.rule_eq hsemi (by omega), ?_, hbody m found (by omega), rfl⟩
  exact hs.rule_eq (List.append_ne_nil_of_left_ne_nil hne next) (by omega)

/-- The two forms of a repetition differ in the tree that their tail makes of the body. -/
private theorem readFrom_repeat {tail : Token} {body : Stmt} (hk : k.kind = .keyword .repeat_)
    (hbody : (statement body).ReadFrom wb (tail :: wc ++ semi :: next))
    (hc : Fills wc c (semi :: next)) (hsemi : semi.kind = .symbol .semicolon)
    (hs : tail.kind = .keyword .until_ ∧ s = .repeatUntil body c k.line ∨
      tail.kind = .keyword .for_ ∧ s = .repeatFor body c tail.line) :
    (statement s).ReadFrom (k :: wb ++ (tail :: wc ++ [semi])) next := by
  refine readFrom_statement (by simp) fun m found hn ↦ ?_
  simp only [List.cons_append, List.length_cons, List.length_append] at hn
  have hassoc : k :: wb ++ (tail :: wc ++ [semi]) ++ next =
      k :: (wb ++ (tail :: wc ++ semi :: next)) := by simp
  rw [hassoc, form_of_repeat hk, repeatRule_eq_ok_iff (grows_statement m)]
  refine ⟨k, _, body, tail :: wc ++ semi :: next, semi, rfl, hbody m found (by omega), ?_, hsemi⟩
  exact repeatTail_eq_ok_iff.mpr ⟨tail, _, c, rfl, Fills.expression_eq hc (by omega), hs⟩

end Forms

private theorem readFrom_nil : (sequence []).ReadFrom [] next := by
  intro n bound found _ _
  constructor
  · rintro right rest rfl hright
    exact (blockRule_eq_ok_iff (grows_statement n)).mpr (.inl ⟨right, rfl, hright, rfl⟩)
  · intro heof
    obtain _ | bound := bound
    · rfl
    · exact (programRule_eq_iff (grows_statement n)).mpr (.inl ⟨heof, rfl, rfl⟩)

private theorem readFrom_cons {w₁ w₂ : List Token} {ss : List Stmt}
    (hopens : ∃ t rest, w₁ = t :: rest ∧ opens t.kind = true)
    (hs : (statement s).ReadFrom w₁ (w₂ ++ next)) (hss : (sequence ss).ReadFrom w₂ next) :
    (sequence (s :: ss)).ReadFrom (w₁ ++ w₂) next := by
  intro n bound found hn hbound
  obtain ⟨t, w₁, rfl, hopens⟩ := hopens
  rw [List.length_append, List.length_cons] at hn hbound
  -- the first statement has a token at least, which is the round of the loop that reads it
  obtain ⟨bound, rfl⟩ : ∃ m, bound = m + 1 := ⟨bound - 1, by omega⟩
  obtain ⟨hblock, hprogram⟩ := hss n bound found (by omega) (by omega)
  have hne : t.kind ≠ .symbol .rightBrace ∧ t.kind ≠ .eof := by
    constructor <;> intro hk <;> rw [hk] at hopens <;> cases hopens
  have hfirst := hs n found (by rw [List.length_cons]; omega)
  rw [List.append_assoc]
  constructor
  · intro right rest hright hkind
    exact (blockRule_eq_ok_iff (grows_statement n)).mpr (.inr ⟨t, _, s, w₂ ++ next, ss, rfl,
      hne.1, hne.2, hfirst, hblock right rest hright hkind, rfl⟩)
  · intro heof
    exact (programRule_eq_iff (grows_statement n)).mpr (.inr ⟨t, _, s, w₂ ++ next, ss, rfl,
      hne.2, hfirst, hprogram heof, rfl⟩)

end Phrase

theorem Derives.readFrom {phrase : Phrase} (h : Derives w phrase next) :
    phrase.ReadFrom w next := by
  induction h with
  | expression h => exact Phrase.readFrom_expression h
  | declaration h => exact Phrase.readFrom_declaration h
  | write hk hw hsemi => exact Phrase.readFrom_write hk hw hsemi
  | read hk hx hsemi => exact Phrase.readFrom_read hk hx hsemi
  | jump hk hsemi => exact Phrase.readFrom_jump hk hsemi
  | block hleft _ hright ih => exact Phrase.readFrom_block hleft ih hright
  | ifThen hk hc _ hno ih => exact Phrase.readFrom_ifThen hk hc ih hno
  | ifElse hk hc _ halt _ ihy ihn => exact Phrase.readFrom_ifElse hk hc ihy halt ihn
  | while_ hk hc _ ih => exact Phrase.readFrom_while hk hc ih
  | for_ hk hi hc hsemi hs hb ih => exact Phrase.readFrom_for hk hi hc hsemi hs hb.ne_nil ih
  | repeatUntil hk _ htail hc hsemi ih =>
    exact Phrase.readFrom_repeat hk ih hc hsemi (.inl ⟨htail, rfl⟩)
  | repeatFor hk _ htail hc hsemi ih =>
    exact Phrase.readFrom_repeat hk ih hc hsemi (.inr ⟨htail, rfl⟩)
  | nil => exact Phrase.readFrom_nil
  | cons hs _ ih₁ ih₂ => exact Phrase.readFrom_cons hs.exists_head ih₁ ih₂

end BlockScript.Stmt

/-! ## Programs -/

namespace BlockScript

open Stmt (Derives)

variable {tokens w next : List Token} {program : Program}

private theorem derives_of_parseTokens (h : parseTokens tokens = .ok program) :
    ∃ w next, tokens = w ++ next ∧ Derives w (.sequence program) next ∧
      ∀ t ∈ next.head?, t.kind = .eof := by
  rw [parseTokens] at h
  generalize hrule : programRule (Stmt.statement tokens.length) tokens.length ⟨tokens, []⟩ = r at h
  obtain ⟨ss, next, found⟩ := r
  dsimp only at h
  split at h
  · next hfound =>
    obtain rfl := List.isEmpty_iff.mp hfound
    cases h
    obtain ⟨w, heq, hw, heof⟩ := Stmt.derives_of_programRule (Stmt.sound_statement _)
      (Stmt.grows_statement _) _ (Nat.le_refl _) (Nat.le_refl _) hrule
    exact ⟨w, next, heq, hw, heof⟩
  · cases h

theorem parseTokens_of_derives (h : Derives w (.sequence program) next)
    (heof : ∀ t ∈ next.head?, t.kind = .eof) : parseTokens (w ++ next) = .ok program := by
  have hlen : w.length ≤ (w ++ next).length := by
    rw [List.length_append]
    exact Nat.le_add_right _ _
  rw [parseTokens]
  dsimp only
  rw [(h.readFrom _ _ [] hlen hlen).2 heof]
  rfl

private theorem takeWhile_append_of_eof (hw : ∀ t ∈ w, t.kind ≠ .eof)
    (hnext : ∀ t ∈ next.head?, t.kind = .eof) :
    (w ++ next).takeWhile (·.kind ≠ .eof) = w := by
  rw [List.takeWhile_append_of_pos fun t ht ↦ decide_eq_true (hw t ht)]
  cases next with
  | nil => simp
  | cons t next =>
    rw [List.takeWhile_cons_of_neg (by simp [hnext t rfl]), List.append_nil]

/-- A source ends with its only mark of the end, so all tokens in front of it are the program's. -/
theorem derives_of_parseTokens_concat {last : Token} (hw : ∀ t ∈ w, t.kind ≠ .eof)
    (hlast : last.kind = .eof) (h : parseTokens (w ++ [last]) = .ok program) :
    Derives w (.sequence program) [last] := by
  obtain ⟨w', next, heq, hw', heof⟩ := derives_of_parseTokens h
  have hend : ∀ t ∈ [last].head?, t.kind = .eof := by
    rintro _ ⟨⟩
    exact hlast
  have hfront : w = w' := by
    rw [← takeWhile_append_of_eof hw hend, heq, takeWhile_append_of_eof hw'.kind_ne_eof heof]
  subst hfront
  rwa [← List.append_cancel_left heq] at hw'

/-- **The grammar, decided.** Parsing gives a program exactly if the tokens in front of the end of
the source derive it. -/
theorem parseTokens_eq_ok_iff_derives (tokens : List Token) (program : Program) :
    parseTokens tokens = .ok program ↔
      Derives (tokens.takeWhile (·.kind ≠ .eof)) (.sequence program) [] := by
  constructor
  · intro h
    obtain ⟨w, next, rfl, hw, heof⟩ := derives_of_parseTokens h
    rw [takeWhile_append_of_eof hw.kind_ne_eof heof]
    exact hw.exchange fun _ ↦ nofun
  · intro h
    rw [← List.takeWhile_append_dropWhile (p := (·.kind ≠ .eof)) (l := tokens)]
    have heof : ∀ t ∈ (tokens.dropWhile (·.kind ≠ .eof)).head?, t.kind = .eof := by
      intro t ht
      have := List.head?_dropWhile_not (·.kind ≠ .eof) tokens
      rw [ht] at this
      simpa using this
    -- nothing but the end of the source follows, so no alternative does
    refine parseTokens_of_derives (h.exchange fun _ t ht ↦ ?_) heof
    rw [heof t ht]
    nofun

end BlockScript
