import BlockScript.Proofs.Expr.Border
import BlockScript.Proofs.Stmt.Lockstep

/-!
# Statements in front of a border

The rules that a statement is made of, but for those of blocks, heed a border as the rules for
expressions do. A statement as a whole does so if the border is none at which a block begins
(`tracks_statement`). Such a statement contains no block, so it has no errors to recover from, and
it leaves the record alone.
-/

namespace BlockScript

open Border

namespace Stmt

variable {B : Border} {n : Nat} {t : Token} {expr : Parse Expr}

/-! ## Simple statements -/

private theorem refuses_expressionRule (h : Refuses .expectedExpression expr) :
    Refuses .expectedExpression (expressionRule expr) :=
  .peek_bind fun _ _ ht ↦ bind_of_error (h ht)

theorem heeds_expressionRule (h : B.Heeds n expr) (hborder : Refuses .expectedExpression expr) :
    B.Heeds n (expressionRule expr) := by
  refine heeds_of_refuses rfl (refuses_expressionRule hborder) fun t _ ↦ .peek_bind ?_
  exact (h.bind fun _ ↦ (heeds_expect rfl _).bind fun _ ↦ .pure _).heedsAt

theorem heedsAt_writeRule (h : B.Heeds n expr) (ht : B.inner t) (terminator : String) :
    B.HeedsAt t n (writeRule expr terminator) :=
  .take_bind ht (h.bind fun _ ↦ (heeds_expect rfl _).bind fun _ ↦ .pure _)

theorem heedsAt_readRule (ht : B.inner t) (node : String → Nat → Stmt) :
    B.HeedsAt t n (readRule node) :=
  .take_bind ht ((heeds_expectName _).bind fun _ ↦ (heeds_expect rfl _).bind fun _ ↦ .pure _)

theorem heedsAt_declareRule (h : B.Heeds n expr) (ht : B.inner t) :
    B.HeedsAt t n (declareRule expr) := by
  refine .take_bind ht ?_
  refine (heeds_expectName _).bind fun name ↦ (heeds_accept? rfl).bind fun equals ↦ ?_
  have hrest (initial : Option Expr) : B.Heeds n
      (Parse.expect (.symbol .semicolon) (.semicolon "variable declaration") >>= fun _ ↦
        pure (declare name initial t.line)) := (heeds_expect rfl _).bind fun _ ↦ .pure _
  rcases equals with _ | _
  · exact (Heeds.pure none).bind hrest
  · exact (h.map some).bind hrest

theorem heedsAt_jumpRule (ht : B.inner t) (kind : Jump) : B.HeedsAt t n (jumpRule kind) :=
  .take_bind ht ((heeds_expect rfl _).bind fun _ ↦ .pure _)

/-! ## Parts of loops -/

theorem heeds_initialRule (h : B.Heeds n expr) (hborder : Refuses .expectedExpression expr) :
    B.Heeds n (initialRule expr) := by
  have hrefuses : Refuses .expectedExpression (initialRule expr) := by
    refine .peek_bind fun t ts ht ↦ ?_
    obtain hk | hk | hk := TokenKind.isBorder_cases ht <;> rw [hk] <;>
      exact (refuses_expressionRule hborder).map some ht
  refine heeds_of_refuses rfl hrefuses fun t ht ↦ .peek_bind ?_
  split
  · exact .take_bind ht (.pure none)
  · exact (heedsAt_declareRule h ht).map some
  · exact ((heeds_expressionRule h hborder).map some).heedsAt

theorem heeds_conditionRule (h : B.Heeds n expr) (hborder : Refuses .expectedExpression expr)
    (line : Nat) : B.Heeds n (conditionRule expr line) := by
  have hrefuses : Refuses .expectedExpression (conditionRule expr line) := by
    refine .peek_bind fun t ts ht ↦ ?_
    have hsemi : t.kind ≠ .symbol .semicolon := by
      intro hk
      rw [hk] at ht
      cases ht
    dsimp only
    rw [if_neg hsemi]
    exact bind_of_error (hborder ht)
  refine heeds_of_refuses rfl hrefuses fun t _ ↦ .peek_bind (Heeds.heedsAt ?_)
  dsimp only
  split
  · exact (Heeds.pure _).bind fun _ ↦ (heeds_expect rfl _).bind fun _ ↦ .pure _
  · exact h.bind fun _ ↦ (heeds_expect rfl _).bind fun _ ↦ .pure _

private theorem incrementRule_of_isBorder (ht : t.kind.isBorder = true) (ts : List Token) :
    incrementRule expr (t :: ts) = .ok none (t :: ts) := by
  have hstart : t.kind.startsExpression = false := by
    obtain hk | hk | hk := TokenKind.isBorder_cases ht <;> rw [hk] <;> rfl
  refine (bind_of_ok (Parse.peek_eq_ok_iff.mpr ⟨rfl, rfl⟩)).trans ?_
  rw [hstart]
  rfl

/-- An increment may be missing, so at a border there is none and no error. -/
theorem heeds_incrementRule (h : B.Heeds n expr) : B.Heeds n (incrementRule expr) := by
  rintro ts ts' ⟨hnear, hlength⟩
  cases hnear with
  | outer houter =>
    obtain ⟨rfl, rfl⟩ | ⟨t, rest, t', rest', rfl, rfl, ht, ht'⟩ := B.outer_nil_or_cons houter
    · exact .error (.nowhere houter) (.refl (.outer houter))
    · rw [incrementRule_of_isBorder ht, incrementRule_of_isBorder ht']
      exact .ok rfl (.refl (.outer houter))
  | @inner t ts ts' ht hts =>
    have hat : B.HeedsAt t n (incrementRule expr) := by
      refine .peek_bind (Heeds.heedsAt ?_)
      split
      · exact h.map some
      · exact .pure none
    exact hat ⟨⟨.inner ht hts, hlength⟩, rfl, rfl⟩

theorem heeds_repeatTail (h : B.Heeds n expr) (body : Stmt) (line : Nat) :
    B.Heeds n (repeatTail expr body line) := by
  have hrefuses : Refuses (.expected .repeatTail) (repeatTail expr body line) := by
    refine .peek_bind fun t ts ht ↦ ?_
    obtain hk | hk | hk := TokenKind.isBorder_cases ht <;> rw [hk] <;> rfl
  refine heeds_of_refuses rfl hrefuses fun t ht ↦ .peek_bind ?_
  split
  · exact .take_bind ht (h.bind fun _ ↦ .pure _)
  · exact .take_bind ht (h.bind fun _ ↦ .pure _)
  · exact .throw ht _

end Stmt

/-! ## Statements without blocks -/

namespace Border

variable (B : Border)

/-- No block begins at the border. -/
def Flat : Prop := ∀ ⦃t rest t' rest'⦄, B.outer (t :: rest) (t' :: rest') →
  t.kind ≠ .symbol .leftBrace ∧ t'.kind ≠ .symbol .leftBrace

/-- From two states the same tokens have been taken, and nothing has been recorded. -/
def Moved (s s' r r' : Progress) : Prop :=
  B.Passed s.rest s'.rest r.rest r'.rest ∧ r.found = s.found ∧ r'.found = s'.found

/-- Within a bound, a rule that may recover ends in the same way on two lists that agree up to a
border, and it has nothing to record. -/
def Tracks (n : Nat) {α : Type} (x : Recover α) : Prop :=
  InStep (fun s s' ↦ B.Within n s.rest s'.rest) B.Moved B.Moved B.SameSpot Eq x x

def TracksAt (t : Token) (n : Nat) {α : Type} (x : Recover α) : Prop :=
  InStep (fun s s' ↦ B.Within n s.rest s'.rest ∧ s.rest.head? = some t ∧ s'.rest.head? = some t)
    B.Moved B.Moved B.SameSpot Eq x x

variable {B} {n : Nat} {t : Token} {s s' r r' q q' : Progress} {α β : Type}

theorem Moved.refl (h : B.Near s.rest s'.rest) : B.Moved s s' s s' := ⟨.refl h, rfl, rfl⟩

theorem Moved.trans (h : B.Moved s s' r r') (h' : B.Moved r r' q q') : B.Moved s s' q q' :=
  ⟨h.1.trans h'.1, h'.2.1.trans h.2.1, h'.2.2.trans h.2.2⟩

namespace Tracks

theorem pure (a : α) : B.Tracks n (Pure.pure a : Recover α) :=
  InStep.pure (fun _ _ h ↦ .refl h.1) rfl

theorem bind {x : Recover α} {f : α → Recover β} (hx : B.Tracks n x)
    (hf : ∀ a, B.Tracks n (f a)) : B.Tracks n (x >>= f) := by
  refine InStep.bind hx ?_ (fun _ _ _ _ hs h ↦ h.1.within hs) (fun _ _ _ _ h ↦ h)
    (fun _ _ _ _ _ _ h h' ↦ h.trans h') fun _ _ _ _ _ _ h h' ↦ h.trans h'
  rintro a _ rfl
  exact hf a

theorem lift {x : Parse α} (hx : B.Heeds n x) : B.Tracks n (liftM x : Recover α) :=
  fun _ _ hs ↦ Likeness.agree_lift (hx hs) (fun _ _ h ↦ ⟨h, rfl, rfl⟩) fun _ _ h ↦ ⟨h, rfl, rfl⟩

theorem of_nil {x : Recover α} (hx : ∀ found, x ⟨[], found⟩ = .error .exhausted ⟨[], found⟩) :
    B.Tracks 0 x := by
  rintro ⟨ts, found⟩ ⟨ts', found'⟩ ⟨hnear, hlength⟩
  obtain rfl := List.length_eq_zero_iff.mp (Nat.le_zero.mp hlength)
  obtain ⟨houter, rfl⟩ := hnear.outer_of_nil
  rw [hx, hx]
  exact .error (.nowhere houter) (.refl hnear)

end Tracks

theorem TracksAt.lift {x : Parse α} (hx : B.HeedsAt t n x) :
    B.TracksAt t n (liftM x : Recover α) :=
  fun _ _ hs ↦ Likeness.agree_lift (hx hs) (fun _ _ h ↦ ⟨h, rfl, rfl⟩) fun _ _ h ↦ ⟨h, rfl, rfl⟩

theorem TracksAt.peek_bind {f : Token → Recover β} (h : B.TracksAt t n (f t)) :
    B.TracksAt t n ((liftM Parse.peek : Recover Token) >>= f) := by
  rintro ⟨_ | ⟨t, ts⟩, found⟩ ⟨_ | ⟨t', ts'⟩, found'⟩ ⟨hs, ⟨⟩, ⟨⟩⟩
  exact h ⟨hs, rfl, rfl⟩

theorem TracksAt.take_bind {f : Token → Recover β} (ht : B.inner t) (h : B.Tracks n (f t)) :
    B.TracksAt t (n + 1) ((liftM Parse.take : Recover Token) >>= f) := by
  rintro ⟨_ | ⟨t, ts⟩, found⟩ ⟨_ | ⟨t', ts'⟩, found'⟩ ⟨⟨hnear, hlength⟩, ⟨⟩, ⟨⟩⟩
  have htail := hnear.tail ht
  have hone : B.Moved ⟨t :: ts, found⟩ ⟨t :: ts', found'⟩ ⟨ts, found⟩ ⟨ts', found'⟩ :=
    ⟨.one ht htail, rfl, rfl⟩
  have hrest := @h ⟨ts, found⟩ ⟨ts', found'⟩ ⟨htail, Nat.le_of_succ_le_succ hlength⟩
  exact hrest.mono (fun _ _ h ↦ h) (fun _ _ h ↦ hone.trans h) fun _ _ h ↦ hone.trans h

end Border

namespace Stmt

variable {B : Border} {n : Nat} {t : Token} {expr : Parse Expr} {body : Recover Stmt}

private theorem tracksAt_ifRule (hexpr : B.Heeds n expr) (hbody : B.Tracks n body)
    (ht : B.inner t) : B.TracksAt t (n + 1) (ifRule expr body) := by
  refine .take_bind ht ?_
  refine (Tracks.lift hexpr).bind fun c ↦ hbody.bind fun yes ↦
    (Tracks.lift (heeds_accept? rfl)).bind fun alternative ↦ ?_
  rcases alternative with _ | _
  · exact .pure _
  · exact hbody.bind fun _ ↦ .pure _

private theorem tracksAt_whileRule (hexpr : B.Heeds n expr) (hbody : B.Tracks n body)
    (ht : B.inner t) : B.TracksAt t (n + 1) (whileRule expr body) :=
  .take_bind ht ((Tracks.lift hexpr).bind fun _ ↦ hbody.bind fun _ ↦ .pure _)

private theorem tracksAt_forRule (hexpr : B.Heeds n expr)
    (hborder : Refuses .expectedExpression expr) (hbody : B.Tracks n body) (ht : B.inner t) :
    B.TracksAt t (n + 1) (forRule expr body) := by
  refine .take_bind ht ?_
  refine (Tracks.lift (heeds_initialRule hexpr hborder)).bind fun initial ↦
    (Tracks.lift (heeds_conditionRule hexpr hborder _)).bind fun c ↦
    (Tracks.lift (heeds_incrementRule hexpr)).bind fun step ↦ hbody.bind fun s ↦ ?_
  rcases initial with _ | _
  · exact .pure _
  · exact .pure _

private theorem tracksAt_repeatRule (hexpr : B.Heeds n expr) (hbody : B.Tracks n body)
    (ht : B.inner t) : B.TracksAt t (n + 1) (repeatRule expr body) := by
  refine .take_bind ht ?_
  exact hbody.bind fun s ↦ (Tracks.lift (heeds_repeatTail hexpr s _)).bind fun _ ↦
    (Tracks.lift (heeds_expect rfl _)).bind fun _ ↦ .pure _

/-- Where neither a block nor anything else begins, an expression is missing. -/
theorem form_of_isBorder (hborder : Refuses .expectedExpression expr)
    (ht : t.kind.isBorder = true) (hbrace : t.kind ≠ .symbol .leftBrace) (ts : List Token)
    (found : List ParseError) :
    form expr body n ⟨t :: ts, found⟩ = .error (.at .expectedExpression t) ⟨t :: ts, found⟩ := by
  have hexpr : (liftM (expressionRule expr) : Recover Stmt) ⟨t :: ts, found⟩ =
      .error (.at .expectedExpression t) ⟨t :: ts, found⟩ :=
    Recover.lift_of_error (refuses_expressionRule hborder ht)
  rw [form, bind_of_ok (Recover.lift_of_ok (Parse.peek_eq_ok_iff.mpr ⟨rfl, rfl⟩))]
  obtain hk | hk | hk := TokenKind.isBorder_cases ht
  · exact absurd hk hbrace
  · rw [hk]
    exact hexpr
  · rw [hk]
    exact hexpr

private theorem tracks_form (hB : B.Flat) (hexpr : B.Heeds (n + 1) expr)
    (hborder : Refuses .expectedExpression expr) (hbody : B.Tracks n body) :
    B.Tracks (n + 1) (form expr body n) := by
  have hexpr' := hexpr.mono (Nat.le_succ n)
  rintro ⟨ts, found⟩ ⟨ts', found'⟩ ⟨hnear, hlength⟩
  cases hnear with
  | outer houter =>
    obtain ⟨rfl, rfl⟩ | ⟨t, rest, t', rest', rfl, rfl, ht, ht'⟩ := B.outer_nil_or_cons houter
    · exact .error (.nowhere houter) (.refl (.outer houter))
    · rw [form_of_isBorder hborder ht (hB houter).1, form_of_isBorder hborder ht' (hB houter).2]
      exact .error (.outer houter) (.refl (.outer houter))
  | @inner t ts ts' ht hts =>
    have hnotBorder := B.not_isBorder_of_inner ht
    have hat : B.TracksAt t (n + 1) (form expr body n) := by
      refine .peek_bind ?_
      split
      · exact .lift (heedsAt_writeRule hexpr ht _)
      · exact .lift (heedsAt_writeRule hexpr ht _)
      · exact .lift (heedsAt_readRule ht _)
      · exact .lift (heedsAt_readRule ht _)
      · exact .lift (heedsAt_declareRule hexpr ht)
      · next hbrace =>
        rw [hbrace] at hnotBorder
        cases hnotBorder
      · exact tracksAt_ifRule hexpr' hbody ht
      · exact tracksAt_whileRule hexpr' hbody ht
      · exact tracksAt_forRule hexpr' hborder hbody ht
      · exact tracksAt_repeatRule hexpr' hbody ht
      · exact .lift (heedsAt_jumpRule ht _)
      · exact .lift (heedsAt_jumpRule ht _)
      · split
        · exact InStep.throw (fun _ _ hs ↦ .refl hs.1.1) (.inner ht)
        · exact .lift (heeds_expressionRule hexpr hborder).heedsAt
    exact hat ⟨⟨.inner ht hts, hlength⟩, rfl, rfl⟩

/-- **Statements in front of a border** at which no block begins. -/
theorem tracks_statement (hB : B.Flat) (n : Nat) : B.Tracks n (statement n) := by
  induction n with
  | zero => exact .of_nil (statement_nil 0)
  | succ n ih =>
    exact tracks_form hB (Expr.heeds_expression (n + 1)) (Expr.refuses_expression n) ih

end Stmt

end BlockScript
