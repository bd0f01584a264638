import BlockScript.Proofs.Expr.Lockstep
import BlockScript.Proofs.Stmt.Lines
import BlockScript.Proofs.Stmt.Recovery
import Mathlib.Data.List.Forall2

/-!
# Rules for statements in lockstep

A rule for a statement may fail inside a block and go on, so besides tokens taken there are errors
recorded. The two are tied together: more tokens have been taken than errors recorded (`Ahead`),
which bounds the errors of a whole program by its tokens.

The tie would break at a statement that fails on its first token, since nothing has been taken then
and an error is recorded all the same. There it is recovery that takes a token. So a statement that
fails has either been begun, and has a token to pay with, or has left everything as it was
(`Begun`), and then what is skipped is skipped from where the statement was to begin. A loop looks
at that token before it calls the rule, so it is not the mark of the end, nor in a block the brace
that recovery stops at. In both cases the round takes a token and each error has its own
(`recorded_of_parses`).
-/

namespace BlockScript

namespace Likeness

variable (L : Likeness)

/-- Statements that are equal but for their lines. -/
def SameStmt (s s' : Stmt) : Prop := s.mapLines L.line = s'.mapLines L.line

/-- Programs that are equal but for their lines. -/
def SameStmts (ss ss' : List Stmt) : Prop :=
  Stmt.mapLinesAll L.line ss = Stmt.mapLinesAll L.line ss'

end Likeness

namespace Stmt

open Likeness

variable {L : Likeness} {n m : Nat} {t t' : Token} {expr expr' : Parse Expr}

/-! ## Simple statements -/

private theorem steps_expressionRule (h : L.Steps n m 1 L.SameExpr expr expr') :
    L.Steps n m 1 L.SameStmt (expressionRule expr) (expressionRule expr') := by
  refine steps_peek_bind fun t t' hsame ↦ Steps.stepsAt ?_
  refine h.bind_left fun e e' he ↦ (steps_expect _ _).bind fun _ _ _ ↦ ?_
  exact .pure (by rw [SameStmt, mapLines, mapLines, he, hsame.line])

private theorem stepsAt_writeRule (h : L.Steps n m 1 L.SameExpr expr expr') (hsame : L.Same t t')
    (ht : t.kind ≠ .eof) (terminator : String) :
    L.StepsAt t t' n m 1 L.SameStmt (writeRule expr terminator)
      (writeRule expr' terminator) := by
  refine .take_bind ht ?_
  refine h.bind fun e e' he ↦ (steps_expect _ _).bind fun _ _ _ ↦ ?_
  exact .pure (by rw [SameStmt, mapLines, mapLines, he, hsame.line])

private theorem stepsAt_readRule {node : String → Nat → Stmt} {kind : TokenKind}
    (hnode : kind.Reads node) {k : Keyword} (hk : t.kind = .keyword k) (hsame : L.Same t t') :
    L.StepsAt t t' n m 1 L.SameStmt (readRule node) (readRule node) := by
  refine .take_bind (kind_ne_eof_of_keyword hk) ?_
  rw [← hsame.lexeme hk]
  refine (steps_expectName _).bind fun name name' hname ↦ (steps_expect _ _).bind fun _ _ _ ↦ ?_
  exact .pure (by
    rw [SameStmt, mapLines_of_reads hnode, mapLines_of_reads hnode, hname, hsame.line])

private theorem map_mapLines_of_rel {o o' : Option Expr} (h : Option.Rel L.SameExpr o o') :
    o.map (Expr.mapLines L.line) = o'.map (Expr.mapLines L.line) := by
  cases h with
  | none => rfl
  | some h => exact congrArg some h

private theorem stepsAt_declareRule (h : L.Steps n m 1 L.SameExpr expr expr') (hsame : L.Same t t')
    (ht : t.kind ≠ .eof) :
    L.StepsAt t t' n m 1 L.SameStmt (declareRule expr) (declareRule expr') := by
  refine .take_bind ht ?_
  refine (steps_expectName _).bind fun name name' hname ↦
    (steps_accept? (by nofun)).bind fun equals equals' hequals ↦ ?_
  have hrest {initial initial' : Option Expr} (hinitial : Option.Rel L.SameExpr initial initial') :
      L.Steps n m 0 L.SameStmt
        (Parse.expect (.symbol .semicolon) (.semicolon "variable declaration") >>= fun _ ↦
          pure (declare name initial t.line))
        (Parse.expect (.symbol .semicolon) (.semicolon "variable declaration") >>= fun _ ↦
          pure (declare name' initial' t'.line)) := by
    refine (steps_expect _ _).bind fun _ _ _ ↦ ?_
    exact .pure (by
      rw [SameStmt, mapLines, mapLines, hname, map_mapLines_of_rel hinitial, hsame.line])
  cases hequals with
  | none => exact (Steps.pure .none).bind fun _ _ ↦ hrest
  | some _ => exact (h.map fun _ _ ↦ .some).bind fun _ _ ↦ hrest

private theorem stepsAt_jumpRule (kind : Jump) {k : Keyword} (hk : t.kind = .keyword k)
    (hsame : L.Same t t') :
    L.StepsAt t t' n m 1 L.SameStmt (jumpRule kind) (jumpRule kind) := by
  refine .take_bind (kind_ne_eof_of_keyword hk) ?_
  rw [← hsame.lexeme hk]
  refine (steps_expect _ _).bind fun _ _ _ ↦ ?_
  exact .pure (by rw [SameStmt, mapLines, mapLines, hsame.line])

/-! ## The header of a counted loop -/

private theorem steps_initialRule (h : L.Steps n m 1 L.SameExpr expr expr') :
    L.Steps n m 1 (Option.Rel L.SameStmt) (initialRule expr) (initialRule expr') := by
  refine steps_peek_bind fun t t' hsame ↦ ?_
  rw [← hsame.kind]
  split
  · next hsemi =>
    refine .take_bind (kind_ne_eof_of_symbol hsemi) ?_
    exact .pure .none
  · next hlet =>
    exact (stepsAt_declareRule h hsame (kind_ne_eof_of_keyword hlet)).map fun _ _ ↦ .some
  · exact ((steps_expressionRule h).map fun _ _ ↦ .some).stepsAt

private theorem steps_conditionRule (h : L.Steps n m 1 L.SameExpr expr expr') {line line' : Nat}
    (hline : L.line line = L.line line') :
    L.Steps n m 1 L.SameExpr (conditionRule expr line) (conditionRule expr' line') := by
  refine steps_peek_bind fun t t' hsame ↦ Steps.stepsAt ?_
  have htrue : L.SameExpr (.literal (.bool true) line) (.literal (.bool true) line') :=
    congrArg (Expr.literal _) hline
  rw [← hsame.kind]
  dsimp only
  split
  · exact (Steps.pure htrue).bind fun c c' hc ↦ (steps_expect _ _).bind_left fun _ _ _ ↦ .pure hc
  · exact h.bind fun c c' hc ↦ (steps_expect _ _).bind_left fun _ _ _ ↦ .pure hc

private theorem steps_incrementRule (h : L.Steps n m 1 L.SameExpr expr expr') :
    L.Steps n m 0 (Option.Rel L.SameExpr) (incrementRule expr) (incrementRule expr') := by
  refine steps_peek_bind fun t t' hsame ↦ Steps.stepsAt ?_
  rw [← hsame.kind]
  split
  · exact (h.map fun _ _ ↦ .some).mono (Nat.le_refl n) (Nat.le_refl m) (Nat.zero_le 1)
  · exact .pure .none

private theorem steps_repeatTail (h : L.Steps n m 1 L.SameExpr expr expr') {body body' : Stmt}
    (hbody : L.SameStmt body body') {line line' : Nat} (hline : L.line line = L.line line') :
    L.Steps n m 1 L.SameStmt (repeatTail expr body line) (repeatTail expr' body' line') := by
  refine steps_peek_bind fun t t' hsame ↦ ?_
  rw [← hsame.kind]
  split
  · next huntil =>
    refine .take_bind (kind_ne_eof_of_keyword huntil) ?_
    refine h.bind fun c c' hc ↦ ?_
    exact .pure (by rw [SameStmt, mapLines, mapLines, hbody, hc, hline])
  · next hfor =>
    refine .take_bind (kind_ne_eof_of_keyword hfor) ?_
    refine h.bind fun c c' hc ↦ ?_
    exact .pure (by rw [SameStmt, mapLines, mapLines, hbody, hc, hsame.line])
  · exact (Steps.throw (hsame.error _)).stepsAt

end Stmt

/-! ## Recovery -/

namespace Likeness

variable (L : Likeness)

/-- From two states, equally many tokens have been taken and errors that look alike have been
recorded; at least `k` more tokens have been taken than errors recorded. -/
def Ahead (k : Nat) (s s' r r' : Progress) : Prop :=
  ∃ j new new', Taken j s.rest r.rest ∧ Taken j s'.rest r'.rest ∧ L.Alike r.rest r'.rest ∧
    r.found = s.found ++ new ∧ r'.found = s'.found ++ new' ∧ List.Forall₂ L.SameError new new' ∧
    new.length + k ≤ j

/-- Within bounds, two rules that may recover end in the same way. -/
def Recovers {α : Type} (n m : Nat) (A : α → α → Prop) (x y : Recover α) : Prop :=
  InStep (fun s s' ↦ L.Ready n m s.rest s'.rest) (L.Ahead 0) (L.Ahead 0) L.SameError A x y

/-- A statement has been begun, or nothing has been done at all. -/
def Begun (s s' r r' : Progress) : Prop := L.Ahead 1 s s' r r' ∨ r = s ∧ r' = s'

/-- Within bounds, two rules for a statement end in the same way. If they succeed, they have taken
more tokens than they have recorded errors. -/
def Parses {α : Type} (n m : Nat) (A : α → α → Prop) (x y : Recover α) : Prop :=
  InStep (fun s s' ↦ L.Ready n m s.rest s'.rest) (L.Ahead 1) L.Begun L.SameError A x y

def ParsesAt {α : Type} (t t' : Token) (n m : Nat) (A : α → α → Prop) (x y : Recover α) : Prop :=
  InStep (fun s s' ↦ L.ReadyAt t t' n m s.rest s'.rest) (L.Ahead 1) L.Begun L.SameError A x y

variable {L} {n m k k' j : Nat} {t t' : Token} {s s' r r' q q' : Progress} {α β : Type}
  {A : α → α → Prop} {B : β → β → Prop}

namespace Ahead

theorem refl (h : L.Alike s.rest s'.rest) : L.Ahead 0 s s' s s' :=
  ⟨0, [], [], .refl _, .refl _, h, (List.append_nil _).symm, (List.append_nil _).symm, .nil,
    Nat.le_refl 0⟩

theorem trans (h : L.Ahead k s s' r r') (h' : L.Ahead k' r r' q q') :
    L.Ahead (k + k') s s' q q' := by
  obtain ⟨j, new, new', ht, ht', -, hnew, hnew', hsame, hj⟩ := h
  obtain ⟨i, more, more', hu, hu', halike, hmore, hmore', hsame', hi⟩ := h'
  refine ⟨j + i, new ++ more, new' ++ more', ht.trans hu, ht'.trans hu', halike, ?_, ?_,
    List.rel_append hsame hsame', ?_⟩
  · rw [hmore, hnew, List.append_assoc]
  · rw [hmore', hnew', List.append_assoc]
  · rw [List.length_append]
    omega

theorem mono (h : L.Ahead k s s' r r') (hk : k' ≤ k) : L.Ahead k' s s' r r' := by
  obtain ⟨j, new, new', ht, ht', halike, hnew, hnew', hsame, hj⟩ := h
  exact ⟨j, new, new', ht, ht', halike, hnew, hnew', hsame, by omega⟩

theorem lockstep (h : L.Ahead k s s' r r') : L.Lockstep k s.rest s'.rest r.rest r'.rest := by
  obtain ⟨j, new, new', ht, ht', halike, -, -, -, hj⟩ := h
  exact ⟨j, by omega, ht, ht', halike⟩

/-- Tokens have been taken, and nothing has been recorded. -/
theorem of_lockstep {ts ts' rest rest' : List Token} (h : L.Lockstep k ts ts' rest rest')
    (found found' : List ParseError) :
    L.Ahead k ⟨ts, found⟩ ⟨ts', found'⟩ ⟨rest, found⟩ ⟨rest', found'⟩ := by
  obtain ⟨j, hj, ht, ht', halike⟩ := h
  exact ⟨j, [], [], ht, ht', halike, (List.append_nil _).symm, (List.append_nil _).symm, .nil,
    by rwa [List.length_nil, Nat.zero_add]⟩

/-- An error that is recorded costs one token of what has been taken before and of what is skipped
then. -/
theorem record {i : Nat} {rest rest' : List Token} {e e' : ParseError} (h : L.Ahead k s s' r r')
    (hskip : L.Lockstep i r.rest r'.rest rest rest') (he : L.SameError e e')
    (hk : k' + 1 ≤ k + i) :
    L.Ahead k' s s' ⟨rest, r.found ++ [e]⟩ ⟨rest', r'.found ++ [e']⟩ := by
  obtain ⟨j, new, new', ht, ht', -, hnew, hnew', hsame, hj⟩ := h
  obtain ⟨l, hl, hu, hu', halike⟩ := hskip
  refine ⟨j + l, new ++ [e], new' ++ [e'], ht.trans hu, ht'.trans hu', halike, ?_, ?_,
    List.rel_append hsame (.cons he .nil), ?_⟩
  · rw [hnew, List.append_assoc]
  · rw [hnew', List.append_assoc]
  · rw [List.length_append, List.length_singleton]
    omega

end Ahead

theorem agree_lift {x y : Parse α} {E : ParseError → ParseError → Prop}
    {S T : List Token → List Token → Prop} {S' T' : Progress → Progress → Prop}
    (h : Agree A E S T (x s.rest) (y s'.rest))
    (hS : ∀ rest rest', S rest rest' → S' ⟨rest, s.found⟩ ⟨rest', s'.found⟩)
    (hT : ∀ rest rest', T rest rest' → T' ⟨rest, s.found⟩ ⟨rest', s'.found⟩) :
    Agree A E S' T' ((liftM x : Recover α) s) ((liftM y : Recover α) s') := by
  change Agree A E S' T' (Recover.lift x s) (Recover.lift y s')
  rw [Recover.lift, Recover.lift]
  generalize x s.rest = rx at h ⊢
  generalize y s'.rest = ry at h ⊢
  cases h with
  | ok ha hs => exact .ok ha (hS _ _ hs)
  | error he ht => exact .error he (hT _ _ ht)

private theorem Begun.ahead (h : L.Begun s s' r r') (halike : L.Alike s.rest s'.rest) :
    L.Ahead 0 s s' r r' := by
  rcases h with h | ⟨rfl, rfl⟩
  · exact h.mono (Nat.zero_le 1)
  · exact .refl halike

private theorem Begun.of_lockstep {ts ts' rest rest' : List Token}
    (h : L.Lockstep 0 ts ts' rest rest') (found found' : List ParseError) :
    L.Begun ⟨ts, found⟩ ⟨ts', found'⟩ ⟨rest, found⟩ ⟨rest', found'⟩ := by
  obtain ⟨_ | j, -, ht, ht', halike⟩ := h
  · rw [ht.eq_of_zero, ht'.eq_of_zero]
    exact .inr ⟨rfl, rfl⟩
  · exact .inl (.of_lockstep ⟨j + 1, Nat.le_add_left 1 j, ht, ht', halike⟩ found found')

theorem Parses.of_nil {x y : Recover α}
    (hx : ∀ found, x ⟨[], found⟩ = .error .exhausted ⟨[], found⟩)
    (hy : ∀ found, y ⟨[], found⟩ = .error .exhausted ⟨[], found⟩) (h : n = 0 ∨ m = 0) :
    L.Parses n m A x y := by
  rintro ⟨ts, found⟩ ⟨ts', found'⟩ hready
  obtain ⟨rfl, rfl⟩ | ⟨t, ts, t', ts', rfl, rfl⟩ := hready.alike.nil_or_cons
  · rw [hx, hy]
    exact .error .exhausted (.inr ⟨rfl, rfl⟩)
  · have hpos := hready.pos
    omega

theorem Parses.recovers {x y : Recover α} (h : L.Parses n m A x y) : L.Recovers n m A x y :=
  fun _ _ hready ↦ (h hready).mono (fun _ _ h ↦ h) (fun _ _ h ↦ h.mono (Nat.zero_le 1))
    fun _ _ h ↦ h.ahead hready.alike

namespace Recovers

variable {x y : Recover α} {f g : α → Recover β}

theorem pure {a a' : α} (h : A a a') : L.Recovers n m A (Pure.pure a) (Pure.pure a') :=
  InStep.pure (fun _ _ hready ↦ .refl hready.alike) h

theorem bind (hx : L.Recovers n m A x y)
    (hf : ∀ a a', A a a' → L.Recovers n m B (f a) (g a')) :
    L.Recovers n m B (x >>= f) (y >>= g) :=
  InStep.bind hx hf (fun _ _ _ _ hready h ↦ h.lockstep.ready hready) (fun _ _ _ _ h ↦ h)
    (fun _ _ _ _ _ _ h h' ↦ h.trans h') fun _ _ _ _ _ _ h h' ↦ h.trans h'

theorem lift {x y : Parse α} (h : L.Steps n m k A x y) :
    L.Recovers n m A (liftM x : Recover α) (liftM y) :=
  fun _ _ hready ↦ agree_lift (h hready)
    (fun _ _ h ↦ (Ahead.of_lockstep h _ _).mono (Nat.zero_le k)) fun _ _ h ↦ Ahead.of_lockstep h _ _

end Recovers

theorem ParsesAt.lift {x y : Parse α} (h : L.StepsAt t t' n m 1 A x y) :
    L.ParsesAt t t' n m A (liftM x : Recover α) (liftM y) :=
  fun _ _ hready ↦ agree_lift (h hready) (fun _ _ h ↦ .of_lockstep h _ _)
    fun _ _ h ↦ .of_lockstep h _ _

theorem parses_peek_bind {f g : Token → Recover β}
    (h : ∀ t t', L.Same t t' → L.ParsesAt t t' n m B (f t) (g t')) :
    L.Parses n m B ((liftM Parse.peek : Recover Token) >>= f) (liftM Parse.peek >>= g) := by
  rintro ⟨ts, found⟩ ⟨ts', found'⟩ hready
  obtain ⟨rfl, rfl⟩ | ⟨t, ts, t', ts', rfl, rfl⟩ := hready.alike.nil_or_cons
  · exact .error .exhausted (.inr ⟨rfl, rfl⟩)
  · exact h t t' hready.alike.same ⟨hready, rfl, rfl⟩

/-- A statement whose first token has been taken is begun. -/
theorem ParsesAt.take_bind {f g : Token → Recover β} (ht : t.kind ≠ .eof)
    (h : L.Recovers n m B (f t) (g t')) :
    L.ParsesAt t t' (n + 1) (m + 1) B ((liftM Parse.take : Recover Token) >>= f)
      (liftM Parse.take >>= g) := by
  rintro ⟨_ | ⟨t, ts⟩, found⟩ ⟨_ | ⟨t', ts'⟩, found'⟩ ⟨hready, ⟨⟩, ⟨⟩⟩
  have hone := Lockstep.one hready.alike ht
  have hahead := Ahead.of_lockstep hone found found'
  have hrest := @h ⟨ts, found⟩ ⟨ts', found'⟩ (hone.ready hready)
  exact hrest.mono (fun _ _ h ↦ h) (fun _ _ h ↦ hahead.trans h) fun _ _ h ↦ .inl (hahead.trans h)

end Likeness

namespace Stmt

open Likeness

variable {L : Likeness} {n m : Nat} {t t' : Token} {expr expr' : Parse Expr}
  {body body' : Recover Stmt}

/-! ## Statements that contain statements -/

private theorem parsesAt_ifRule (hexpr : L.Steps n m 1 L.SameExpr expr expr')
    (hbody : L.Parses n m L.SameStmt body body') (hsame : L.Same t t') (ht : t.kind ≠ .eof) :
    L.ParsesAt t t' (n + 1) (m + 1) L.SameStmt (ifRule expr body) (ifRule expr' body') := by
  refine .take_bind ht ?_
  refine (Recovers.lift hexpr).bind fun c c' hc ↦ hbody.recovers.bind fun yes yes' hyes ↦
    (Recovers.lift (steps_accept? (by nofun))).bind fun alt alt' halt ↦ ?_
  cases halt with
  | none => exact .pure (by rw [SameStmt, mapLines, mapLines, hc, hyes, hsame.line])
  | some _ =>
    refine hbody.recovers.bind fun no no' hno ↦ ?_
    exact .pure (by rw [SameStmt, mapLines, mapLines, hc, hyes, hno, hsame.line])

private theorem parsesAt_whileRule (hexpr : L.Steps n m 1 L.SameExpr expr expr')
    (hbody : L.Parses n m L.SameStmt body body') (hsame : L.Same t t') (ht : t.kind ≠ .eof) :
    L.ParsesAt t t' (n + 1) (m + 1) L.SameStmt (whileRule expr body) (whileRule expr' body') := by
  refine .take_bind ht ?_
  refine (Recovers.lift hexpr).bind fun c c' hc ↦ hbody.recovers.bind fun s s' hs ↦ ?_
  exact .pure (by rw [SameStmt, mapLines, mapLines, hc, hs, hsame.line])

private theorem parsesAt_forRule (hexpr : L.Steps n m 1 L.SameExpr expr expr')
    (hbody : L.Parses n m L.SameStmt body body') (hsame : L.Same t t') (ht : t.kind ≠ .eof) :
    L.ParsesAt t t' (n + 1) (m + 1) L.SameStmt (forRule expr body) (forRule expr' body') := by
  refine .take_bind ht ?_
  refine (Recovers.lift (steps_initialRule hexpr)).bind fun initial initial' hinitial ↦
    (Recovers.lift (steps_conditionRule hexpr hsame.line)).bind fun c c' hc ↦
    (Recovers.lift (steps_incrementRule hexpr)).bind fun step step' hstep ↦
    hbody.recovers.bind fun s s' hs ↦ ?_
  have hloop : L.SameStmt (loop c s step t.line) (loop c' s' step' t'.line) := by
    rw [SameStmt, mapLines, mapLines, hc, hs, map_mapLines_of_rel hstep, hsame.line]
  cases hinitial with
  | none => exact .pure hloop
  | some hfirst =>
    exact .pure (by
      rw [SameStmt, mapLines, mapLines, mapLinesAll, mapLinesAll, mapLinesAll, mapLinesAll, hfirst,
        hloop, hsame.line]
      rfl)

private theorem parsesAt_repeatRule (hexpr : L.Steps n m 1 L.SameExpr expr expr')
    (hbody : L.Parses n m L.SameStmt body body') (hsame : L.Same t t') (ht : t.kind ≠ .eof) :
    L.ParsesAt t t' (n + 1) (m + 1) L.SameStmt (repeatRule expr body) (repeatRule expr' body') := by
  refine .take_bind ht ?_
  refine hbody.recovers.bind fun s s' hs ↦
    (Recovers.lift (steps_repeatTail hexpr hs hsame.line)).bind fun r r' hr ↦
    (Recovers.lift (steps_expect _ _)).bind fun _ _ _ ↦ ?_
  exact .pure hr

/-! ## Skipping -/

/-- One token is skipped, and then perhaps more. -/
theorem lockstep_synchronize_cons {ts ts' : List Token} (h : L.Alike (t :: ts) (t' :: ts'))
    (ht : t.kind ≠ .eof) (hrest : L.Lockstep 0 ts ts' (synchronize ts) (synchronize ts')) :
    L.Lockstep 1 (t :: ts) (t' :: ts') (synchronize (t :: ts)) (synchronize (t' :: ts')) := by
  have hone := Lockstep.one h ht
  have htail := h.tail ht
  unfold synchronize
  rw [← h.same.kind, if_neg ht, if_neg ht]
  split
  · exact hone
  obtain ⟨rfl, rfl⟩ | ⟨next, ts, next', ts', rfl, rfl⟩ := htail.nil_or_cons
  · exact hone
  · dsimp only
    rw [← htail.same.kind]
    split
    · exact hone
    · exact hone.trans hrest

theorem synchronize_of_eof (ht : t.kind = .eof) (ts : List Token) :
    synchronize (t :: ts) = t :: ts := by
  unfold synchronize
  exact if_pos ht

theorem lockstep_synchronize {ts ts' : List Token} (h : L.Alike ts ts') :
    L.Lockstep 0 ts ts' (synchronize ts) (synchronize ts') := by
  induction h with
  | nil => exact .refl .nil
  | eof hsame heof =>
    rw [synchronize_of_eof heof, synchronize_of_eof (hsame.kind ▸ heof)]
    exact .refl (.eof hsame heof)
  | cons hsame hne hrest ih =>
    exact (lockstep_synchronize_cons (.cons hsame hne hrest) hne ih).mono (Nat.zero_le 1)

/-- Where something can be skipped, something is. -/
theorem lockstep_one_synchronize {ts ts' : List Token} (h : L.Alike (t :: ts) (t' :: ts'))
    (ht : t.kind ≠ .eof) :
    L.Lockstep 1 (t :: ts) (t' :: ts') (synchronize (t :: ts)) (synchronize (t' :: ts')) :=
  lockstep_synchronize_cons h ht (lockstep_synchronize (h.tail ht))

theorem lockstep_synchronizeInBlock {ts ts' : List Token} (h : L.Alike ts ts') :
    L.Lockstep 0 ts ts' (synchronizeInBlock ts) (synchronizeInBlock ts') := by
  obtain ⟨rfl, rfl⟩ | ⟨t, ts, t', ts', rfl, rfl⟩ := h.nil_or_cons
  · exact .refl .nil
  · rw [synchronizeInBlock, synchronizeInBlock, ← h.same.kind]
    split
    · exact .refl h
    · exact lockstep_synchronize h

theorem lockstep_one_synchronizeInBlock {ts ts' : List Token}
    (h : L.Alike (t :: ts) (t' :: ts')) (ht : t.kind ≠ .eof)
    (hbrace : t.kind ≠ .symbol .rightBrace) :
    L.Lockstep 1 (t :: ts) (t' :: ts') (synchronizeInBlock (t :: ts))
      (synchronizeInBlock (t' :: ts')) := by
  rw [synchronizeInBlock, if_neg hbrace, synchronizeInBlock, if_neg (h.same.kind ▸ hbrace)]
  exact lockstep_one_synchronize h ht

/-! ## Blocks and programs -/

/-- What is left of two statements that have been recorded. -/
structure Recorded (L : Likeness) (s s' : Progress) (r r' : Option Stmt × Progress) : Prop where
  /-- Both have been parsed, or both have failed. -/
  statement : Option.Rel L.SameStmt r.1 r'.1
  /-- An error has cost at least one token. -/
  ahead : L.Ahead 0 s s' r.2 r'.2
  /-- Something has been taken. -/
  lockstep : L.Lockstep 1 s.rest s'.rest r.2.rest r'.2.rest

theorem recorded_of_parses {skip : List Token → List Token}
    (hskip : ∀ {ts ts'}, L.Alike ts ts' → L.Lockstep 0 ts ts' (skip ts) (skip ts'))
    (hbody : L.Parses n m L.SameStmt body body') {s s' : Progress}
    (hready : L.Ready n m s.rest s'.rest)
    (hhead : L.Lockstep 1 s.rest s'.rest (skip s.rest) (skip s'.rest)) :
    Recorded L s s' (recorded body skip s) (recorded body' skip s') := by
  have h := hbody hready
  rw [recorded, recorded]
  generalize body s = x at h ⊢
  generalize body' s' = y at h ⊢
  cases h with
  | ok hs hahead => exact ⟨.some hs, hahead.mono (Nat.zero_le 1), hahead.lockstep⟩
  | error he hbegun =>
    rcases hbegun with hahead | ⟨rfl, rfl⟩
    · have hskipped := hskip hahead.lockstep.alike
      exact ⟨.none, hahead.record hskipped he (Nat.le_refl 1), hahead.lockstep.trans hskipped⟩
    · exact ⟨.none, (Ahead.refl hready.alike).record hhead he (Nat.le_refl 1), hhead⟩

/-- The first of some statements and the others. -/
theorem sameStmts_append {first first' : Option Stmt} {others others' : List Stmt}
    (hfirst : Option.Rel L.SameStmt first first') (hothers : L.SameStmts others others') :
    L.SameStmts (first.toList ++ others) (first'.toList ++ others') := by
  cases hfirst with
  | none => exact hothers
  | some h => exact congrArg₂ List.cons h hothers

theorem blockRule_nil (body : Recover Stmt) (bound : Nat) (found : List ParseError) :
    blockRule body bound ⟨[], found⟩ = .error .exhausted ⟨[], found⟩ := by
  cases bound <;> rfl

theorem recovers_blockRule (hbody : L.Parses n m L.SameStmt body body') {b b' : Nat}
    (hb : b ≤ n) (hb' : b' ≤ m) :
    L.Recovers b b' L.SameStmts (blockRule body b) (blockRule body' b') := by
  induction b generalizing b' with
  | zero => exact (Parses.of_nil (blockRule_nil _ _) (blockRule_nil _ _) (.inl rfl)).recovers
  | succ b ih =>
    rintro ⟨ts, found⟩ ⟨ts', found'⟩ hready
    obtain ⟨rfl, rfl⟩ | ⟨t, ts, t', ts', rfl, rfl⟩ := hready.alike.nil_or_cons
    · rw [blockRule_nil, blockRule_nil]
      exact .error .exhausted (.refl .nil)
    obtain ⟨b', rfl⟩ := Nat.exists_eq_add_one.mpr hready.pos.2
    have hsame := hready.alike.same
    rw [blockRule, blockRule]
    dsimp only
    rw [← hsame.kind]
    split
    · next hbrace =>
      have hone := Lockstep.one hready.alike (kind_ne_eof_of_symbol hbrace)
      exact .ok rfl ((Ahead.of_lockstep hone found found').mono (Nat.zero_le 1))
    next hbrace =>
    split
    · exact .error (hsame.error _) (.refl hready.alike)
    next heof =>
    have hrecorded := recorded_of_parses lockstep_synchronizeInBlock hbody
      (hready.mono hb hb') (lockstep_one_synchronizeInBlock hready.alike heof hbrace)
    generalize recorded body synchronizeInBlock ⟨t :: ts, found⟩ = r at hrecorded ⊢
    generalize recorded body' synchronizeInBlock ⟨t' :: ts', found'⟩ = r' at hrecorded ⊢
    have hothers := ih (by omega) (by omega) (hrecorded.lockstep.ready hready)
    generalize blockRule body b r.2 = x at hothers ⊢
    generalize blockRule body' b' r'.2 = y at hothers ⊢
    cases hothers with
    | ok hss hahead =>
      exact .ok (sameStmts_append hrecorded.statement hss) (hrecorded.ahead.trans hahead)
    | error he hahead => exact .error he (hrecorded.ahead.trans hahead)

private theorem exists_keyword_of_isReserved {kind : TokenKind} (h : kind.isReserved = true) :
    ∃ k, kind = .keyword k := by
  cases kind with
  | keyword k => exact ⟨k, rfl⟩
  | _ => cases h

private theorem parses_form (hexpr : L.Steps (n + 1) (m + 1) 1 L.SameExpr expr expr')
    (hbody : L.Parses n m L.SameStmt body body') :
    L.Parses (n + 1) (m + 1) L.SameStmt (form expr body n) (form expr' body' m) := by
  have hexpr' := hexpr.mono (Nat.le_succ n) (Nat.le_succ m) (Nat.le_refl 1)
  refine parses_peek_bind fun t t' hsame ↦ ?_
  rw [← hsame.kind]
  split
  · next hk => exact .lift (stepsAt_writeRule hexpr hsame (kind_ne_eof_of_keyword hk) _)
  · next hk => exact .lift (stepsAt_writeRule hexpr hsame (kind_ne_eof_of_keyword hk) _)
  · next hk => exact .lift (stepsAt_readRule .read hk hsame)
  · next hk => exact .lift (stepsAt_readRule .readnum hk hsame)
  · next hk => exact .lift (stepsAt_declareRule hexpr hsame (kind_ne_eof_of_keyword hk))
  · next hk =>
    refine .take_bind (kind_ne_eof_of_symbol hk) ?_
    refine (recovers_blockRule hbody (Nat.le_refl n) (Nat.le_refl m)).bind fun ss ss' hss ↦ ?_
    exact .pure (by rw [SameStmt, mapLines, mapLines, hss, hsame.line])
  · next hk => exact parsesAt_ifRule hexpr' hbody hsame (kind_ne_eof_of_keyword hk)
  · next hk => exact parsesAt_whileRule hexpr' hbody hsame (kind_ne_eof_of_keyword hk)
  · next hk => exact parsesAt_forRule hexpr' hbody hsame (kind_ne_eof_of_keyword hk)
  · next hk => exact parsesAt_repeatRule hexpr' hbody hsame (kind_ne_eof_of_keyword hk)
  · next hk => exact .lift (stepsAt_jumpRule _ hk hsame)
  · next hk => exact .lift (stepsAt_jumpRule _ hk hsame)
  · split
    · next hreserved =>
      obtain ⟨k, hk⟩ := exists_keyword_of_isReserved hreserved
      rw [hsame.lexeme hk]
      exact InStep.throw (fun _ _ _ ↦ .inr ⟨rfl, rfl⟩) (hsame.error _)
    · exact .lift (steps_expressionRule hexpr).stepsAt

theorem statement_nil (bound : Nat) (found : List ParseError) :
    statement bound ⟨[], found⟩ = .error .exhausted ⟨[], found⟩ := by
  cases bound <;> rfl

/-- **Statements in lockstep.** -/
theorem parses_statement (n m : Nat) :
    L.Parses n m L.SameStmt (statement n) (statement m) := by
  induction n generalizing m with
  | zero => exact .of_nil (statement_nil _) (statement_nil _) (.inl rfl)
  | succ n ih =>
    cases m with
    | zero => exact .of_nil (statement_nil _) (statement_nil _) (.inr rfl)
    | succ m => exact parses_form (Expr.steps_expression (n + 1) (m + 1)) (ih m)

end Stmt

private theorem programRule_nil (body : Recover Stmt) (bound : Nat) (found : List ParseError) :
    programRule body bound ⟨[], found⟩ = ([], ⟨[], found⟩) := by
  cases bound <;> rfl

/-- **Programs in lockstep.** -/
theorem programRule_lockstep {L : Likeness} {n m : Nat} {body body' : Recover Stmt}
    (hbody : L.Parses n m L.SameStmt body body') {b b' : Nat} (s s' : Progress)
    (hbound : L.Ready b b' s.rest s'.rest) (hready : L.Ready n m s.rest s'.rest) :
    L.SameStmts (programRule body b s).1 (programRule body' b' s').1 ∧
      L.Ahead 0 s s' (programRule body b s).2 (programRule body' b' s').2 := by
  induction b generalizing b' s s' with
  | zero =>
    obtain ⟨ts, found⟩ := s
    obtain ⟨ts', found'⟩ := s'
    obtain ⟨rfl, rfl⟩ | ⟨t, ts, t', ts', rfl, rfl⟩ := hready.alike.nil_or_cons
    · rw [programRule_nil, programRule_nil]
      exact ⟨rfl, .refl .nil⟩
    · exact absurd hbound.pos.1 (Nat.lt_irrefl 0)
  | succ b ih =>
    obtain ⟨ts, found⟩ := s
    obtain ⟨ts', found'⟩ := s'
    obtain ⟨rfl, rfl⟩ | ⟨t, ts, t', ts', rfl, rfl⟩ := hready.alike.nil_or_cons
    · rw [programRule_nil, programRule_nil]
      exact ⟨rfl, .refl .nil⟩
    obtain ⟨b', rfl⟩ := Nat.exists_eq_add_one.mpr hbound.pos.2
    have hsame := hready.alike.same
    rw [programRule, programRule]
    dsimp only
    rw [← hsame.kind]
    split
    · exact ⟨rfl, .refl hready.alike⟩
    next heof =>
    have hrecorded := Stmt.recorded_of_parses Stmt.lockstep_synchronize hbody hready
      (Stmt.lockstep_one_synchronize hready.alike heof)
    generalize Stmt.recorded body synchronize ⟨t :: ts, found⟩ = r at hrecorded ⊢
    generalize Stmt.recorded body' synchronize ⟨t' :: ts', found'⟩ = r' at hrecorded ⊢
    obtain ⟨hothers, hahead⟩ := ih r.2 r'.2 (hrecorded.lockstep.ready hbound)
      (hrecorded.ahead.lockstep.ready hready)
    exact ⟨Stmt.sameStmts_append hrecorded.statement hothers, hrecorded.ahead.trans hahead⟩

end BlockScript
