import BlockScript.Proofs.Expr.Finding
import BlockScript.Proofs.Program.Progress

/-!
# Errors in statements

A rule for a statement may record errors on its way and fail in the end. What such a rule does to
the state of parsing passes from one part of the rule to the next, and it is the recording of an
error in a block that has to be looked at. So it is said once for all relations between states that
allow for taking tokens and for recording (`Recovering`).

One of these relations is about the order of errors: they are found from left to right (`Trail`),
each by a rule that began where the search for the one before had stopped, or behind it. A block
recovers from the errors of its statements, and its own error, that it is not closed, comes after
theirs.
-/

namespace BlockScript

open Likeness (kind_ne_eof_of_keyword kind_ne_eof_of_symbol)

namespace Stmt

variable {n : Nat} {t : Token} {expr : Parse Expr}

/-! ## Simple statements -/

private theorem spots_expressionRule (h : Spots n expr) : Spots n (expressionRule expr) := by
  refine spots_peek_bind fun t ↦ Spots.spotsAt ?_
  exact h.bind fun _ ↦ (spots_expect _ _).bind fun _ ↦ .pure _

private theorem spotsAt_writeRule (h : Spots n expr) (ht : t.kind ≠ .eof) (terminator : String) :
    SpotsAt t n (writeRule expr terminator) :=
  .take_bind ht (h.bind fun _ ↦ (spots_expect _ _).bind fun _ ↦ .pure _)

private theorem spotsAt_readRule (ht : t.kind ≠ .eof) (node : String → Nat → Stmt) :
    SpotsAt t n (readRule node) :=
  .take_bind ht ((spots_expectName _).bind fun _ ↦ (spots_expect _ _).bind fun _ ↦ .pure _)

private theorem spotsAt_declareRule (h : Spots n expr) (ht : t.kind ≠ .eof) :
    SpotsAt t n (declareRule expr) := by
  refine .take_bind ht ?_
  refine (spots_expectName _).bind fun name ↦ (spots_accept? (by nofun)).bind fun equals ↦ ?_
  have hrest (initial : Option Expr) : Spots n
      (Parse.expect (.symbol .semicolon) (.semicolon "variable declaration") >>= fun _ ↦
        pure (declare name initial t.line)) := (spots_expect _ _).bind fun _ ↦ .pure _
  rcases equals with _ | _
  · exact (Spots.pure none).bind hrest
  · exact (h.map some).bind hrest

private theorem spotsAt_jumpRule (ht : t.kind ≠ .eof) (kind : Jump) : SpotsAt t n (jumpRule kind) :=
  .take_bind ht ((spots_expect _ _).bind fun _ ↦ .pure _)

private theorem spots_initialRule (h : Spots n expr) : Spots n (initialRule expr) := by
  refine spots_peek_bind fun t ↦ ?_
  split
  · next hsemi => exact .take_bind (kind_ne_eof_of_symbol hsemi) (.pure none)
  · next hlet => exact .map some (spotsAt_declareRule h (kind_ne_eof_of_keyword hlet))
  · exact ((spots_expressionRule h).map some).spotsAt

private theorem spots_conditionRule (h : Spots n expr) (line : Nat) :
    Spots n (conditionRule expr line) := by
  refine spots_peek_bind fun t ↦ Spots.spotsAt ?_
  dsimp only
  split
  · exact (Spots.pure _).bind fun _ ↦ (spots_expect _ _).bind fun _ ↦ .pure _
  · exact h.bind fun _ ↦ (spots_expect _ _).bind fun _ ↦ .pure _

private theorem spots_incrementRule (h : Spots n expr) : Spots n (incrementRule expr) := by
  refine spots_peek_bind fun t ↦ Spots.spotsAt ?_
  split
  · exact h.map some
  · exact .pure none

private theorem spots_repeatTail (h : Spots n expr) (body : Stmt) (line : Nat) :
    Spots n (repeatTail expr body line) := by
  refine spots_peek_bind fun t ↦ ?_
  split
  · next hk => exact .take_bind (kind_ne_eof_of_keyword hk) (h.bind fun _ ↦ .pure _)
  · next hk => exact .take_bind (kind_ne_eof_of_keyword hk) (h.bind fun _ ↦ .pure _)
  · exact .throw trivial

end Stmt

/-! ## Rules that may recover -/

/-- A rule has gone on from a state as `F` says, and has then failed. -/
def FailsAfter (F : Progress → Progress → Prop) (s : Progress) (e : ParseError) (r : Progress) :
    Prop :=
  ∃ mid, F s mid ∧ r.found = mid.found ∧ TakenFrom mid.rest r.rest ∧ FoundAt mid.rest r.rest e

/-- What may be said of the way from one state of parsing to a later one. -/
structure Recovering (F : Progress → Progress → Prop) : Prop where
  /-- Nothing need happen. -/
  refl (s : Progress) : F s s
  /-- More may happen. -/
  trans {s r q : Progress} : F s r → F r q → F s q
  /-- Tokens do not come back. -/
  length_le {s r : Progress} : F s r → r.rest.length ≤ s.rest.length
  /-- Tokens may be taken. -/
  taken {ts rest : List Token} (h : TakenFrom ts rest) (found : List ParseError) :
    F ⟨ts, found⟩ ⟨rest, found⟩
  /-- The error of a statement may be recorded, and some tokens skipped. -/
  record {n : Nat} {s r : Progress} {e : ParseError} {rest : List Token} :
    s.rest.length ≤ n → Stmt.statement n s = .error e r → FailsAfter F s e r →
    TakenFrom r.rest rest → F s ⟨rest, r.found ++ [e]⟩

/-- Within a bound, a rule that may recover goes on as `F` says until it ends. -/
def GoesBy (F : Progress → Progress → Prop) (n : Nat) {α : Type} (x : Recover α) : Prop :=
  Ensures (fun s ↦ s.rest.length ≤ n) (fun s _ r ↦ F s r) (FailsAfter F) x

def GoesByAt (F : Progress → Progress → Prop) (t : Token) (n : Nat) {α : Type} (x : Recover α) :
    Prop :=
  Ensures (fun s ↦ s.rest.length ≤ n ∧ s.rest.head? = some t) (fun s _ r ↦ F s r) (FailsAfter F) x

section Recovering

variable {F : Progress → Progress → Prop} {n : Nat} {t : Token} {α β : Type}

namespace Recovering

variable {s r q : Progress} {e : ParseError}

/-- A rule has failed at once. -/
theorem failsHere (hF : Recovering F) (h : FoundAt s.rest s.rest e) : FailsAfter F s e s :=
  ⟨s, hF.refl s, rfl, .refl _, h⟩

theorem behind (hF : Recovering F) (h : F s r) (he : FailsAfter F r e q) : FailsAfter F s e q := by
  obtain ⟨mid, hmid, hfound, htaken, hat⟩ := he
  exact ⟨mid, hF.trans h hmid, hfound, htaken, hat⟩

theorem ends_lift (hF : Recovering F) {x : Parse α}
    (h : Ends (fun _ rest ↦ TakenFrom s.rest rest)
      (fun e rest ↦ TakenFrom s.rest rest ∧ FoundAt s.rest rest e) (x s.rest)) :
    Ends (fun _ r ↦ F s r) (FailsAfter F s) ((liftM x : Recover α) s) := by
  change Ends _ _ (Recover.lift x s)
  rw [Recover.lift]
  generalize x s.rest = r at h ⊢
  cases h with
  | ok htaken => exact .ok (hF.taken htaken s.found)
  | error h => exact .error ⟨s, hF.refl s, rfl, h⟩

end Recovering

namespace GoesBy

variable {x : Recover α} {f : α → Recover β}

theorem pure (hF : Recovering F) (a : α) : GoesBy F n (Pure.pure a : Recover α) :=
  Ensures.pure fun s _ ↦ hF.refl s

theorem bind (hF : Recovering F) (hx : GoesBy F n x) (hf : ∀ a, GoesBy F n (f a)) :
    GoesBy F n (x >>= f) :=
  Ensures.bind hx hf (fun _ _ _ hn h ↦ Nat.le_trans (hF.length_le h) hn) (fun _ _ _ h ↦ h)
    (fun _ _ _ _ _ h h' ↦ hF.trans h h') fun _ _ _ _ _ h h' ↦ hF.behind h h'

theorem lift (hF : Recovering F) {x : Parse α} (h : Spots n x) :
    GoesBy F n (liftM x : Recover α) := fun _ hs ↦ hF.ends_lift (h hs)

theorem of_nil (hF : Recovering F)
    (hx : ∀ found, x ⟨[], found⟩ = .error .exhausted ⟨[], found⟩) : GoesBy F 0 x := by
  rintro ⟨ts, found⟩ hts
  obtain rfl := List.length_eq_zero_iff.mp (Nat.le_zero.mp hts)
  rw [hx]
  exact .error (hF.failsHere .nowhere)

end GoesBy

theorem GoesByAt.lift (hF : Recovering F) {x : Parse α} (h : SpotsAt t n x) :
    GoesByAt F t n (liftM x : Recover α) := fun _ hs ↦ hF.ends_lift (h hs)

private theorem goesBy_peek_bind (hF : Recovering F) {f : Token → Recover β}
    (h : ∀ t, GoesByAt F t n (f t)) :
    GoesBy F n ((liftM Parse.peek : Recover Token) >>= f) := by
  rintro ⟨_ | ⟨t, ts⟩, found⟩ hs
  · exact .error (hF.failsHere .nowhere)
  · exact h t ⟨hs, rfl⟩

theorem GoesByAt.take_bind (hF : Recovering F) {f : Token → Recover β} (ht : t.kind ≠ .eof)
    (h : GoesBy F n (f t)) :
    GoesByAt F t (n + 1) ((liftM Parse.take : Recover Token) >>= f) := by
  rintro ⟨_ | ⟨t, ts⟩, found⟩ ⟨hs, ⟨⟩⟩
  have hone := hF.taken (.one ht ts) found
  have hrest := @h ⟨ts, found⟩ (Nat.le_of_succ_le_succ hs)
  exact hrest.mono (fun _ _ h ↦ hF.trans hone h) fun _ _ h ↦ hF.behind hone h

end Recovering

namespace Stmt

variable {F : Progress → Progress → Prop} {n : Nat} {t : Token} {expr : Parse Expr}
  {body : Recover Stmt}

/-! ### Statements that contain statements -/

private theorem goesByAt_ifRule (hF : Recovering F) (hexpr : Spots n expr) (hbody : GoesBy F n body)
    (ht : t.kind ≠ .eof) : GoesByAt F t (n + 1) (ifRule expr body) := by
  refine .take_bind hF ht ((GoesBy.lift hF hexpr).bind hF fun _ ↦ hbody.bind hF fun _ ↦
    (GoesBy.lift hF (spots_accept? (by nofun))).bind hF fun alternative ↦ ?_)
  rcases alternative with _ | _
  · exact .pure hF _
  · exact hbody.bind hF fun _ ↦ .pure hF _

private theorem goesByAt_whileRule (hF : Recovering F) (hexpr : Spots n expr)
    (hbody : GoesBy F n body) (ht : t.kind ≠ .eof) : GoesByAt F t (n + 1) (whileRule expr body) :=
  .take_bind hF ht ((GoesBy.lift hF hexpr).bind hF fun _ ↦ hbody.bind hF fun _ ↦ .pure hF _)

private theorem goesByAt_forRule (hF : Recovering F) (hexpr : Spots n expr)
    (hbody : GoesBy F n body) (ht : t.kind ≠ .eof) : GoesByAt F t (n + 1) (forRule expr body) := by
  refine .take_bind hF ht ((GoesBy.lift hF (spots_initialRule hexpr)).bind hF fun initial ↦
    (GoesBy.lift hF (spots_conditionRule hexpr _)).bind hF fun _ ↦
    (GoesBy.lift hF (spots_incrementRule hexpr)).bind hF fun _ ↦ hbody.bind hF fun _ ↦ ?_)
  rcases initial with _ | _
  · exact .pure hF _
  · exact .pure hF _

private theorem goesByAt_repeatRule (hF : Recovering F) (hexpr : Spots n expr)
    (hbody : GoesBy F n body) (ht : t.kind ≠ .eof) : GoesByAt F t (n + 1) (repeatRule expr body) :=
  .take_bind hF ht (hbody.bind hF fun _ ↦
    (GoesBy.lift hF (spots_repeatTail hexpr _ _)).bind hF fun _ ↦
    (GoesBy.lift hF (spots_expect _ _)).bind hF fun _ ↦ .pure hF _)

/-! ### Blocks and statements -/

private theorem takenFrom_synchronize (ts : List Token) : TakenFrom ts (synchronize ts) :=
  (lockstep_synchronize (.refl (L := .exact) ts)).exists_taken

private theorem takenFrom_synchronizeInBlock (ts : List Token) :
    TakenFrom ts (synchronizeInBlock ts) :=
  (lockstep_synchronizeInBlock (.refl (L := .exact) ts)).exists_taken

private theorem goesBy_recorded (hF : Recovering F) (h : GoesBy F n (statement n))
    {skip : List Token → List Token} (hskip : ∀ ts, TakenFrom ts (skip ts)) {s : Progress}
    (hs : s.rest.length ≤ n) : F s (recorded (statement n) skip s).2 := by
  have hstatement := h hs
  rw [recorded]
  rcases hrun : statement n s with ⟨a, r⟩ | ⟨e, r⟩
  · rw [hrun] at hstatement
    obtain hgoes | _ := hstatement
    exact hgoes
  · rw [hrun] at hstatement
    obtain _ | hfails := hstatement
    exact hF.record hs hrun hfails (hskip r.rest)

private theorem goesBy_blockRule (hF : Recovering F) (h : GoesBy F n (statement n)) {b : Nat}
    (hb : b ≤ n) : GoesBy F b (blockRule (statement n) b) := by
  induction b with
  | zero => exact .of_nil hF (blockRule_nil _ 0)
  | succ b ih =>
    rintro ⟨_ | ⟨t, ts⟩, found⟩ hs
    · rw [blockRule_nil]
      exact .error (hF.failsHere .nowhere)
    rw [blockRule]
    dsimp only
    split
    · next hbrace => exact .ok (hF.taken (.one (kind_ne_eof_of_symbol hbrace) ts) found)
    next hbrace =>
    split
    · exact .error (hF.failsHere (.next trivial))
    next heof =>
    let s : Progress := ⟨t :: ts, found⟩
    have hbound : s.rest.length ≤ b + 1 := hs
    have hle : s.rest.length ≤ n := Nat.le_trans hbound hb
    have hgoes := goesBy_recorded hF h takenFrom_synchronizeInBlock hle
    obtain ⟨j, hj, htaken⟩ := taken_recorded_synchronizeInBlock hle rfl heof hbrace
    have hlength := htaken.length
    generalize recorded (statement n) synchronizeInBlock s = r at hgoes hlength ⊢
    have hothers := ih (by omega) (show r.2.rest.length ≤ b by omega)
    generalize blockRule (statement n) b r.2 = x at hothers ⊢
    cases hothers with
    | ok hothers => exact .ok (hF.trans hgoes hothers)
    | error hfails => exact .error (hF.behind hgoes hfails)

private theorem goesBy_form (hF : Recovering F) (hexpr : Spots (n + 1) expr)
    (hbody : GoesBy F n (statement n)) : GoesBy F (n + 1) (form expr (statement n) n) := by
  have hexpr' := hexpr.mono (Nat.le_succ n)
  refine goesBy_peek_bind hF fun t ↦ ?_
  split
  · next hk => exact .lift hF (spotsAt_writeRule hexpr (kind_ne_eof_of_keyword hk) _)
  · next hk => exact .lift hF (spotsAt_writeRule hexpr (kind_ne_eof_of_keyword hk) _)
  · next hk => exact .lift hF (spotsAt_readRule (kind_ne_eof_of_keyword hk) _)
  · next hk => exact .lift hF (spotsAt_readRule (kind_ne_eof_of_keyword hk) _)
  · next hk => exact .lift hF (spotsAt_declareRule hexpr (kind_ne_eof_of_keyword hk))
  · next hk =>
    refine .take_bind hF (kind_ne_eof_of_symbol hk) ?_
    exact (goesBy_blockRule hF hbody (Nat.le_refl n)).bind hF fun _ ↦ .pure hF _
  · next hk => exact goesByAt_ifRule hF hexpr' hbody (kind_ne_eof_of_keyword hk)
  · next hk => exact goesByAt_whileRule hF hexpr' hbody (kind_ne_eof_of_keyword hk)
  · next hk => exact goesByAt_forRule hF hexpr' hbody (kind_ne_eof_of_keyword hk)
  · next hk => exact goesByAt_repeatRule hF hexpr' hbody (kind_ne_eof_of_keyword hk)
  · next hk => exact .lift hF (spotsAt_jumpRule (kind_ne_eof_of_keyword hk) _)
  · next hk => exact .lift hF (spotsAt_jumpRule (kind_ne_eof_of_keyword hk) _)
  · split
    · rintro ⟨_ | ⟨t, ts⟩, found⟩ ⟨_, ⟨⟩⟩
      exact .error (hF.failsHere (.next rfl))
    · exact .lift hF (spots_expressionRule hexpr).spotsAt

/-- **Every statement** goes on as `F` says, whatever `F` is. -/
theorem goesBy_statement (hF : Recovering F) (n : Nat) : GoesBy F n (statement n) := by
  induction n with
  | zero => exact .of_nil hF (statement_nil 0)
  | succ n ih => exact goesBy_form hF (Expr.spots_expression (n + 1)) ih

theorem goesBy_parse (hF : Recovering F) (n : Nat) : GoesBy F n Stmt.parse :=
  fun s _ ↦ goesBy_statement hF s.rest.length (Nat.le_refl _)

theorem goesBy_parseBlock (hF : Recovering F) (line n : Nat) : GoesBy F n (parseBlock line) := by
  intro s _
  have hblock := goesBy_blockRule hF (goesBy_statement hF s.rest.length) (Nat.le_refl _)
    (Nat.le_refl s.rest.length)
  rw [parseBlock]
  generalize blockRule (statement s.rest.length) s.rest.length s = x at hblock ⊢
  rcases hblock with hgoes | hfails
  · exact .ok hgoes
  · exact .error hfails

end Stmt

/-- **Every program** goes on as `F` says. -/
theorem goesBy_programRule {F : Progress → Progress → Prop} (hF : Recovering F) {n b : Nat}
    {s : Progress} (hb : s.rest.length ≤ b) (hn : s.rest.length ≤ n) :
    F s (programRule (Stmt.statement n) b s).2 := by
  induction b generalizing s with
  | zero => exact hF.refl s
  | succ b ih =>
    rcases hs : s.rest with _ | ⟨t, ts⟩
    · rw [programRule, hs]
      exact hF.refl s
    · rw [programRule, hs]
      dsimp only
      split
      · exact hF.refl s
      · next ht =>
        have hgoes := Stmt.goesBy_recorded hF (Stmt.goesBy_statement hF n)
          Stmt.takenFrom_synchronize hn
        obtain ⟨j, hj, htaken⟩ := Stmt.taken_recorded_synchronize hn hs ht
        have hlength := htaken.length
        exact hF.trans hgoes (ih (by omega) (by omega))

/-! ## Errors one after the other -/

/-- Errors that are found from left to right, while tokens are taken from `ts` until `rest` is
left. -/
inductive Trail : List Token → List ParseError → List Token → Prop where
  | nil {ts rest : List Token} : TakenFrom ts rest → Trail ts [] rest
  /-- A rule that began at `start` found an error and stopped. -/
  | cons {ts start stop rest : List Token} {e : ParseError} {errors : List ParseError} :
    TakenFrom ts start → TakenFrom start stop → FoundAt start stop e → Trail stop errors rest →
    Trail ts (e :: errors) rest

namespace Trail

variable {ts mid rest : List Token} {errors more : List ParseError}

theorem takenFrom (h : Trail ts errors rest) : TakenFrom ts rest := by
  induction h with
  | nil htaken => exact htaken
  | cons hstart hstop _ _ ih => exact (hstart.trans hstop).trans ih

theorem behind (h : TakenFrom ts mid) (h' : Trail mid errors rest) : Trail ts errors rest := by
  cases h' with
  | nil htaken => exact .nil (h.trans htaken)
  | cons hstart hstop he hrest => exact .cons (h.trans hstart) hstop he hrest

theorem trans (h : Trail ts errors mid) (h' : Trail mid more rest) :
    Trail ts (errors ++ more) rest := by
  induction h with
  | nil htaken => exact h'.behind htaken
  | cons hstart hstop he _ ih => exact .cons hstart hstop he (ih h')

end Trail

/-- From one state of parsing to a later one, errors have been found from left to right. -/
def Follows (s r : Progress) : Prop :=
  ∃ errors, r.found = s.found ++ errors ∧ Trail s.rest errors r.rest

theorem Follows.trans {s r q : Progress} (h : Follows s r) (h' : Follows r q) : Follows s q := by
  obtain ⟨errors, hfound, htrail⟩ := h
  obtain ⟨more, hmore, htrail'⟩ := h'
  exact ⟨errors ++ more, by rw [hmore, hfound, List.append_assoc], htrail.trans htrail'⟩

theorem recovering_follows : Recovering Follows where
  refl s := ⟨[], (List.append_nil _).symm, .nil (.refl _)⟩
  trans h h' := h.trans h'
  length_le := by
    rintro s r ⟨_, _, htrail⟩
    exact htrail.takenFrom.length_le
  taken h found := ⟨[], (List.append_nil _).symm, .nil h⟩
  record := by
    rintro n s r e rest - - ⟨mid, hmid, hfound, htaken, hat⟩ hskip
    refine hmid.trans ⟨[e], ?_, .cons (.refl _) htaken hat (.nil hskip)⟩
    rw [hfound]

/-- **A program** finds its errors from left to right. -/
theorem trail_parseAll (tokens : List Token) :
    Trail tokens (parseAll tokens).2.found (parseAll tokens).2.rest := by
  obtain ⟨errors, hfound, htrail⟩ : Follows ⟨tokens, []⟩ (parseAll tokens).2 :=
    goesBy_programRule recovering_follows (Nat.le_refl _) (Nat.le_refl _)
  rw [hfound]
  exact htrail

end BlockScript
