import BlockScript.Proofs.Expr.Lines
import BlockScript.Proofs.Token.Lockstep

/-!
# Rules for expressions in lockstep

On lists of tokens that look alike, the rule of each level gives trees that are equal but for their
lines. The bounds of the two sides need not be equal. A rule is only ever called on fewer tokens
than its bound, or on as many, and behind a token that has been taken both the bound and the number
of tokens are smaller by one. So the bound is reached exactly where the tokens are, and there the
answer is that of running out of tokens.

Every expression takes at least one token.
-/

namespace BlockScript

namespace Likeness

/-- Trees that are equal but for their lines. -/
def SameExpr (L : Likeness) (e e' : Expr) : Prop := e.mapLines L.line = e'.mapLines L.line

end Likeness

namespace Expr

open Likeness

variable {L : Likeness} {n m : Nat} {nested nested' : Parse Expr}

private theorem steps_primary (h : L.Steps n m 1 L.SameExpr nested nested') :
    L.Steps (n + 1) (m + 1) 1 L.SameExpr (primary nested) (primary nested') := by
  refine steps_peek_bind fun t t' hsame ↦ ?_
  have hline := hsame.line
  rw [← hsame.kind]
  split
  · next v hv =>
    refine .take_bind_succ (fun heof ↦ ?_) ?_
    · rw [heof] at hv
      cases hv
    · exact .pure (congrArg (literal v) hline)
  · next s _ hs =>
    refine .take_bind_succ (kind_ne_eof_of_name hs) ?_
    exact .pure (congrArg (var s) hline)
  · next hleft =>
    refine .take_bind_succ (kind_ne_eof_of_symbol hleft) ?_
    refine h.bind fun inner inner' hinner ↦ (steps_expect _ _).bind fun _ _ _ ↦ ?_
    exact .pure (by rw [SameExpr, mapLines, mapLines, hinner, hline])
  · exact (Steps.throw (hsame.error _)).stepsAt

theorem prefixed_nil (nested : Parse Expr) (bound : Nat) :
    prefixed nested bound [] = .error .exhausted [] := by
  cases bound <;> rfl

private theorem steps_prefixed (h : L.Steps n m 1 L.SameExpr nested nested') {b b' : Nat}
    (hb : b ≤ n + 1) (hb' : b' ≤ m + 1) :
    L.Steps b b' 1 L.SameExpr (prefixed nested b) (prefixed nested' b') := by
  induction b generalizing b' with
  | zero => exact .of_nil (prefixed_nil _ _) (prefixed_nil _ _) (.inl rfl)
  | succ b ih =>
    cases b' with
    | zero => exact .of_nil (prefixed_nil _ _) (prefixed_nil _ _) (.inr rfl)
    | succ b' =>
      refine steps_peek_bind fun t t' hsame ↦ ?_
      rw [← hsame.kind]
      split
      · next op hop =>
        refine .take_bind_succ (fun heof ↦ ?_) ?_
        · rw [heof] at hop
          cases hop
        · refine (ih (by omega) (by omega)).bind fun arg arg' harg ↦ ?_
          exact .pure (by rw [SameExpr, mapLines, mapLines, harg, hsame.line])
      · exact ((steps_primary h).mono hb hb' (Nat.le_refl 1)).stepsAt

private theorem sameExpr_node {r : Rank} {kind : TokenKind} {node : Expr → Expr → Nat → Expr}
    (h : r.Joins kind node) {a a' b b' : Expr} {line line' : Nat} (ha : L.SameExpr a a')
    (hb : L.SameExpr b b') (hline : L.line line = L.line line') :
    L.SameExpr (node a b line) (node a' b' line') := by
  rw [SameExpr, h.mapLines, h.mapLines, ha, hb, hline]

theorem chain_nil (r : Rank) (operand : Parse Expr) (bound : Nat) (left : Expr) :
    chain r operand bound left [] = .ok left [] := by
  cases bound <;> rfl

theorem chain_cons_of_none {r : Rank} {t : Token} (h : r.join? t.kind = none)
    (operand : Parse Expr) (bound : Nat) (left : Expr) (ts : List Token) :
    chain r operand (bound + 1) left (t :: ts) = .ok left (t :: ts) := by
  rw [chain]
  dsimp only
  rw [h]

theorem chain_cons_of_some {r : Rank} {t : Token} {node : Expr → Expr → Nat → Expr}
    (h : r.join? t.kind = some node) (operand : Parse Expr) (bound : Nat) (left : Expr)
    (ts : List Token) :
    chain r operand (bound + 1) left (t :: ts) =
      (operand >>= fun right ↦ chain r operand bound (node left right t.line)) ts := by
  rw [chain]
  dsimp only
  rw [h]
  dsimp only
  rcases hoperand : operand ts with ⟨right, rest⟩ | ⟨e, rest⟩
  · rw [bind_of_ok hoperand]
  · rw [bind_of_error hoperand]

private theorem steps_chain {operand operand' : Parse Expr} (r : Rank)
    (h : L.Steps n m 1 L.SameExpr operand operand') {b b' : Nat} (hb : b ≤ n) (hb' : b' ≤ m)
    {left left' : Expr} (hleft : L.SameExpr left left') :
    L.Steps b b' 0 L.SameExpr (chain r operand b left) (chain r operand' b' left') := by
  induction b generalizing b' left left' with
  | zero =>
    intro ts ts' hready
    obtain ⟨rfl, rfl⟩ | ⟨t, ts, t', ts', rfl, rfl⟩ := hready.alike.nil_or_cons
    · rw [chain_nil, chain_nil]
      exact .ok hleft (.refl .nil)
    · exact absurd hready.pos.1 (Nat.lt_irrefl 0)
  | succ b ih =>
    intro ts ts' hready
    obtain ⟨rfl, rfl⟩ | ⟨t, ts, t', ts', rfl, rfl⟩ := hready.alike.nil_or_cons
    · rw [chain_nil, chain_nil]
      exact .ok hleft (.refl .nil)
    obtain ⟨b', rfl⟩ := Nat.exists_eq_add_one.mpr hready.pos.2
    have hsame := hready.alike.same
    rcases hnode : r.join? t.kind with _ | node
    · rw [chain_cons_of_none hnode, chain_cons_of_none (hsame.kind ▸ hnode)]
      exact .ok hleft (.refl hready.alike)
    · have hne : t.kind ≠ .eof := by
        intro heof
        rw [heof] at hnode
        cases hnode
      have hrest : L.Steps b b' 0 L.SameExpr
          (operand >>= fun right ↦ chain r operand b (node left right t.line))
          (operand' >>= fun right ↦ chain r operand' b' (node left' right t'.line)) := by
        refine (h.mono (by omega) (by omega) (Nat.zero_le 1)).bind fun right right' hright ↦ ?_
        exact ih (by omega) (by omega)
          (sameExpr_node (Rank.join?_eq_some_iff.mp hnode) hleft hright hsame.line)
      rw [chain_cons_of_some hnode, chain_cons_of_some (hsame.kind ▸ hnode)]
      exact (hrest.behind hne hready).mono (fun _ _ h ↦ h) (fun _ _ h ↦ h.mono (Nat.zero_le _))
        fun _ _ h ↦ h

private theorem steps_ladder (h : L.Steps n m 1 L.SameExpr nested nested') {b b' : Nat}
    (hb : b ≤ n + 1) (hb' : b' ≤ m + 1) (ranks : List Rank) :
    L.Steps b b' 1 L.SameExpr (ladder nested b ranks) (ladder nested' b' ranks) := by
  induction ranks with
  | nil => exact steps_prefixed h hb hb'
  | cons r tighter ih =>
    exact ih.bind_left fun first first' hfirst ↦
      steps_chain r ih (Nat.le_refl b) (Nat.le_refl b') hfirst

/-- A variable looks like a variable only. -/
theorem exists_var_of_sameExpr {s : String} {line : Nat} {e : Expr}
    (h : L.SameExpr (var s line) e) : ∃ line', e = var s line' := by
  cases e with
  | var s' line' =>
    obtain ⟨rfl, -⟩ := var.inj h
    exact ⟨line', rfl⟩
  | _ => nomatch h

private theorem steps_assignment (h : L.Steps n m 1 L.SameExpr nested nested') :
    L.Steps (n + 1) (m + 1) 1 L.SameExpr (assignment nested (n + 1))
      (assignment nested' (m + 1)) := by
  have hladder := steps_ladder h (Nat.le_refl _) (Nat.le_refl _)
  refine (hladder _).bind_left fun target target' htarget ↦ ?_
  refine steps_accept?_bind (by nofun) (fun equals equals' hsame ↦ ?_) ?_
  · refine h.bind fun value value' hvalue ↦ ?_
    split
    · next s line =>
      obtain ⟨line', rfl⟩ := exists_var_of_sameExpr htarget
      exact .pure (by rw [SameExpr, mapLines, mapLines, hvalue, hsame.line])
    · next hvar =>
      split
      · next s line =>
        obtain ⟨line', rfl⟩ := exists_var_of_sameExpr htarget.symm
        exact absurd rfl (hvar s line')
      · exact .throw (hsame.error _)
  · exact .pure htarget

theorem expression_nil (bound : Nat) : expression bound [] = .error .exhausted [] := by
  cases bound <;> rfl

/-- **Expressions in lockstep.** -/
theorem steps_expression (n m : Nat) :
    L.Steps n m 1 L.SameExpr (expression n) (expression m) := by
  induction n generalizing m with
  | zero => exact .of_nil (expression_nil _) (expression_nil _) (.inl rfl)
  | succ n ih =>
    cases m with
    | zero => exact .of_nil (expression_nil _) (expression_nil _) (.inr rfl)
    | succ m => exact steps_assignment (ih m)

/-- **The rules of all levels in lockstep**, with as many tokens for bounds as there are. -/
theorem inStep_parse (level : Level) :
    InStep L.Alike (L.Lockstep 1) (L.Lockstep 0) L.SameError L.SameExpr (parse level)
      (parse level) := by
  intro ts ts' halike
  have hready : L.Ready ts.length ts'.length ts ts' :=
    ⟨halike, Nat.le_refl _, Nat.le_refl _⟩
  have hnested := steps_expression (L := L) ts.length ts'.length
  have hle := Nat.le_succ ts.length
  have hle' := Nat.le_succ ts'.length
  cases level with
  | assignment => exact hnested hready
  | rank r => exact steps_ladder hnested hle hle' _ hready
  | unary => exact steps_prefixed hnested hle hle' hready
  | primary => exact steps_primary hnested (hready.mono hle hle')

end Expr

end BlockScript
