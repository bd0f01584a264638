import BlockScript.Proofs.Expr.Lockstep
import BlockScript.Proofs.Token.Border

/-!
# Expressions in front of a border

No expression begins with a token at a border, and none goes on with one. So on every level the rule
fails on such a token if it is the first (`refuses_expression`) and stops in front of it if it is
met later.
-/

namespace BlockScript.Expr

open Border

variable {B : Border} {n : Nat} {nested : Parse Expr}

private theorem join?_of_isBorder {kind : TokenKind} (h : kind.isBorder = true) (r : Rank) :
    r.join? kind = none := by
  obtain rfl | rfl | rfl := TokenKind.isBorder_cases h <;> rfl

/-! ## Errors at the border -/

private theorem refuses_primary (nested : Parse Expr) :
    Refuses .expectedExpression (primary nested) := by
  refine .peek_bind fun t ts ht ↦ ?_
  obtain h | h | h := TokenKind.isBorder_cases ht <;> rw [h] <;> rfl

private theorem refuses_prefixed (nested : Parse Expr) (b : Nat) :
    Refuses .expectedExpression (prefixed nested (b + 1)) := by
  refine .peek_bind fun t ts ht ↦ ?_
  obtain h | h | h := TokenKind.isBorder_cases ht <;> rw [h] <;> exact refuses_primary nested ht

private theorem refuses_ladder (nested : Parse Expr) (b : Nat) (ranks : List Rank) :
    Refuses .expectedExpression (ladder nested (b + 1) ranks) := by
  induction ranks with
  | nil => exact refuses_prefixed nested b
  | cons r tighter ih => exact ih.bind

theorem refuses_expression (n : Nat) : Refuses .expectedExpression (expression (n + 1)) :=
  (refuses_ladder _ _ _).bind

/-! ## Rules -/

private theorem heeds_primary (h : B.Heeds n nested) : B.Heeds (n + 1) (primary nested) := by
  refine heeds_of_refuses rfl (refuses_primary nested) fun t ht ↦ .peek_bind ?_
  split
  · exact .take_bind_succ ht (.pure _)
  · exact .take_bind_succ ht (.pure _)
  · exact .take_bind_succ ht (h.bind fun _ ↦ (heeds_expect rfl _).bind fun _ ↦ .pure _)
  · exact .throw ht _

private theorem heeds_prefixed (h : B.Heeds n nested) {b : Nat} (hb : b ≤ n + 1) :
    B.Heeds b (prefixed nested b) := by
  induction b with
  | zero => exact .of_nil rfl
  | succ b ih =>
    refine heeds_of_refuses rfl (refuses_prefixed nested b) fun t ht ↦ .peek_bind ?_
    split
    · exact .take_bind_succ ht ((ih (by omega)).bind fun _ ↦ .pure _)
    · exact ((heeds_primary h).mono hb).heedsAt

private theorem heeds_chain {operand : Parse Expr} (r : Rank) (h : B.Heeds n operand) {b : Nat}
    (hb : b ≤ n) (left : Expr) : B.Heeds b (chain r operand b left) := by
  induction b generalizing left with
  | zero => exact .pure left
  | succ b ih =>
    rintro ts ts' ⟨hnear, hlength⟩
    cases hnear with
    | outer houter =>
      obtain ⟨rfl, rfl⟩ | ⟨t, rest, t', rest', rfl, rfl, ht, ht'⟩ := B.outer_nil_or_cons houter
      · rw [chain_nil]
        exact .ok rfl (.refl (.outer houter))
      · rw [chain_cons_of_none (join?_of_isBorder ht r),
          chain_cons_of_none (join?_of_isBorder ht' r)]
        exact .ok rfl (.refl (.outer houter))
    | @inner t ts ts' ht hts =>
      rcases hnode : r.join? t.kind with _ | node
      · rw [chain_cons_of_none hnode, chain_cons_of_none hnode]
        exact .ok rfl (.refl (.inner ht hts))
      · rw [chain_cons_of_some hnode, chain_cons_of_some hnode]
        exact ((h.mono (by omega)).bind fun _ ↦ ih (by omega) _).behind ht
          ⟨.inner ht hts, hlength⟩

private theorem heeds_ladder (h : B.Heeds n nested) {b : Nat} (hb : b ≤ n + 1) (ranks : List Rank) :
    B.Heeds b (ladder nested b ranks) := by
  induction ranks with
  | nil => exact heeds_prefixed h hb
  | cons r tighter ih => exact ih.bind fun first ↦ heeds_chain r ih (Nat.le_refl b) first

private theorem heeds_assignment (h : B.Heeds n nested) :
    B.Heeds (n + 1) (assignment nested (n + 1)) := by
  refine (heeds_ladder h (Nat.le_refl _) _).bind fun target ↦ ?_
  refine heeds_accept?_bind rfl (fun equals hequals ↦ h.bind fun value ↦ ?_) (.pure target)
  split
  · exact .pure _
  · exact InStep.throw (fun _ _ hts ↦ .refl hts.1) (.inner hequals)

/-- **Expressions in front of a border.** -/
theorem heeds_expression (n : Nat) : B.Heeds n (expression n) := by
  induction n with
  | zero => exact .of_nil rfl
  | succ n ih => exact heeds_assignment ih

end BlockScript.Expr
