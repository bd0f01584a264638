import BlockScript.Proofs.Expr.Lockstep
import BlockScript.Proofs.Token.Finding

/-!
# Errors in expressions

Every rule for expressions finds its errors where it stops. Bounds are chosen as they are for two
rules in lockstep: a rule is never called on more tokens than its bound, so that it answers to run
out of tokens only where there are none.
-/

namespace BlockScript.Expr

open Likeness (kind_ne_eof_of_name kind_ne_eof_of_symbol)

variable {n : Nat} {nested : Parse Expr}

private theorem spots_primary (h : Spots n nested) : Spots (n + 1) (primary nested) := by
  refine spots_peek_bind fun t ↦ ?_
  split
  · next v hv =>
    refine .take_bind_succ (fun heof ↦ ?_) (.pure _)
    rw [heof] at hv
    cases hv
  · next s _ hs => exact .take_bind_succ (kind_ne_eof_of_name hs) (.pure _)
  · next hleft =>
    refine .take_bind_succ (kind_ne_eof_of_symbol hleft) ?_
    exact h.bind fun inner ↦ (spots_expect _ _).bind fun _ ↦ .pure _
  · exact .throw trivial

private theorem spots_prefixed (h : Spots n nested) {b : Nat} (hb : b ≤ n + 1) :
    Spots b (prefixed nested b) := by
  induction b with
  | zero => exact .of_nil (prefixed_nil nested 0)
  | succ b ih =>
    refine spots_peek_bind fun t ↦ ?_
    split
    · next op hop =>
      refine .take_bind_succ (fun heof ↦ ?_) ((ih (by omega)).bind fun _ ↦ .pure _)
      rw [heof] at hop
      cases hop
    · exact ((spots_primary h).mono hb).spotsAt

private theorem spots_chain {operand : Parse Expr} (r : Rank) (h : Spots n operand) {b : Nat}
    (hb : b ≤ n) (left : Expr) : Spots b (chain r operand b left) := by
  induction b generalizing left with
  | zero => exact .pure left
  | succ b ih =>
    rintro (_ | ⟨t, ts⟩) hts
    · rw [chain_nil]
      exact .ok (.refl [])
    rcases hnode : r.join? t.kind with _ | node
    · rw [chain_cons_of_none hnode]
      exact .ok (.refl _)
    · have hne : t.kind ≠ .eof := by
        intro heof
        rw [heof] at hnode
        cases hnode
      rw [chain_cons_of_some hnode]
      exact ((h.mono (by omega)).bind fun right ↦ ih (by omega) _).behind hne hts

private theorem spots_ladder (h : Spots n nested) {b : Nat} (hb : b ≤ n + 1) (ranks : List Rank) :
    Spots b (ladder nested b ranks) := by
  induction ranks with
  | nil => exact spots_prefixed h hb
  | cons r tighter ih => exact ih.bind fun first ↦ spots_chain r ih (Nat.le_refl b) first

private theorem spots_assignment (h : Spots n nested) :
    Spots (n + 1) (assignment nested (n + 1)) := by
  refine (spots_ladder h (Nat.le_refl _) _).bind fun target ↦ ?_
  rintro (_ | ⟨t, ts⟩) hts
  · exact .ok (.refl [])
  by_cases ht : t.kind = .symbol .equals
  · have haccept : Parse.accept? (.symbol .equals) (t :: ts) = .ok (some t) ts := if_pos ht
    have hone := TakenFrom.one (kind_ne_eof_of_symbol ht) ts
    have hvalue := h (Nat.le_of_succ_le_succ hts)
    rw [bind_of_ok haccept]
    dsimp only
    rcases hrun : nested ts with ⟨value, rest⟩ | ⟨e, rest⟩
    · rw [hrun] at hvalue
      obtain htaken | _ := hvalue
      rw [bind_of_ok hrun]
      split
      · exact .ok (hone.trans htaken)
      · exact .error ⟨hone.trans htaken, .target ht (.refl _) htaken⟩
    · rw [hrun] at hvalue
      obtain _ | ⟨htaken, he⟩ := hvalue
      rw [bind_of_error hrun]
      exact .error ⟨hone.trans htaken, he.behind hone⟩
  · have haccept : Parse.accept? (.symbol .equals) (t :: ts) = .ok none (t :: ts) := if_neg ht
    rw [bind_of_ok haccept]
    exact .ok (.refl _)

/-- **Every expression** finds its errors where it stops. -/
theorem spots_expression (n : Nat) : Spots n (expression n) := by
  induction n with
  | zero => exact .of_nil (expression_nil 0)
  | succ n ih => exact spots_assignment ih

/-- **Every level** does, on any tokens, since it takes as many for its bound as there are. -/
theorem spots_parse (level : Level) (n : Nat) : Spots n (parse level) := by
  intro ts _
  have hnested := spots_expression ts.length
  rcases level with _ | r | _ | _
  · exact hnested (Nat.le_refl _)
  · exact spots_ladder hnested (Nat.le_succ _) _ (Nat.le_refl _)
  · exact spots_prefixed hnested (Nat.le_succ _) (Nat.le_refl _)
  · exact spots_primary hnested (Nat.le_succ _)

end BlockScript.Expr
