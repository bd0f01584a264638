import BlockScript.Expr.Eval
import BlockScript.Proofs.Expr.Grammar
import BlockScript.Proofs.Outcome

/-!
# Lines of expressions carry no meaning

Lines are taken from tokens into trees and from trees into errors, and nothing decides on them in
between. So the lines can be exchanged at any of the three stages: tokens with other lines derive
the tree with other lines, and that tree has the same values and fails with the same errors on other
lines.

The grammar does not look at the texts of tokens either. What is exchanged there is therefore any
function on tokens that keeps kinds and acts on lines (`Relabels`).
-/

namespace BlockScript

variable {f : Nat → Nat} {g : Token → Token}

/-- The same expression on other lines. -/
def Expr.mapLines (f : Nat → Nat) : Expr → Expr
  | literal value line => literal value (f line)
  | group inner line => group (inner.mapLines f) (f line)
  | unary op operand line => unary op (operand.mapLines f) (f line)
  | binary left op right line => binary (left.mapLines f) op (right.mapLines f) (f line)
  | logical left op right line => logical (left.mapLines f) op (right.mapLines f) (f line)
  | var name line => var name (f line)
  | assign name value line => assign name (value.mapLines f) (f line)

def RuntimeError.mapLine (f : Nat → Nat) (e : RuntimeError) : RuntimeError :=
  { e with line := f e.line }

/-! ## Derivation -/

/-- A token goes to one of its kind, and its line goes where `f` says. -/
structure Relabels (g : Token → Token) (f : Nat → Nat) : Prop where
  /-- Kinds are kept. -/
  kind (t : Token) : (g t).kind = t.kind
  /-- Lines are moved. -/
  line (t : Token) : (g t).line = f t.line

theorem Rank.Joins.mapLines {r : Rank} {kind : TokenKind} {node : Expr → Expr → Nat → Expr}
    (h : r.Joins kind node) (a b : Expr) (line : Nat) :
    (node a b line).mapLines f = node (a.mapLines f) (b.mapLines f) (f line) := by
  cases h <;> rfl

namespace Expr

theorem Level.Stops.relabel (hg : Relabels g f) {level : Level} {next : List Token}
    (h : level.Stops next) : level.Stops (next.map g) := by
  rcases next with _ | ⟨t, next⟩
  · exact h
  · rintro _ ⟨⟩
    rw [hg.kind]
    exact h t rfl

theorem Derives.relabel (hg : Relabels g f) {level : Level} {w next : List Token} {e : Expr}
    (h : Derives Ends level w e next) :
      Derives Ends level (w.map g) (e.mapLines f) (next.map g) := by
  induction h with
  | @literal t v next hv =>
    rw [List.map_singleton, mapLines, ← hg.line]
    exact .literal (by rwa [hg.kind])
  | @var t s next hs =>
    rw [List.map_singleton, mapLines, ← hg.line]
    exact .var (by rwa [hg.kind])
  | @group left right w e next hl _ hend hr ih =>
    rw [List.map_append, List.map_cons, List.map_singleton, mapLines, ← hg.line]
    exact .group (by rwa [hg.kind]) ih (hend.relabel hg) (by rwa [hg.kind])
  | primary _ ih => exact .primary ih
  | @prefixed t op w e next hop _ ih =>
    rw [List.map_cons, mapLines, ← hg.line]
    exact .prefixed (by rwa [hg.kind]) ih
  | operand _ ih => exact .operand ih
  | @joined r t node w₁ w₂ a b next _ hop _ iha ihb =>
    rw [List.map_append, List.map_cons, hop.mapLines, ← hg.line]
    rw [List.map_append, List.map_cons] at iha
    exact .joined iha (by rwa [hg.kind]) ihb
  | value _ ih => exact .value ih
  | @assign t equals s w e next hs heq _ hend ih =>
    rw [List.map_cons, List.map_cons, mapLines, ← hg.line]
    exact .assign (by rwa [hg.kind]) (by rwa [hg.kind]) ih (hend.relabel hg)

end Expr

/-! ## Evaluation -/

namespace Eval

variable (f)

private theorem onLine_adaptExcept {α : Type} (line : Nat) (r : Except Cause α) :
    (onLine line r).adaptExcept (RuntimeError.mapLine f) = onLine (f line) r := by
  cases r <;> rfl

private theorem lookup_adaptExcept (name : String) (line : Nat) :
    (lookup name line).adaptExcept (RuntimeError.mapLine f) = lookup name (f line) := by
  funext env
  simp only [EStateM.adaptExcept, lookup]
  cases env.get? name <;> rfl

theorem assign_adaptExcept (name : String) (v : Value) (line : Nat) :
    (assign name v line).adaptExcept (RuntimeError.mapLine f) = assign name v (f line) := by
  funext env
  simp only [EStateM.adaptExcept, assign]
  cases env.assign? name v <;> rfl

end Eval

/-- **Errors move with the lines**, and all else stays. -/
theorem Expr.eval_mapLines [Memory] (f : Nat → Nat) (e : Expr) :
    (e.mapLines f).eval = e.eval.adaptExcept (RuntimeError.mapLine f) := by
  induction e with
  | literal value line => rfl
  | group inner line ih => exact ih
  | unary op operand line ih =>
    rw [mapLines, eval, eval, adaptExcept_bind, ih]
    simp only [Eval.onLine_adaptExcept]
  | binary left op right line ihl ihr =>
    rw [mapLines, eval, eval, adaptExcept_bind, ihl]
    simp only [adaptExcept_bind, ihr, Eval.onLine_adaptExcept]
  | logical left op right line ihl ihr =>
    rw [mapLines, eval, eval, adaptExcept_bind, ihl, ihr]
    congr 1
    funext a
    split <;> rfl
  | var name line => exact (Eval.lookup_adaptExcept f name line).symm
  | assign name value line ih =>
    rw [mapLines, eval, eval, adaptExcept_bind, ih]
    simp only [adaptExcept_bind, Eval.assign_adaptExcept, adaptExcept_pure]

end BlockScript
