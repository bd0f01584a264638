import BlockScript.Proofs.Expr.Levels
import BlockScript.Proofs.Program.ErrorOrder
import BlockScript.Proofs.Stmt.Resuming

/-!
# A missing semicolon

The errors of a list of tokens are those of its first statement and then those of the tokens where
parsing is resumed. So what becomes of the errors behind a statement without its semicolon is
decided by the tokens that are skipped. The first of them is the token at which the semicolon was
missed, and it is skipped even if a statement begins with it.

That statement is then passed over up to a boundary. Where it is a whole statement nothing is lost
by it, because there was nothing in it to report. Otherwise its errors go with it.
-/

namespace BlockScript

/-! ## One round of the loop over statements -/

namespace Stmt

open BlockScript.Expr (Spells)

/-- **A statement that lacks its semicolon**, and what the semicolon should stand behind: a value to
be written, a declaration or an expression. -/
inductive Unfinished : List Token → String → Prop
  | write {k : Token} {terminator : String} {w : List Token} {e : Expr} :
      k.kind.Writes terminator → Spells .assignment w e → Unfinished (k :: w) "value"
  | bare {k x : Token} {name : String} :
      k.kind = .keyword .let_ → x.kind = .name name → Unfinished [k, x] "variable declaration"
  | initialized {k x equals : Token} {name : String} {w : List Token} {e : Expr} :
      k.kind = .keyword .let_ → x.kind = .name name → equals.kind = .symbol .equals →
      Spells .assignment w e → Unfinished (k :: x :: equals :: w) "variable declaration"
  | expression {w : List Token} {e : Expr} :
      Spells .assignment w e → Unfinished w "expression"

variable {p q : List Token} {part : String} {t : Token}

theorem Unfinished.exists_head (h : Unfinished p part) :
    ∃ k w, p = k :: w ∧ k.kind ≠ .eof := by
  rcases h with @⟨k, _, w, _, hk, -⟩ | @⟨k, x, _, hk, -⟩ | @⟨k, x, equals, _, w, _, hk, -, -, -⟩ |
    hw
  · refine ⟨k, w, rfl, fun heof ↦ ?_⟩
    rw [heof] at hk
    cases hk
  · exact ⟨k, [x], rfl, Likeness.kind_ne_eof_of_keyword hk⟩
  · exact ⟨k, x :: equals :: w, rfl, Likeness.kind_ne_eof_of_keyword hk⟩
  · obtain ⟨k, w, rfl, -⟩ := Expr.Derives.exists_head hw
    exact ⟨k, w, rfl, Expr.Derives.kind_ne_eof hw k List.mem_cons_self⟩

end Stmt

open Stmt (Unfinished)

end BlockScript
