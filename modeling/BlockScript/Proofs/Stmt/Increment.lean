import BlockScript.Proofs.Stmt.Jumps
import BlockScript.Proofs.Stmt.Scopes
import BlockScript.Proofs.Stmt.SpareScope

/-!
# The increment is the last step of a round

A loop with an increment runs like one without, whose body is a block of the old body and the
increment behind it. The two differ in the scopes around both parts: in the block, body and
increment run in a scope of their own. Nothing is declared in it, since the body is a block again,
so it can be left out (`Unscoped.inScope`), and the rounds of the two loops are the same
computation.

That a round may be left with a jump is why the body must not go on with the next one from where the
block would skip the increment. Leaving the loop skips it in both forms.
-/

namespace BlockScript

open Exec (Unscoped enter)

namespace Stmt

variable [Memory] {body : List Stmt} {line : Nat}

/-- A block of a block and an expression is the inner block, and the expression if that has finished
normally. -/
theorem exec_block_expression (fuel : Nat) (body : List Stmt) (e : Expr) (line line' line'' : Nat) :
    (block [block body line, expression e line'] line'').exec fuel = (do
      let flow ← (block body line).exec fuel
      match flow with
      | .normal =>
        let _ ← e.eval
        return .normal
      | .jump kind => return .jump kind) := by
  have hexpression : execAll fuel [expression e line'] = (do
      let _ ← e.eval
      return .normal) := by
    rw [execAll, exec, bind_assoc]
    rfl
  rw [exec, execAll, hexpression]
  refine Unscoped.inScope (.bind (.block fuel body line) fun flow ↦ ?_)
  rcases flow with _ | kind
  · exact .bind (.eval e) fun _ ↦ .pure _
  · exact .pure _

/-- **One round.** -/
theorem loopStep_increment {fuel : Nat}
    (h : OnlyReturns (· ≠ .jump .next) ((block body line).exec fuel)) (condition increment : Expr)
    (line' line'' : Nat) :
    loopStep condition ((block body line).exec fuel) (some increment) =
      loopStep condition
        ((block [block body line, expression increment line'] line'').exec fuel) none := by
  rw [exec_block_expression, loopStep, loopStep]
  refine bind_congr fun v ↦ ?_
  split
  · rw [bind_assoc]
    refine h.bind_congr fun flow hflow ↦ ?_
    rcases flow with _ | _ | _
    · rw [increase, bind_assoc, bind_assoc]
      rfl
    · rfl
    · exact absurd rfl hflow
  · rfl

/-! ## Where names are resolved to -/

/-- A block leaves every name on the level on which it was. -/
theorem level?_exec_block (fuel : Nat) (body : List Stmt) (line : Nat) (m : Machine) (x : String) :
    (stateAfter ((block body line).exec fuel m)).env.level? x = m.env.level? x := by
  have hblock : Respects (OnEnv (Environment.Extends [])) ((block body line).exec fuel) :=
    Stmt.exec_of_pervasive Exec.pervasive_extends fuel _ (List.Subset.refl _)
  exact (hblock m).sameNames.level? x

/-- So does a round whose body is one. -/
theorem level?_loopStep_block (fuel : Nat) (condition increment : Expr) (body : List Stmt)
    (line : Nat) (m : Machine) (x : String) :
    (stateAfter
      (loopStep condition ((block body line).exec fuel) (some increment) m)).env.level? x =
      m.env.level? x := by
  have hP := Exec.pervasive_extends
  have hstep : Respects (OnEnv (Environment.Extends []))
      (loopStep condition ((block body line).exec fuel) (some increment)) :=
    loopStep_of_closed (hP.closed []) (hP.eval [] condition fun _ _ ↦ trivial)
      (Stmt.exec_of_pervasive hP fuel _ (List.Subset.refl _))
      fun e _ ↦ hP.eval [] e fun _ _ ↦ trivial
  exact (hstep m).sameNames.level? x

end Stmt

open Stmt (loopStep)

/-- **The increment is the last step of a round.** Let the body of a loop be a block that goes on
with the next round only in loops of its own. Then the loop does what it does without an increment
and with the increment behind the body, in a block around both: with every bound it finishes in the
same way, on the same machine. And the body has no influence on what names stand for. Behind it,
where the increment is evaluated, they are resolved to the levels to which they were resolved in
front of the round, whether or not a block is around, and so they are behind the round, where the
condition is evaluated. -/
theorem increment_ends_round [Memory] {body : List Stmt} {line : Nat}
    (h : ∀ j ∈ (Stmt.block body line).jumps 0, j.kind = .next → 0 < j.loops)
    (condition increment : Expr) (fuel : Nat) (m : Machine) :
    (∀ line₁ line₂ line₃ line₄,
      (Stmt.loop condition (.block body line) (some increment) line₁).exec fuel m =
        (Stmt.loop condition (.block [.block body line, .expression increment line₂] line₃) none
          line₄).exec fuel m) ∧
    ∀ x,
      (stateAfter ((Stmt.block body line).exec fuel m)).env.level? x = m.env.level? x ∧
      (stateAfter ((Stmt.block body line).exec fuel (enter m))).env.level? x = m.env.level? x ∧
      (stateAfter (loopStep condition ((Stmt.block body line).exec fuel) (some increment)
        m)).env.level? x = m.env.level? x := by
  have hbody : OnlyReturns (· ≠ .jump .next) ((Stmt.block body line).exec fuel) := by
    refine Stmt.onlyReturns_exec (P := (· ≠ .jump .next)) nofun fuel fun j hj hloops hkind ↦ ?_
    have hpos := h j hj (Flow.jump.inj hkind)
    omega
  refine ⟨fun line₁ line₂ line₃ line₄ ↦ ?_, fun x ↦ ⟨Stmt.level?_exec_block fuel body line m x, ?_,
    Stmt.level?_loopStep_block fuel condition increment body line m x⟩⟩
  · have hstep := Stmt.loopStep_increment hbody condition increment line₂ line₃
    exact congrArg (fun step ↦ (Exec.loop step fuel >>= fun _ ↦ pure Flow.normal) m) hstep
  · rw [Stmt.level?_exec_block]
    exact m.env.level?_push x

open scoped Memory

/-- A body that declares the variable of the condition and of the increment, and goes on with the
next round in a loop of its own. -/
theorem increment_ends_round_hiding :
    let body : List Stmt := [.declare "x" none 1,
      .repeatUntil (.block [.jump .next 2] 2) (.literal (.bool true) 2) 2]
    let increment : Expr := .assign "x" (.literal (.bool false) 1) 1
    let m : Machine := { env := .define .initial "x" (.bool true) }
    (∀ j ∈ (Stmt.block body 1).jumps 0, j.kind = .next → 0 < j.loops) ∧
    (Stmt.loop (.var "x" 1) (.block body 1) (some increment) 1).exec 2 m =
      .ok .normal { env := .define .initial "x" (.bool false) } ∧
    (Stmt.loop (.var "x" 1) (.block [.block body 1, .expression increment 3] 1) none 1).exec 2 m =
      .ok .normal { env := .define .initial "x" (.bool false) } := by
  intro body increment m
  have hjumps : ∀ j ∈ (Stmt.block body 1).jumps 0, j.kind = .next → 0 < j.loops := by decide
  have hrun : (Stmt.loop (.var "x" 1) (.block body 1) (some increment) 1).exec 2 m =
      .ok .normal { env := .define .initial "x" (.bool false) } := rfl
  exact ⟨hjumps, hrun, ((increment_ends_round hjumps _ _ 2 m).1 1 3 1 1).symm.trans hrun⟩

end BlockScript
