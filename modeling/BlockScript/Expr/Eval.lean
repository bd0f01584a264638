import BlockScript.Environment
import BlockScript.Value.Operation

/-!
# Evaluation of expressions

Evaluation reads and assigns variables and does nothing else: it has no access to input and output
at all. Operands are evaluated from left to right, and what has been assigned before an error stays
assigned.
-/

namespace BlockScript

abbrev Eval := EStateM RuntimeError Environment

namespace Eval

/-- Reports the cause of a failed operation on a line. -/
def onLine {α : Type} (line : Nat) : Except Cause α → Eval α
  | .ok a => pure a
  | .error cause => throw ⟨cause, line⟩

def lookup (name : String) (line : Nat) : Eval Value := fun env ↦
  match env.get? name with
  | some value => .ok value env
  | none => .error ⟨.undefinedVariable name, line⟩ env

def assign (name : String) (value : Value) (line : Nat) : Eval Unit := fun env ↦
  match env.assign? name value with
  | some env => .ok () env
  | none => .error ⟨.undefinedVariable name, line⟩ env

end Eval

/-- Whether the value of the left operand is already that of the connective. -/
def LogicOp.decidedBy : LogicOp → Value → Bool
  | and, v => !v.truthy
  | or, v => v.truthy

def Expr.eval [Memory] : Expr → Eval Value
  | literal value _ => pure value
  | group inner _ => inner.eval
  | unary op operand line => do
    let v ← operand.eval
    Eval.onLine line (op.apply v)
  | binary left op right line => do
    let a ← left.eval
    let b ← right.eval
    Eval.onLine line (op.apply a b)
  | logical left op right _ => do
    let a ← left.eval
    if op.decidedBy a then return a else right.eval
  | var name line => Eval.lookup name line
  | assign name value line => do
    let v ← value.eval
    Eval.assign name v line
    return v

end BlockScript
