import BlockScript.Operator
import BlockScript.Value

/-!
# Expressions

Each node carries the line that a runtime error at this node is reported on: the line of the token
that decides the node, which for an operator is the operator itself.
-/

namespace BlockScript

inductive Expr where
  | literal (value : Value) (line : Nat)
  | group (inner : Expr) (line : Nat)
  | unary (op : UnaryOp) (operand : Expr) (line : Nat)
  /-- An operator between two operands, both of which are evaluated. -/
  | binary (left : Expr) (op : BinaryOp) (right : Expr) (line : Nat)
  /-- A connective; its value is that of the operand that decides it. -/
  | logical (left : Expr) (op : LogicOp) (right : Expr) (line : Nat)
  | var (name : String) (line : Nat)
  /-- Gives an existing variable a value, which is also the value of the expression. -/
  | assign (name : String) (value : Expr) (line : Nat)
deriving DecidableEq, Inhabited

namespace Expr

def line : Expr → Nat
  | literal _ line | group _ line | unary _ _ line | binary _ _ _ line | logical _ _ _ line
  | var _ line | assign _ _ line => line

/-! ## Derived connectives

The remaining connectives have no nodes of their own. All nodes that stand for one of them carry
the line of its token. -/

def not (e : Expr) (line : Nat) : Expr := unary .not e line

def nor (a b : Expr) (line : Nat) : Expr := not (logical a .or b line) line

def nand (a b : Expr) (line : Nat) : Expr := not (logical a .and b line) line

/-- Exactly one of the two: `(a and not b) or (not a and b)`. Both operands occur twice, so an
operand with an effect may have it twice. -/
def xor (a b : Expr) (line : Nat) : Expr :=
  logical (logical a .and (not b line) line) .or (logical (not a line) .and b line) line

def xnor (a b : Expr) (line : Nat) : Expr := not (xor a b line) line

end Expr

end BlockScript
