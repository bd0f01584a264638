/-!
# Operators

Operators are sorted by what they do with their operands. Arithmetic and comparison evaluate both
operands and then look at the values; the logical connectives may skip the right operand, so they
are no operations on values at all.
-/

namespace BlockScript

inductive UnaryOp where
  | negate
  | not
deriving DecidableEq, Repr

inductive ArithOp where
  | add | sub | mul | div | mod
deriving DecidableEq, Repr

inductive CompareOp where
  | less | greater | lessEqual | greaterEqual | equal | notEqual
deriving DecidableEq, Repr

/-- Operators that need the values of both operands. -/
inductive BinaryOp where
  | arith (op : ArithOp)
  | compare (op : CompareOp)
deriving DecidableEq, Repr

/-- Connectives that evaluate the right operand only if the left one leaves the answer open. -/
inductive LogicOp where
  | and | or
deriving DecidableEq, Repr

def UnaryOp.spelling : UnaryOp → String
  | negate => "-"
  | not => "not"

def ArithOp.spelling : ArithOp → String
  | add => "+"
  | sub => "-"
  | mul => "*"
  | div => "/"
  | mod => "%"

def CompareOp.spelling : CompareOp → String
  | less => "<"
  | greater => ">"
  | lessEqual => "<="
  | greaterEqual => ">="
  | equal => "=="
  | notEqual => "!="

def BinaryOp.spelling : BinaryOp → String
  | arith op => op.spelling
  | compare op => op.spelling

def LogicOp.spelling : LogicOp → String
  | and => "and"
  | or => "or"

end BlockScript
