import BlockScript.Stmt

/-!
# Runtime errors

An error is a cause and the line it is reported on. Operations on values know the cause only; the
expression or statement that applies them adds its line.
-/

namespace BlockScript

inductive StreamFault where
  /-- The output took only a part of what was written. -/
  | incompleteWrite
  | flush
  /-- A line of the input is no text. -/
  | invalidText
deriving DecidableEq, Repr

def StreamFault.details : StreamFault → String
  | incompleteWrite => "failed to write whole buffer"
  | flush => "flush failed"
  | invalidText => "stream did not contain valid UTF-8"

inductive Cause where
  | undefinedVariable (name : String)
  | operandNotNumber
  | operandsNotNumbers
  /-- A sum of anything but two numbers or two texts. -/
  | invalidAddition
  /-- A text times something that does not count. -/
  | invalidRepetition
  | textTooLarge
  | divisionByZero
  | moduloByZero
  | invalidRepeatCount
  | strayJump (kind : Jump)
  | invalidNumberInput (input : String)
  | inputFailure (fault : StreamFault)
  | outputFailure (fault : StreamFault)
deriving DecidableEq, Repr

structure RuntimeError where
  cause : Cause
  line : Nat
deriving DecidableEq, Repr

def Cause.message : Cause → String
  | undefinedVariable name => s!"Undefined variable '{name}'."
  | operandNotNumber => "Operand must be a number."
  | operandsNotNumbers => "Operands must be numbers."
  | invalidAddition => "Operands must be two numbers or two strings."
  | invalidRepetition => "String can only be multiplied by int."
  | textTooLarge => "String too large."
  | divisionByZero => "Division by zero."
  | moduloByZero => "Modulo by zero."
  | invalidRepeatCount => "Expected integer after 'for'."
  | strayJump kind => s!"'{kind.spelling}' must be inside a loop."
  | invalidNumberInput input => s!"Invalid number input '{input}'."
  | inputFailure fault => s!"Invalid input: {fault.details}."
  | outputFailure fault => s!"Output failure: {fault.details}."

def RuntimeError.message (e : RuntimeError) : String :=
  s!"Error on line {e.line}: {e.cause.message}"

end BlockScript
