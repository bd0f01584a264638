import BlockScript.Expr.Eval
import BlockScript.Input
import BlockScript.Number.Decimal
import BlockScript.Output
import BlockScript.Text.Blank

/-!
# The machine that statements run on

Statements see variables, what is left of the input, and the output. They run until they finish or
stop; a loop may also turn out to need more iterations than it was allowed, which is no error of
the program and is kept apart from errors.
-/

namespace BlockScript

structure Machine where
  env : Environment := .initial
  /-- Bytes not yet read. -/
  input : List UInt8 := []
  output : Output := {}

inductive Stop where
  | error (e : RuntimeError)
  /-- A loop was allowed too few iterations. -/
  | outOfFuel
deriving DecidableEq, Repr

/-- Computations on the machine. What they have done before they stop stays done. -/
abbrev Exec := EStateM Stop Machine

namespace Exec

/-- Evaluation is a computation that leaves input and output alone. -/
def ofEval {α : Type} (e : Eval α) : Exec α
  | ⟨env, input, output⟩ =>
    match e env with
    | .ok a env => .ok a ⟨env, input, output⟩
    | .error err env => .error (.error err) ⟨env, input, output⟩

instance : MonadLift Eval Exec := ⟨ofEval⟩

def define (name : String) (value : Value) : Exec Unit
  | ⟨env, input, output⟩ => .ok () ⟨env.define name value, input, output⟩

/-- Runs a computation in a scope of its own, which is left however it ends. -/
def inScope {α : Type} (body : Exec α) : Exec α
  | ⟨env, input, output⟩ =>
    match body ⟨env.push, input, output⟩ with
    | .ok a ⟨env, input, output⟩ => .ok a ⟨env.pop, input, output⟩
    | .error e ⟨env, input, output⟩ => .error e ⟨env.pop, input, output⟩

/-! ## Output -/

def write (value : Value) (terminator : String) (line : Nat) : Exec Unit
  | ⟨env, input, output⟩ =>
    match Output.emit (value.display ++ terminator) output with
    | .ok _ output => .ok () ⟨env, input, output⟩
    | .error fault output => .error (.error ⟨.outputFailure fault, line⟩) ⟨env, input, output⟩

/-! ## Input

The line is taken before anything is made of it, so it is gone even if it cannot be used. -/

def takeLine (line : Nat) : Exec (Option String)
  | ⟨env, input, output⟩ =>
    match Input.takeLine input with
    | .ok text input =>
      .ok (text.map fun s ↦ String.ofList (Input.chomp s.toList)) ⟨env, input, output⟩
    | .error fault input => .error (.error ⟨.inputFailure fault, line⟩) ⟨env, input, output⟩

/-- Gives a variable the next line, or nil at the end of the input. -/
def readLine (name : String) (line : Nat) : Exec Unit := do
  let text ← takeLine line
  Eval.assign name (text.elim .nil .text) line

/-- Gives a variable the number on the next line. The end of the input is no number. -/
def readNumber (name : String) (line : Nat) : Exec Unit := do
  let text := (← takeLine line).getD ""
  match Number.read? (Text.trim text.toList) with
  | some x => Eval.assign name (.number x) line
  | none => throw (.error ⟨.invalidNumberInput text, line⟩)

/-! ## Repetition -/

/-- Repeats a step as long as it asks for it, for at most `fuel` times. -/
def loop (step : Exec Bool) : Nat → Exec Unit
  | 0, m => .error .outOfFuel m
  | fuel + 1, m =>
    match step m with
    | .ok true m => loop step fuel m
    | .ok false m => .ok () m
    | .error e m => .error e m

/-- Repeats a step `count` times unless it asks to end earlier. -/
def times (step : Exec Bool) : Nat → Exec Unit
  | 0, m => .ok () m
  | count + 1, m =>
    match step m with
    | .ok true m => times step count m
    | .ok false m => .ok () m
    | .error e m => .error e m

end Exec

end BlockScript
