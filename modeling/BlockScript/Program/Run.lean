import BlockScript.Program.Parse
import BlockScript.Stmt.Exec
import BlockScript.Stmt.StrayJump

/-!
# Running programs

A program runs only if all of it is in order: nothing is executed if the source has an error, or if
some jump belongs to no loop. Variables, input and output carry over from one run to the next.
-/

namespace BlockScript

variable [Memory]

/-! ## Programs -/

def Program.execWithin (fuel : Nat) : Program → Exec Unit
  | [] => return
  | s :: rest => do
    let _ ← s.exec fuel
    Program.execWithin fuel rest

/-- Checks a program and executes it. -/
def Program.runWithin (fuel : Nat) (program : Program) : Exec Unit :=
  match Stmt.strayJumpAmong? program with
  | some e => throw (.error e)
  | none => program.execWithin fuel

/-! ## Sources -/

inductive Failure where
  | rejected (errors : List SyntaxError)
  | stopped (reason : Stop)

def Stop.message : Stop → String
  | error e => e.message
  | outOfFuel => "Too many iterations."

def Failure.message : Failure → String
  | rejected errors => "\n".intercalate (errors.map (·.message))
  | stopped reason => reason.message

def Failure.exitCode : Failure → Nat
  | rejected _ => 65
  | stopped _ => 70

/-- Runs a source, each loop with at most `fuel` iterations. -/
def runWithin (fuel : Nat) (source : String) : EStateM Failure Machine Unit := fun m ↦
  match parse source with
  | .error errors => .error (.rejected errors) m
  | .ok program =>
    match program.runWithin fuel m with
    | .ok _ m => .ok () m
    | .error reason m => .error (.stopped reason) m

/-- The bound on iterations when nobody asks for a smaller one. At a thousand million iterations a
second a loop reaches it after a century. -/
def ampleFuel : Nat := 1 <<< 62

def run (source : String) : EStateM Failure Machine Unit := runWithin ampleFuel source

end BlockScript
