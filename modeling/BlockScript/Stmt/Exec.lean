import BlockScript.Machine

/-!
# Execution of statements

A statement finishes normally or with a jump, which passes through blocks and choices up to the
innermost loop. Loops always finish normally.

Execution is recursive in the statement. Only loops that go on as long as a condition says need a
bound, and `fuel` bounds the iterations of each of them on its own; a counted repetition knows how
often it runs and needs none.
-/

namespace BlockScript

/-- How a statement finishes. -/
inductive Flow where
  | normal
  | jump (kind : Jump)
deriving DecidableEq, Repr

namespace Stmt

variable [Memory]

/-! ## Iterations

Each step runs one iteration and says whether another one may follow. -/

def increase : Option Expr → Exec Unit
  | some e => do let _ ← e.eval
  | none => pure ()

/-- Tests, runs the body and ends with the increment, which a body that leaves the loop skips. -/
def loopStep (condition : Expr) (body : Exec Flow) (increment : Option Expr) : Exec Bool := do
  let v ← condition.eval
  if v.truthy then
    if (← body) = .jump .leave then return false
    increase increment
    return true
  else return false

def untilStep (body : Exec Flow) (condition : Expr) : Exec Bool := do
  if (← body) = .jump .leave then return false
  let v ← condition.eval
  return !v.truthy

def countedStep (body : Exec Flow) : Exec Bool := do
  return (← body) != .jump .leave

/-- How often a counted repetition runs, computed once. -/
def repeatCount (count : Expr) (line : Nat) : Exec Nat := do
  let v ← count.eval
  match v.number?.bind Number.count? with
  | some n => return n
  | none => throw (.error ⟨.invalidRepeatCount, line⟩)

/-! ## Statements -/

mutual

/-- Executes a statement; each loop with a condition gets at most `fuel` iterations. -/
def exec (fuel : Nat) : Stmt → Exec Flow
  | expression value _ => do
    let _ ← value.eval
    return .normal
  | write value terminator line => do
    let v ← value.eval
    Exec.write v terminator line
    return .normal
  | declare name initial _ => do
    let v ← match initial with
      | some e => (e.eval : Exec Value)
      | none => pure .nil
    Exec.define name v
    return .normal
  | block body _ => Exec.inScope (execAll fuel body)
  | ifThen condition yes _ => do
    let v ← condition.eval
    if v.truthy then yes.exec fuel else return .normal
  | ifElse condition yes no _ => do
    let v ← condition.eval
    if v.truthy then yes.exec fuel else no.exec fuel
  | loop condition body increment _ => do
    Exec.loop (loopStep condition (body.exec fuel) increment) fuel
    return .normal
  | repeatUntil body condition _ => do
    Exec.loop (untilStep (body.exec fuel) condition) fuel
    return .normal
  | repeatFor body count line => do
    let n ← repeatCount count line
    Exec.times (countedStep (body.exec fuel)) n
    return .normal
  | jump kind _ => return .jump kind
  | read name line => do
    Exec.readLine name line
    return .normal
  | readNumber name line => do
    Exec.readNumber name line
    return .normal

/-- Executes statements in order up to the first one that does not finish normally. -/
def execAll (fuel : Nat) : List Stmt → Exec Flow
  | [] => return .normal
  | s :: rest => do
    match ← s.exec fuel with
    | .normal => execAll fuel rest
    | .jump kind => return .jump kind

end

end Stmt

end BlockScript
