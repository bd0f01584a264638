import BlockScript.Expr

/-!
# Statements

Loops with a counter have no statement of their own: they are `loop`s with an increment, inside a
block if they declare a variable. Lines are those of the leading token, except for a counted
repetition, whose only error concerns the count and is reported where the count is announced.
-/

namespace BlockScript

inductive Jump where
  | leave
  | next
deriving DecidableEq, Repr

def Jump.spelling : Jump → String
  | leave => "break"
  | next => "continue"

inductive Stmt where
  | expression (value : Expr) (line : Nat)
  | write (value : Expr) (terminator : String) (line : Nat)
  /-- Binds a name in the current scope, to nil if nothing is given. -/
  | declare (name : String) (initial : Option Expr) (line : Nat)
  /-- Statements in a scope of their own. -/
  | block (body : List Stmt) (line : Nat)
  | ifThen (condition : Expr) (yes : Stmt) (line : Nat)
  | ifElse (condition : Expr) (yes no : Stmt) (line : Nat)
  /-- Repeats the body as long as the condition holds before it; the increment ends each
  iteration. -/
  | loop (condition : Expr) (body : Stmt) (increment : Option Expr) (line : Nat)
  /-- Repeats the body until the condition holds after it. -/
  | repeatUntil (body : Stmt) (condition : Expr) (line : Nat)
  /-- Repeats the body a number of times that is computed once, in advance. -/
  | repeatFor (body : Stmt) (count : Expr) (line : Nat)
  | jump (kind : Jump) (line : Nat)
  | read (name : String) (line : Nat)
  | readNumber (name : String) (line : Nat)
deriving Inhabited

abbrev Program := List Stmt

def Stmt.line : Stmt → Nat
  | expression _ line | write _ _ line | declare _ _ line | block _ line | ifThen _ _ line
  | ifElse _ _ _ line | loop _ _ _ line | repeatUntil _ _ line | repeatFor _ _ line
  | jump _ line | read _ line | readNumber _ line => line

/-- Induction on a statement: for a block, what is to be shown is known of each statement in it. -/
@[elab_as_elim]
theorem Stmt.induction {motive : Stmt → Prop}
    (expression : ∀ value line, motive (.expression value line))
    (write : ∀ value terminator line, motive (.write value terminator line))
    (declare : ∀ name initial line, motive (.declare name initial line))
    (block : ∀ body line, (∀ s ∈ body, motive s) → motive (.block body line))
    (ifThen : ∀ condition yes line, motive yes → motive (.ifThen condition yes line))
    (ifElse : ∀ condition yes no line, motive yes → motive no →
      motive (.ifElse condition yes no line))
    (loop : ∀ condition body increment line, motive body →
      motive (.loop condition body increment line))
    (repeatUntil : ∀ body condition line, motive body → motive (.repeatUntil body condition line))
    (repeatFor : ∀ body count line, motive body → motive (.repeatFor body count line))
    (jump : ∀ kind line, motive (.jump kind line))
    (read : ∀ name line, motive (.read name line))
    (readNumber : ∀ name line, motive (.readNumber name line)) (s : Stmt) : motive s :=
  @Stmt.rec motive (fun body ↦ ∀ s ∈ body, motive s) expression write declare block ifThen ifElse
    loop repeatUntil repeatFor jump read readNumber nofun
    (fun _ _ hs hbody ↦ List.forall_mem_cons.mpr ⟨hs, hbody⟩) s

end BlockScript
