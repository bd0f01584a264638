import BlockScript.RuntimeError

/-!
# Jumps outside loops

A jump must belong to a loop. This is checked for a whole program before it runs, by a search that
counts the loops around the place it has come to.
-/

namespace BlockScript.Stmt

mutual

/-- The first jump of a statement that no loop is around, if `loops` loops are around the
statement. -/
def strayJumpAt? (loops : Nat) : Stmt → Option RuntimeError
  | jump kind line => if loops = 0 then some ⟨.strayJump kind, line⟩ else none
  | block body _ => strayJumpAmongAt? loops body
  | ifThen _ yes _ => yes.strayJumpAt? loops
  | ifElse _ yes no _ => yes.strayJumpAt? loops <|> no.strayJumpAt? loops
  | loop _ body _ _ => body.strayJumpAt? (loops + 1)
  | repeatUntil body _ _ => body.strayJumpAt? (loops + 1)
  | repeatFor body _ _ => body.strayJumpAt? (loops + 1)
  | _ => none

def strayJumpAmongAt? (loops : Nat) : List Stmt → Option RuntimeError
  | [] => none
  | s :: rest => s.strayJumpAt? loops <|> strayJumpAmongAt? loops rest

end

/-- The first jump of a program that no loop is around. -/
def strayJumpAmong? (program : Program) : Option RuntimeError := strayJumpAmongAt? 0 program

end BlockScript.Stmt
