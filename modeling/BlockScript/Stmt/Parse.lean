import BlockScript.Expr.Parse
import BlockScript.Stmt

/-!
# The grammar of statements

```
program    := statement*
statement  := ("write" | "writeln") expression ";"
            | ("read" | "readnum") NAME ";"
            | "let" NAME ("=" expression)? ";"
            | "{" statement* "}"
            | "if" expression statement ("else" statement)?
            | "while" expression statement
            | "for" (";" | let | expression ";") expression? ";" expression? statement
            | "repeat" statement ("until" | "for") expression ";"
            | ("break" | "continue") ";"
            | expression ";"
```

A statement that does not fit is recorded and skipped, and parsing goes on after it, so that one
pass finds more than the first error. What is skipped is not looked at, and errors in it stay
unseen. Errors in the statements of a block are recovered from inside the block. They stay recorded
even if the block is never closed, so the record is a part of the state and not of the result.
-/

namespace BlockScript

/-- The tokens that are left and the errors that have been recovered from. -/
structure Progress where
  rest : List Token
  found : List ParseError

abbrev Recover := EStateM ParseError Progress

/-- A rule that cannot recover leaves the record alone. -/
def Recover.lift {α : Type} (rule : Parse α) : Recover α := fun s ↦
  match rule s.rest with
  | .ok a rest => .ok a { s with rest }
  | .error e rest => .error e { s with rest }

instance : MonadLift Parse Recover := ⟨Recover.lift⟩

/-! ## Recovery -/

/-- Skips to where a statement may begin: behind a semicolon, or in front of a token that begins a
statement or closes a block. At least one token is skipped, but never the end of the source. -/
def synchronize : List Token → List Token
  | [] => []
  | t :: rest =>
    if t.kind = .eof then t :: rest
    else if t.kind = .symbol .semicolon then rest
    else match rest with
      | [] => []
      | next :: _ =>
        if next.kind.startsStatement || next.kind = .symbol .rightBrace then rest
        else synchronize rest

/-- As `synchronize`, but a brace that comes next is left to close the block. -/
def synchronizeInBlock : List Token → List Token
  | [] => []
  | t :: rest => if t.kind = .symbol .rightBrace then t :: rest else synchronize (t :: rest)

namespace Stmt

/-! ## Simple statements -/

def expressionRule (expr : Parse Expr) : Parse Stmt := do
  let t ← Parse.peek
  let value ← expr
  let _ ← Parse.expect (.symbol .semicolon) (.semicolon "expression")
  return expression value t.line

def writeRule (expr : Parse Expr) (terminator : String) : Parse Stmt := do
  let keyword ← Parse.take
  let value ← expr
  let _ ← Parse.expect (.symbol .semicolon) (.semicolon "value")
  return write value terminator keyword.line

def readRule (node : String → Nat → Stmt) : Parse Stmt := do
  let keyword ← Parse.take
  let name ← Parse.expectName keyword.lexeme
  let _ ← Parse.expect (.symbol .semicolon) (.semicolon "variable name")
  return node name keyword.line

def declareRule (expr : Parse Expr) : Parse Stmt := do
  let keyword ← Parse.take
  let name ← Parse.expectName "let"
  let initial ← match ← Parse.accept? (.symbol .equals) with
    | some _ => some <$> expr
    | none => pure none
  let _ ← Parse.expect (.symbol .semicolon) (.semicolon "variable declaration")
  return declare name initial keyword.line

/-- A jump. Whether it belongs to a loop is not a matter of grammar. -/
def jumpRule (kind : Jump) : Parse Stmt := do
  let keyword ← Parse.take
  let _ ← Parse.expect (.symbol .semicolon) (.semicolon s!"'{keyword.lexeme}'")
  return jump kind keyword.line

/-! ## Statements that contain statements -/

/-- A choice; an alternative belongs to the nearest choice that has none. -/
def ifRule (expr : Parse Expr) (body : Recover Stmt) : Recover Stmt := do
  let keyword ← Parse.take
  let condition ← expr
  let yes ← body
  match ← Parse.accept? (.keyword .else_) with
  | some _ => return ifElse condition yes (← body) keyword.line
  | none => return ifThen condition yes keyword.line

def whileRule (expr : Parse Expr) (body : Recover Stmt) : Recover Stmt := do
  let keyword ← Parse.take
  let condition ← expr
  return loop condition (← body) none keyword.line

def initialRule (expr : Parse Expr) : Parse (Option Stmt) := do
  let t ← Parse.peek
  match t.kind with
  | .symbol .semicolon =>
    let _ ← Parse.take
    return none
  | .keyword .let_ => some <$> declareRule expr
  | _ => some <$> expressionRule expr

/-- The condition of a counted loop; without one, the loop goes on until it is left. -/
def conditionRule (expr : Parse Expr) (line : Nat) : Parse Expr := do
  let t ← Parse.peek
  let condition ← if t.kind = .symbol .semicolon then pure (.literal (.bool true) line) else expr
  let _ ← Parse.expect (.symbol .semicolon) (.semicolon "loop condition")
  return condition

/-- The increment of a counted loop, present if the next token can begin an expression. -/
def incrementRule (expr : Parse Expr) : Parse (Option Expr) := do
  let t ← Parse.peek
  if t.kind.startsExpression then some <$> expr else return none

/-- A counted loop: what it does first and the loop proper share a block. -/
def forRule (expr : Parse Expr) (body : Recover Stmt) : Recover Stmt := do
  let keyword ← Parse.take
  let initial ← initialRule expr
  let condition ← conditionRule expr keyword.line
  let increment ← incrementRule expr
  let counted := loop condition (← body) increment keyword.line
  match initial with
  | some first => return block [first, counted] keyword.line
  | none => return counted

def repeatTail (expr : Parse Expr) (body : Stmt) (line : Nat) : Parse Stmt := do
  let t ← Parse.peek
  match t.kind with
  | .keyword .until_ =>
    let _ ← Parse.take
    return repeatUntil body (← expr) line
  | .keyword .for_ =>
    let _ ← Parse.take
    return repeatFor body (← expr) t.line
  | _ => throw (ParseError.at (.expected .repeatTail) t)

def repeatRule (expr : Parse Expr) (body : Recover Stmt) : Recover Stmt := do
  let keyword ← Parse.take
  let statement ← repeatTail expr (← body) keyword.line
  let _ ← Parse.expect (.symbol .semicolon) (.semicolon "repeat condition")
  return statement

/-! ## Blocks and statements -/

/-- Runs a rule; its error, if it has one, is recorded, and some tokens are skipped. -/
def recorded (rule : Recover Stmt) (skip : List Token → List Token) (s : Progress) :
    Option Stmt × Progress :=
  match rule s with
  | .ok statement s => (some statement, s)
  | .error e s => (none, { rest := skip s.rest, found := s.found ++ [e] })

/-- The statements of a block up to its closing brace, which is taken. -/
def blockRule (statement : Recover Stmt) : Nat → Recover (List Stmt)
  | 0 => throw .exhausted
  | bound + 1 => fun s ↦
    match s.rest with
    | [] => .error .exhausted s
    | t :: rest =>
      if t.kind = .symbol .rightBrace then .ok [] { s with rest }
      else if t.kind = .eof then .error (ParseError.at (.expected .closingBrace) t) s
      else
        let (first, s) := recorded statement synchronizeInBlock s
        match blockRule statement bound s with
        | .ok others s => .ok (first.toList ++ others) s
        | .error e s => .error e s

/-- A statement, given the rules for the expressions and statements inside it. -/
def form (expr : Parse Expr) (nested : Recover Stmt) (bound : Nat) : Recover Stmt := do
  let t ← Parse.peek
  match t.kind with
  | .keyword .write => writeRule expr ""
  | .keyword .writeln => writeRule expr "\n"
  | .keyword .read => readRule read
  | .keyword .readnum => readRule readNumber
  | .keyword .let_ => declareRule expr
  | .symbol .leftBrace =>
    let _ ← Parse.take
    return block (← blockRule nested bound) t.line
  | .keyword .if_ => ifRule expr nested
  | .keyword .while_ => whileRule expr nested
  | .keyword .for_ => forRule expr nested
  | .keyword .repeat_ => repeatRule expr nested
  | .keyword .break_ => jumpRule .leave
  | .keyword .continue_ => jumpRule .next
  | kind =>
    if kind.isReserved then throw (ParseError.at (.reserved t.lexeme) t)
    else expressionRule expr

def statement : Nat → Recover Stmt
  | 0 => throw .exhausted
  | bound + 1 => form (Expr.expression (bound + 1)) (statement bound) bound

def parse : Recover Stmt := fun s ↦ statement s.rest.length s

/-- The rest of a block whose opening brace, on line `line`, has been taken. -/
def parseBlock (line : Nat) : Recover Stmt := fun s ↦
  let bound := s.rest.length
  match blockRule (statement bound) bound s with
  | .ok body s => .ok (block body line) s
  | .error e s => .error e s

end Stmt

/-! ## Programs -/

def programRule (statement : Recover Stmt) : Nat → Progress → Program × Progress
  | 0, s => ([], s)
  | bound + 1, s =>
    match s.rest with
    | [] => ([], s)
    | t :: _ =>
      if t.kind = .eof then ([], s)
      else
        let (first, s) := Stmt.recorded statement synchronize s
        let (others, s) := programRule statement bound s
        (first.toList ++ others, s)

/-- The program that tokens make up, or all errors in them. -/
def parseTokens (tokens : List Token) : Except (List ParseError) Program :=
  let bound := tokens.length
  let (program, s) := programRule (Stmt.statement bound) bound ⟨tokens, []⟩
  if s.found.isEmpty then .ok program else .error s.found

end BlockScript
