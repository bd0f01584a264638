import BlockScript.Expr
import BlockScript.SyntaxError

/-!
# The grammar of expressions

```
expression := assignment
assignment := NAME "=" assignment | or
or         := xor (("or" | "nor") xor)*
...
multiplicative := unary (("*" | "/" | "%") unary)*
unary      := ("not" | "-") unary | primary
primary    := NUMBER | TEXT | "true" | "false" | "nil" | NAME | "(" expression ")"
```

The levels between `assignment` and `unary` differ only in the tokens that join two operands, so
they are one rule, `ladder`, over the list of the ranks from some level down to the tightest one.

A rule is given the rule for a nested expression and a bound on the tokens that are left. Every
nested expression, every prefixed operator and every further operand comes after a token that has
been taken, so a bound of as many tokens as there are is never reached before the tokens are, and
at the bound the rules answer what they answer when no token is left.
-/

namespace BlockScript

/-- Parsing takes tokens from the front of a list. What is left is known after an error, too: the
token that caused it is not taken. -/
abbrev Parse := EStateM ParseError (List Token)

namespace Parse

def peek : Parse Token
  | [] => .error .exhausted []
  | t :: rest => .ok t (t :: rest)

def take : Parse Token
  | [] => .error .exhausted []
  | t :: rest => .ok t rest

def accept? (kind : TokenKind) : Parse (Option Token)
  | [] => .ok none []
  | t :: rest => if t.kind = kind then .ok (some t) rest else .ok none (t :: rest)

def expect (kind : TokenKind) (what : Expectation) : Parse Token
  | [] => .error .exhausted []
  | t :: rest =>
    if t.kind = kind then .ok t rest
    else .error (ParseError.at (.expected what) t) (t :: rest)

def expectName (after : String) : Parse String
  | [] => .error .exhausted []
  | t :: rest =>
    match t.kind with
    | .name s => .ok s rest
    | _ => .error (ParseError.at (.expected (.variableName after)) t) (t :: rest)

end Parse

/-! ## Ranks of operators -/

/-- Levels of operators between two operands, from the loosest to the tightest. -/
inductive Rank where
  | or | xor | and | equality | comparison | additive | multiplicative
deriving DecidableEq, Repr

def Rank.all : List Rank := [.or, .xor, .and, .equality, .comparison, .additive, .multiplicative]

def BinaryOp.rank : BinaryOp → Rank
  | arith .add | arith .sub => .additive
  | arith .mul | arith .div | arith .mod => .multiplicative
  | compare .equal | compare .notEqual => .equality
  | compare .less | compare .greater | compare .lessEqual | compare .greaterEqual => .comparison

/-- The rank of a token that joins two operands, and the node it makes of them. -/
def TokenKind.join? (kind : TokenKind) : Option (Rank × (Expr → Expr → Nat → Expr)) :=
  match kind with
  | keyword .or => some (.or, (Expr.logical · .or))
  | keyword .nor => some (.or, Expr.nor)
  | keyword .xor => some (.xor, Expr.xor)
  | keyword .xnor => some (.xor, Expr.xnor)
  | keyword .and => some (.and, (Expr.logical · .and))
  | keyword .nand => some (.and, Expr.nand)
  | _ => kind.binaryOp?.map fun op ↦ (op.rank, (Expr.binary · op))

def Rank.join? (rank : Rank) (kind : TokenKind) : Option (Expr → Expr → Nat → Expr) :=
  match kind.join? with
  | some (r, node) => if r = rank then some node else none
  | none => none

def TokenKind.unaryOp? : TokenKind → Option UnaryOp
  | keyword .not => some .not
  | symbol .minus => some .negate
  | _ => none

def TokenKind.literal? : TokenKind → Option Value
  | number x => some (.number x)
  | text s => some (.text s)
  | keyword .true_ => some (.bool true)
  | keyword .false_ => some (.bool false)
  | keyword .nil => some .nil
  | _ => none

/-! ## The rules -/

namespace Expr

def primary (nested : Parse Expr) : Parse Expr := do
  let t ← Parse.peek
  match t.kind.literal?, t.kind with
  | some value, _ =>
    let _ ← Parse.take
    return literal value t.line
  | none, .name s =>
    let _ ← Parse.take
    return var s t.line
  | none, .symbol .leftParen =>
    let _ ← Parse.take
    let inner ← nested
    let _ ← Parse.expect (.symbol .rightParen) .closingParen
    return group inner t.line
  | none, _ => throw (ParseError.at .expectedExpression t)

/-- Prefixed operators, the last of which is applied first. -/
def prefixed (nested : Parse Expr) : Nat → Parse Expr
  | 0 => throw .exhausted
  | bound + 1 => do
    let t ← Parse.peek
    match t.kind.unaryOp? with
    | some op =>
      let _ ← Parse.take
      let operand ← prefixed nested bound
      return unary op operand t.line
    | none => primary nested

/-- Further operands of one level after the first one, associated to the left. -/
def chain (rank : Rank) (operand : Parse Expr) : Nat → Expr → Parse Expr
  | 0, left => pure left
  | bound + 1, left => fun tokens ↦
    match tokens with
    | [] => .ok left []
    | t :: rest =>
      match rank.join? t.kind with
      | none => .ok left (t :: rest)
      | some node =>
        match operand rest with
        | .ok right rest => chain rank operand bound (node left right t.line) rest
        | .error e rest => .error e rest

/-- The level of the first of some ranks, each of which takes its operands from the next. -/
def ladder (nested : Parse Expr) (bound : Nat) : List Rank → Parse Expr
  | [] => prefixed nested bound
  | rank :: tighter => do
    let first ← ladder nested bound tighter
    chain rank (ladder nested bound tighter) bound first

/-- An assignment, which groups to the right, or an expression of the loosest rank. What is assigned
to is looked at only after the value, so an error in the value is found first. -/
def assignment (nested : Parse Expr) (bound : Nat) : Parse Expr := do
  let target ← ladder nested bound Rank.all
  match ← Parse.accept? (.symbol .equals) with
  | none => return target
  | some equals =>
    let value ← nested
    match target with
    | var name _ => return assign name value equals.line
    | _ => throw (ParseError.at .invalidTarget equals)

/-- An expression of at most `bound` tokens. -/
def expression : Nat → Parse Expr
  | 0 => throw .exhausted
  | bound + 1 => assignment (expression bound) (bound + 1)

/-- The levels at which an expression can be asked for. -/
inductive Level where
  | assignment
  /-- An expression without operators looser than a rank. -/
  | rank (r : Rank)
  /-- An expression without operators between two operands. -/
  | unary
  | primary
deriving DecidableEq, Repr

/-- An expression of some level at the front of all tokens that are left. -/
def parse (level : Level) : Parse Expr := fun tokens ↦
  let bound := tokens.length
  let nested := expression bound
  match level with
  | .assignment => nested tokens
  | .rank r => ladder nested bound (Rank.all.dropWhile (· != r)) tokens
  | .unary => prefixed nested bound tokens
  | .primary => primary nested tokens

end Expr

end BlockScript
