import BlockScript.Operator

/-!
# Tokens

A token is a kind, the text it was read from and the line on which that text ends. The parser
decides by kinds alone; texts only serve messages.
-/

namespace BlockScript

/-! ## Words and symbols of the language -/

inductive Keyword where
  | write | writeln | read | readnum | let_ | true_ | false_ | nil | if_ | else_ | not | or | and
  | xor | nor | nand | xnor | for_ | while_ | repeat_ | until_ | break_ | continue_ | fun_
  | return_ | class_ | this | super
deriving DecidableEq, Repr

inductive Symbol where
  | leftParen | rightParen | leftBrace | rightBrace | comma | dot | semicolon | plus | minus | star
  | slash | percent | equals | equalEqual | bangEqual | less | lessEqual | greater | greaterEqual
deriving DecidableEq, Repr

namespace Keyword

def all : List Keyword :=
  [write, writeln, read, readnum, let_, true_, false_, nil, if_, else_, not, or, and, xor, nor,
    nand, xnor, for_, while_, repeat_, until_, break_, continue_, fun_, return_, class_, this,
    super]

def spelling : Keyword → String
  | write => "write"
  | writeln => "writeln"
  | read => "read"
  | readnum => "readnum"
  | let_ => "let"
  | true_ => "true"
  | false_ => "false"
  | nil => "nil"
  | if_ => "if"
  | else_ => "else"
  | not => "not"
  | or => "or"
  | and => "and"
  | xor => "xor"
  | nor => "nor"
  | nand => "nand"
  | xnor => "xnor"
  | for_ => "for"
  | while_ => "while"
  | repeat_ => "repeat"
  | until_ => "until"
  | break_ => "break"
  | continue_ => "continue"
  | fun_ => "fun"
  | return_ => "return"
  | class_ => "class"
  | this => "this"
  | super => "super"

def ofSpelling? (word : String) : Option Keyword := all.find? (·.spelling == word)

/-- Whether a keyword begins a statement, so that parsing can resume in front of it. -/
def startsStatement : Keyword → Bool
  | write | writeln | let_ | if_ | for_ | while_ | repeat_ | read | readnum | break_ | continue_
  | fun_ | return_ | class_ => true
  | _ => false

/-- Whether a keyword is set aside and cannot be used yet. -/
def isReserved : Keyword → Bool
  | fun_ | return_ | class_ | this | super => true
  | _ => false

end Keyword

namespace Symbol

def chars : Symbol → List Char
  | leftParen => ['(']
  | rightParen => [')']
  | leftBrace => ['{']
  | rightBrace => ['}']
  | comma => [',']
  | dot => ['.']
  | semicolon => [';']
  | plus => ['+']
  | minus => ['-']
  | star => ['*']
  | slash => ['/']
  | percent => ['%']
  | equals => ['=']
  | equalEqual => ['=', '=']
  | bangEqual => ['!', '=']
  | less => ['<']
  | lessEqual => ['<', '=']
  | greater => ['>']
  | greaterEqual => ['>', '=']

def single? : Char → Option Symbol
  | '(' => some leftParen
  | ')' => some rightParen
  | '{' => some leftBrace
  | '}' => some rightBrace
  | ',' => some comma
  | '.' => some dot
  | ';' => some semicolon
  | '+' => some plus
  | '-' => some minus
  | '*' => some star
  | '/' => some slash
  | '%' => some percent
  | '=' => some equals
  | '<' => some less
  | '>' => some greater
  | _ => none

/-- Symbols that a following equals sign makes out of a character. -/
def withEquals? : Char → Option Symbol
  | '=' => some equalEqual
  | '!' => some bangEqual
  | '<' => some lessEqual
  | '>' => some greaterEqual
  | _ => none

end Symbol

/-! ## Kinds -/

/-- Text between the tokens. Scanning drops it; in a list of tokens it fits no rule. -/
inductive Trivia where
  | lineComment | blockComment | newline | blank
deriving DecidableEq, Repr

/-- What a token is, with the value of a literal or the name of a variable. -/
inductive TokenKind where
  | number (x : Float)
  | text (s : String)
  | name (s : String)
  | keyword (k : Keyword)
  | symbol (s : Symbol)
  | trivia (t : Trivia)
  | eof
deriving DecidableEq

namespace TokenKind

/-- Whether a token begins a statement that has a keyword of its own. -/
def startsStatement : TokenKind → Bool
  | keyword k => k.startsStatement
  | _ => false

def isReserved : TokenKind → Bool
  | keyword k => k.isReserved
  | _ => false

def startsExpression : TokenKind → Bool
  | number _ | text _ | name _ => true
  | keyword .true_ | keyword .false_ | keyword .nil | keyword .not => true
  | symbol .minus | symbol .leftParen => true
  | _ => false

def binaryOp? : TokenKind → Option BinaryOp
  | symbol .plus => some (.arith .add)
  | symbol .minus => some (.arith .sub)
  | symbol .star => some (.arith .mul)
  | symbol .slash => some (.arith .div)
  | symbol .percent => some (.arith .mod)
  | symbol .less => some (.compare .less)
  | symbol .lessEqual => some (.compare .lessEqual)
  | symbol .greater => some (.compare .greater)
  | symbol .greaterEqual => some (.compare .greaterEqual)
  | symbol .equalEqual => some (.compare .equal)
  | symbol .bangEqual => some (.compare .notEqual)
  | _ => none

end TokenKind

structure Token where
  kind : TokenKind
  lexeme : String
  /-- The line on which that text ends. -/
  line : Nat
deriving DecidableEq

end BlockScript
