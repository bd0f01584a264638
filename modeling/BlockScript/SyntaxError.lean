import BlockScript.Token

/-!
# Errors in a source

A source is rejected for two kinds of reasons. *Lexical* errors are segments that no token can be
made of; *grammar* errors are tokens that do not fit. Both have a line, and a grammar error says
which token it was found at.
-/

namespace BlockScript

/-! ## Lexical errors -/

inductive LexCause where
  | unexpectedCharacter (c : Char)
  | unterminatedText
  | unterminatedComment
deriving DecidableEq, Repr

/-- A segment that is no token, with the line on which it ends. -/
structure LexError where
  cause : LexCause
  line : Nat
deriving DecidableEq, Repr

/-! ## Grammar errors -/

inductive Place where
  | lexeme (text : String)
  | atEnd
deriving DecidableEq, Repr

inductive Expectation where
  | closingParen
  | closingBrace
  /-- The name of a variable, after a keyword. -/
  | variableName (after : String)
  | semicolon (after : String)
  | repeatTail
deriving DecidableEq, Repr

inductive ParseCause where
  | expectedExpression
  | expected (what : Expectation)
  | invalidTarget
  /-- The keyword is set aside. -/
  | reserved (word : String)
deriving DecidableEq, Repr

structure ParseError where
  cause : ParseCause
  place : Place
  line : Nat
deriving DecidableEq, Repr

def Token.place (t : Token) : Place :=
  match t.kind with
  | .eof => .atEnd
  | _ => .lexeme t.lexeme

def ParseError.at (cause : ParseCause) (t : Token) : ParseError := ⟨cause, t.place, t.line⟩

/-- The error of running out of tokens, which a source cannot cause since its tokens have an
end. -/
def ParseError.exhausted : ParseError := ⟨.expectedExpression, .atEnd, 0⟩

/-! ## Errors of a source -/

inductive SyntaxError where
  | lexical (e : LexError)
  | grammar (e : ParseError)
deriving DecidableEq, Repr

def SyntaxError.line : SyntaxError → Nat
  | lexical e => e.line
  | grammar e => e.line

/-! ## Messages -/

def LexCause.message : LexCause → String
  | unexpectedCharacter c => s!"Unexpected character '{c}'."
  | unterminatedText => "Unterminated string."
  | unterminatedComment => "Unterminated block comment."

def LexError.message (e : LexError) : String := s!"Error on line {e.line}: {e.cause.message}"

def Place.phrase : Place → String
  | lexeme text => s!" at '{text}'"
  | atEnd => " at end"

/-- What is missing, without the final stop. -/
def Expectation.message : Expectation → String
  | closingParen => "Expected ')' after expression"
  | closingBrace => "Expected '\x7d' after block"
  | variableName after => s!"Expected variable name after '{after}'"
  | semicolon after => s!"Expected ';' after {after}"
  | repeatTail => "Expected 'until' or 'for' after repeat body"

/-- The full text of an error. A keyword that is set aside names itself, so no place is given. -/
def ParseError.message (e : ParseError) : String :=
  match e.cause with
  | .expectedExpression => s!"Error on line {e.line}{e.place.phrase}: Expected expression."
  | .expected what => s!"Error on line {e.line}{e.place.phrase}: {what.message}."
  | .invalidTarget => s!"Error on line {e.line}{e.place.phrase}: Invalid assignment target."
  | .reserved word => s!"Error on line {e.line}: '{word}' is reserved."

def SyntaxError.message : SyntaxError → String
  | lexical e => e.message
  | grammar e => e.message

end BlockScript
