import BlockScript.Number.Decimal
import BlockScript.Segment
import BlockScript.SyntaxError

/-!
# Tokens of a source

Scanning reads the segments of a source with the line on which each of them ends. Segments that
mean something become tokens, segments that nothing can be made of become errors, and the rest is
dropped. Scanning never stops early, and the list of tokens ends with one that marks the end.
-/

namespace BlockScript

namespace Segment

/-- Line ends inside a segment: one for a line end, and as many as there are in the body of a text
or of a comment that may go on across lines. -/
def newlines : Segment → Nat
  | newline => 1
  | quotation _ body | openQuotation _ body | blockComment body | openComment body =>
    body.count '\n'
  | _ => 0

def lexeme (s : Segment) : String := String.ofList s.chars

/-- The kind of token that a word is: a keyword if it is spelled like one, otherwise a name. -/
def wordKind (letters : List Char) : TokenKind :=
  let word := String.ofList letters
  match Keyword.ofSpelling? word with
  | some k => .keyword k
  | none => .name word

def tokenKind? : Segment → Option TokenKind
  | number whole fraction => some (.number (Number.ofDigits false whole fraction 0))
  | quotation _ body => some (.text (String.ofList body))
  | word letters => some (wordKind letters)
  | symbol s => some (.symbol s)
  | _ => none

def fault? : Segment → Option LexCause
  | stray c => some (.unexpectedCharacter c)
  | openQuotation _ _ => some .unterminatedText
  | openComment _ => some .unterminatedComment
  | _ => none

/-- Segments from line `line` on, each with the line on which it ends. -/
def locate (line : Nat) : List Segment → List (Segment × Nat)
  | [] => []
  | s :: rest => (s, line + s.newlines) :: locate (line + s.newlines) rest

/-- The line on which the last of some segments ends, if the first begins on line `line`. -/
def lastLine (line : Nat) (segments : List Segment) : Nat :=
  segments.foldl (fun line s ↦ line + s.newlines) line

def token? (s : Segment) (line : Nat) : Option Token :=
  s.tokenKind?.map fun kind ↦ ⟨kind, s.lexeme, line⟩

def error? (s : Segment) (line : Nat) : Option LexError :=
  s.fault?.map fun cause ↦ ⟨cause, line⟩

end Segment

def Token.eof (line : Nat) : Token := ⟨.eof, "", line⟩

structure Scan where
  tokens : List Token
  errors : List LexError

def scanChars (source : List Char) : Scan :=
  let segments := Segment.split source
  let located := Segment.locate 1 segments
  { tokens := located.filterMap (fun (s, line) ↦ s.token? line) ++
      [Token.eof (Segment.lastLine 1 segments)]
    errors := located.filterMap fun (s, line) ↦ s.error? line }

def scan (source : String) : Scan := scanChars source.toList

end BlockScript
