import BlockScript.Token

/-!
# Segments of a source

A source is cut from left to right into segments, none of them empty, until nothing is left. What
kind of segment comes next is decided by its first character, or its first two where a slash or a
point is concerned, and the segment then extends as far as its kind allows. Nothing is dropped at
this stage: blanks, comments and characters without a meaning are segments like any other, so the
segments of a source put together are the source.

A quotation or a comment that is never closed is a segment of its own kind and reaches to the end.
-/

namespace BlockScript

inductive Segment where
  | newline
  /-- A run of blanks that stays on the line. -/
  | blank (run : List Char)
  | lineComment (body : List Char)
  | blockComment (body : List Char)
  /-- A number; its point is written only if digits follow it. -/
  | number (whole fraction : List Char)
  | quotation (quote : Char) (body : List Char)
  | word (letters : List Char)
  | symbol (s : Symbol)
  /-- A character that begins nothing. -/
  | stray (c : Char)
  | openQuotation (quote : Char) (body : List Char)
  | openComment (body : List Char)
deriving DecidableEq, Repr

namespace Segment

def chars : Segment → List Char
  | newline => ['\n']
  | blank run => run
  | lineComment body => '/' :: '/' :: body
  | blockComment body => '/' :: '*' :: body ++ ['*', '/']
  | number whole [] => whole
  | number whole (d :: fraction) => whole ++ '.' :: d :: fraction
  | quotation quote body => quote :: body ++ [quote]
  | word letters => letters
  | symbol s => s.chars
  | stray c => [c]
  | openQuotation quote body => quote :: body
  | openComment body => '/' :: '*' :: body

/-! ## Character classes -/

def isBlank (c : Char) : Bool := c = ' ' || c = '\t' || c = '\r' || c = '\x0c'

/-- Characters that begin a word. Only letters of the basic alphabet do. -/
def isWordStart (c : Char) : Bool := c.isAlpha || c = '_'

def isWordPart (c : Char) : Bool := c.isAlphanum || c = '_'

/-! ## Cutting off one segment

Each function is given what follows the characters that decided for it, and returns the segment
with the rest of the source. -/

/-- The fraction of a number, if a point with a digit after it comes next. -/
def cutFraction : List Char → List Char × List Char
  | '.' :: d :: cs =>
    if d.isDigit then (d :: cs.takeWhile Char.isDigit, cs.dropWhile Char.isDigit)
    else ([], '.' :: d :: cs)
  | cs => ([], cs)

def cutNumber (d : Char) (cs : List Char) : Segment × List Char :=
  let (fraction, rest) := cutFraction (cs.dropWhile Char.isDigit)
  (number (d :: cs.takeWhile Char.isDigit) fraction, rest)

/-- A number without digits before its point, or just a point. -/
def cutPoint (cs : List Char) : Segment × List Char :=
  match cutFraction ('.' :: cs) with
  | ([], _) => (symbol .dot, cs)
  | (fraction, rest) => (number [] fraction, rest)

def cutQuotation (quote : Char) (cs : List Char) : Segment × List Char :=
  match cs.dropWhile (· != quote) with
  | [] => (openQuotation quote cs, [])
  | _ :: rest => (quotation quote (cs.takeWhile (· != quote)), rest)

/-- The body of a comment and what comes after its closing mark. -/
def closeComment? : List Char → Option (List Char × List Char)
  | '*' :: '/' :: rest => some ([], rest)
  | c :: cs => (closeComment? cs).map fun (body, rest) ↦ (c :: body, rest)
  | [] => none

def cutSlash : List Char → Segment × List Char
  | '/' :: cs => (lineComment (cs.takeWhile (· != '\n')), cs.dropWhile (· != '\n'))
  | '*' :: cs =>
    match closeComment? cs with
    | some (body, rest) => (blockComment body, rest)
    | none => (openComment cs, [])
  | cs => (symbol .slash, cs)

/-- A symbol of two characters if possible, else of one; a character that is none stands alone. -/
def cutSymbol (c : Char) (cs : List Char) : Segment × List Char :=
  match cs, Symbol.withEquals? c with
  | '=' :: rest, some s => (symbol s, rest)
  | _, _ =>
    match Symbol.single? c with
    | some s => (symbol s, cs)
    | none => (stray c, cs)

def cut (c : Char) (cs : List Char) : Segment × List Char :=
  if c = '\n' then (newline, cs)
  else if isBlank c then (blank (c :: cs.takeWhile isBlank), cs.dropWhile isBlank)
  else if c.isDigit then cutNumber c cs
  else if isWordStart c then (word (c :: cs.takeWhile isWordPart), cs.dropWhile isWordPart)
  else if c = '"' || c = '\'' then cutQuotation c cs
  else if c = '/' then cutSlash cs
  else if c = '.' then cutPoint cs
  else cutSymbol c cs

/-! ## Cutting up a source -/

def splitWithin : Nat → List Char → List Segment
  | 0, _ => []
  | _, [] => []
  | bound + 1, c :: cs =>
    let (segment, rest) := cut c cs
    segment :: splitWithin bound rest

/-- All segments of a source; no segment is empty, so there are at most as many as characters. -/
def split (source : List Char) : List Segment := splitWithin source.length source

end Segment

end BlockScript
