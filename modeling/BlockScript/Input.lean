import BlockScript.RuntimeError

/-!
# Input by lines

Input is a sequence of bytes and is taken line by line. A line goes through its line end, the last
one to the end of the input. Only whole lines are decoded, and a line that is no text has been taken
all the same.
-/

namespace BlockScript.Input

def cutLine (bytes : List UInt8) : List UInt8 × List UInt8 :=
  let body := bytes.takeWhile (· != 10)
  match bytes.dropWhile (· != 10) with
  | [] => (body, [])
  | newline :: rest => (body ++ [newline], rest)

/-- Takes a line with its line end; there is none at the end of the input. -/
def takeLine : EStateM StreamFault (List UInt8) (Option String)
  | [] => .ok none []
  | bytes =>
    let (line, rest) := cutLine bytes
    match String.fromUTF8? line.toByteArray with
    | some text => .ok (some text) rest
    | none => .error .invalidText rest

/-- Drops the line end of a line: a line feed, with a carriage return if there is one before it. -/
def chomp (line : List Char) : List Char :=
  match line.reverse with
  | '\n' :: '\r' :: rest => rest.reverse
  | '\n' :: rest => rest.reverse
  | _ => line

end BlockScript.Input
