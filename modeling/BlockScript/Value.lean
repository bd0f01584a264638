import BlockScript.Number.Shortest

/-!
# Values

The language is dynamically typed: a variable holds nil, a truth value, a number or a text, and
there are no compound values.
-/

namespace BlockScript

inductive Value where
  | nil
  | bool (b : Bool)
  | number (x : Float)
  | text (s : String)
deriving DecidableEq, Inhabited

namespace Value

/-- How a condition takes a value: nil, false, zero and the empty text count as false. Zero with a
minus sign is displayed differently from zero and counts as true. -/
def truthy : Value → Bool
  | nil => false
  | bool b => b
  | number x => x.toBits != 0
  | text s => s != ""

/-- Equality as the language sees it: never across types, and on numbers the comparison of
`Float`, for which the two zeros are equal and an undefined number differs from itself. -/
def equals : Value → Value → Bool
  | nil, nil => true
  | bool a, bool b => a == b
  | number a, number b => a == b
  | text a, text b => a == b
  | _, _ => false

def display : Value → String
  | nil => "nil"
  | bool true => "true"
  | bool false => "false"
  | number x => Number.text x
  | text s => s

def number? : Value → Option Float
  | number x => some x
  | _ => none

end Value

end BlockScript
