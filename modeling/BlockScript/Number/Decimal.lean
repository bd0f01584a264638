import BlockScript.Number.Exact

/-!
# Decimal numerals

Reading is correctly rounded: a numeral denotes the number nearest to its exact value, and a
tie goes to the even neighbour. The exact value `c · 10ᵉ` is a fraction of quanta, which
`nearestPattern` rounds in one step.

Two forms are read. A *literal* of a program consists of digits with an optional fraction; it
is split by the scanner already, so `ofDigits` cannot fail. *Input* typed by a user may also
have a sign, an exponent, a point without digits on one side, or be the name of an infinity or
of the undefined number, and `read?` refuses everything else.
-/

namespace BlockScript.Number

/-! ## Rounding a decimal fraction -/

/-- Bit pattern of the magnitude nearest to `coefficient · 10 ^ exponent`.

Exponents out of reach are answered without computing the power: from `10 ^ 400` on
everything is infinite, and since `10⁻¹ < 2⁻³`, a value with `log2 c + 3 e < -1200` is far
below half a quantum. -/
def decimalPattern (coefficient : Nat) (exponent : Int) : Nat :=
  if coefficient = 0 then 0
  else if 400 < exponent then infinitePattern
  else if coefficient.log2 + 3 * exponent < -1200 then 0
  else match exponent with
    | .ofNat e => nearestPattern (coefficient * Nat.pow 10 e * quantaPerUnit) 1
    | .negSucc e => nearestPattern (coefficient * quantaPerUnit) (Nat.pow 10 (e + 1))

/-- The number with the given digits before and after the point, times `10 ^ exponent`. -/
def ofDigits (negative : Bool) (whole fraction : List Char) (exponent : Int) : Float :=
  signed negative
    (decimalPattern (Nat.ofDigitChars 10 (whole ++ fraction) 0) (exponent - fraction.length))

/-! ## Numerals as typed -/

def spanDigits (cs : List Char) : List Char × List Char :=
  (cs.takeWhile Char.isDigit, cs.dropWhile Char.isDigit)

/-- Reads the exponent part of a numeral through to its end: nothing, or a mark, an optional
sign and at least one digit. -/
def readExponent? : List Char → Option Int
  | [] => some 0
  | mark :: cs =>
    if mark = 'e' ∨ mark = 'E' then
      match cs with
      | '+' :: digits => (power? digits).map Int.ofNat
      | '-' :: digits => (power? digits).map fun n ↦ -Int.ofNat n
      | digits => (power? digits).map Int.ofNat
    else none
where
  power? (digits : List Char) : Option Nat :=
    if digits ≠ [] ∧ digits.all Char.isDigit then some (Nat.ofDigitChars 10 digits 0) else none

/-- Reads digits with an optional point among or around them, and an optional exponent. -/
def readDecimal? (negative : Bool) (cs : List Char) : Option Float :=
  let (whole, rest) := spanDigits cs
  let (fraction, rest) := match rest with
    | '.' :: after => spanDigits after
    | _ => ([], rest)
  if whole = [] ∧ fraction = [] then none
  else (readExponent? rest).map (ofDigits negative whole fraction)

/-- Reads a numeral without its sign. Names are matched in any case. -/
def readUnsigned? (negative : Bool) (cs : List Char) : Option Float :=
  let name := String.ofList (cs.map Char.toLower)
  if name = "inf" ∨ name = "infinity" then some (ofExact (.infinite negative))
  else if name = "nan" then some undefined
  else readDecimal? negative cs

def read? : List Char → Option Float
  | '-' :: cs => readUnsigned? true cs
  | '+' :: cs => readUnsigned? false cs
  | cs => readUnsigned? false cs

end BlockScript.Number
