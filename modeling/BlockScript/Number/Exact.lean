/-!
# Numbers as exact quantities

A number of the language is a `Float`. Every finite one is a whole number of *quanta* of
`2⁻¹⁰⁷⁴`, the least positive number, so printing, reading, remainders and counts can all be
carried out on natural numbers without a single rounding step that is not asked for. This
module goes from a number to its sign and its quanta, and back.

The layout of the 64 bits makes the way back short. Magnitudes with at most 53 significant
bits are numbered by their bit patterns in increasing order, and inside one binade consecutive
patterns are `2 ^ spacing` quanta apart; so the pattern of `n` quanta is
`spacing n * 2 ^ 52 + n / 2 ^ spacing n`, with no case for the subnormal numbers.
-/

namespace BlockScript.Number

/-- A number taken apart: not a number, an infinity, or a signed whole number of quanta. -/
inductive Exact where
  | undefined
  | infinite (negative : Bool)
  /-- So many quanta with a sign; zero has both signs. -/
  | finite (negative : Bool) (quanta : Nat)
deriving DecidableEq, Repr

/-! ## Magnitudes and their bit patterns -/

def quantaPerUnit : Nat := 1 <<< 1074

/-- Weight of the leading bit of a significand of 53 bits, and of the least bit of the exponent in
a pattern. -/
def leadingBit : Nat := 1 <<< 52

/-- The bit pattern of the positive infinity; patterns below it are the finite magnitudes. -/
def infinitePattern : Nat := 2047 * leadingBit

def quantaOfPattern (pattern : Nat) : Nat :=
  let exponent := pattern / leadingBit
  let fraction := pattern % leadingBit
  if exponent = 0 then fraction else (leadingBit + fraction) <<< (exponent - 1)

/-- Binary logarithm of the distance between magnitudes near `quanta`: 53 bits are kept, and
below `2 ^ 53` quanta nothing has to be dropped. -/
def spacing (quanta : Nat) : Nat := quanta.log2 - 52

def patternOfQuanta (quanta : Nat) : Nat :=
  spacing quanta * leadingBit + quanta >>> spacing quanta

/-- Bit pattern of the magnitude nearest to `num / den` quanta, a tie going to the even
pattern. A significand that rounds up to `2 ^ 53` carries into the exponent, and everything
from there on is infinite. -/
def nearestPattern (num den : Nat) : Nat :=
  let shift := spacing (num / den)
  let step := den <<< shift
  let floor := num / step
  let rest := num % step
  let up := step < 2 * rest || (step == 2 * rest && floor % 2 == 1)
  min (shift * leadingBit + if up then floor + 1 else floor) infinitePattern

/-! ## Signed numbers -/

def signBit : Nat := 1 <<< 63

def signed (negative : Bool) (pattern : Nat) : Float :=
  Float.ofBits (UInt64.ofNat (if negative then signBit + pattern else pattern))

def exact (x : Float) : Exact :=
  let word := x.toBits.toNat
  let negative := decide (signBit ≤ word)
  let pattern := word % signBit
  if pattern < infinitePattern then .finite negative (quantaOfPattern pattern)
  else if pattern = infinitePattern then .infinite negative
  else .undefined

/-- The number that is not equal to itself. -/
def undefined : Float := Float.ofBits 0x7FF8000000000000

/-- Puts a number together again; for quanta with 53 significant bits this is exact. -/
def ofExact : Exact → Float
  | .undefined => undefined
  | .infinite negative => signed negative infinitePattern
  | .finite negative quanta => signed negative (patternOfQuanta quanta)

/-! ## Operations defined on quanta -/

/-- The largest number that still counts iterations and repetitions. -/
def maxCount : Nat := (1 <<< 53) - 1

/-- The natural number that `x` is, if it is one and at most `maxCount`. Both zeros are `0`. -/
def count? (x : Float) : Option Nat :=
  match exact x with
  | .finite negative quanta =>
    let units := quanta / quantaPerUnit
    if quanta % quantaPerUnit = 0 ∧ units ≤ maxCount ∧ (negative → quanta = 0) then some units
    else none
  | _ => none

/-- The remainder of the truncated quotient, with the sign of the dividend. It is exact, since
the remainder of two numbers of quanta has no more significant bits than they allow. An
infinite divisor leaves a finite dividend as it is; all other combinations without an answer
are undefined. -/
def remainder (x y : Float) : Float :=
  match exact x, exact y with
  | .finite negative a, .finite _ b =>
    if b = 0 then undefined else ofExact (.finite negative (a % b))
  | .finite _ _, .infinite _ => x
  | _, _ => undefined

end BlockScript.Number
