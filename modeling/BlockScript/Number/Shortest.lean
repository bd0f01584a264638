import BlockScript.Number.Exact

/-!
# The shortest numeral that reads back

A number is printed with the fewest digits that are still read back as that number, and among
those with the digits nearest to it. It is written positionally whatever its size, a whole
number without a point.

Since `2⁻¹⁰⁷⁴ = 5¹⁰⁷⁴ · 10⁻¹⁰⁷⁴`, a magnitude of `n` quanta is exactly `n · 5¹⁰⁷⁴` units of
`10⁻¹⁰⁷⁴`, and each decimal grid is the set of multiples of a power of ten of these units. The
search goes from coarse grids to fine ones and stops at the first grid that has a point in the
*window* of values that read back. On any grid it is enough to look at the two neighbours of the
exact value: if a point lies in the window, so does the neighbour on its side. The finest grid
contains the value itself, so the search cannot fail.
-/

namespace BlockScript.Number

/-! ## The window of values that read back -/

def finestPlace : Nat := 1074

/-- Units of `10⁻¹⁰⁷⁴` in one quantum. -/
def unitsPerQuantum : Nat := Nat.pow 5 finestPlace

/-- The values that are read as one magnitude, in quarters of a unit of `10⁻¹⁰⁷⁴`, so that the
midpoints to both neighbours are whole numbers. -/
structure Window where
  value : Nat
  low : Nat
  high : Nat
  /-- Whether the midpoints belong to the window: ties are read as the even neighbour. -/
  closed : Bool

/-- The window of a magnitude. The smaller neighbour of a power of two is only half as far away
as the larger one, unless both have the least spacing. -/
def Window.ofQuanta (quanta : Nat) : Window :=
  let gap := 1 <<< spacing quanta
  let significand := quanta >>> spacing quanta
  let narrow := significand == leadingBit && spacing quanta != 0
  { value := 4 * quanta * unitsPerQuantum
    low := (4 * quanta - if narrow then gap else 2 * gap) * unitsPerQuantum
    high := (4 * quanta + 2 * gap) * unitsPerQuantum
    closed := significand % 2 == 0 }

def Window.contains (w : Window) (point : Nat) : Bool :=
  if w.closed then w.low ≤ point && point ≤ w.high else w.low < point && point < w.high

/-! ## The search over decimal grids -/

/-- A point of the grid of multiples of `10 ^ place` units in the window, if there is one: the
nearer one of the two neighbours of the value, the larger one of two equally near. -/
def Window.point? (w : Window) (place : Nat) : Option Nat :=
  let step := 4 * Nat.pow 10 place
  let below := w.value / step
  let above := below + 1
  match w.contains (below * step), w.contains (above * step) with
  | true, true => if w.value - below * step < above * step - w.value then some below else some above
  | true, false => some below
  | false, true => some above
  | false, false => none

/-- A coefficient and the place it counts, on the coarsest grid not above `place` with a point
in the window. -/
def Window.coarsest (w : Window) : Nat → Nat × Nat
  | 0 => (w.value / 4, 0)
  | place + 1 =>
    match w.point? (place + 1) with
    | some coefficient => (coefficient, place + 1)
    | none => w.coarsest place

/-- The shortest coefficient of a positive magnitude with its place. The search starts at a power
of ten above the value: `log₁₀ v < 0.30103 · log₂ v`. -/
def shortest (quanta : Nat) : Nat × Nat :=
  (Window.ofQuanta quanta).coarsest
    ((quanta * unitsPerQuantum).log2 * 30103 / 100000 + 2)

/-! ## Layout -/

/-- Writes `coefficient · 10 ^ place` units of `10⁻¹⁰⁷⁴` positionally. -/
def positional (coefficient place : Nat) : List Char :=
  if finestPlace ≤ place then Nat.toDigits 10 (coefficient * Nat.pow 10 (place - finestPlace))
  else
    let places := finestPlace - place
    let unit := Nat.pow 10 places
    Nat.toDigits 10 (coefficient / unit) ++
      '.' :: (Nat.toDigits 10 (coefficient % unit)).leftpad places '0'

def magnitudeText (quanta : Nat) : List Char :=
  if quanta = 0 then ['0'] else
    let (coefficient, place) := shortest quanta
    positional coefficient place

def textChars (x : Float) : List Char :=
  match exact x with
  | .undefined => "NaN".toList
  | .infinite negative => (if negative then "-inf" else "inf").toList
  | .finite negative quanta =>
    if negative then '-' :: magnitudeText quanta else magnitudeText quanta

def text (x : Float) : String := String.ofList (textChars x)

end BlockScript.Number
