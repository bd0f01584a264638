import BlockScript.RuntimeError

/-!
# Operations on values

Operations fail with a cause and know of no line. Where two complaints are possible the one about
the type of the operands comes first, so that a text divided by zero is no division by zero.
-/

namespace BlockScript

/-- The memory that repeated texts are built in. How much there is belongs to the surroundings and
not to the language, so evaluation is defined, and theorems hold, for every amount. -/
class Memory where
  limit : Nat

namespace Memory

/-- Four gibibytes, for a process that nobody has told otherwise. -/
scoped instance ample : Memory := ⟨1 <<< 32⟩

end Memory

namespace Value

abbrev Result := Except Cause Value

def onNumbers (f : Float → Float → Result) : Value → Value → Result
  | number a, number b => f a b
  | _, _ => .error .operandsNotNumbers

/-! ## Repeated text -/

/-- Sizes in bytes are words of 64 bits. -/
def sizeBound : Nat := 1 <<< 64

def repeated (s : String) (count : Nat) : String := Nat.repeat (· ++ s) count ""

/-- A text times a value, which has to be a count. The empty text can be repeated as often as one
likes; any other one only if the size of the result is a size at all and there is memory for it. -/
def repetition [Memory] (s : String) (times : Value) : Result :=
  match times.number?.bind Number.count? with
  | none => .error .invalidRepetition
  | some count =>
    if s = "" then .ok (text "")
    else
      let size := count * s.utf8ByteSize
      if sizeBound ≤ size ∨ Memory.limit < size then .error .textTooLarge
      else .ok (text (repeated s count))

/-! ## Arithmetic -/

def add : Value → Value → Result
  | number a, number b => .ok (number (a + b))
  | text a, text b => .ok (text (a ++ b))
  | _, _ => .error .invalidAddition

def sub : Value → Value → Result := onNumbers fun a b ↦ .ok (number (a - b))

/-- Product of two numbers, or a text repeated; the text may stand on either side. -/
def mul [Memory] : Value → Value → Result
  | text s, times => repetition s times
  | times, text s => repetition s times
  | a, b => onNumbers (fun x y ↦ .ok (number (x * y))) a b

def div : Value → Value → Result :=
  onNumbers fun a b ↦ if b == 0 then .error .divisionByZero else .ok (number (a / b))

/-- Remainder of the truncated quotient of two numbers. -/
def mod : Value → Value → Result :=
  onNumbers fun a b ↦
    if b == 0 then .error .moduloByZero else .ok (number (Number.remainder a b))

def negate : Value → Result
  | number x => .ok (number (-x))
  | _ => .error .operandNotNumber

end Value

/-! ## Operators as operations -/

def UnaryOp.apply : UnaryOp → Value → Value.Result
  | negate, v => v.negate
  | not, v => .ok (.bool !v.truthy)

def ArithOp.apply [Memory] : ArithOp → Value → Value → Value.Result
  | add => Value.add
  | sub => Value.sub
  | mul => Value.mul
  | div => Value.div
  | mod => Value.mod

/-- Applies a comparison. Values of any kind can be compared for equality, and only numbers have an
order. -/
def CompareOp.apply : CompareOp → Value → Value → Value.Result
  | equal => fun a b ↦ .ok (.bool (a.equals b))
  | notEqual => fun a b ↦ .ok (.bool !a.equals b)
  | less => Value.onNumbers fun a b ↦ .ok (.bool (decide (a < b)))
  | greater => Value.onNumbers fun a b ↦ .ok (.bool (decide (b < a)))
  | lessEqual => Value.onNumbers fun a b ↦ .ok (.bool (decide (a ≤ b)))
  | greaterEqual => Value.onNumbers fun a b ↦ .ok (.bool (decide (b ≤ a)))

def BinaryOp.apply [Memory] : BinaryOp → Value → Value → Value.Result
  | arith op => op.apply
  | compare op => op.apply

end BlockScript
