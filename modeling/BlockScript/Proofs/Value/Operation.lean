import BlockScript.Value.Operation

/-!
# How operations on values fail

An operation fails with a cause of its own kind: it knows neither of variables nor of statements,
and what it complains of is its operands.
-/

namespace BlockScript

/-- The causes that operations on values give. -/
def Cause.isOperation : Cause → Bool
  | operandNotNumber | operandsNotNumbers | invalidAddition | invalidRepetition | textTooLarge
  | divisionByZero | moduloByZero => true
  | _ => false

namespace Value

variable {a b : Value} {cause : Cause}

private theorem isOperation_of_onNumbers {f : Float → Float → Result}
    (h : onNumbers f a b = .error cause)
    (hf : ∀ x y, f x y = .error cause → cause.isOperation = true) : cause.isOperation = true := by
  unfold onNumbers at h
  split at h
  · exact hf _ _ h
  · cases h
    rfl

private theorem isOperation_of_repetition [Memory] {s : String}
    (h : repetition s a = .error cause) : cause.isOperation = true := by
  unfold repetition at h
  split at h
  · cases h
    rfl
  · split at h
    · cases h
    · dsimp only at h
      split at h
      · cases h
        rfl
      · cases h

end Value

theorem UnaryOp.isOperation_of_apply {op : UnaryOp} {v : Value} {cause : Cause}
    (h : op.apply v = .error cause) : cause.isOperation = true := by
  rcases op with _ | _
  · rw [apply] at h
    unfold Value.negate at h
    split at h
    · cases h
    · cases h
      rfl
  · cases h

theorem ArithOp.isOperation_of_apply [Memory] {op : ArithOp} {a b : Value} {cause : Cause}
    (h : op.apply a b = .error cause) : cause.isOperation = true := by
  cases op with
  | add =>
    rw [apply] at h
    unfold Value.add at h
    split at h
    · cases h
    · cases h
    · cases h
      rfl
  | sub => exact Value.isOperation_of_onNumbers h fun _ _ h ↦ nomatch h
  | mul =>
    rw [apply] at h
    unfold Value.mul at h
    split at h
    · exact Value.isOperation_of_repetition h
    · exact Value.isOperation_of_repetition h
    · exact Value.isOperation_of_onNumbers h fun _ _ h ↦ nomatch h
  | div =>
    refine Value.isOperation_of_onNumbers h fun x y h ↦ ?_
    split at h
    · cases h
      rfl
    · cases h
  | mod =>
    refine Value.isOperation_of_onNumbers h fun x y h ↦ ?_
    split at h
    · cases h
      rfl
    · cases h

theorem BinaryOp.isOperation_of_apply [Memory] {op : BinaryOp} {a b : Value} {cause : Cause}
    (h : op.apply a b = .error cause) : cause.isOperation = true := by
  rcases op with op | op
  · exact ArithOp.isOperation_of_apply h
  · rcases op
    case equal => exact nomatch h
    case notEqual => exact nomatch h
    all_goals exact Value.isOperation_of_onNumbers h fun _ _ h ↦ nomatch h

end BlockScript
