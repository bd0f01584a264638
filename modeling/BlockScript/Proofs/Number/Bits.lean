import BlockScript.Number.Exact
import Mathlib

/-!
# Numbers and their bits

A number is a word of 64 bits with three fields: a sign, an exponent of 11 bits and a fraction of 52
bits. The words whose exponent has all bits set and whose fraction is not zero are not numbers, and
all of them are taken as one and the same value, `undefined`. Every other word is kept bit for bit
(`toBits_ofBits`), so that statements about all numbers can be made about all words.

Without its sign a word is a pattern. The patterns of finite magnitudes come first, in increasing
order, then the infinite one, then those that are not numbers. A number is therefore `undefined`, or
`signed` with a pattern up to the infinite one, which is how `exact` takes it apart
(`exact_signed`).
-/

namespace BlockScript.Number

/-! ## The fields of a word -/

namespace Word

/-- The sign of a word: `1` if it is negative. -/
def sign (w : UInt64) : Nat := w.toNat / 2 ^ 63

/-- The exponent of a word. -/
def exponent (w : UInt64) : Nat := w.toNat / 2 ^ 52 % 2 ^ 11

/-- The fraction of a word. -/
def fraction (w : UInt64) : Nat := w.toNat % 2 ^ 52

/-- The greatest exponent belongs to no finite number. -/
def IsFinite (w : UInt64) : Prop := exponent w ≠ 2047

/-- Words that are not numbers. -/
def IsNaN (w : UInt64) : Prop := exponent w = 2047 ∧ fraction w ≠ 0

instance (w : UInt64) : Decidable (IsFinite w) := inferInstanceAs (Decidable (_ ≠ _))

instance (w : UInt64) : Decidable (IsNaN w) := inferInstanceAs (Decidable (_ ∧ _))

/-- A word without its sign. -/
def pattern (w : UInt64) : Nat := w.toNat % signBit

/-- Whether a word is negative. -/
def negative (w : UInt64) : Bool := decide (signBit ≤ w.toNat)

variable (w : UInt64)

private theorem toNat_lt : w.toNat < 2 ^ 64 := w.toBitVec.isLt

theorem pattern_eq : pattern w = exponent w * leadingBit + fraction w := by
  have hw := toNat_lt w
  simp only [pattern, exponent, fraction, signBit, leadingBit, Nat.shiftLeft_eq]
  omega

theorem sign_lt : sign w < 2 := by
  have hw := toNat_lt w
  rw [sign]
  omega

theorem fraction_lt : fraction w < leadingBit := Nat.mod_lt _ (by decide)

theorem isNaN_iff : IsNaN w ↔ infinitePattern < pattern w := by
  have hpattern := pattern_eq w
  have hfraction := fraction_lt w
  have hexponent : exponent w < 2 ^ 11 := Nat.mod_lt _ (by decide)
  simp only [IsNaN, infinitePattern, leadingBit, Nat.shiftLeft_eq] at *
  omega

theorem isFinite_iff : IsFinite w ↔ pattern w < infinitePattern := by
  have hpattern := pattern_eq w
  have hfraction := fraction_lt w
  have hexponent : exponent w < 2 ^ 11 := Nat.mod_lt _ (by decide)
  simp only [IsFinite, infinitePattern, leadingBit, Nat.shiftLeft_eq] at *
  omega

private theorem toNat_eq : w.toNat = (if negative w then signBit else 0) + pattern w := by
  have hw := toNat_lt w
  simp only [negative, pattern, signBit, Nat.shiftLeft_eq, decide_eq_true_eq]
  split <;> omega

/-- A word is known by its sign and its pattern. -/
theorem eq_of_pattern_eq {w w' : UInt64} (hnegative : negative w = negative w')
    (hpattern : pattern w = pattern w') : w = w' := by
  refine UInt64.toNat_inj.mp ?_
  rw [toNat_eq, toNat_eq, hnegative, hpattern]

/-- The word with a given sign and a given pattern. -/
theorem exists_word {p : Nat} (b : Bool) (h : p < signBit) :
    ∃ w, negative w = b ∧ pattern w = p := by
  have hlt : (if b then signBit else 0) + p < 2 ^ 64 := by
    simp only [signBit, Nat.shiftLeft_eq] at h ⊢
    split <;> omega
  refine ⟨UInt64.ofNat ((if b then signBit else 0) + p), ?_, ?_⟩
  · rw [negative, UInt64.toNat_ofNat_of_lt' hlt]
    cases b with
    | false => exact decide_eq_false (by rw [if_neg Bool.false_ne_true]; omega)
    | true => exact decide_eq_true (by rw [if_pos rfl]; omega)
  · rw [pattern, UInt64.toNat_ofNat_of_lt' hlt]
    cases b with
    | false => rw [if_neg Bool.false_ne_true, Nat.zero_add, Nat.mod_eq_of_lt h]
    | true => rw [if_pos rfl, Nat.add_mod_left, Nat.mod_eq_of_lt h]

theorem negative_iff : negative w = true ↔ sign w = 1 := by
  have hw := toNat_lt w
  simp only [negative, sign, signBit, Nat.shiftLeft_eq, decide_eq_true_eq]
  omega

end Word

/-! ## Words that are packed again

The logic takes a number for a word by unpacking the word into its fields and packing the fields
again. -/

section Packing

open Float.Model Float.Model.UnpackedFloat

variable (b : BitVec Format.binary64.numBits)

theorem toNat_unpackExponent : (unpackExponent b).toNat = b.toNat / 2 ^ 52 % 2 ^ 11 := by
  simp only [unpackExponent, BitVec.toNat_cast, BitVec.extractLsb_toNat, Nat.shiftRight_eq_div_pow]

theorem toNat_unpackMantissa : (unpackMantissa b).toNat = b.toNat % 2 ^ 52 := by
  simp only [unpackMantissa, BitVec.toNat_cast, BitVec.extractLsb_toNat, Nat.shiftRight_zero]

variable {b}

theorem unpackExponent_eq_neg_one_iff :
    unpackExponent b = -1#_ ↔ b.toNat / 2 ^ 52 % 2 ^ 11 = 2047 := by
  rw [← BitVec.toNat_inj, toNat_unpackExponent]
  exact Iff.rfl

theorem unpackMantissa_eq_zero_iff : unpackMantissa b = 0#_ ↔ b.toNat % 2 ^ 52 = 0 := by
  rw [← BitVec.toNat_inj, toNat_unpackMantissa]
  exact Iff.rfl

end Packing

/-! ## Words and numbers -/

section

open Float.Model

variable {w : UInt64}

/-- **A word is kept bit for bit** in the number that it is, unless it is not a number. -/
theorem toBits_ofBits (h : ¬ Word.IsNaN w) : (Float.ofBits w).toBits = w := by
  have hvalid : Format.binary64.Valid w.toBitVec := by
    refine ⟨fun hexponent hmantissa ↦ absurd ?_ h⟩
    exact ⟨unpackExponent_eq_neg_one_iff.mp hexponent,
      fun hfraction ↦ hmantissa (unpackMantissa_eq_zero_iff.mpr hfraction)⟩
  exact congrArg UInt64.ofBitVec (UnpackedFloat.pack_unpack_of_valid hvalid)

theorem unpack_of_isNaN (h : Word.IsNaN w) :
    UnpackedFloat.unpack Format.binary64 w.toBitVec = .notANumber := by
  rw [UnpackedFloat.unpack]
  dsimp only
  rw [if_pos (unpackExponent_eq_neg_one_iff.mpr h.1),
    if_neg fun hzero ↦ h.2 (unpackMantissa_eq_zero_iff.mp hzero)]

/-- Words that are not numbers are all the same. -/
theorem ofBits_of_isNaN (h : Word.IsNaN w) : Float.ofBits w = undefined := by
  have hbits : Float.ofBits w = .ofModel (Float.Model.pack .notANumber) := by
    rw [← unpack_of_isNaN h]
    rfl
  rw [hbits]
  decide

end

/-! ## Numbers taken apart -/

variable {w : UInt64}

theorem ofBits_eq_signed (w : UInt64) :
    Float.ofBits w = signed (Word.negative w) (Word.pattern w) := by
  have hparts : (if Word.negative w then signBit + Word.pattern w else Word.pattern w) =
      w.toNat := by
    rw [Word.toNat_eq]
    split <;> omega
  rw [signed, hparts, UInt64.ofNat_toNat]

theorem exact_of_isFinite (h : Word.IsFinite w) :
    exact (Float.ofBits w) = .finite (Word.negative w) (quantaOfPattern (Word.pattern w)) := by
  rw [exact, toBits_ofBits fun hnan ↦ h hnan.1]
  exact if_pos ((Word.isFinite_iff w).mp h)

theorem exact_signed (b : Bool) {p : Nat} (h : p < infinitePattern) :
    exact (signed b p) = .finite b (quantaOfPattern p) := by
  obtain ⟨w, rfl, rfl⟩ := Word.exists_word b (h.trans (by decide))
  rw [← ofBits_eq_signed, exact_of_isFinite ((Word.isFinite_iff w).mpr h)]

theorem exact_of_pattern_eq (h : Word.pattern w = infinitePattern) :
    exact (Float.ofBits w) = .infinite (Word.negative w) := by
  have hnan : ¬ Word.IsNaN w := by
    rw [Word.isNaN_iff, h]
    exact Nat.lt_irrefl _
  rw [exact, toBits_ofBits hnan]
  change (if Word.pattern w < infinitePattern then _ else if Word.pattern w = infinitePattern
    then _ else _) = _
  rw [if_neg (Nat.not_lt.mpr h.ge), if_pos h]
  rfl

theorem exact_of_isNaN (h : Word.IsNaN w) : exact (Float.ofBits w) = .undefined := by
  rw [ofBits_of_isNaN h]
  decide

end BlockScript.Number
