import BlockScript.Proofs.Number.Bits
import BlockScript.Proofs.Number.Magnitude

/-!
# Unpacked numbers

The logic calculates with unpacked numbers, a sign with a significand and an exponent. `Unpacks`
puts the two ways of taking a number apart next to each other: what `exact` makes of it, and what it
is unpacked to. Every number is one of four kinds (`unpacks`), and what an operation on numbers does
to quanta is read off these.

Exponents are counted from that of one quantum. A zero is unpacked without a significand.
-/

namespace BlockScript.Number

open Float.Model Float.Model.UnpackedFloat

variable {w : UInt64}

def signOf : Bool → Sign
  | true => .negative
  | false => .positive

/-- A number taken apart, and unpacked. -/
inductive Unpacks : Exact → UnpackedFloat → Prop where
  | undefined : Unpacks .undefined .notANumber
  | infinite (negative : Bool) : Unpacks (.infinite negative) (.infinity (signOf negative))
  | zero (negative : Bool) : Unpacks (.finite negative 0) (.zero (signOf negative))
  | finite (negative : Bool) {power significand : Nat} (hscaled : Scaled power significand)
    (hpos : 0 < significand) :
    Unpacks (.finite negative (significand * 2 ^ power))
      (.finite (signOf negative) significand ((power : Int) - 1074) hpos)

/-! ## The fields of a word -/

section

variable (w)

private theorem ofBitVec_unpackSign :
    Sign.ofBitVec (@unpackSign Format.binary64 w.toBitVec) = signOf (Word.negative w) := by
  have hw : w.toNat < 2 ^ 64 := w.toBitVec.isLt
  have hsign : (@unpackSign Format.binary64 w.toBitVec).toNat = w.toNat / 2 ^ 63 := by
    simp only [unpackSign, BitVec.toNat_cast, BitVec.extractLsb_toNat, Nat.shiftRight_eq_div_pow]
    change w.toNat / 2 ^ 63 % 2 ^ 1 = w.toNat / 2 ^ 63
    omega
  rw [Word.negative, signBit, Nat.one_shiftLeft]
  by_cases hnegative : 2 ^ 63 ≤ w.toNat
  · have hone : @unpackSign Format.binary64 w.toBitVec = 1#1 := by
      refine BitVec.eq_of_toNat_eq (hsign.trans ?_)
      change w.toNat / 2 ^ 63 = 1
      omega
    rw [hone, decide_eq_true hnegative]
    rfl
  · have hzero : @unpackSign Format.binary64 w.toBitVec = 0#1 := by
      refine BitVec.eq_of_toNat_eq (hsign.trans ?_)
      change w.toNat / 2 ^ 63 = 0
      omega
    rw [hzero, decide_eq_false hnegative]
    rfl

private theorem toNat_leading (m : BitVec 52) : (1#1 ++ m).toNat = leadingBit + m.toNat := by
  rw [BitVec.toNat_append, ← Nat.shiftLeft_add_eq_or_of_lt m.isLt]
  rfl

private theorem unpackExponent_eq_zero_iff :
    @unpackExponent Format.binary64 w.toBitVec = 0#_ ↔ Word.exponent w = 0 := by
  rw [← BitVec.toNat_inj, toNat_unpackExponent]
  exact Iff.rfl

end

/-! ## The four kinds -/

private theorem unpack_of_infinite (hexponent : Word.exponent w = 2047)
    (hfraction : Word.fraction w = 0) :
    UnpackedFloat.unpack Format.binary64 w.toBitVec = .infinity (signOf (Word.negative w)) := by
  rw [UnpackedFloat.unpack]
  dsimp only
  rw [if_pos (unpackExponent_eq_neg_one_iff.mpr hexponent),
    if_pos (unpackMantissa_eq_zero_iff.mpr hfraction), ofBitVec_unpackSign]

private theorem unpack_of_zero (hexponent : Word.exponent w = 0) (hfraction : Word.fraction w = 0) :
    UnpackedFloat.unpack Format.binary64 w.toBitVec = .zero (signOf (Word.negative w)) := by
  have hlast : @unpackExponent Format.binary64 w.toBitVec ≠ -1#_ := by
    rw [Ne, unpackExponent_eq_neg_one_iff]
    intro hlast
    exact absurd (hexponent.symm.trans hlast) (by decide)
  rw [UnpackedFloat.unpack]
  dsimp only
  rw [if_neg hlast, if_pos ((unpackExponent_eq_zero_iff w).mpr hexponent),
    dif_pos (unpackMantissa_eq_zero_iff.mpr hfraction), ofBitVec_unpackSign]

/-- Below the leading bit, the fraction is the significand. -/
private theorem unpack_of_subnormal (hexponent : Word.exponent w = 0) (hpos : 0 < Word.fraction w) :
    UnpackedFloat.unpack Format.binary64 w.toBitVec =
      .finite (signOf (Word.negative w)) (Word.fraction w) (-1074) hpos := by
  have hlast : @unpackExponent Format.binary64 w.toBitVec ≠ -1#_ := by
    rw [Ne, unpackExponent_eq_neg_one_iff]
    intro hlast
    exact absurd (hexponent.symm.trans hlast) (by decide)
  have hzero := (unpackExponent_eq_zero_iff w).mpr hexponent
  have hne : @unpackMantissa Format.binary64 w.toBitVec ≠ 0#_ := by
    rw [Ne, unpackMantissa_eq_zero_iff]
    exact hpos.ne'
  rw [UnpackedFloat.unpack]
  dsimp only
  rw [if_neg hlast, if_pos hzero, dif_neg hne]
  simp only [UnpackedFloat.finite.injEq]
  refine ⟨ofBitVec_unpackSign w, toNat_unpackMantissa _, ?_⟩
  rw [hzero]
  rfl

/-- Otherwise the leading bit comes in front of the fraction. -/
private theorem unpack_of_normal (hexponent : Word.exponent w ≠ 0) (hfinite : Word.IsFinite w)
    (hpos : 0 < leadingBit + Word.fraction w) :
    UnpackedFloat.unpack Format.binary64 w.toBitVec =
      .finite (signOf (Word.negative w)) (leadingBit + Word.fraction w)
        ((Word.exponent w : Int) - 1075) hpos := by
  have hlast : @unpackExponent Format.binary64 w.toBitVec ≠ -1#_ := by
    rw [Ne, unpackExponent_eq_neg_one_iff]
    exact hfinite
  rw [UnpackedFloat.unpack]
  dsimp only
  rw [if_neg hlast, if_neg ((unpackExponent_eq_zero_iff w).not.mpr hexponent)]
  simp only [UnpackedFloat.finite.injEq]
  refine ⟨ofBitVec_unpackSign w, ?_, ?_⟩
  · rw [toNat_leading, toNat_unpackMantissa]
    rfl
  · rw [toNat_unpackExponent]
    rfl

private theorem unpacks_of_isFinite (h : Word.IsFinite w) :
    Unpacks (exact (Float.ofBits w)) (UnpackedFloat.unpack Format.binary64 w.toBitVec) := by
  have hlt := Word.fraction_lt w
  rw [exact_of_isFinite h, Word.pattern_eq]
  by_cases hexponent : Word.exponent w = 0
  · have hscaled : Scaled 0 (Word.fraction w) := ⟨by omega, fun h ↦ absurd rfl h⟩
    have hquanta := hscaled.quantaOfPattern_eq
    rw [hexponent, hquanta]
    by_cases hfraction : Word.fraction w = 0
    · rw [unpack_of_zero hexponent hfraction, hfraction]
      exact .zero _
    · have hpos := Nat.pos_of_ne_zero hfraction
      rw [unpack_of_subnormal hexponent hpos]
      exact .finite _ hscaled hpos
  · obtain ⟨power, hpower⟩ := Nat.exists_eq_succ_of_ne_zero hexponent
    have hscaled : Scaled power (leadingBit + Word.fraction w) :=
      ⟨by omega, fun _ ↦ Nat.le_add_right _ _⟩
    have hpos : 0 < leadingBit + Word.fraction w := Nat.add_pos_left (by decide) _
    have hpattern : Word.exponent w * leadingBit + Word.fraction w =
        power * leadingBit + (leadingBit + Word.fraction w) := by
      rw [hpower, Nat.succ_mul, Nat.add_assoc]
    have hplace : (Word.exponent w : Int) - 1075 = (power : Int) - 1074 := by omega
    rw [hpattern, hscaled.quantaOfPattern_eq, unpack_of_normal hexponent h hpos]
    simp only [hplace]
    exact .finite _ hscaled hpos

/-- **Every number is unpacked to what it is**, for each of the four kinds. -/
theorem unpacks (x : Float) : Unpacks (exact x) x.toModel.unpack := by
  obtain ⟨w, hw⟩ : ∃ w, x.toBits = w := ⟨_, rfl⟩
  have hexact : exact x = exact (Float.ofBits w) := by rw [← hw, Float.ofBits_toBits]
  change Unpacks (exact x) (UnpackedFloat.unpack Format.binary64 x.toBits.toBitVec)
  rw [hexact, hw]
  by_cases hexponent : Word.exponent w = 2047
  · by_cases hfraction : Word.fraction w = 0
    · have hpattern : Word.pattern w = infinitePattern := by
        rw [Word.pattern_eq, hexponent, hfraction, Nat.add_zero, infinitePattern]
      rw [exact_of_pattern_eq hpattern, unpack_of_infinite hexponent hfraction]
      exact .infinite _
    · have hnan : Word.IsNaN w := ⟨hexponent, hfraction⟩
      rw [exact_of_isNaN hnan, unpack_of_isNaN hnan]
      exact .undefined
  · exact unpacks_of_isFinite hexponent

/-! ## Finite numbers -/

variable {x : Float} {negative : Bool} {quanta : Nat}

theorem exact_of_pattern_eq_zero (h : Word.pattern x.toBits = 0) :
    exact x = .finite (Word.negative x.toBits) 0 := by
  have hfinite : Word.IsFinite x.toBits := by
    rw [Word.isFinite_iff, h]
    decide
  have hexact := exact_of_isFinite hfinite
  rwa [Float.ofBits_toBits, h, quantaOfPattern_eq_zero_iff.mpr rfl] at hexact

theorem unpack_of_exact_zero (h : exact x = .finite negative 0) :
    x.toModel.unpack = .zero (signOf negative) := by
  have hkind := unpacks x
  rw [h] at hkind
  generalize hzero : 0 = quanta at hkind
  generalize x.toModel.unpack = u at hkind ⊢
  cases hkind with
  | zero => rfl
  | finite _ hscaled hpos => exact absurd hzero.symm (Nat.mul_pos hpos (Nat.two_pow_pos _)).ne'

theorem unpack_of_exact_pos (h : exact x = .finite negative quanta) (hquanta : 0 < quanta) :
    ∃ power significand, Scaled power significand ∧ quanta = significand * 2 ^ power ∧
      ∃ hpos : 0 < significand, x.toModel.unpack =
        .finite (signOf negative) significand ((power : Int) - 1074) hpos := by
  have hkind := unpacks x
  rw [h] at hkind
  generalize x.toModel.unpack = u at hkind ⊢
  cases hkind with
  | zero => exact absurd hquanta (Nat.lt_irrefl 0)
  | finite _ hscaled hpos => exact ⟨_, _, hscaled, rfl, hpos, rfl⟩

end BlockScript.Number
