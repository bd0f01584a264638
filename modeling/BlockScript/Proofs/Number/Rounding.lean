import BlockScript.Proofs.Number.Nearest
import Mathlib

/-!
# Rounding unpacked numbers

The logic calculates with unpacked numbers, a significand and an exponent each. A result is rounded
by shifting its significand to the right until it fits, and two further bits keep what has been
shifted out. These bits say on which side of the middle the rest lies (`Represents`). So what is
packed again is the nearest magnitude, the same one as for a numeral (`toNat_pack_round`).
-/

namespace BlockScript.Number

open Float.Model Float.Model.UnpackedFloat

variable {num step power significand shift : Nat}

/-! ## Shifting with two further bits -/

/-- `num` is so many steps and a rest, of which the two further bits say whether it is nothing, less
than half a step, half a step, or more. -/
def Represents (em : ExtendedMantissa) (num step : Nat) : Prop :=
  match em.roundBit, em.stickyBit with
  | false, false => num = em.mantissa * step
  | false, true => em.mantissa * step < num ∧ 2 * num < 2 * (em.mantissa * step) + step
  | true, false => 2 * num = 2 * (em.mantissa * step) + step
  | true, true => 2 * (em.mantissa * step) + step < 2 * num ∧ num < em.mantissa * step + step

namespace Represents

variable {em : ExtendedMantissa}

private theorem shiftRightOne (hstep : 0 < step) (h : Represents em num step) :
    Represents em.shiftRightOne num (2 * step) := by
  obtain ⟨mantissa, roundBit, stickyBit⟩ := em
  have hhalf : mantissa / 2 * (2 * step) = 2 * (mantissa / 2 * step) := by ring
  obtain hbit | hbit : mantissa % 2 = 0 ∨ mantissa % 2 = 1 := by omega
  · have hmantissa : mantissa * step = 2 * (mantissa / 2 * step) := by
      conv_lhs => rw [← Nat.div_add_mod mantissa 2, hbit]
      ring
    cases roundBit <;> cases stickyBit <;>
      simp only [Represents, ExtendedMantissa.shiftRightOne, hbit, hhalf, hmantissa,
        bne_self_eq_false, Bool.or_false, Bool.or_true] at h ⊢ <;> omega
  · have hmantissa : mantissa * step = 2 * (mantissa / 2 * step) + step := by
      conv_lhs => rw [← Nat.div_add_mod mantissa 2, hbit]
      ring
    have hone : (1 != 0) = true := rfl
    cases roundBit <;> cases stickyBit <;>
      simp only [Represents, ExtendedMantissa.shiftRightOne, hbit, hhalf, hmantissa, hone,
        Bool.or_false, Bool.or_true] at h ⊢ <;> omega

private theorem shiftRight (hstep : 0 < step) (h : Represents em num step) (n : Nat) :
    Represents (em >>> n) num (2 ^ n * step) := by
  change Represents (n.repeat ExtendedMantissa.shiftRightOne em) _ _
  induction n with
  | zero => rwa [pow_zero, Nat.one_mul]
  | succ n ih =>
    have hdouble : 2 ^ (n + 1) * step = 2 * (2 ^ n * step) := by ring
    rw [hdouble]
    exact ih.shiftRightOne (Nat.mul_pos (Nat.two_pow_pos n) hstep)

/-- The two bits are enough to find the nearest multiple. -/
theorem nearest (hstep : 0 < step) (h : Represents em num step) :
    Nearest num step em.roundedMantissa := by
  obtain ⟨mantissa, roundBit, stickyBit⟩ := em
  have hsucc : (mantissa + 1) * step = mantissa * step + step := Nat.succ_mul _ _
  cases roundBit with
  | false =>
    -- the rest is less than half a step
    have hrounded : ExtendedMantissa.roundedMantissa ⟨mantissa, false, stickyBit⟩ = mantissa := by
      cases stickyBit <;> rfl
    rw [hrounded]
    cases stickyBit <;> simp only [Represents] at h <;>
      exact ⟨by omega, by omega, fun htie ↦ by omega⟩
  | true =>
    cases stickyBit with
    | true =>
      change Nearest num step (mantissa + 1)
      simp only [Represents] at h
      exact ⟨by omega, by omega, fun htie ↦ by omega⟩
    | false =>
      change Nearest num step (mantissa + mantissa % 2)
      simp only [Represents] at h
      obtain hbit | hbit : mantissa % 2 = 0 ∨ mantissa % 2 = 1 := by omega
      · rw [hbit, Nat.add_zero]
        exact ⟨by omega, by omega, fun _ ↦ hbit⟩
      · rw [hbit]
        exact ⟨by omega, by omega, fun _ ↦ by omega⟩

end Represents

/-! ## Rounding an unpacked number -/

private theorem log2_mul_two_pow {n : Nat} (hn : n ≠ 0) (shift : Nat) :
    (n * 2 ^ shift).log2 = n.log2 + shift := by
  rw [Nat.log2_eq_iff (Nat.mul_ne_zero hn (Nat.two_pow_pos shift).ne')]
  constructor
  · rw [pow_add]
    exact Nat.mul_le_mul_right _ (Nat.log2_self_le hn)
  · have hsplit : 2 ^ (n.log2 + shift + 1) = 2 ^ (n.log2 + 1) * 2 ^ shift := by ring
    rw [hsplit]
    exact Nat.mul_lt_mul_of_pos_right Nat.lt_log2_self (Nat.two_pow_pos shift)

variable {mantissa : Nat}

/-- Exponents are counted from that of one quantum, and the one that is aimed at is the spacing. -/
theorem targetExponent_eq (hmantissa : mantissa ≠ 0) (shift : Nat) :
    Format.binary64.targetExponent (totalExponent mantissa ((shift : Int) - 1074)) =
      (spacing (mantissa * 2 ^ shift) : Int) - 1074 := by
  change max ((mantissa.log2 : Int) + 1 + ((shift : Int) - 1074) - 53) (-1074) = _
  rw [spacing, log2_mul_two_pow hmantissa]
  omega

private theorem shiftToTargetExponent_eq (hmantissa : mantissa ≠ 0) {t : Nat}
    (ht : spacing (mantissa * 2 ^ shift) = t) (hshift : shift ≤ t) :
    shiftToTargetExponent Format.binary64 mantissa ((shift : Int) - 1074) .exact =
      ((⟨mantissa, false, false⟩ : ExtendedMantissa) >>> (t - shift), (t : Int) - 1074) := by
  have hamount : ((t : Int) - 1074 - ((shift : Int) - 1074)).toNat = t - shift := by omega
  have hexponent : (shift : Int) - 1074 + ((t - shift : Nat) : Int) = (t : Int) - 1074 := by omega
  unfold shiftToTargetExponent
  dsimp only
  rw [targetExponent_eq hmantissa, ht]
  unfold shiftToExponent
  dsimp only
  rw [hamount, hexponent]
  rfl

/-- Rounding shifts, rounds, and shifts again in case of a carry. -/
theorem roundWithAccuracy_of_shifts (s : Sign) {e e₁ e₂ : Int} {accuracy : Accuracy}
    {em₁ em₂ : ExtendedMantissa}
    (h₁ : shiftToTargetExponent Format.binary64 mantissa e accuracy = (em₁, e₁))
    (h₂ : shiftToTargetExponent Format.binary64 em₁.roundedMantissa e₁ .exact = (em₂, e₂))
    (hpos : 0 < em₂.mantissa) :
    roundWithAccuracy Format.binary64 s mantissa e accuracy = .finite s em₂.mantissa e₂ hpos := by
  rw [roundWithAccuracy, h₁]
  dsimp only
  rw [h₂]
  exact dif_neg hpos.ne'

/-- **Rounding takes the nearest magnitude**, the same one as for a fraction of quanta. -/
theorem roundWithAccuracy_eq (s : Sign) (hmantissa : mantissa ≠ 0)
    (hshift : shift ≤ spacing (mantissa * 2 ^ shift)) :
    ∃ power significand, ∃ hpos : 0 < significand, Scaled power significand ∧
      roundWithAccuracy Format.binary64 s mantissa ((shift : Int) - 1074) .exact =
        .finite s significand ((power : Int) - 1074) hpos ∧
      nearestPattern (mantissa * 2 ^ shift) 1 =
        min (power * leadingBit + significand) infinitePattern := by
  obtain ⟨t, ht⟩ : ∃ t, spacing (mantissa * 2 ^ shift) = t := ⟨_, rfl⟩
  rw [ht] at hshift
  have hfirst := shiftToTargetExponent_eq hmantissa ht hshift
  have hnearest : Nearest (mantissa * 2 ^ shift) (2 ^ t)
      ((⟨mantissa, false, false⟩ : ExtendedMantissa) >>> (t - shift)).roundedMantissa := by
    have hstart : Represents ⟨mantissa, false, false⟩ (mantissa * 2 ^ shift) (2 ^ shift) := rfl
    have hshifted := hstart.shiftRight (Nat.two_pow_pos shift) (t - shift)
    rw [← pow_add, Nat.sub_add_cancel hshift] at hshifted
    exact hshifted.nearest (Nat.two_pow_pos t)
  generalize (⟨mantissa, false, false⟩ : ExtendedMantissa) >>> (t - shift) = em at hfirst hnearest
  have hquanta : mantissa * 2 ^ shift ≠ 0 := Nat.mul_ne_zero hmantissa (Nat.two_pow_pos shift).ne'
  have hpattern : nearestPattern (mantissa * 2 ^ shift) 1 =
      min (t * leadingBit + em.roundedMantissa) infinitePattern := by
    refine nearestPattern_eq (by decide) ?_ ?_
    · rw [Nat.div_one, ht]
    · rwa [Nat.one_mul]
  obtain ⟨hpos, hle, hleading⟩ := hnearest.bounds hquanta ht
  rw [hpattern]
  by_cases hlt : em.roundedMantissa < 2 * leadingBit
  · have hscaled : Scaled t em.roundedMantissa := ⟨hlt, hleading⟩
    have hsecond := shiftToTargetExponent_eq hpos.ne' hscaled.spacing_eq (Nat.le_refl t)
    rw [Nat.sub_self] at hsecond
    exact ⟨t, _, hpos, hscaled, roundWithAccuracy_of_shifts s hfirst hsecond hpos, rfl⟩
  · -- a carry: the bit that is shifted out is zero
    have hcarry : em.roundedMantissa = 2 * leadingBit := by omega
    have hscaled : Scaled (t + 1) leadingBit := ⟨by decide, fun _ ↦ Nat.le_refl _⟩
    have hspacing : spacing (em.roundedMantissa * 2 ^ t) = t + 1 := by
      have hsplit : em.roundedMantissa * 2 ^ t = leadingBit * 2 ^ (t + 1) := by
        rw [hcarry]
        ring
      rw [hsplit, hscaled.spacing_eq]
    have hsecond := shiftToTargetExponent_eq hpos.ne' hspacing (Nat.le_succ t)
    rw [Nat.add_sub_cancel_left] at hsecond
    have hhalf :
        ((⟨em.roundedMantissa, false, false⟩ : ExtendedMantissa) >>> 1).mantissa = leadingBit := by
      rw [hcarry]
      rfl
    refine ⟨t + 1, _, hhalf ▸ (by decide), hhalf ▸ hscaled,
      roundWithAccuracy_of_shifts s hfirst hsecond (hhalf ▸ (by decide)), ?_⟩
    have hpattern : t * leadingBit + 2 * leadingBit = (t + 1) * leadingBit + leadingBit := by ring
    rw [hhalf, hcarry, hpattern]

/-- The exponent is decreased first if there is room for further bits, which changes no quantum. -/
theorem round_eq (s : Sign) (hmantissa : mantissa ≠ 0) (shift : Nat) :
    ∃ power significand, ∃ hpos : 0 < significand, Scaled power significand ∧
      UnpackedFloat.round Format.binary64 s mantissa ((shift : Int) - 1074) =
        .finite s significand ((power : Int) - 1074) hpos ∧
      nearestPattern (mantissa * 2 ^ shift) 1 =
        min (power * leadingBit + significand) infinitePattern := by
  obtain ⟨t, ht⟩ : ∃ t, spacing (mantissa * 2 ^ shift) = t := ⟨_, rfl⟩
  have hamount : ((shift : Int) - 1074 - ((t : Int) - 1074)).toNat = shift - t := by omega
  have hexponent : (shift : Int) - 1074 - ((shift - t : Nat) : Int) =
      ((shift - (shift - t) : Nat) : Int) - 1074 := by omega
  have hquanta : mantissa * 2 ^ (shift - t) * 2 ^ (shift - (shift - t)) = mantissa * 2 ^ shift := by
    rw [mul_assoc, ← pow_add, Nat.add_sub_of_le (Nat.sub_le shift t)]
  have hne : mantissa * 2 ^ (shift - t) ≠ 0 :=
    Nat.mul_ne_zero hmantissa (Nat.two_pow_pos (shift - t)).ne'
  have hround : UnpackedFloat.round Format.binary64 s mantissa ((shift : Int) - 1074) =
      roundWithAccuracy Format.binary64 s (mantissa * 2 ^ (shift - t))
        (((shift - (shift - t) : Nat) : Int) - 1074) .exact := by
    unfold UnpackedFloat.round
    dsimp only
    rw [targetExponent_eq hmantissa, ht]
    unfold decreaseExponent
    dsimp only
    rw [hamount, hexponent, Nat.shiftLeft_eq]
  rw [hround, ← hquanta]
  refine roundWithAccuracy_eq s hne ?_
  rw [hquanta, ht]
  omega

/-! ## Packing a magnitude -/

private theorem toNat_packComponents (s : Sign) (e : BitVec 11) (m : BitVec 52) :
    (packComponents Format.binary64 s e m).toNat =
      s.toBitVec.toNat * 2 ^ 63 + e.toNat * 2 ^ 52 + m.toNat := by
  rw [packComponents, BitVec.toNat_append, BitVec.toNat_append,
    ← Nat.shiftLeft_add_eq_or_of_lt m.isLt, ← Nat.shiftLeft_add_eq_or_of_lt e.isLt,
    Nat.shiftLeft_eq, Nat.shiftLeft_eq]
  omega

private theorem pack_normal {s : Sign} {n e : Nat} {exponent : Int} {hn : 0 < n} (hlow : 2 ^ 52 ≤ n)
    (hhigh : n < 2 ^ 53) (he : e < 2047) (hexponent : exponent = e - 1075) :
    UnpackedFloat.pack Format.binary64 (.finite s n exponent hn) =
      packComponents Format.binary64 s (BitVec.ofNat 11 e) (BitVec.ofNat 52 n) := by
  have hne : n ≠ 0 := Nat.ne_of_gt hn
  have hlog : n.log2 + 1 = Format.binary64.mantissaBits := by
    have hge := (Nat.le_log2 hne).mpr hlow
    have hlt := (Nat.log2_lt hne).mpr hhigh
    change n.log2 + 1 = 53
    omega
  have hbiased : (exponent + Format.binary64.exponentBias +
      Format.binary64.mantissaBitsWithoutImplicit).toNat = e := by
    rw [hexponent]
    change ((e : Int) - 1075 + 1023 + 52).toNat = e
    omega
  have hfinite : ¬ 2 ^ Format.binary64.exponentBits ≤ e + 1 := by
    change ¬ 2048 ≤ e + 1
    omega
  simp only [UnpackedFloat.pack, hbiased, if_neg hfinite, if_pos hlog]

private theorem pack_subnormal {s : Sign} {n : Nat} {exponent : Int} {hn : 0 < n}
    (hhigh : n < 2 ^ 52) (hexponent : exponent = -1074) :
    UnpackedFloat.pack Format.binary64 (.finite s n exponent hn) =
      packComponents Format.binary64 s 0#_ (BitVec.ofNat 52 n) := by
  have hlog : ¬ n.log2 + 1 = Format.binary64.mantissaBits := by
    have hlt := (Nat.log2_lt (Nat.ne_of_gt hn)).mpr hhigh
    change ¬ n.log2 + 1 = 53
    omega
  rw [hexponent]
  simp only [UnpackedFloat.pack, if_neg hlog]
  exact if_neg (by decide)

private theorem toNat_packComponents_positive {e m : Nat} (he : e < 2 ^ 11) :
    (packComponents Format.binary64 .positive (BitVec.ofNat 11 e) (BitVec.ofNat 52 m)).toNat =
      e * leadingBit + m % leadingBit := by
  rw [toNat_packComponents, BitVec.toNat_ofNat, BitVec.toNat_ofNat, Nat.mod_eq_of_lt he,
    leadingBit_eq]
  change 0 * 2 ^ 63 + _ + _ = _
  omega

private theorem pack_overflow (hpos : 0 < significand) (h : 2046 ≤ power) :
    UnpackedFloat.pack Format.binary64 (.finite .positive significand ((power : Int) - 1074) hpos) =
      packedInfinity Format.binary64 .positive := by
  have hlarge : 2 ^ Format.binary64.exponentBits ≤ ((power : Int) - 1074 +
      Format.binary64.exponentBias + Format.binary64.mantissaBitsWithoutImplicit).toNat + 1 := by
    change 2048 ≤ ((power : Int) - 1074 + 1023 + 52).toNat + 1
    omega
  exact if_pos hlarge

/-- A magnitude is packed as its pattern, and as the infinite one if it is too large. -/
theorem toNat_pack (hpos : 0 < significand) (h : Scaled power significand) :
    (UnpackedFloat.pack Format.binary64
      (.finite .positive significand ((power : Int) - 1074) hpos)).toNat =
      min (power * leadingBit + significand) infinitePattern := by
  have hlt := h.lt
  have hleadingBit := leadingBit_eq
  rw [infinitePattern]
  by_cases hleading : leadingBit ≤ significand
  · by_cases hfinite : power + 1 < 2047
    · -- the leading bit is not stored, and counts as one more in the exponent
      have hmod : significand % leadingBit = significand - leadingBit := by
        rw [Nat.mod_eq_sub_mod hleading, Nat.mod_eq_of_lt (by omega)]
      have hle : (power + 1) * leadingBit ≤ 2046 * leadingBit := Nat.mul_le_mul_right _ (by omega)
      rw [pack_normal (e := power + 1) (by omega) (by omega) hfinite (by omega),
        toNat_packComponents_positive (by omega), hmod, Nat.min_eq_left]
      · rw [Nat.succ_mul]
        omega
      · rw [Nat.succ_mul] at hle
        omega
    · have hinfinite : (packedInfinity Format.binary64 .positive).toNat = 2047 * leadingBit := by
        decide
      have hle : 2046 * leadingBit ≤ power * leadingBit := Nat.mul_le_mul_right _ (by omega)
      rw [pack_overflow hpos (by omega), hinfinite, Nat.min_eq_right]
      omega
  · have hpower : power = 0 := by
      by_contra hne
      exact hleading (h.leading_le hne)
    subst hpower
    have hzero :
        (packComponents Format.binary64 .positive 0#_ (BitVec.ofNat 52 significand)).toNat =
          0 * leadingBit + significand % leadingBit :=
      toNat_packComponents_positive (e := 0) (by decide)
    have hexponent : ((0 : Nat) : Int) - 1074 = -1074 := rfl
    rw [hexponent, pack_subnormal (hleadingBit ▸ Nat.not_le.mp hleading) rfl, hzero,
      Nat.mod_eq_of_lt (Nat.not_le.mp hleading), Nat.min_eq_left]
    omega

/-- **What is rounded and packed is the nearest magnitude**, the same one as for a numeral. -/
theorem toNat_pack_round (hmantissa : mantissa ≠ 0) (shift : Nat) :
    (UnpackedFloat.pack Format.binary64
      (UnpackedFloat.round Format.binary64 .positive mantissa ((shift : Int) - 1074))).toNat =
      nearestPattern (mantissa * 2 ^ shift) 1 := by
  obtain ⟨power, significand, hpos, hscaled, hround, hpattern⟩ := round_eq .positive hmantissa shift
  rw [hround, toNat_pack hpos hscaled, hpattern]

end BlockScript.Number
