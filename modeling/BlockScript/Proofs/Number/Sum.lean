import BlockScript.Proofs.Number.Count
import BlockScript.Proofs.Number.Rounding
import BlockScript.Proofs.Number.Unpacked

/-!
# Sums of counts

A sum of numbers is rounded, and the sum of two counts need not be a count. It is never a wrong one,
though: the sum of two counts counts as their sum, or it does not count at all (`count?_add`).

Sums are made of unpacked words. Both significands are brought to one exponent and added there, and
the sum is rounded as a numeral is (`add_signed`). The two zeros are apart: they have no
significand.
-/

namespace BlockScript.Number

open Float.Model Float.Model.UnpackedFloat

variable {power significand : Nat}

/-! ## Sums -/

private theorem toBits_add (x y : Float) :
    (x + y).toBits.toNat = (UnpackedFloat.pack Format.binary64 (UnpackedFloat.add Format.binary64
      x.toModel.unpack y.toModel.unpack)).toNat := rfl

private theorem normalize_natCast {mantissa : Nat} {exponent : Int} {s : Sign}
    (hmantissa : mantissa ≠ 0) :
    UnpackedFloat.normalize Format.binary64 (mantissa : Int) exponent s =
      UnpackedFloat.round Format.binary64 .positive mantissa exponent := by
  have hcompare : compare (mantissa : Int) 0 = .gt := by
    rw [Int.compare_eq_gt]
    omega
  rw [UnpackedFloat.normalize, hcompare]
  rfl

/-- Two magnitudes are brought to one exponent and added there, so that as many quanta are rounded
as both have together. -/
theorem toNat_pack_add {power' significand' : Nat} (hpos : 0 < significand)
    (hpos' : 0 < significand') :
    (UnpackedFloat.pack Format.binary64 (UnpackedFloat.add Format.binary64
      (.finite .positive significand ((power : Int) - 1074) hpos)
      (.finite .positive significand' ((power' : Int) - 1074) hpos'))).toNat =
      nearestPattern (significand * 2 ^ power + significand' * 2 ^ power') 1 := by
  obtain ⟨low, hlow⟩ : ∃ low, min power power' = low := ⟨_, rfl⟩
  have hmin : min ((power : Int) - 1074) ((power' : Int) - 1074) = (low : Int) - 1074 := by omega
  have hamount : ((power : Int) - 1074 - ((low : Int) - 1074)).toNat = power - low := by omega
  have hamount' : ((power' : Int) - 1074 - ((low : Int) - 1074)).toNat = power' - low := by omega
  have hadd : UnpackedFloat.add Format.binary64
      (.finite .positive significand ((power : Int) - 1074) hpos)
      (.finite .positive significand' ((power' : Int) - 1074) hpos') =
      UnpackedFloat.normalize Format.binary64
        ((significand * 2 ^ (power - low) + significand' * 2 ^ (power' - low) : Nat) : Int)
        ((low : Int) - 1074) .positive := by
    rw [Int.natCast_add]
    unfold UnpackedFloat.add
    simp only [hmin, decreaseExponent, hamount, hamount', Nat.shiftLeft_eq, Sign.apply]
  have hne : significand * 2 ^ (power - low) + significand' * 2 ^ (power' - low) ≠ 0 := by
    have hfirst := Nat.mul_pos hpos (Nat.two_pow_pos (power - low))
    omega
  have hquanta : (significand * 2 ^ (power - low) + significand' * 2 ^ (power' - low)) * 2 ^ low =
      significand * 2 ^ power + significand' * 2 ^ power' := by
    rw [Nat.add_mul, mul_assoc, mul_assoc, ← pow_add, ← pow_add, Nat.sub_add_cancel (by omega),
      Nat.sub_add_cancel (by omega)]
  rw [hadd, normalize_natCast hne, toNat_pack_round hne, hquanta]

private theorem toNat_toBits_signed {p : Nat} (hp : p ≤ infinitePattern) :
    (signed false p).toBits.toNat = p := by
  have hlt : p < signBit := Nat.lt_of_le_of_lt hp (by decide)
  have hsize : p < 2 ^ 64 := Nat.lt_trans hlt (by decide)
  have hword : (UInt64.ofNat p).toNat = p := UInt64.toNat_ofNat_of_lt' hsize
  have hnan : ¬ Word.IsNaN (UInt64.ofNat p) := by
    rw [Word.isNaN_iff, Word.pattern, hword, Nat.mod_eq_of_lt hlt]
    omega
  change (Float.ofBits (UInt64.ofNat p)).toBits.toNat = p
  rw [toBits_ofBits hnan, hword]

private theorem unpack_signed {p : Nat} (hp : 0 < p) (hfinite : p < infinitePattern) :
    ∃ power significand : Nat, ∃ hpos : 0 < significand,
      quantaOfPattern p = significand * 2 ^ power ∧
        (signed false p).toModel.unpack =
          .finite .positive significand ((power : Int) - 1074) hpos := by
  have hquanta : 0 < quantaOfPattern p :=
    Nat.pos_of_ne_zero (quantaOfPattern_eq_zero_iff.not.mpr hp.ne')
  obtain ⟨power, significand, -, hquanta, hpos, hunpack⟩ :=
    unpack_of_exact_pos (exact_signed false hfinite) hquanta
  exact ⟨power, significand, hpos, hquanta, hunpack⟩

/-- **A sum of positive numbers is rounded like a numeral.** -/
theorem add_signed {p q : Nat} (hp : 0 < p) (hpfinite : p < infinitePattern) (hq : 0 < q)
    (hqfinite : q < infinitePattern) :
    signed false p + signed false q =
      signed false (nearestPattern (quantaOfPattern p + quantaOfPattern q) 1) := by
  obtain ⟨power, significand, hpos, hquanta, hx⟩ := unpack_signed hp hpfinite
  obtain ⟨power', significand', hpos', hquanta', hy⟩ := unpack_signed hq hqfinite
  refine Float.toBits_inj.mp (UInt64.toNat_inj.mp ?_)
  rw [toBits_add, hx, hy, toNat_pack_add, hquanta, hquanta', toNat_toBits_signed]
  exact Nat.min_le_right _ _

/-! A zero has a pattern, too, but both signs; it is unpacked without a significand. -/

section

variable {x y : Float} {p : Nat}

private theorem unpack_of_pattern_eq_zero (h : Word.pattern x.toBits = 0) :
    ∃ s, x.toModel.unpack = .zero s :=
  ⟨_, unpack_of_exact_zero (exact_of_pattern_eq_zero h)⟩

private theorem add_eq_of_unpack {z : Float}
    (h : UnpackedFloat.add Format.binary64 x.toModel.unpack y.toModel.unpack = z.toModel.unpack) :
    x + y = z := by
  refine Float.toBits_inj.mp (UInt64.toNat_inj.mp ?_)
  rw [toBits_add, h]
  exact congrArg BitVec.toNat (pack_unpack_of_valid z.toModel.valid)

private theorem zero_add_signed (hx : Word.pattern x.toBits = 0) (hp : 0 < p)
    (hfinite : p < infinitePattern) : x + signed false p = signed false p := by
  obtain ⟨s, hx⟩ := unpack_of_pattern_eq_zero hx
  obtain ⟨power, significand, hpos, -, hy⟩ := unpack_signed hp hfinite
  apply add_eq_of_unpack
  rw [hx, hy]
  rfl

private theorem signed_add_zero (hx : Word.pattern x.toBits = 0) (hp : 0 < p)
    (hfinite : p < infinitePattern) : signed false p + x = signed false p := by
  obtain ⟨s, hx⟩ := unpack_of_pattern_eq_zero hx
  obtain ⟨power, significand, hpos, -, hy⟩ := unpack_signed hp hfinite
  apply add_eq_of_unpack
  rw [hx, hy]
  rfl

private theorem pattern_zero_add_zero (hx : Word.pattern x.toBits = 0)
    (hy : Word.pattern y.toBits = 0) : Word.pattern (x + y).toBits = 0 := by
  obtain ⟨s, hx⟩ := unpack_of_pattern_eq_zero hx
  obtain ⟨s', hy⟩ := unpack_of_pattern_eq_zero hy
  rw [Word.pattern, toBits_add, hx, hy]
  cases s <;> cases s' <;> decide

end

/-! ## Counts -/

variable {x y : Float} {m n : ℕ}

private theorem count?_signed {p : Nat} (hp : p < infinitePattern) :
    count? (signed false p) = some n ↔
      quantaOfPattern p = n * quantaPerUnit ∧ n ≤ maxCount := by
  have hbits := toNat_toBits_signed hp.le
  have hsize : p < signBit := hp.trans (by decide)
  have hpattern : Word.pattern (signed false p).toBits = p := by
    rw [Word.pattern, hbits, Nat.mod_eq_of_lt hsize]
  have hnegative : Word.negative (signed false p).toBits = false := by
    rw [Word.negative, hbits]
    exact decide_eq_false (Nat.not_le.mpr hsize)
  have hfinite : Word.IsFinite (signed false p).toBits := by
    rwa [Word.isFinite_iff, hpattern]
  rw [← Float.ofBits_toBits (signed false p), count?_of_isFinite hfinite, hpattern, hnegative]
  simp

/-- A count is zero, of either sign, or a positive number. -/
theorem cases_of_count? (h : count? x = some n) :
    Word.pattern x.toBits = 0 ∧ n = 0 ∨
      ∃ p, 0 < p ∧ p < infinitePattern ∧ x = signed false p ∧
        quantaOfPattern p = n * quantaPerUnit := by
  have hx := Float.ofBits_toBits x
  rw [← hx] at h
  have hfinite := isFinite_of_count? h
  obtain ⟨hquanta, -, hsign⟩ := (count?_of_isFinite hfinite).mp h
  by_cases hn : n = 0
  · refine .inl ⟨?_, hn⟩
    rw [← patternOfQuanta_quantaOfPattern (Word.pattern x.toBits), hquanta, hn, Nat.zero_mul]
    decide
  · have hnegative : Word.negative x.toBits = false := by
      rw [Bool.eq_false_iff]
      exact fun htrue ↦ hn (hsign htrue)
    refine .inr ⟨Word.pattern x.toBits, ?_, (Word.isFinite_iff _).mp hfinite, ?_, hquanta⟩
    · by_contra hzero
      rw [Nat.eq_zero_of_not_pos hzero] at hquanta
      have hpos := Nat.mul_pos (Nat.pos_of_ne_zero hn) quantaPerUnit_pos
      rw [← hquanta] at hpos
      exact absurd hpos (by decide)
    · conv_lhs => rw [← hx, ofBits_eq_signed, hnegative]

private theorem count?_of_pattern_eq_zero (h : Word.pattern x.toBits = 0) : count? x = some 0 := by
  have hfinite : Word.IsFinite x.toBits := by
    rw [Word.isFinite_iff, h]
    decide
  rw [← Float.ofBits_toBits x, count?_of_isFinite hfinite, h]
  refine ⟨?_, Nat.zero_le _, fun _ ↦ rfl⟩
  rw [Nat.zero_mul]
  decide

/-- Rounded, so many units are a count if the exact number of them is one. -/
theorem count?_nearestPattern (n : ℕ) :
    count? (signed false (nearestPattern (n * quantaPerUnit) 1)) =
      if n ≤ maxCount then some n else none := by
  by_cases hn : n ≤ maxCount
  · obtain ⟨p, hp, hquanta⟩ := exists_pattern_of_le_maxCount hn
    rw [if_pos hn, ← hquanta, nearestPattern_quantaOfPattern hp.le, count?_signed hp]
    exact ⟨hquanta, hn⟩
  · rw [if_neg hn, Option.eq_none_iff_forall_ne_some]
    intro k hk
    -- what is rounded stays at least at the least number of units that is no count
    have hunits : leadingBit * 2 ^ (finestPlace + 1) = (maxCount + 1) * quantaPerUnit := by
      have hmax : maxCount + 1 = leadingBit * 2 := rfl
      rw [hmax, quantaPerUnit_eq]
      ring
    have hle : (finestPlace + 1 + 1) * leadingBit ≤ nearestPattern (n * quantaPerUnit) 1 := by
      refine le_nearestPattern (by decide) (by decide) ?_
      rw [hunits]
      exact Nat.mul_le_mul_right _ (by omega)
    by_cases hp : nearestPattern (n * quantaPerUnit) 1 < infinitePattern
    · obtain ⟨hquanta, hkle⟩ := (count?_signed hp).mp hk
      have hlarge := le_quantaOfPattern hle
      rw [hunits, hquanta] at hlarge
      have hkge := Nat.le_of_mul_le_mul_right hlarge quantaPerUnit_pos
      omega
    · have hinfinite : nearestPattern (n * quantaPerUnit) 1 = infinitePattern :=
        Nat.le_antisymm (Nat.min_le_right _ _) (Nat.not_lt.mp hp)
      have hnone : count? (signed false infinitePattern) = none := by decide +kernel
      rw [hinfinite, hnone] at hk
      cases hk

/-- **Counts are added exactly.** The sum of two counts counts as their sum, or not at all if that
is too large to be a count. -/
theorem count?_add (hx : count? x = some m) (hy : count? y = some n) :
    count? (x + y) = if m + n ≤ maxCount then some (m + n) else none := by
  rcases cases_of_count? hx with ⟨hxzero, rfl⟩ | ⟨p, hp, hpfinite, rfl, hpquanta⟩
  · rw [Nat.zero_add, if_pos (le_maxCount_of_count? hy)]
    rcases cases_of_count? hy with ⟨hyzero, rfl⟩ | ⟨q, hq, hqfinite, rfl, -⟩
    · exact count?_of_pattern_eq_zero (pattern_zero_add_zero hxzero hyzero)
    · rw [zero_add_signed hxzero hq hqfinite, hy]
  · rcases cases_of_count? hy with ⟨hyzero, rfl⟩ | ⟨q, hq, hqfinite, rfl, hqquanta⟩
    · rw [Nat.add_zero, if_pos (le_maxCount_of_count? hx), signed_add_zero hyzero hp hpfinite, hx]
    · rw [add_signed hp hpfinite hq hqfinite, hpquanta, hqquanta, ← Nat.add_mul,
        count?_nearestPattern]

end BlockScript.Number
