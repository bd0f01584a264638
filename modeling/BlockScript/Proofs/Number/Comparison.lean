import BlockScript.Proofs.Number.Unpacked
import BlockScript.Value

/-!
# Comparisons of numbers

Finite numbers compare like their quanta (`lt_iff_of_exact`, `beq_iff_of_exact`): of two magnitudes
the one with the greater power is greater, and with one power the one with the greater significand.
The two zeros are equal.

So the questions that are asked of quanta and of bits elsewhere can be asked by comparisons, too. A
number counts if it is finite, has no fractional part, and is neither below zero nor above
`maxCount`, and then it is converted (`count?_eq_ite`); it counts as false if it is equal to zero
and has no sign (`Value.truthy_number`).
-/

namespace BlockScript

namespace Number

open Float.Model Float.Model.UnpackedFloat

variable {x y : Float} {b c negative : Bool} {m n quanta power significand : Nat}

/-! ## Magnitudes -/

namespace Scaled

variable {power' significand' : Nat}

private theorem lt_of_power_lt (h : Scaled power significand) (h' : Scaled power' significand')
    (hlt : power < power') : significand * 2 ^ power < significand' * 2 ^ power' := by
  have hpower : 2 ^ (power + 1) ≤ 2 ^ power' := Nat.pow_le_pow_right (by decide) hlt
  calc
    significand * 2 ^ power < 2 * leadingBit * 2 ^ power :=
      Nat.mul_lt_mul_of_pos_right h.lt (Nat.two_pow_pos power)
    _ = leadingBit * 2 ^ (power + 1) := by ring
    _ ≤ significand' * 2 ^ power' := Nat.mul_le_mul (h'.leading_le (by omega)) hpower

/-- Magnitudes compare by their powers first. -/
private theorem compare_eq (h : Scaled power significand) (h' : Scaled power' significand') :
    (compare ((power : Int) - 1074) ((power' : Int) - 1074)).then
      (compare significand significand') =
      compare (significand * 2 ^ power) (significand' * 2 ^ power') := by
  obtain hlt | rfl | hlt := lt_trichotomy power power'
  · rw [Int.compare_eq_lt.mpr (by omega), Nat.compare_eq_lt.mpr (h.lt_of_power_lt h' hlt)]
    rfl
  · rw [Int.compare_eq_eq.mpr rfl]
    obtain hlt | rfl | hlt := lt_trichotomy significand significand'
    · rw [Nat.compare_eq_lt.mpr hlt,
        Nat.compare_eq_lt.mpr (Nat.mul_lt_mul_of_pos_right hlt (Nat.two_pow_pos power))]
      rfl
    · rw [Nat.compare_eq_eq.mpr rfl, Nat.compare_eq_eq.mpr rfl]
      rfl
    · rw [Nat.compare_eq_gt.mpr hlt,
        Nat.compare_eq_gt.mpr (Nat.mul_lt_mul_of_pos_right hlt (Nat.two_pow_pos power))]
      rfl
  · rw [Int.compare_eq_gt.mpr (by omega), Nat.compare_eq_gt.mpr (h'.lt_of_power_lt h hlt)]
    rfl

end Scaled

/-! ## Numbers -/

private theorem apply_zero (s : Sign) : s.apply 0 = 0 := by cases s <;> rfl

private theorem compare_natCast (m n : Nat) : compare (m : Int) (n : Int) = compare m n := by
  rw [Int.compare_eq_ite_lt, Nat.compare_eq_ite_lt]
  simp only [Int.ofNat_lt]

private theorem compare_neg_natCast (m n : Nat) :
    compare (-(m : Int)) (-(n : Int)) = (compare m n).swap := by
  rw [Nat.compare_swap, Int.compare_eq_ite_lt, Nat.compare_eq_ite_lt]
  simp only [Int.neg_lt_neg_iff, Int.ofNat_lt]

/-- Finite numbers compare like their quanta with the sign. -/
theorem compare_of_exact (hx : exact x = .finite b m) (hy : exact y = .finite c n) :
    x.toModel.unpack.compare y.toModel.unpack =
      some (compare ((signOf b).apply m) ((signOf c).apply n)) := by
  -- a zero has no significand to compare, so that each zero is a case of its own
  obtain rfl | hm := Nat.eq_zero_or_pos m <;> obtain rfl | hn := Nat.eq_zero_or_pos n
  · rw [unpack_of_exact_zero hx, unpack_of_exact_zero hy, Nat.cast_zero, apply_zero, apply_zero]
    rfl
  · obtain ⟨power, significand, -, -, hpos, hunpack⟩ := unpack_of_exact_pos hy hn
    rw [unpack_of_exact_zero hx, hunpack, Nat.cast_zero, apply_zero]
    cases c with
    | false => exact congrArg some (Int.compare_eq_lt.mpr (Int.natCast_pos.mpr hn)).symm
    | true =>
      refine congrArg some (Int.compare_eq_gt.mpr ?_).symm
      exact Int.neg_neg_of_pos (Int.natCast_pos.mpr hn)
  · obtain ⟨power, significand, -, -, hpos, hunpack⟩ := unpack_of_exact_pos hx hm
    rw [unpack_of_exact_zero hy, hunpack, Nat.cast_zero, apply_zero]
    cases b with
    | false => exact congrArg some (Int.compare_eq_gt.mpr (Int.natCast_pos.mpr hm)).symm
    | true =>
      refine congrArg some (Int.compare_eq_lt.mpr ?_).symm
      exact Int.neg_neg_of_pos (Int.natCast_pos.mpr hm)
  · obtain ⟨power, significand, hscaled, hmquanta, hpos, hxunpack⟩ := unpack_of_exact_pos hx hm
    obtain ⟨power', significand', hscaled', hnquanta, hpos', hyunpack⟩ := unpack_of_exact_pos hy hn
    have hcompare := hscaled.compare_eq hscaled'
    rw [← hmquanta, ← hnquanta] at hcompare
    rw [hxunpack, hyunpack]
    cases b <;> cases c
    · refine congrArg some (hcompare.trans ?_)
      exact (compare_natCast m n).symm
    · exact congrArg some (Int.compare_eq_gt.mpr (by simp only [signOf, Sign.apply]; omega)).symm
    · exact congrArg some (Int.compare_eq_lt.mpr (by simp only [signOf, Sign.apply]; omega)).symm
    · refine congrArg some ((congrArg Ordering.swap hcompare).trans ?_)
      exact (compare_neg_natCast m n).symm

theorem lt_iff_of_exact (hx : exact x = .finite b m) (hy : exact y = .finite c n) :
    x < y ↔ (signOf b).apply m < (signOf c).apply n := by
  have hlt : x < y ↔ (x.toModel.unpack.compare y.toModel.unpack == some .lt) = true :=
    decide_eq_true_iff
  rw [hlt, compare_of_exact hx hy, beq_iff_eq, Option.some_inj, Int.compare_eq_lt]

theorem beq_iff_of_exact (hx : exact x = .finite b m) (hy : exact y = .finite c n) :
    x == y ↔ (signOf b).apply m = (signOf c).apply n := by
  change (x.toModel.unpack.compare y.toModel.unpack == some .eq) = true ↔ _
  rw [compare_of_exact hx hy, beq_iff_eq, Option.some_inj, Int.compare_eq_eq]

/-! ## Conversion -/

private theorem mantissa_shiftRight (em : ExtendedMantissa) (n : Nat) :
    (em >>> n).mantissa = em.mantissa / 2 ^ n := by
  change (n.repeat ExtendedMantissa.shiftRightOne em).mantissa = _
  induction n with
  | zero =>
    rw [pow_zero, Nat.div_one]
    rfl
  | succ n ih =>
    change (n.repeat ExtendedMantissa.shiftRightOne em).mantissa / 2 = _
    rw [ih, Nat.div_div_eq_div_mul, ← pow_succ]

private theorem roundToInt_eq (power significand : Nat) :
    roundToInt .positive significand ((power : Int) - 1074) =
      ((significand * 2 ^ power / quantaPerUnit : Nat) : Int) := by
  have hleft : ((power : Int) - 1074 - 0).toNat = power - finestPlace := by
    rw [finestPlace]
    omega
  have hright : (0 - ((power : Int) - 1074 - ((power - finestPlace : Nat) : Int))).toNat =
      finestPlace - power := by
    rw [finestPlace]
    omega
  have hdiv : significand * 2 ^ (power - finestPlace) / 2 ^ (finestPlace - power) =
      significand * 2 ^ power / 2 ^ finestPlace := by
    rcases Nat.le_total power finestPlace with hle | hle
    · obtain ⟨k, hk⟩ := Nat.exists_eq_add_of_le hle
      rw [hk, Nat.sub_eq_zero_of_le (Nat.le_add_right _ _), Nat.add_sub_cancel_left, pow_zero,
        Nat.mul_one, pow_add, Nat.mul_comm, Nat.mul_div_mul_left _ _ (Nat.two_pow_pos power)]
    · obtain ⟨k, rfl⟩ := Nat.exists_eq_add_of_le hle
      rw [Nat.sub_eq_zero_of_le hle, Nat.add_sub_cancel_left, pow_zero, Nat.div_one, pow_add,
        Nat.mul_left_comm, Nat.mul_div_cancel_left _ (Nat.two_pow_pos finestPlace)]
  unfold roundToInt decreaseExponent shiftToExponent
  dsimp only
  rw [hleft, hright, mantissa_shiftRight, Nat.shiftLeft_eq, quantaPerUnit_eq, ← hdiv]
  rfl

/-- The integer that a finite number is cut down to. -/
theorem toUInt64_of_exact (hx : exact x = .finite negative quanta)
    (hsign : negative = true → quanta = 0) (hle : quanta / quantaPerUnit < 2 ^ 64) :
    x.toUInt64.toNat = quanta / quantaPerUnit := by
  change (UInt64.ofNatClamp (x.toModel.unpack.toInt 0 (UInt64.size - 1)).toNat).toNat = _
  obtain rfl | hquanta := Nat.eq_zero_or_pos quanta
  · rw [unpack_of_exact_zero hx, Nat.zero_div]
    rfl
  · obtain rfl : negative = false := Bool.eq_false_iff.mpr fun h ↦ hquanta.ne' (hsign h)
    obtain ⟨power, significand, -, heq, hpos, hunpack⟩ := unpack_of_exact_pos hx hquanta
    rw [hunpack]
    change (UInt64.ofNatClamp
      (roundToInt .positive significand ((power : Int) - 1074)).toNat).toNat = _
    rw [roundToInt_eq, ← heq, Int.toNat_natCast, UInt64.toNat_ofNatClamp_of_lt hle]

/-! ## Comparisons with fixed numbers -/

theorem beq_zero_iff (hx : exact x = .finite negative quanta) : x == 0 ↔ quanta = 0 := by
  have hzero : exact 0 = .finite false 0 := by decide
  rw [beq_iff_of_exact hx hzero]
  cases negative <;> simp only [signOf, Sign.apply] <;> omega

theorem lt_zero_iff (hx : exact x = .finite negative quanta) :
    x < 0 ↔ negative = true ∧ quanta ≠ 0 := by
  have hzero : exact 0 = .finite false 0 := by decide
  rw [lt_iff_of_exact hx hzero]
  cases negative <;>
    simp only [signOf, Sign.apply, Bool.false_eq_true, false_and, true_and, iff_false] <;> omega

theorem maxCount_lt_iff (hx : exact x = .finite negative quanta) :
    Float.ofNat maxCount < x ↔ negative = false ∧ maxCount * quantaPerUnit < quanta := by
  have hmax : exact (Float.ofNat maxCount) = .finite false (maxCount * quantaPerUnit) := by
    decide +kernel
  rw [lt_iff_of_exact hmax hx]
  generalize maxCount * quantaPerUnit = bound
  cases negative <;>
    simp only [signOf, Sign.apply, Bool.true_eq_false, false_and, true_and, iff_false] <;> omega

private theorem patternOfQuanta_eq_zero_iff : patternOfQuanta quanta = 0 ↔ quanta = 0 := by
  have hpos : 0 < leadingBit := by decide
  constructor
  · intro h
    obtain ⟨hspacing, hquanta⟩ := Nat.add_eq_zero_iff.mp h
    rwa [(Nat.mul_eq_zero.mp hspacing).resolve_right hpos.ne', Nat.shiftRight_zero] at hquanta
  · rintro rfl
    decide

private theorem patternOfQuanta_lt (h : quanta < quantaPerUnit) :
    patternOfQuanta quanta < infinitePattern := by
  have hspacing : spacing quanta ≤ finestPlace := by
    by_cases hzero : quanta = 0
    · rw [hzero]
      decide
    · rw [quantaPerUnit_eq] at h
      exact (Nat.sub_le _ _).trans ((Nat.log2_lt hzero).mpr h).le
  have hsignificand : quanta >>> spacing quanta < 2 ^ 53 := by
    rw [Nat.shiftRight_eq_div_pow, Nat.div_lt_iff_lt_mul (Nat.two_pow_pos _)]
    exact lt_of_spacing_eq rfl
  rw [finestPlace] at hspacing
  rw [patternOfQuanta, infinitePattern, leadingBit_eq]
  omega

/-- A number has no fractional part if it leaves no remainder by one. -/
theorem remainder_one_beq_zero_iff (hx : exact x = .finite negative quanta) :
    remainder x 1 == 0 ↔ quanta % quantaPerUnit = 0 := by
  have hone : exact 1 = .finite false quantaPerUnit := by decide +kernel
  have hlt := patternOfQuanta_lt (Nat.mod_lt quanta quantaPerUnit_pos)
  rw [remainder, hx, hone]
  dsimp only
  rw [if_neg quantaPerUnit_pos.ne', ofExact, beq_zero_iff (exact_signed negative hlt),
    quantaOfPattern_eq_zero_iff, patternOfQuanta_eq_zero_iff]

/-! ## Counts by comparisons -/

theorem isFinite_iff_exact :
    x.isFinite = true ↔ ∃ negative quanta, exact x = .finite negative quanta := by
  have hkind := unpacks x
  change x.toModel.unpack.isFinite = true ↔ _
  generalize exact x = e at hkind ⊢
  generalize x.toModel.unpack = u at hkind ⊢
  cases hkind <;> simp [UnpackedFloat.isFinite]

private theorem count?_of_not_finite (h : ¬ x.isFinite = true) : count? x = none := by
  have hkind := unpacks x
  change ¬ x.toModel.unpack.isFinite = true at h
  rw [count?]
  generalize exact x = e at hkind ⊢
  generalize x.toModel.unpack = u at hkind h
  cases hkind with
  | undefined => rfl
  | infinite => rfl
  | zero => exact absurd rfl h
  | finite => exact absurd rfl h

/-- So many units are in the range of counts if neither comparison finds them out of it. -/
private theorem in_range_iff (hx : exact x = .finite negative quanta)
    (hmod : quanta % quantaPerUnit = 0) :
    quanta / quantaPerUnit ≤ maxCount ∧ (negative = true → quanta = 0) ↔
      ¬ (x < 0 ∨ Float.ofNat maxCount < x) := by
  have hpos := quantaPerUnit_pos
  obtain ⟨units, rfl⟩ := Nat.dvd_of_mod_eq_zero hmod
  rw [lt_zero_iff hx, maxCount_lt_iff hx, Nat.mul_div_cancel_left _ hpos, Nat.mul_comm maxCount,
    Nat.mul_lt_mul_left hpos]
  cases negative with
  | false => simp
  | true =>
    simp only [true_and, Bool.true_eq_false, false_and, or_false, not_not, forall_const,
      and_iff_right_iff_imp]
    intro hzero
    rw [(Nat.mul_eq_zero.mp hzero).resolve_left hpos.ne']
    exact Nat.zero_le _

/-- **A number counts** if it is finite, has no fractional part, and is neither below zero nor
above the greatest count; the count is then what it is cut down to. -/
theorem count?_eq_ite (x : Float) :
    count? x =
      if !x.isFinite || remainder x 1 != 0 then none
      else if x < 0 ∨ Float.ofNat maxCount < x then none
      else some x.toUInt64.toNat := by
  by_cases hfinite : x.isFinite = true
  · obtain ⟨negative, quanta, hx⟩ := isFinite_iff_exact.mp hfinite
    have hremainder := remainder_one_beq_zero_iff hx
    rw [count?, hx]
    dsimp only
    by_cases hmod : quanta % quantaPerUnit = 0
    · have htests : (!x.isFinite || remainder x 1 != 0) = false := by
        rw [bne, hremainder.mpr hmod, hfinite]
        rfl
      have hrange := in_range_iff hx hmod
      rw [htests, if_neg Bool.false_ne_true]
      by_cases hout : x < 0 ∨ Float.ofNat maxCount < x
      · rw [if_pos hout, if_neg fun h ↦ hrange.mp h.2 hout]
      · obtain ⟨hle, hsign⟩ := hrange.mpr hout
        have hsize : quanta / quantaPerUnit < 2 ^ 64 := hle.trans_lt (by decide)
        rw [if_neg hout, if_pos ⟨hmod, hle, hsign⟩, toUInt64_of_exact hx hsign hsize]
    · have htests : (!x.isFinite || remainder x 1 != 0) = true := by
        rw [bne, Bool.eq_false_iff.mpr (hremainder.not.mpr hmod), hfinite]
        rfl
      rw [if_pos htests, if_neg fun h ↦ hmod h.1]
  · have htests : (!x.isFinite || remainder x 1 != 0) = true := by
      rw [Bool.eq_false_iff.mpr hfinite]
      rfl
    rw [if_pos htests, count?_of_not_finite hfinite]

/-! ## Zeros -/

private theorem isFinite_of_beq_zero (h : x == 0) : x.isFinite = true := by
  change x.toModel.unpack.beq (.zero .positive) = true at h
  change x.toModel.unpack.isFinite = true
  generalize x.toModel.unpack = u at h ⊢
  cases u with
  | notANumber => cases h
  | infinity s => cases s <;> cases h
  | zero => rfl
  | finite => rfl

private theorem quantaOfPattern_of_exact (hx : exact x = .finite negative quanta) :
    quantaOfPattern (Word.pattern x.toBits) = quanta := by
  rw [exact] at hx
  split at hx
  · exact (Exact.finite.inj hx).2
  · split at hx <;> cases hx

theorem beq_zero_iff_pattern (x : Float) : x == 0 ↔ Word.pattern x.toBits = 0 := by
  constructor
  · intro h
    obtain ⟨negative, quanta, hx⟩ := isFinite_iff_exact.mp (isFinite_of_beq_zero h)
    rw [← quantaOfPattern_eq_zero_iff, quantaOfPattern_of_exact hx]
    exact (beq_zero_iff hx).mp h
  · intro h
    exact (beq_zero_iff (exact_of_pattern_eq_zero h)).mpr rfl

end Number

namespace Value

open Number

/-- **A number counts as false** if it is equal to zero and has no sign. -/
theorem truthy_number (x : Float) :
    (number x).truthy = !(x == 0 && !Word.negative x.toBits) := by
  have hzero : (x.toBits == 0) = (x == 0 && !Word.negative x.toBits) := by
    rw [Bool.eq_iff_iff, beq_iff_eq, Bool.and_eq_true, beq_zero_iff_pattern]
    generalize x.toBits = w
    constructor
    · rintro rfl
      decide
    · rintro ⟨hpattern, hsign⟩
      refine Word.eq_of_pattern_eq ?_ hpattern
      rw [Bool.not_eq_eq_eq_not.mp hsign]
      decide
  rw [truthy, bne, hzero]

end Value

end BlockScript
