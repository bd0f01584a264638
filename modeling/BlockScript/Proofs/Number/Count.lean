import BlockScript.Proofs.Number.Bits
import BlockScript.Proofs.Number.Magnitude

/-!
# Numbers that count

A number counts if it is a natural number up to `maxCount`. What number a word is, is said here by
the rational number that its three fields stand for (`Word.rational`), with no regard to quanta. The
conversion works on quanta, and one unit is so many of them that no fraction is ever lost, so the
two agree on every word.
-/

namespace BlockScript.Number

namespace Word

/-- The rational number that a finite word is. The least exponent stands for the same power of two
as the one after it, but its fraction has no leading bit in front. -/
def rational (w : UInt64) : ℚ :=
  (-1) ^ sign w *
    if exponent w = 0 then (fraction w : ℚ) * (2 : ℚ) ^ (-1074 : ℤ)
    else (2 ^ 52 + fraction w : ℚ) * (2 : ℚ) ^ ((exponent w : ℤ) - 1075)

variable (w : UInt64)

private theorem quantaOfPattern_pattern :
    quantaOfPattern (pattern w) =
      if exponent w = 0 then fraction w else (leadingBit + fraction w) * 2 ^ (exponent w - 1) := by
  have hlt := fraction_lt w
  have hpos : 0 < leadingBit := by decide
  have hpattern : pattern w = fraction w + leadingBit * exponent w := by
    rw [pattern_eq, Nat.mul_comm, Nat.add_comm]
  rw [quantaOfPattern, hpattern, Nat.add_mul_div_left _ _ hpos, Nat.add_mul_mod_self_left,
    Nat.div_eq_of_lt hlt, Nat.mod_eq_of_lt hlt, Nat.zero_add, Nat.shiftLeft_eq]

/-- A word is as many quanta as its pattern says. -/
theorem rational_mul_two_pow :
    rational w * 2 ^ finestPlace = (-1) ^ sign w * (quantaOfPattern (pattern w) : ℚ) := by
  have htwo : (2 : ℚ) ≠ 0 := two_ne_zero
  have hunit : (2 : ℚ) ^ finestPlace = 2 ^ (1074 : ℤ) := (zpow_natCast 2 finestPlace).symm
  rw [rational, quantaOfPattern_pattern, mul_assoc, hunit]
  congr 1
  by_cases hzero : exponent w = 0
  · rw [if_pos hzero, if_pos hzero, mul_assoc, ← zpow_add₀ htwo, neg_add_cancel, zpow_zero, mul_one]
  · obtain ⟨e, he⟩ := Nat.exists_eq_succ_of_ne_zero hzero
    have hpower : (exponent w : ℤ) - 1075 + 1074 = e := by omega
    rw [if_neg hzero, if_neg hzero, mul_assoc, ← zpow_add₀ htwo, hpower, zpow_natCast, he,
      Nat.succ_sub_one, leadingBit_eq]
    push_cast
    rfl

end Word

private theorem maxCount_eq : maxCount = 2 ^ 53 - 1 := rfl

variable {w w' : UInt64} {n : ℕ}

theorem le_maxCount_of_count? {x : Float} (h : count? x = some n) : n ≤ maxCount := by
  rw [count?] at h
  split at h
  · dsimp only at h
    split at h
    · next hcount =>
      obtain rfl := Option.some.inj h
      exact hcount.2.1
    · nomatch h
  · nomatch h

/-- Whether a finite word counts can be read off its quanta. -/
theorem count?_of_isFinite (h : Word.IsFinite w) :
    count? (Float.ofBits w) = some n ↔
      quantaOfPattern (Word.pattern w) = n * quantaPerUnit ∧ n ≤ maxCount ∧
        (Word.negative w = true → n = 0) := by
  have hpos := quantaPerUnit_pos
  rw [count?, exact_of_isFinite h]
  generalize quantaOfPattern (Word.pattern w) = quanta
  dsimp only
  rw [Option.ite_none_right_eq_some, Option.some_inj]
  constructor
  · rintro ⟨⟨hmod, hle, hsign⟩, rfl⟩
    refine ⟨(Nat.div_mul_cancel (Nat.dvd_of_mod_eq_zero hmod)).symm, hle, fun hnegative ↦ ?_⟩
    rw [hsign hnegative, Nat.zero_div]
  · rintro ⟨rfl, hle, hsign⟩
    rw [Nat.mul_div_cancel _ hpos, Nat.mul_mod_left]
    refine ⟨⟨rfl, hle, fun hnegative ↦ ?_⟩, rfl⟩
    rw [hsign hnegative, Nat.zero_mul]

private theorem count?_of_not_isFinite (h : ¬ Word.IsFinite w) :
    count? (Float.ofBits w) = none := by
  rw [Word.isFinite_iff, not_lt] at h
  by_cases hinfinite : Word.pattern w = infinitePattern
  · rw [count?, exact_of_pattern_eq hinfinite]
  · have hnan : Word.IsNaN w := (Word.isNaN_iff w).mpr (lt_of_le_of_ne h (Ne.symm hinfinite))
    rw [count?, exact_of_isNaN hnan]

theorem isFinite_of_count? (h : count? (Float.ofBits w) = some n) : Word.IsFinite w := by
  by_contra hinfinite
  rw [count?_of_not_isFinite hinfinite] at h
  cases h

/-- A word is a natural number if it is so many units, and a negative one only if it is zero. -/
theorem rational_eq_natCast_iff :
    Word.rational w = n ↔ quantaOfPattern (Word.pattern w) = n * quantaPerUnit ∧
      (Word.negative w = true → n = 0) := by
  have hunit : (2 : ℚ) ^ finestPlace = (quantaPerUnit : ℚ) := by
    rw [quantaPerUnit_eq, Nat.cast_pow, Nat.cast_ofNat]
  have hpos : (0 : ℚ) < quantaPerUnit := Nat.cast_pos.mpr quantaPerUnit_pos
  have hquanta := Word.rational_mul_two_pow w
  rw [hunit] at hquanta
  rw [← mul_left_inj' hpos.ne', hquanta, ← Nat.cast_mul, Word.negative_iff]
  generalize quantaOfPattern (Word.pattern w) = quanta
  obtain hsign | hsign : Word.sign w = 0 ∨ Word.sign w = 1 := by
    have hlt := Word.sign_lt w
    omega
  · rw [hsign, pow_zero, one_mul, Nat.cast_inj]
    simp
  · rw [hsign, pow_one, neg_one_mul]
    constructor
    · -- what is neither positive nor negative is zero on both sides
      intro h
      have hquanta : (0 : ℚ) ≤ quanta := Nat.cast_nonneg _
      have hunits : (0 : ℚ) ≤ ((n * quantaPerUnit : ℕ) : ℚ) := Nat.cast_nonneg _
      have hzero : (quanta : ℚ) = 0 := by linarith
      have hnone : ((n * quantaPerUnit : ℕ) : ℚ) = 0 := by linarith
      rw [Nat.cast_eq_zero] at hzero hnone
      refine ⟨by rw [hzero, hnone], fun _ ↦ ?_⟩
      exact (Nat.mul_eq_zero.mp hnone).resolve_right quantaPerUnit_pos.ne'
    · rintro ⟨rfl, h⟩
      rw [h rfl, Nat.zero_mul, Nat.cast_zero, neg_zero]

/-! ## Words for counts -/

/-- Every count has a pattern: a leading bit, the bits of the count behind it, and zeros. -/
theorem exists_pattern_of_le_maxCount (h : n ≤ maxCount) :
    ∃ p < infinitePattern, quantaOfPattern p = n * quantaPerUnit := by
  by_cases hn : n = 0
  · exact ⟨0, by decide, by rw [hn, Nat.zero_mul]; decide⟩
  · rw [maxCount_eq] at h
    have hle : n.log2 ≤ 52 := by
      have hlt := (Nat.log2_lt hn).mpr (show n < 2 ^ 53 by omega)
      omega
    -- shifted by `k`, the highest bit of the count is the leading bit
    obtain ⟨k, hk⟩ := Nat.exists_eq_add_of_le hle
    have hlow : 2 ^ 52 ≤ n * 2 ^ k := by
      rw [hk, pow_add]
      exact Nat.mul_le_mul_right _ (Nat.log2_self_le hn)
    have hhigh : n * 2 ^ k < 2 ^ 53 := by
      have hpow : 2 ^ 53 = 2 ^ (n.log2 + 1) * 2 ^ k := by
        rw [← pow_add]
        congr 1
        omega
      rw [hpow]
      exact Nat.mul_lt_mul_of_pos_right Nat.lt_log2_self (Nat.two_pow_pos k)
    have hscaled : Scaled (n.log2 + 1022) (n * 2 ^ k) := by
      refine ⟨?_, fun _ ↦ ?_⟩
      · rw [leadingBit_eq]
        omega
      · rw [leadingBit_eq]
        exact hlow
    refine ⟨_, ?_, hscaled.quantaOfPattern_eq.trans ?_⟩
    · rw [infinitePattern, leadingBit_eq]
      omega
    · have hpower : k + (n.log2 + 1022) = finestPlace := by
        rw [finestPlace]
        omega
      rw [mul_assoc, ← pow_add, quantaPerUnit_eq, hpower]

private theorem exists_word_of_le_maxCount (h : n ≤ maxCount) :
    ∃ w, count? (Float.ofBits w) = some n := by
  obtain ⟨p, hp, hquanta⟩ := exists_pattern_of_le_maxCount h
  obtain ⟨w, hnegative, rfl⟩ := Word.exists_word false (hp.trans (by decide))
  refine ⟨w, (count?_of_isFinite ((Word.isFinite_iff w).mpr hp)).mpr ⟨hquanta, h, fun hsign ↦ ?_⟩⟩
  rw [hnegative] at hsign
  cases hsign

/-- Two words with the same count have the same pattern. -/
theorem pattern_eq_of_count? (h : count? (Float.ofBits w) = some n)
    (h' : count? (Float.ofBits w') = some n) : Word.pattern w = Word.pattern w' := by
  have hquanta := ((count?_of_isFinite (isFinite_of_count? h)).mp h).1
  have hquanta' := ((count?_of_isFinite (isFinite_of_count? h')).mp h').1
  rw [← patternOfQuanta_quantaOfPattern (Word.pattern w), hquanta, ← hquanta',
    patternOfQuanta_quantaOfPattern]

/-- Of the negative words only the zero counts. -/
theorem eq_of_count?_of_negative (h : count? (Float.ofBits w) = some n)
    (hnegative : Word.negative w = true) : n = 0 ∧ w = 0x8000000000000000 := by
  obtain ⟨hquanta, -, hzero⟩ := (count?_of_isFinite (isFinite_of_count? h)).mp h
  have hn := hzero hnegative
  have hpattern : Word.pattern w = 0 := by
    rw [← patternOfQuanta_quantaOfPattern (Word.pattern w), hquanta, hn, Nat.zero_mul]
    decide
  refine ⟨hn, Word.eq_of_pattern_eq ?_ ?_⟩
  · rw [hnegative]
    decide
  · rw [hpattern]
    decide

private theorem zeros_of_count? (h : count? (Float.ofBits w) = some n)
    (h' : count? (Float.ofBits w') = some n) (hne : Word.negative w ≠ Word.negative w')
    (hnegative : Word.negative w = true) : w = 0x8000000000000000 ∧ w' = 0 := by
  obtain ⟨-, hw⟩ := eq_of_count?_of_negative h hnegative
  refine ⟨hw, Word.eq_of_pattern_eq ?_ ?_⟩
  · rw [hnegative] at hne
    rw [Bool.eq_false_iff.mpr (Ne.symm hne)]
    decide
  · rw [← pattern_eq_of_count? h h', hw]
    decide

/-- **Counts are exact.** A word counts as `n` if and only if it is finite and the number that it
is, exactly, is `n`, and `n` is at most `2 ^ 53 - 1`; all other words do not count. Every such `n`
is the count of a word, and of two words with the same count one is zero and the other is zero with
a minus sign. -/
theorem count?_exact :
    (∀ (w : UInt64) (n : ℕ), count? (Float.ofBits w) = some n ↔
      Word.IsFinite w ∧ Word.rational w = n ∧ n ≤ 2 ^ 53 - 1) ∧
    (∀ w : UInt64, count? (Float.ofBits w) = none ↔
      ¬ (Word.IsFinite w ∧ ∃ n : ℕ, Word.rational w = n ∧ n ≤ 2 ^ 53 - 1)) ∧
    (∀ n ≤ 2 ^ 53 - 1, ∃ w, count? (Float.ofBits w) = some n) ∧
    ∀ (w w' : UInt64) (n : ℕ), w ≠ w' → count? (Float.ofBits w) = some n →
      count? (Float.ofBits w') = some n →
        w = 0 ∧ w' = 0x8000000000000000 ∨ w = 0x8000000000000000 ∧ w' = 0 := by
  have hiff (w : UInt64) (n : ℕ) : count? (Float.ofBits w) = some n ↔
      Word.IsFinite w ∧ Word.rational w = n ∧ n ≤ 2 ^ 53 - 1 := by
    by_cases hfinite : Word.IsFinite w
    · rw [count?_of_isFinite hfinite, rational_eq_natCast_iff, maxCount_eq]
      tauto
    · rw [count?_of_not_isFinite hfinite]
      simp [hfinite]
  refine ⟨hiff, fun w ↦ ?_, fun n hn ↦ exists_word_of_le_maxCount hn, fun w w' n hne h h' ↦ ?_⟩
  · rw [Option.eq_none_iff_forall_ne_some]
    constructor
    · rintro hnone ⟨hfinite, n, hn⟩
      exact hnone n ((hiff w n).mpr ⟨hfinite, hn⟩)
    · intro hcount n hn
      obtain ⟨hfinite, hexact⟩ := (hiff w n).mp hn
      exact hcount ⟨hfinite, n, hexact⟩
  · have hsign : Word.negative w ≠ Word.negative w' := fun hsign ↦
      hne (Word.eq_of_pattern_eq hsign (pattern_eq_of_count? h h'))
    by_cases hnegative : Word.negative w = true
    · exact .inr (zeros_of_count? h h' hsign hnegative)
    · have hnegative' : Word.negative w' = true := by
        rw [Bool.not_eq_true] at hnegative
        rw [hnegative] at hsign
        exact Bool.eq_true_of_not_eq_false (Ne.symm hsign)
      exact .inl (zeros_of_count? h' h (Ne.symm hsign) hnegative').symm

/-- The greatest count, and the two zeros. -/
theorem count?_exact_zeros :
    (∃ w, count? (Float.ofBits w) = some 9007199254740991) ∧
      (0 : UInt64) ≠ 0x8000000000000000 ∧ count? (Float.ofBits 0) = some 0 ∧
      count? (Float.ofBits 0x8000000000000000) = some 0 ∧
      ((0 : UInt64) = 0 ∧ (0x8000000000000000 : UInt64) = 0x8000000000000000 ∨
        (0 : UInt64) = 0x8000000000000000 ∧ (0x8000000000000000 : UInt64) = 0) := by
  have hne : (0 : UInt64) ≠ 0x8000000000000000 := by decide
  have hzero : count? (Float.ofBits 0) = some 0 := by decide +kernel
  have hminus : count? (Float.ofBits 0x8000000000000000) = some 0 := by decide +kernel
  exact ⟨count?_exact.2.2.1 _ (by decide), hne, hzero, hminus,
    count?_exact.2.2.2 _ _ 0 hne hzero hminus⟩

end BlockScript.Number
