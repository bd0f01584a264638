import BlockScript.Number.Shortest
import Mathlib.Algebra.Order.Ring.Nat
import Mathlib.Tactic.Ring

/-!
# Magnitudes and their patterns

A magnitude is a *significand* of at most 53 bits times a power of two, and its significand has all
53 bits unless the power is the least one. Numbers of quanta of that form (`Scaled`) are what this
module is about: each has one pattern, and both ways between them undo each other.

Everything that is read off a magnitude elsewhere (its spacing, its pattern, its two neighbours) is
read off the power and the significand.
-/

namespace BlockScript.Number

variable {power significand n : Nat}

theorem leadingBit_eq : leadingBit = 2 ^ 52 := rfl

theorem quantaPerUnit_eq : quantaPerUnit = 2 ^ finestPlace := Nat.one_shiftLeft finestPlace

theorem quantaPerUnit_pos : 0 < quantaPerUnit := by
  rw [quantaPerUnit_eq]
  exact Nat.two_pow_pos finestPlace

/-- A significand that fits its power of two: it has at most 53 bits, and no fewer unless the power
is the least one. -/
structure Scaled (power significand : Nat) : Prop where
  /-- It has at most 53 bits. -/
  lt : significand < 2 * leadingBit
  /-- It has the leading bit. -/
  leading_le : power ≠ 0 → leadingBit ≤ significand

namespace Scaled

/-- Every pattern has a power and a significand. -/
theorem exists_eq (p : Nat) :
    ∃ power significand, Scaled power significand ∧ p = power * leadingBit + significand := by
  have hsplit := Nat.div_add_mod' p leadingBit
  have hlt : p % leadingBit < leadingBit := Nat.mod_lt _ (by decide)
  obtain hzero | ⟨power, hpower⟩ : p / leadingBit = 0 ∨ ∃ power, p / leadingBit = power + 1 := by
    cases p / leadingBit with
    | zero => exact .inl rfl
    | succ power => exact .inr ⟨power, rfl⟩
  · refine ⟨0, p, ⟨?_, fun h ↦ absurd rfl h⟩, by omega⟩
    rw [hzero] at hsplit
    omega
  · refine ⟨power, leadingBit + p % leadingBit, ⟨by omega, fun _ ↦ Nat.le_add_right _ _⟩, ?_⟩
    rw [hpower, Nat.succ_mul] at hsplit
    omega

theorem quantaOfPattern_eq (h : Scaled power significand) :
    quantaOfPattern (power * leadingBit + significand) = significand * 2 ^ power := by
  have hpos : 0 < leadingBit := by decide
  have hlt := h.lt
  rw [quantaOfPattern]
  by_cases hleading : significand < leadingBit
  · -- there is no leading bit, so the power is the least one
    have hpower : power = 0 := by
      by_contra hne
      have hle := h.leading_le hne
      omega
    rw [hpower, Nat.zero_mul, Nat.zero_add, Nat.div_eq_of_lt hleading, if_pos rfl,
      Nat.mod_eq_of_lt hleading, pow_zero, Nat.mul_one]
  · obtain ⟨fraction, rfl⟩ := Nat.exists_eq_add_of_le (Nat.not_lt.mp hleading)
    have hfraction : fraction < leadingBit := by omega
    have hpattern : power * leadingBit + (leadingBit + fraction) =
        fraction + leadingBit * (power + 1) := by ring
    rw [hpattern, Nat.add_mul_div_left _ _ hpos, Nat.add_mul_mod_self_left,
      Nat.div_eq_of_lt hfraction, Nat.mod_eq_of_lt hfraction, Nat.zero_add,
      if_neg (Nat.succ_ne_zero _), Nat.add_sub_cancel, Nat.shiftLeft_eq]

end Scaled

theorem le_quantaOfPattern {p : Nat} (h : (power + 1) * leadingBit ≤ p) :
    leadingBit * 2 ^ power ≤ quantaOfPattern p := by
  obtain ⟨power', significand, hscaled, rfl⟩ := Scaled.exists_eq p
  have hlt := hscaled.lt
  have hpower : power ≤ power' := by
    by_contra hless
    have hmul : (power' + 1) * leadingBit ≤ power * leadingBit := Nat.mul_le_mul_right _ (by omega)
    rw [Nat.succ_mul] at h hmul
    omega
  have hleading : leadingBit ≤ significand := by
    by_cases hzero : power' = 0
    · rw [hzero, Nat.zero_mul, Nat.zero_add, Nat.succ_mul] at h
      omega
    · exact hscaled.leading_le hzero
  rw [hscaled.quantaOfPattern_eq]
  exact Nat.mul_le_mul hleading (Nat.pow_le_pow_right (by decide) hpower)

/-! ## The spacing of a magnitude -/

theorem spacing_eq_zero (h : n < 2 ^ 53) : spacing n = 0 := by
  rw [spacing]
  by_cases hn : n = 0
  · rw [hn]
    decide
  · have hlog := (Nat.log2_lt hn).mpr h
    omega

theorem spacing_eq (hlow : 2 ^ 52 * 2 ^ power ≤ n) (hhigh : n < 2 ^ 53 * 2 ^ power) :
    spacing n = power := by
  have hn : n ≠ 0 := by
    have hpos : 0 < 2 ^ 52 * 2 ^ power := Nat.mul_pos (Nat.two_pow_pos _) (Nat.two_pow_pos _)
    omega
  rw [← pow_add] at hlow hhigh
  have hge := (Nat.le_log2 hn).mpr hlow
  have hlt := (Nat.log2_lt hn).mpr hhigh
  rw [spacing]
  omega

theorem lt_of_spacing_eq (h : spacing n = power) : n < 2 ^ 53 * 2 ^ power := by
  have hlt : n < 2 ^ (n.log2 + 1) := Nat.lt_log2_self
  rw [spacing] at h
  rw [← pow_add]
  exact hlt.trans_le (Nat.pow_le_pow_right (by decide) (by omega))

theorem le_of_spacing_eq (h : spacing n = power) (hpower : power ≠ 0) : 2 ^ 52 * 2 ^ power ≤ n := by
  rw [spacing] at h
  have hn : n ≠ 0 := by
    rintro rfl
    rw [Nat.log2_zero] at h
    omega
  have hlog : 52 + power = n.log2 := by omega
  rw [← pow_add, hlog]
  exact Nat.log2_self_le hn

namespace Scaled

theorem spacing_eq (h : Scaled power significand) : spacing (significand * 2 ^ power) = power := by
  have hlt := h.lt
  rw [leadingBit_eq] at hlt
  by_cases hpower : power = 0
  · rw [hpower, pow_zero, Nat.mul_one]
    exact spacing_eq_zero (by omega)
  · have hle := h.leading_le hpower
    rw [leadingBit_eq] at hle
    refine Number.spacing_eq (Nat.mul_le_mul_right _ hle) ?_
    exact Nat.mul_lt_mul_of_pos_right (by omega) (Nat.two_pow_pos _)

theorem significand_eq (h : Scaled power significand) :
    (significand * 2 ^ power) >>> spacing (significand * 2 ^ power) = significand := by
  rw [h.spacing_eq, Nat.shiftRight_eq_div_pow, Nat.mul_div_cancel _ (Nat.two_pow_pos _)]

private theorem patternOfQuanta_eq (h : Scaled power significand) :
    patternOfQuanta (significand * 2 ^ power) = power * leadingBit + significand := by
  rw [patternOfQuanta, h.significand_eq, h.spacing_eq]

end Scaled

/-- **A pattern is known by its quanta.** -/
theorem patternOfQuanta_quantaOfPattern (p : Nat) : patternOfQuanta (quantaOfPattern p) = p := by
  obtain ⟨power, significand, hscaled, rfl⟩ := Scaled.exists_eq p
  rw [hscaled.quantaOfPattern_eq, hscaled.patternOfQuanta_eq]

theorem quantaOfPattern_eq_zero_iff {p : Nat} : quantaOfPattern p = 0 ↔ p = 0 := by
  constructor
  · intro h
    rw [← patternOfQuanta_quantaOfPattern p, h]
    decide
  · rintro rfl
    decide

end BlockScript.Number
