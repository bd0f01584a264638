import BlockScript.Number.Shortest
import BlockScript.Proofs.Number.Magnitude
import Mathlib.Tactic.Ring

/-!
# What is read as one magnitude

A fraction of quanta is read as the nearest magnitude. Rounding first fixes the spacing, from the
fraction alone, and then takes the nearest multiple of it, the even one of two that are equally near
(`Nearest`); there is exactly one such multiple.

The window that the printer looks for digits in is stated from the other end: it starts from the
magnitude and lists the fractions that are near. The two can only be at odds where the spacing
changes, at a power of two. A fraction below it is rounded with half the spacing, which is what
makes the window narrow on that side, and which gives the power of two by a carry from the
significand.
-/

namespace BlockScript.Number

variable {num den step shift power significand : Nat}

/-! ## The nearest multiple -/

/-- `k` is the multiple of `step` that is nearest to `num`, and the even one if two are equally
near. -/
structure Nearest (num step k : Nat) : Prop where
  /-- It is at most half a step too large. -/
  low : 2 * (k * step) ≤ 2 * num + step
  /-- It is at most half a step too small. -/
  high : 2 * num ≤ 2 * (k * step) + step
  /-- Half a step off, it is even. -/
  even : 2 * (k * step) = 2 * num + step ∨ 2 * num = 2 * (k * step) + step → k % 2 = 0

namespace Nearest

variable {k k' : Nat}

/-- Of two nearest multiples the greater one is at most as great as the other: they could only be
one step apart, with `num` halfway between them, and then both of them would be even. -/
theorem le (hstep : 0 < step) (h : Nearest num step k) (h' : Nearest num step k') : k' ≤ k := by
  by_contra hlt
  obtain ⟨d, rfl⟩ := Nat.exists_eq_add_of_lt (Nat.not_le.mp hlt)
  have hlow := h'.low
  have hhigh := h.high
  have hsplit : (k + d + 1) * step = k * step + d * step + step := by ring
  rw [hsplit] at hlow
  have hd : d * step = 0 := by omega
  have hd : d = 0 := (Nat.mul_eq_zero.mp hd).resolve_right hstep.ne'
  have heven := h.even (.inr (by omega))
  have heven' := h'.even (.inl (by omega))
  omega

/-- **There is one nearest multiple.** -/
theorem unique (hstep : 0 < step) (h : Nearest num step k) (h' : Nearest num step k') : k = k' :=
  Nat.le_antisymm (h'.le hstep h) (h.le hstep h')

/-- The one above or below is the nearest multiple, as the remainder says. -/
theorem of_div (hstep : 0 < step) :
    Nearest num step
      (if step < 2 * (num % step) || (step == 2 * (num % step) && num / step % 2 == 1) then
        num / step + 1 else num / step) := by
  have hsplit := Nat.div_add_mod' num step
  have hlt := Nat.mod_lt num hstep
  have hsucc : (num / step + 1) * step = num / step * step + step := Nat.succ_mul _ _
  simp only [Bool.or_eq_true, Bool.and_eq_true, decide_eq_true_eq, beq_iff_eq]
  generalize num % step = rest at *
  generalize num / step = floor at *
  split
  · exact ⟨by omega, by omega, fun htie ↦ by omega⟩
  · exact ⟨by omega, by omega, fun htie ↦ by omega⟩

/-- The nearest multiple of the spacing has 53 bits, or is the least number of 54. -/
theorem bounds {t : Nat} (hnum : num ≠ 0) (ht : spacing num = t)
    (h : Nearest num (2 ^ t) k) : 0 < k ∧ k ≤ 2 * leadingBit ∧ (t ≠ 0 → leadingBit ≤ k) := by
  have hpos : 0 < 2 ^ t := Nat.two_pow_pos t
  have hlow := h.low
  have hhigh := h.high
  have hlt := lt_of_spacing_eq ht
  have hle : t ≠ 0 → leadingBit ≤ k := by
    intro hne
    have hge := le_of_spacing_eq ht hne
    rw [← leadingBit_eq] at hge
    have hmul : leadingBit * 2 ^ t < (k + 1) * 2 ^ t := by
      rw [Nat.succ_mul]
      omega
    exact Nat.lt_succ_iff.mp (Nat.lt_of_mul_lt_mul_right hmul)
  refine ⟨?_, ?_, hle⟩
  · by_cases hzero : t = 0
    · rw [hzero, pow_zero, Nat.mul_one] at hhigh
      omega
    · exact Nat.lt_of_lt_of_le (by decide) (hle hzero)
  · have hmul : k * 2 ^ t < (2 * leadingBit + 1) * 2 ^ t := by
      rw [Nat.succ_mul, leadingBit_eq]
      omega
    exact Nat.lt_succ_iff.mp (Nat.lt_of_mul_lt_mul_right hmul)

end Nearest

/-- Rounding takes the nearest multiple of the spacing. -/
theorem nearestPattern_eq {k : Nat} (hden : 0 < den) (hshift : spacing (num / den) = shift)
    (h : Nearest num (den * 2 ^ shift) k) :
    nearestPattern num den = min (shift * leadingBit + k) infinitePattern := by
  have hstep : 0 < den * 2 ^ shift := Nat.mul_pos hden (Nat.two_pow_pos shift)
  rw [nearestPattern, hshift, Nat.shiftLeft_eq, h.unique hstep (.of_div hstep)]

/-- What is at least a power of two is rounded to at least that power of two. -/
theorem le_nearestPattern (hpower : power + 1 ≤ 2047) (hne : power ≠ 0)
    (h : leadingBit * 2 ^ power ≤ num) : (power + 1) * leadingBit ≤ nearestPattern num 1 := by
  obtain ⟨t, ht⟩ : ∃ t, spacing num = t := ⟨_, rfl⟩
  have hnum : num ≠ 0 := by
    have hpos : 0 < leadingBit * 2 ^ power := Nat.mul_pos (by decide) (Nat.two_pow_pos power)
    omega
  have hle : power ≤ t := by
    rw [leadingBit_eq, ← pow_add] at h
    have hlog := (Nat.le_log2 hnum).mpr h
    rw [spacing] at ht
    omega
  have hnearest : Nearest num (2 ^ t) _ := .of_div (Nat.two_pow_pos t)
  have hbounds := hnearest.bounds hnum ht
  have hleading := hbounds.2.2 (by omega)
  have hmul : power * leadingBit ≤ t * leadingBit := Nat.mul_le_mul_right _ hle
  rw [nearestPattern_eq (by decide) (by rw [Nat.div_one, ht]) (by rwa [Nat.one_mul])]
  refine Nat.le_min.mpr ⟨?_, Nat.mul_le_mul_right _ hpower⟩
  rw [Nat.succ_mul]
  omega

/-! ## Fractions near a magnitude -/

/-- Whether the magnitude below is only half as far away as the one above. -/
abbrev Narrow (power significand : Nat) : Prop := significand = leadingBit ∧ power ≠ 0

/-- `num` lies no further from `significand` steps than halfway to the magnitudes below and above,
and halfway only if the significand is even. -/
structure Near (num step power significand : Nat) : Prop where
  /-- It is no less than halfway to the magnitude below. -/
  low : 4 * (significand * step) ≤ 4 * num + if Narrow power significand then step else 2 * step
  /-- It is no more than halfway to the magnitude above. -/
  high : 4 * num ≤ 4 * (significand * step) + 2 * step
  /-- Halfway the significand is even. -/
  even :
    4 * (significand * step) = 4 * num + (if Narrow power significand then step else 2 * step) ∨
    4 * num = 4 * (significand * step) + 2 * step → significand % 2 = 0

namespace Near

/-- Where the spacing is that of the magnitude, its significand is the nearest multiple. -/
theorem nearest (h : Near num step power significand) : Nearest num step significand := by
  obtain ⟨hlow, hhigh, heven⟩ := h
  have hgap : (if Narrow power significand then step else 2 * step) ≤ 2 * step := by
    split <;> omega
  exact ⟨by omega, by omega, fun htie ↦ heven (by omega)⟩

/-- Below a power of two the nearest multiple of half the spacing is twice the leading bit. -/
theorem nearest_half (h : Near num (2 * step) (power + 1) significand)
    (hle : leadingBit ≤ significand) (hbelow : num < leadingBit * (2 * step)) :
    significand = leadingBit ∧ leadingBit * step ≤ num ∧ Nearest num step (2 * leadingBit) := by
  obtain ⟨hlow, -, -⟩ := h
  obtain ⟨d, rfl⟩ := Nat.exists_eq_add_of_le hle
  have hsplit : (leadingBit + d) * (2 * step) = leadingBit * (2 * step) + 2 * (d * step) := by ring
  have hhalf : leadingBit * (2 * step) = 2 * (leadingBit * step) := by ring
  have hdouble : 2 * leadingBit * step = 2 * (leadingBit * step) := by ring
  have hone : step ≤ leadingBit * step := Nat.le_mul_of_pos_left step (by decide)
  have hd : d = 0 := by
    by_contra hne
    have hd : step ≤ d * step := Nat.le_mul_of_pos_left step (Nat.pos_of_ne_zero hne)
    split at hlow <;> omega
  subst hd
  rw [if_pos ⟨rfl, Nat.succ_ne_zero power⟩] at hlow
  exact ⟨rfl, by omega, by omega, by omega, fun htie ↦ by omega⟩

theorem lt (hstep : 0 < step) (hscaled : Scaled power significand)
    (h : Near num step power significand) : num < 2 * leadingBit * step := by
  have hhigh := h.high
  have hle : (significand + 1) * step ≤ 2 * leadingBit * step := Nat.mul_le_mul_right _ hscaled.lt
  rw [Nat.succ_mul] at hle
  omega

/-- **What is near a magnitude is rounded to it.** -/
theorem nearestPattern_eq (hden : 0 < den) (hscaled : Scaled power significand)
    (h : Near num (den * 2 ^ power) power significand) :
    nearestPattern num den = min (power * leadingBit + significand) infinitePattern := by
  have hstep : 0 < den * 2 ^ power := Nat.mul_pos hden (Nat.two_pow_pos power)
  have hquot (k s : Nat) : k * (den * 2 ^ s) = k * 2 ^ s * den := by ring
  have hlt := h.lt hstep hscaled
  rw [hquot, ← Nat.div_lt_iff_lt_mul hden] at hlt
  by_cases hbelow : power ≠ 0 ∧ num < leadingBit * (den * 2 ^ power)
  · obtain ⟨hpower, hbelow⟩ := hbelow
    obtain ⟨power, rfl⟩ := Nat.exists_eq_succ_of_ne_zero hpower
    have htwo : den * 2 ^ (power + 1) = 2 * (den * 2 ^ power) := by ring
    have hcarry : (power + 1) * leadingBit + leadingBit = power * leadingBit + 2 * leadingBit := by
      ring
    rw [htwo] at h hbelow
    obtain ⟨rfl, hle, hnearest⟩ := h.nearest_half (hscaled.leading_le hpower) hbelow
    rw [hquot, ← Nat.le_div_iff_mul_le hden] at hle
    have hhalf : leadingBit * (2 * (den * 2 ^ power)) = 2 * leadingBit * 2 ^ power * den := by ring
    rw [hhalf, ← Nat.div_lt_iff_lt_mul hden] at hbelow
    rw [Number.nearestPattern_eq hden (spacing_eq hle hbelow) hnearest, hcarry]
  · refine Number.nearestPattern_eq hden ?_ h.nearest
    by_cases hpower : power = 0
    · rw [hpower, pow_zero, Nat.mul_one] at hlt
      rw [hpower]
      exact spacing_eq_zero hlt
    · have hle : leadingBit * (den * 2 ^ power) ≤ num := by
        by_contra hnot
        exact hbelow ⟨hpower, Nat.not_le.mp hnot⟩
      rw [hquot, ← Nat.le_div_iff_mul_le hden] at hle
      exact spacing_eq hle hlt

end Near

theorem nearestPattern_quantaOfPattern {p : Nat} (hp : p ≤ infinitePattern) :
    nearestPattern (quantaOfPattern p) 1 = p := by
  obtain ⟨power, significand, hscaled, rfl⟩ := Scaled.exists_eq p
  have hpos : 0 < 2 ^ power := Nat.two_pow_pos power
  have hnear : Near (significand * 2 ^ power) (1 * 2 ^ power) power significand := by
    rw [Nat.one_mul]
    refine ⟨Nat.le_add_right _ _, Nat.le_add_right _ _, fun htie ↦ ?_⟩
    split at htie <;> omega
  rw [hscaled.quantaOfPattern_eq, hnear.nearestPattern_eq (by decide) hscaled, Nat.min_eq_left hp]

end BlockScript.Number
