import BlockScript.Number.Decimal
import BlockScript.Proofs.Number.Nearest
import BlockScript.Proofs.Segment.Longest

/-!
# The digits of a magnitude read back

The printer returns a point of the window of a magnitude, whatever grid it stops at; that the grid
is the coarsest one plays no part in reading it back. Every point of the window, taken as a fraction
of quanta, is near the magnitude, so it is rounded to it.

The digits that are written are one numeral of the language, whole or with a point, and they stand
for the point exactly (`exists_positional`). Its exponent is never so small that reading takes the
shortcut for values far below half a quantum: the point is at least half a quantum.
-/

namespace BlockScript.Number

variable {num den power significand point k place len : Nat}

/-! ## The window -/

private theorem unitsPerQuantum_eq : unitsPerQuantum = 5 ^ finestPlace := by
  unfold unitsPerQuantum
  generalize finestPlace = n
  rfl

private theorem unitsPerQuantum_pos : 0 < unitsPerQuantum := by
  rw [unitsPerQuantum_eq]
  exact Nat.pow_pos (by decide)

namespace Window

private theorem contains_iff {w : Window} :
    w.contains point = true ↔ w.low ≤ point ∧ point ≤ w.high ∧
      (w.low = point ∨ point = w.high → w.closed = true) := by
  rw [contains]
  by_cases hclosed : w.closed = true
  · simp only [hclosed, if_true, Bool.and_eq_true, decide_eq_true_eq, implies_true, and_true]
  · simp only [if_neg hclosed, Bool.and_eq_true, decide_eq_true_eq]
    constructor
    · rintro ⟨hlow, hhigh⟩
      exact ⟨hlow.le, hhigh.le, fun htie ↦ absurd htie (not_or.mpr ⟨hlow.ne, hhigh.ne⟩)⟩
    · rintro ⟨hlow, hhigh, htie⟩
      exact ⟨lt_of_le_of_ne hlow fun h ↦ hclosed (htie (.inl h)),
        lt_of_le_of_ne hhigh fun h ↦ hclosed (htie (.inr h))⟩

/-- The window of a magnitude in terms of its power and its significand. -/
theorem ofQuanta_eq (h : Scaled power significand) :
    ofQuanta (significand * 2 ^ power) =
      { value := 4 * (significand * 2 ^ power) * unitsPerQuantum
        low := (4 * (significand * 2 ^ power) -
          if Narrow power significand then 2 ^ power else 2 * 2 ^ power) * unitsPerQuantum
        high := (4 * (significand * 2 ^ power) + 2 * 2 ^ power) * unitsPerQuantum
        closed := significand % 2 == 0 } := by
  rw [ofQuanta, h.significand_eq, h.spacing_eq]
  simp only [Nat.one_shiftLeft, Bool.and_eq_true, beq_iff_eq, bne_iff_ne]

/-- The way from quarter units to the fraction of quanta that a point is: what is measured in
quarters of a quantum is `point` where it is `4 * num`. -/
theorem scaled_le_iff (hden : 0 < den) (hpoint : 4 * num * unitsPerQuantum = point * den)
    (n : Nat) :
    (n * unitsPerQuantum ≤ point ↔ n * den ≤ 4 * num) ∧
      (point ≤ n * unitsPerQuantum ↔ 4 * num ≤ n * den) := by
  have hpos := unitsPerQuantum_pos
  have hswap : n * unitsPerQuantum * den = n * den * unitsPerQuantum := by ring
  constructor
  · rw [← Nat.mul_le_mul_right_iff hden, hswap, ← hpoint, Nat.mul_le_mul_right_iff hpos]
  · rw [← Nat.mul_le_mul_right_iff hden, hswap, ← hpoint, Nat.mul_le_mul_right_iff hpos]

/-- **The points of the window are near the magnitude.** -/
theorem near_of_contains (hden : 0 < den) (hscaled : Scaled power significand)
    (hpoint : 4 * num * unitsPerQuantum = point * den)
    (h : (ofQuanta (significand * 2 ^ power)).contains point = true) :
    Near num (den * 2 ^ power) power significand := by
  rw [ofQuanta_eq hscaled, contains_iff] at h
  obtain ⟨hlow, hhigh, heven⟩ := h
  dsimp only at hlow hhigh heven
  have hbound := scaled_le_iff hden hpoint
  simp only [Nat.le_antisymm_iff, (hbound _).1, (hbound _).2] at hlow hhigh heven
  have hvalue : 4 * (significand * 2 ^ power) * den = 4 * (significand * (den * 2 ^ power)) := by
    ring
  have hgap : (if Narrow power significand then 2 ^ power else 2 * 2 ^ power) * den =
      if Narrow power significand then den * 2 ^ power else 2 * (den * 2 ^ power) := by
    split <;> ring
  have hhalf : 2 * 2 ^ power * den = 2 * (den * 2 ^ power) := by ring
  rw [Nat.sub_mul, hvalue, hgap] at hlow heven
  rw [Nat.add_mul, hvalue, hhalf] at hhigh heven
  rw [beq_iff_eq] at heven
  exact ⟨by omega, by omega, fun htie ↦ heven (by omega)⟩

private theorem contains_value (hscaled : Scaled power significand) (hpos : 0 < significand) :
    (ofQuanta (significand * 2 ^ power)).contains (ofQuanta (significand * 2 ^ power)).value =
      true := by
  have hstep : 0 < 2 ^ power := Nat.two_pow_pos power
  have hquanta : 0 < significand * 2 ^ power := Nat.mul_pos hpos hstep
  have hgap : 0 < if Narrow power significand then 2 ^ power else 2 * 2 ^ power := by
    split <;> omega
  have hlow := Nat.mul_lt_mul_of_pos_right (k := unitsPerQuantum)
    (show 4 * (significand * 2 ^ power) -
      (if Narrow power significand then 2 ^ power else 2 * 2 ^ power) <
        4 * (significand * 2 ^ power) by omega) unitsPerQuantum_pos
  have hhigh := Nat.mul_lt_mul_of_pos_right (k := unitsPerQuantum)
    (show 4 * (significand * 2 ^ power) < 4 * (significand * 2 ^ power) + 2 * 2 ^ power by omega)
    unitsPerQuantum_pos
  rw [ofQuanta_eq hscaled, contains_iff]
  exact ⟨hlow.le, hhigh.le, fun htie ↦ absurd htie (not_or.mpr ⟨hlow.ne, hhigh.ne⟩)⟩

/-! ## The search -/

private theorem contains_of_point? {w : Window} (h : w.point? place = some k) :
    w.contains (k * (4 * Nat.pow 10 place)) = true := by
  rw [point?] at h
  split at h
  · next hbelow habove =>
    split at h
    · exact Option.some.inj h ▸ hbelow
    · exact Option.some.inj h ▸ habove
  · next hbelow _ => exact Option.some.inj h ▸ hbelow
  · next _ habove => exact Option.some.inj h ▸ habove
  · cases h

/-- The search ends in the window, since the finest grid has the magnitude itself as a point. -/
theorem contains_coarsest {w : Window} (hvalue : w.contains w.value = true) (hdvd : 4 ∣ w.value)
    (n : Nat) :
    w.contains ((w.coarsest n).1 * (4 * Nat.pow 10 (w.coarsest n).2)) = true := by
  induction n with
  | zero =>
    change w.contains (w.value / 4 * (4 * 1)) = true
    rwa [Nat.mul_one, Nat.div_mul_cancel hdvd]
  | succ n ih =>
    rw [coarsest]
    split
    · next k hpoint => exact contains_of_point? hpoint
    · exact ih

end Window

private theorem contains_shortest (hscaled : Scaled power significand) (hpos : 0 < significand) :
    (Window.ofQuanta (significand * 2 ^ power)).contains
      ((shortest (significand * 2 ^ power)).1 *
        (4 * Nat.pow 10 (shortest (significand * 2 ^ power)).2)) = true := by
  refine Window.contains_coarsest (Window.contains_value hscaled hpos) ?_ _
  exact ⟨_, Nat.mul_assoc 4 (significand * 2 ^ power) unitsPerQuantum⟩

/-! ## The layout -/

private theorem ofDigitChars_leftpad (n : Nat) (cs : List Char) :
    Nat.ofDigitChars 10 (cs.leftpad n '0') 0 = Nat.ofDigitChars 10 cs 0 := by
  rw [List.leftpad, Nat.ofDigitChars_append, Nat.ofDigitChars_replicate_zero, Nat.mul_zero]

private theorem isDigit_of_mem_leftpad {n : Nat} {cs : List Char} (h : ∀ c ∈ cs, c.isDigit = true) :
    ∀ c ∈ cs.leftpad n '0', c.isDigit = true := by
  intro c hc
  rcases List.mem_append.mp hc with hc | hc
  · rw [List.eq_of_mem_replicate hc]
    decide
  · exact h c hc

private theorem isDigit_of_mem_toDigits (n : Nat) : ∀ c ∈ Nat.toDigits 10 n, c.isDigit = true :=
  fun _ hc ↦ Nat.isDigit_of_mem_toDigits (by decide) (by decide) hc

/-- **What is written is one numeral, and exactly the given one.** -/
theorem exists_positional (k place : Nat) :
    ∃ whole fraction, positional k place = (Segment.number whole fraction).chars ∧
      Segment.Fits (.number whole fraction) [] ∧
      Nat.ofDigitChars 10 (whole ++ fraction) 0 * 10 ^ finestPlace =
        k * 10 ^ place * 10 ^ fraction.length := by
  rw [positional]
  split
  · next hle =>
    obtain ⟨d, rfl⟩ := Nat.exists_eq_add_of_le hle
    refine ⟨Nat.toDigits 10 (k * Nat.pow 10 (finestPlace + d - finestPlace)), [], rfl,
      .number (.inl Nat.toDigits_ne_nil) ?_, ?_⟩
    · rw [List.append_nil]
      exact isDigit_of_mem_toDigits _
    · rw [List.append_nil, Nat.ofDigitChars_ten_toDigits, Nat.add_sub_cancel_left, List.length_nil]
      change k * 10 ^ d * _ = _
      ring
  · next hlt =>
    -- so many digits stand behind the point, with zeros in front of those that the remainder has
    obtain ⟨places, hplaces⟩ := Nat.exists_eq_add_of_lt (Nat.not_le.mp hlt)
    have hsub : finestPlace - place = places + 1 := by omega
    have hfinest : 10 ^ finestPlace = 10 ^ place * 10 ^ (places + 1) := by
      rw [← pow_add, hplaces]
      rfl
    dsimp only
    rw [hsub]
    change ∃ whole fraction, Nat.toDigits 10 (k / 10 ^ (places + 1)) ++
      '.' :: (Nat.toDigits 10 (k % 10 ^ (places + 1))).leftpad (places + 1) '0' = _ ∧ _
    have hpad := Nat.ofDigitChars_ten_toDigits (n := k % 10 ^ (places + 1))
    have hdigits := isDigit_of_mem_leftpad (n := places + 1)
      (isDigit_of_mem_toDigits (k % 10 ^ (places + 1)))
    have hlength : ((Nat.toDigits 10 (k % 10 ^ (places + 1))).leftpad (places + 1) '0').length =
        places + 1 := by
      rw [List.length_leftpad, Nat.max_eq_left]
      exact (Nat.length_toDigits_le_iff (by decide) (Nat.succ_pos places)).mpr
        (Nat.mod_lt k (Nat.pow_pos (by decide)))
    rw [← ofDigitChars_leftpad (places + 1)] at hpad
    generalize (Nat.toDigits 10 (k % 10 ^ (places + 1))).leftpad (places + 1) '0' = fraction at *
    obtain ⟨d, fraction, rfl⟩ := List.exists_cons_of_length_eq_add_one hlength
    refine ⟨Nat.toDigits 10 (k / 10 ^ (places + 1)), d :: fraction, rfl,
      .number (.inl Nat.toDigits_ne_nil) ?_, ?_⟩
    · exact List.forall_mem_append.mpr ⟨isDigit_of_mem_toDigits _, hdigits⟩
    · have hvalue :
          Nat.ofDigitChars 10 (Nat.toDigits 10 (k / 10 ^ (places + 1)) ++ d :: fraction) 0 =
            k := by
        rw [Nat.ofDigitChars_append, Nat.ofDigitChars_ten_toDigits,
          Nat.ofDigitChars_eq_ofDigitChars_zero, hpad, hlength]
        exact Nat.div_add_mod k _
      rw [hvalue, hlength, hfinest]
      ring

/-! ## Reading the digits -/

/-- A decimal fraction that is not far below half a quantum is rounded. -/
theorem decimalPattern_eq (hk : k ≠ 0) (hlen : 3 * len ≤ k.log2 + 1200) :
    decimalPattern k (0 - (len : Int)) = nearestPattern (k * quantaPerUnit) (10 ^ len) := by
  have hlarge : ¬ (400 < 0 - (len : Int)) := by omega
  have hsmall : ¬ ((k.log2 : Int) + 3 * (0 - (len : Int)) < -1200) := by omega
  unfold decimalPattern
  rw [if_neg hk, if_neg hlarge, if_neg hsmall]
  cases len with
  | zero =>
    change nearestPattern (k * 1 * quantaPerUnit) 1 = _
    rw [Nat.mul_one, pow_zero]
  | succ len =>
    have hneg : 0 - ((len + 1 : Nat) : Int) = .negSucc len := by omega
    rw [hneg]
    rfl

/-- A fraction near a positive magnitude is at least half a quantum, so its exponent is in reach. -/
theorem Near.three_mul_le (hpos : 0 < significand)
    (h : Near (k * quantaPerUnit) (10 ^ len * 2 ^ power) power significand) :
    k ≠ 0 ∧ 3 * len ≤ k.log2 + 1200 := by
  have hlow := h.nearest.low
  have hone : 10 ^ len * 2 ^ power ≤ significand * (10 ^ len * 2 ^ power) :=
    Nat.le_mul_of_pos_left _ hpos
  have hden : 10 ^ len ≤ 10 ^ len * 2 ^ power := Nat.le_mul_of_pos_right _ (Nat.two_pow_pos power)
  have hdenpos : 0 < 10 ^ len := Nat.pow_pos (by decide)
  have hk : k ≠ 0 := by
    rintro rfl
    omega
  refine ⟨hk, ?_⟩
  -- ten is more than three factors of two, and the fraction is at least half a quantum
  have hpow : 2 ^ (3 * len) < 2 ^ (k.log2 + 1 + finestPlace + 1) := by
    calc 2 ^ (3 * len) = 8 ^ len := Nat.pow_mul 2 3 len
      _ ≤ 10 ^ len := Nat.pow_le_pow_left (by decide) len
      _ ≤ k * 2 ^ finestPlace * 2 := by
        rw [← quantaPerUnit_eq]
        omega
      _ < 2 ^ (k.log2 + 1) * 2 ^ finestPlace * 2 := by
        have hlog : k < 2 ^ (k.log2 + 1) := Nat.lt_log2_self
        exact Nat.mul_lt_mul_of_pos_right
          (Nat.mul_lt_mul_of_pos_right hlog (Nat.two_pow_pos finestPlace)) (by decide)
      _ = 2 ^ (k.log2 + 1 + finestPlace + 1) := by rw [← pow_add, ← pow_succ]
  have hlt := (Nat.pow_lt_pow_iff_right (by decide)).mp hpow
  rw [finestPlace] at hlt
  omega

/-- **The digits of a magnitude read back.** -/
theorem exists_magnitudeText {p : Nat} (hp : p < infinitePattern) :
    ∃ whole fraction, magnitudeText (quantaOfPattern p) = (Segment.number whole fraction).chars ∧
      Segment.Fits (.number whole fraction) [] ∧
      ∀ negative, ofDigits negative whole fraction 0 = signed negative p := by
  obtain ⟨power, significand, hscaled, rfl⟩ := Scaled.exists_eq p
  rw [hscaled.quantaOfPattern_eq, magnitudeText]
  by_cases hzero : significand = 0
  · have hpower : power = 0 := by
      by_contra hne
      have hle := hscaled.leading_le hne
      rw [hzero] at hle
      exact absurd hle (by decide)
    rw [hzero, hpower, if_pos (Nat.zero_mul _)]
    exact ⟨['0'], [], rfl,
      .number (.inl (List.cons_ne_nil _ _)) (List.forall_mem_singleton.mpr rfl),
      fun negative ↦ rfl⟩
  · have hpos := Nat.pos_of_ne_zero hzero
    have hquanta : significand * 2 ^ power ≠ 0 :=
      (Nat.mul_pos hpos (Nat.two_pow_pos power)).ne'
    have hcontains := contains_shortest hscaled hpos
    rw [if_neg hquanta]
    generalize shortest (significand * 2 ^ power) = result at hcontains
    obtain ⟨k, place⟩ := result
    obtain ⟨whole, fraction, htext, hfits, hvalue⟩ := exists_positional k place
    refine ⟨whole, fraction, htext, hfits, fun negative ↦ ?_⟩
    have hden : 0 < 10 ^ fraction.length := Nat.pow_pos (by decide)
    have hnear : Near (Nat.ofDigitChars 10 (whole ++ fraction) 0 * quantaPerUnit)
        (10 ^ fraction.length * 2 ^ power) power significand := by
      refine Window.near_of_contains hden hscaled ?_ hcontains
      -- a unit is `2 ^ finestPlace` quanta of `5 ^ finestPlace` parts, so `10 ^ finestPlace` parts
      generalize Nat.ofDigitChars 10 (whole ++ fraction) 0 = c at hvalue
      have hten (n : Nat) : 10 ^ n = 2 ^ n * 5 ^ n := Nat.mul_pow 2 5 n
      calc 4 * (c * quantaPerUnit) * unitsPerQuantum = 4 * (c * 10 ^ finestPlace) := by
            rw [quantaPerUnit_eq, unitsPerQuantum_eq, hten]
            ring
        _ = k * (4 * 10 ^ place) * 10 ^ fraction.length := by
            rw [hvalue]
            ring
    obtain ⟨hk, hlen⟩ := hnear.three_mul_le hpos
    rw [ofDigits, decimalPattern_eq hk hlen, hnear.nearestPattern_eq hden hscaled,
      Nat.min_eq_left hp.le]

end BlockScript.Number
