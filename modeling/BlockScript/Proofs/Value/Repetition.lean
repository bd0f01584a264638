import BlockScript.Proofs.Number.Sum
import BlockScript.Value.Operation

/-!
# Repeated texts

A text times a count is the text put so many times after itself, and it does not matter on which
side the text stands. There are two ways for this to fail, and the order in which they are looked
for shows: what is no count is refused even for the empty text, while the empty text can be repeated
more often than any other one.

Repetition is additive as far as it succeeds. Counts are added as numbers are, and a sum that would
have to be rounded is no count any more, so nothing is repeated a wrong number of times.
-/

namespace BlockScript.Value

open Number (count? maxCount count?_add)

variable {s : String} {v : Value} {x y z : Float} {m n : ℕ}

/-! ## Texts put after themselves -/

private theorem repeated_eq_join (s : String) (n : ℕ) :
    repeated s n = String.join (List.replicate n s) := by
  induction n with
  | zero => rfl
  | succ n ih =>
    rw [List.replicate_succ', String.join_append, ← ih, String.join_cons, String.join_nil,
      String.append_empty]
    rfl

private theorem utf8ByteSize_join_replicate (s : String) (n : ℕ) :
    (String.join (List.replicate n s)).utf8ByteSize = n * s.utf8ByteSize := by
  induction n with
  | zero => rw [List.replicate_zero, String.join_nil, Nat.zero_mul]; rfl
  | succ n ih =>
    rw [List.replicate_succ, String.join_cons, String.utf8ByteSize_append, ih, Nat.succ_mul,
      Nat.add_comm]

private theorem join_replicate_add (s : String) (m n : ℕ) :
    String.join (List.replicate (m + n) s) =
      String.join (List.replicate m s) ++ String.join (List.replicate n s) := by
  rw [← List.replicate_append_replicate, String.join_append]

/-! ## Products with a text -/

private theorem sizeBound_eq : sizeBound = 2 ^ 64 := rfl

section

variable [Memory]

private theorem mul_text_left (s : String) (v : Value) : mul (text s) v = repetition s v := rfl

private theorem mul_text_right (s : String) (v : Value) : mul v (text s) = repetition s v := by
  cases v with
  | text t => rfl
  | _ => rfl

private theorem repetition_of_count? (h : count? x = some n) :
    repetition s (number x) =
      if s = "" then .ok (text "")
      else if sizeBound ≤ n * s.utf8ByteSize ∨ Memory.limit < n * s.utf8ByteSize then
        .error .textTooLarge
      else .ok (text (String.join (List.replicate n s))) := by
  unfold repetition
  rw [number?, Option.bind_some, h, ← repeated_eq_join]

/-- What is refused as a count is refused before anything else is looked at. -/
theorem repetition_eq_error_iff :
    repetition s v = .error .invalidRepetition ↔ ∀ x, v = number x → count? x = none := by
  constructor
  · rintro h x rfl
    rcases hx : count? x with _ | n
    · rfl
    · rw [repetition_of_count? hx] at h
      split at h
      · cases h
      · split at h <;> cases h
  · intro h
    have hnone : v.number?.bind count? = none := by
      cases v with
      | number x => exact h x rfl
      | _ => rfl
    unfold repetition
    rw [hnone]

private theorem isSome_count?_of_repetition {r : Value} (h : repetition s (number z) = .ok r) :
    ∃ k, count? z = some k := by
  by_contra hnone
  have herror : repetition s (number z) = .error .invalidRepetition := by
    refine repetition_eq_error_iff.mpr ?_
    rintro x ⟨⟩
    exact Option.eq_none_iff_forall_ne_some.mpr fun k hk ↦ hnone ⟨k, hk⟩
  rw [herror] at h
  cases h

/-- If a text can be repeated so many times, then so can it fewer times, and the parts give the
whole. -/
theorem repetition_add {r : Value} (hx : count? x = some m) (hy : count? y = some n)
    (hz : count? z = some (m + n)) (h : repetition s (number z) = .ok r) :
    ∃ a b, repetition s (number x) = .ok a ∧ repetition s (number y) = .ok b ∧ add a b = .ok r := by
  rw [repetition_of_count? hz] at h
  rw [repetition_of_count? hx, repetition_of_count? hy]
  by_cases hs : s = ""
  · rw [if_pos hs] at h
    rw [if_pos hs, if_pos hs]
    refine ⟨_, _, rfl, rfl, ?_⟩
    rw [← h]
    rfl
  · rw [if_neg hs] at h
    rw [if_neg hs, if_neg hs]
    split at h
    · cases h
    · next hfits =>
      rw [Nat.add_mul] at hfits
      rw [if_neg (by omega), if_neg (by omega)]
      refine ⟨_, _, rfl, rfl, ?_⟩
      rw [← h, join_replicate_add]
      rfl

/-- **Repetition.** A text times a value is the same from either side. It is refused exactly if the
value is no count, in particular if it is a text. For a count `n` the empty text gives the empty
text, and any other one gives itself put `n` times after itself, `n` times as many bytes, unless
these are more than a size can be or than there is memory, however much there is. And if a text
times the sum of two counts succeeds, it is the text times the one and the text times the other, put
together. -/
theorem mul_text_repeats (s : String) :
    (∀ v, mul (text s) v = mul v (text s)) ∧
    (∀ v, mul (text s) v = .error .invalidRepetition ↔ ∀ x, v = number x → count? x = none) ∧
    (∀ t, mul (text s) (text t) = .error .invalidRepetition) ∧
    (∀ x n, count? x = some n →
      (s = "" → mul (text s) (number x) = .ok (text "")) ∧
      (s ≠ "" → n * s.utf8ByteSize < 2 ^ 64 → n * s.utf8ByteSize ≤ Memory.limit →
        mul (text s) (number x) = .ok (text (String.join (List.replicate n s))) ∧
          (String.join (List.replicate n s)).utf8ByteSize = n * s.utf8ByteSize) ∧
      (s ≠ "" → 2 ^ 64 ≤ n * s.utf8ByteSize ∨ Memory.limit < n * s.utf8ByteSize →
        mul (text s) (number x) = .error .textTooLarge)) ∧
    ∀ x y z m n r, count? x = some m → count? y = some n →
      z = x + y ∨ count? z = some (m + n) → mul (text s) (number z) = .ok r →
      ∃ a b, mul (text s) (number x) = .ok a ∧ mul (text s) (number y) = .ok b ∧
        add a b = .ok r := by
  refine ⟨fun v ↦ (mul_text_right s v).symm, fun v ↦ repetition_eq_error_iff, fun t ↦ rfl, ?_, ?_⟩
  · intro x n hx
    rw [mul_text_left, repetition_of_count? hx, sizeBound_eq]
    refine ⟨fun hs ↦ if_pos hs, fun hs hsize hfits ↦ ⟨?_, utf8ByteSize_join_replicate s n⟩,
      fun hs hlarge ↦ ?_⟩
    · rw [if_neg hs, if_neg (not_or.mpr ⟨Nat.not_le.mpr hsize, Nat.not_lt.mpr hfits⟩)]
    · rw [if_neg hs, if_pos hlarge]
  · intro x y z m n r hx hy hz h
    refine repetition_add hx hy ?_ h
    rcases hz with rfl | hz
    · -- the sum is a count, so it has not been rounded
      obtain ⟨k, hk⟩ := isSome_count?_of_repetition h
      rw [count?_add hx hy] at hk ⊢
      split at hk
      · next hle => exact if_pos hle
      · cases hk
    · exact hz

end

open scoped Memory

/-- A text three times is the text twice and once more; it is not repeated `-1` times, nor by a
text. -/
theorem mul_text_repeats_thrice :
    mul (text "ab") (number (Float.ofBits 0xBFF0000000000000)) = .error .invalidRepetition ∧
      (mul (text "ab") (number (Float.ofBits 0x4000000000000000)) = .ok (text "abab") ∧
        "abab".utf8ByteSize = 2 * "ab".utf8ByteSize) ∧
      mul (text "ab") (number (Float.ofBits 0x433FFFFFFFFFFFFF)) = .error .textTooLarge ∧
      mul (text "") (number (Float.ofBits 0x433FFFFFFFFFFFFF)) = .ok (text "") ∧
      ∃ a b, mul (text "ab") (number (Float.ofBits 0x4000000000000000)) = .ok a ∧
        mul (text "ab") (number (Float.ofBits 0x3FF0000000000000)) = .ok b ∧
        add a b = .ok (text "ababab") := by
  have hone : count? (Float.ofBits 0x3FF0000000000000) = some 1 := by decide +kernel
  have htwo : count? (Float.ofBits 0x4000000000000000) = some 2 := by decide +kernel
  have hmax : count? (Float.ofBits 0x433FFFFFFFFFFFFF) = some maxCount := by decide +kernel
  obtain ⟨-, hinvalid, -, hcount, hadd⟩ := mul_text_repeats "ab"
  obtain ⟨-, -, -, hempty, -⟩ := mul_text_repeats ""
  refine ⟨(hinvalid _).mpr ?_, ?_, (hcount _ _ hmax).2.2 (by decide) (.inr (by decide)),
    (hempty _ _ hmax).1 rfl, hadd _ _ _ _ _ _ htwo hone (.inl rfl) ?_⟩
  · rintro x ⟨⟩
    decide +kernel
  · exact (hcount _ _ htwo).2.1 (by decide) (by decide) (by decide)
  · decide +kernel

end BlockScript.Value
