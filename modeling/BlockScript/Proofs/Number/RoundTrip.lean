import BlockScript.Proofs.Machine.Reading
import BlockScript.Proofs.Number.Bits
import BlockScript.Proofs.Number.Printing
import BlockScript.Proofs.Token.Spacing

/-!
# Numbers written and read again

What is written for a number is read as that number, bit for bit, by every part of the language that
reads numbers: by the reader of input, which first drops the line end and the blanks around the
text, and by the scanner, which knows no sign. That numbers which are displayed alike are the same
number, and that zero is the only one displayed as `0`, follow from there.

Words that are not numbers are left out, since all of them are displayed alike.
-/

namespace BlockScript

variable {w w' : UInt64}

/-! ## Blanks around a text -/

namespace Text

private theorem isBlank_of_isDigit {c : Char} (h : c.isDigit = true) : isBlank c = false := by
  have hlow : 48 ≤ c.toNat :=
    UInt32.le_iff_toNat_le.mp (of_decide_eq_true (Bool.and_eq_true_iff.mp h).1)
  have hhigh : c.toNat ≤ 57 := UInt32.le_iff_toNat_le.mp (Segment.val_le_of_isDigit h)
  simp only [isBlank, blankRanges, List.any_cons, List.any_nil, Bool.or_false, Bool.or_eq_false_iff,
    Bool.and_eq_false_iff, decide_eq_false_iff_not]
  omega

/-- Blanks are dropped up to a text that has none. -/
theorem dropWhile_isBlank {before cs : List Char} (hbefore : ∀ c ∈ before, isBlank c = true)
    (hcs : ∀ c ∈ cs.head?, isBlank c = false) : (before ++ cs).dropWhile isBlank = cs := by
  rw [List.dropWhile_append_of_pos hbefore]
  cases cs with
  | nil => rfl
  | cons c cs => exact List.dropWhile_cons_of_neg (Bool.eq_false_iff.mp (hcs c rfl))

private theorem trim_append {before cs after : List Char} (hne : cs ≠ [])
    (hbefore : ∀ c ∈ before, isBlank c = true) (hafter : ∀ c ∈ after, isBlank c = true)
    (hcs : ∀ c ∈ cs, isBlank c = false) : trim (before ++ cs ++ after) = cs := by
  have hfront : (before ++ cs ++ after).dropWhile isBlank = cs ++ after := by
    rw [List.append_assoc]
    refine dropWhile_isBlank hbefore fun c hc ↦ hcs c ?_
    rw [List.head?_append_of_ne_nil _ hne] at hc
    exact List.mem_of_head? hc
  have hback : (cs ++ after).reverse.dropWhile isBlank = cs.reverse := by
    rw [List.reverse_append]
    refine dropWhile_isBlank (fun c hc ↦ hafter c (List.mem_reverse.mp hc)) fun c hc ↦ ?_
    exact hcs c (List.mem_reverse.mp (List.mem_of_head? hc))
  rw [trim, hfront, trimEnd, hback, List.reverse_reverse]

end Text

namespace Number

/-! ## The text of a number -/

private theorem isBlank_of_mem_chars {whole fraction : List Char}
    (h : Segment.Fits (.number whole fraction) []) :
    ∀ c ∈ (Segment.number whole fraction).chars, Text.isBlank c = false := by
  cases h with
  | number hne hdigits =>
    rw [List.forall_mem_append] at hdigits
    intro c hc
    cases fraction with
    | nil => exact Text.isBlank_of_isDigit (hdigits.1 c hc)
    | cons d fraction =>
      rcases List.mem_append.mp hc with hc | hc
      · exact Text.isBlank_of_isDigit (hdigits.1 c hc)
      · rcases List.mem_cons.mp hc with rfl | hc
        · decide
        · exact Text.isBlank_of_isDigit (hdigits.2 c hc)

/-- The text of a finite number is a numeral, with a sign in front of it if it is negative. -/
theorem exists_textChars_of_isFinite (h : Word.IsFinite w) :
    ∃ whole fraction, Segment.Fits (.number whole fraction) [] ∧
      (∀ negative, ofDigits negative whole fraction 0 = signed negative (Word.pattern w)) ∧
      textChars (Float.ofBits w) =
        if Word.negative w then '-' :: (Segment.number whole fraction).chars
        else (Segment.number whole fraction).chars := by
  obtain ⟨whole, fraction, htext, hfits, hvalue⟩ :=
    exists_magnitudeText ((Word.isFinite_iff w).mp h)
  refine ⟨whole, fraction, hfits, hvalue, ?_⟩
  rw [textChars, exact_of_isFinite h]
  dsimp only
  rw [htext]

private theorem textChars_of_infinite (h : Word.pattern w = infinitePattern) :
    textChars (Float.ofBits w) = (if Word.negative w then "-inf" else "inf").toList := by
  rw [textChars, exact_of_pattern_eq h]

/-- Words that are numbers are finite or infinite. -/
theorem isFinite_or_infinite (h : ¬ Word.IsNaN w) :
    Word.IsFinite w ∨ Word.pattern w = infinitePattern := by
  rw [Word.isNaN_iff] at h
  rw [Word.isFinite_iff]
  omega

/-- **What is written for a number is read as that number.** -/
theorem read?_textChars (h : ¬ Word.IsNaN w) :
    read? (textChars (Float.ofBits w)) = some (Float.ofBits w) := by
  rw [ofBits_eq_signed w]
  rcases isFinite_or_infinite h with hfinite | hinfinite
  · obtain ⟨whole, fraction, hfits, hvalue, htext⟩ := exists_textChars_of_isFinite hfinite
    rw [← ofBits_eq_signed, htext, ofBits_eq_signed]
    cases Word.negative w with
    | false => exact (Segment.read?_chars_number hfits).trans (congrArg some (hvalue false))
    | true =>
      exact (Segment.readUnsigned?_chars_number hfits true).trans (congrArg some (hvalue true))
  · rw [← ofBits_eq_signed, textChars_of_infinite hinfinite, ofBits_eq_signed, hinfinite]
    cases Word.negative w with
    | false => rfl
    | true => rfl

private theorem textChars_ne_nil (h : ¬ Word.IsNaN w) : textChars (Float.ofBits w) ≠ [] := by
  intro hnil
  have hread := read?_textChars h
  rw [hnil] at hread
  have hnone : read? [] = none := by decide
  rw [hnone] at hread
  cases hread

private theorem isBlank_of_mem_textChars (h : ¬ Word.IsNaN w) :
    ∀ c ∈ textChars (Float.ofBits w), Text.isBlank c = false := by
  rcases isFinite_or_infinite h with hfinite | hinfinite
  · obtain ⟨whole, fraction, hfits, -, htext⟩ := exists_textChars_of_isFinite hfinite
    have hchars := isBlank_of_mem_chars hfits
    rw [htext]
    split
    · exact List.forall_mem_cons.mpr ⟨by decide, hchars⟩
    · exact hchars
  · rw [textChars_of_infinite hinfinite]
    have hany : (if Word.negative w then "-inf" else "inf").toList.any Text.isBlank = false := by
      split
      · decide
      · decide
    exact fun c hc ↦ Bool.eq_false_iff.mpr (List.any_eq_false.mp hany c hc)

end Number

open Number

/-! ## Reading a number -/

/-- A number on a line of its own, with spaces and tabs around it, is assigned as it is. -/
theorem Exec.readNumber_text {m : Machine} {name before after ending : String} {rest : List UInt8}
    {level : Nat} (hw : ¬ Word.IsNaN w)
    (hblank : ∀ c ∈ before.toList ++ after.toList, c = ' ' ∨ c = '\t')
    (hending : Input.Ending ending rest) (hlevel : m.env.level? name = some level)
    (hinput : m.input =
      Input.encode (before ++ text (Float.ofBits w) ++ after ++ ending) ++ rest) (line : Nat) :
    readNumber name line m =
      .ok () { m with
        env := m.env.setAt level name (.number (Float.ofBits w))
        input := rest } := by
  rw [List.forall_mem_append] at hblank
  have hspace {c : Char} (hc : c = ' ' ∨ c = '\t') : Text.isBlank c = true := by
    rcases hc with rfl | rfl <;> decide
  have hchars : (before ++ text (Float.ofBits w) ++ after).toList =
      before.toList ++ textChars (Float.ofBits w) ++ after.toList := by
    rw [String.toList_append, String.toList_append, text, String.toList_ofList]
  have htrim := Text.trim_append (textChars_ne_nil hw) (fun c hc ↦ hspace (hblank.1 c hc))
    (fun c hc ↦ hspace (hblank.2 c hc)) (isBlank_of_mem_textChars hw)
  -- line ends are blanks, but neither spaces nor tabs
  have hmem {c : Char} (hwhite : Text.isBlank c = true) (hc : c ≠ ' ' ∧ c ≠ '\t') :
      c ∉ (before ++ text (Float.ofBits w) ++ after).toList := by
    rw [hchars, List.mem_append, List.mem_append]
    rintro ((h | h) | h)
    · rcases hblank.1 c h with rfl | rfl
      · exact hc.1 rfl
      · exact hc.2 rfl
    · rw [isBlank_of_mem_textChars hw c h] at hwhite
      cases hwhite
    · rcases hblank.2 c h with rfl | rfl
      · exact hc.1 rfl
      · exact hc.2 rfl
  have hfeed := hmem (c := '\n') (by decide) (by decide)
  have hreturn := hmem (c := '\r') (by decide) (by decide)
  have hne : before ++ text (Float.ofBits w) ++ after ++ ending ≠ "" := by
    intro hempty
    have hnil := congrArg String.toList hempty
    rw [String.toList_append, hchars] at hnil
    simp [textChars_ne_nil hw] at hnil
  have htake := takeLine_of_ending hending hfeed
    (fun hlast ↦ hreturn (List.mem_of_getLast? hlast)) hne line hinput
  rw [readNumber, bind_of_ok htake]
  dsimp only [Option.getD_some]
  rw [hchars, htrim, read?_textChars hw]
  exact assign_of_level? (m := { m with input := rest }) hlevel _ line

/-! ## Scanning a number -/

private theorem scan_text (hfinite : Word.IsFinite w) (hsign : Word.sign w = 0) :
    scan (text (Float.ofBits w)) =
      { tokens := [⟨.number (Float.ofBits w), text (Float.ofBits w), 1⟩, ⟨.eof, "", 1⟩]
        errors := [] } := by
  have hpositive : ¬ Word.negative w = true := by
    rw [Word.negative_iff, hsign]
    decide
  obtain ⟨whole, fraction, hfits, hvalue, htext⟩ := exists_textChars_of_isFinite hfinite
  rw [if_neg hpositive] at htext
  have hcount : (Segment.number whole fraction).chars.count '\n' = 0 := by
    rw [List.count_eq_zero]
    intro hmem
    have hblank := isBlank_of_mem_chars hfits '\n' hmem
    exact absurd hblank (by decide)
  have hnumber : ofDigits false whole fraction 0 = Float.ofBits w := by
    rw [hvalue, ofBits_eq_signed, Bool.eq_false_iff.mpr hpositive]
  rw [scan, text, String.toList_ofList, htext, scanChars_eq, Segment.split_chars hfits, hcount]
  simp only [Segment.collect, Segment.locate, Segment.newlines, List.filterMap_cons,
    List.filterMap_nil, Segment.token?, Segment.error?, Segment.tokenKind?, Segment.fault?, hnumber,
    Option.map_some, Option.map_none, Segment.lexeme, Token.eof]
  rfl

/-! ## Numbers that are displayed alike -/

private theorem eq_of_text_eq (hw : ¬ Word.IsNaN w) (hw' : ¬ Word.IsNaN w')
    (h : text (Float.ofBits w) = text (Float.ofBits w')) : w = w' := by
  have hchars := congrArg String.toList h
  rw [text, text, String.toList_ofList, String.toList_ofList] at hchars
  have hread := read?_textChars hw
  rw [hchars, read?_textChars hw'] at hread
  rw [← toBits_ofBits hw, ← Option.some.inj hread, toBits_ofBits hw']

private theorem truthy_number_eq_false_iff (w : UInt64) :
    (Value.number (Float.ofBits w)).truthy = false ↔ text (Float.ofBits w) = "0" := by
  have hzero : ¬ Word.IsNaN 0 := by decide
  have htext : text (Float.ofBits 0) = "0" := by decide +kernel
  rw [Value.truthy, bne_eq_false_iff_eq]
  by_cases hw : Word.IsNaN w
  · rw [text, textChars, exact_of_isNaN hw, ofBits_of_isNaN hw]
    decide
  · rw [toBits_ofBits hw]
    constructor
    · rintro rfl
      exact htext
    · intro h
      exact eq_of_text_eq hw hzero (h.trans htext.symm)

/-- **Numbers are written as they are read.** The text of every number that is one, on a line with
any spaces and tabs around it and either line end (or at the end of the input), is read as that
number, bit for bit; the text of every finite one without a sign is scanned as that number and
nothing else. So numbers that are displayed alike are the same, and a number counts as false exactly
if it is displayed as `0`. -/
theorem number_round_trip :
    (∀ w : UInt64, ¬ Word.IsNaN w → (Float.ofBits w).toBits = w ∧
      ∀ (before after ending : String) (rest : List UInt8) (m : Machine) (name : String)
        (line level : Nat),
        (∀ c ∈ before.toList ++ after.toList, c = ' ' ∨ c = '\t') → Input.Ending ending rest →
        m.env.level? name = some level →
        m.input = Input.encode (before ++ text (Float.ofBits w) ++ after ++ ending) ++ rest →
        Exec.readNumber name line m =
          .ok () { m with
            env := m.env.setAt level name (.number (Float.ofBits w))
            input := rest }) ∧
    (∀ w : UInt64, Word.IsFinite w → Word.sign w = 0 →
      scan (text (Float.ofBits w)) =
        { tokens := [⟨.number (Float.ofBits w), text (Float.ofBits w), 1⟩, ⟨.eof, "", 1⟩]
          errors := [] }) ∧
    (∀ w w' : UInt64, ¬ Word.IsNaN w → ¬ Word.IsNaN w' →
      (Value.number (Float.ofBits w)).display = (Value.number (Float.ofBits w')).display → w = w') ∧
    ∀ w : UInt64, (Value.number (Float.ofBits w)).truthy = false ↔
      (Value.number (Float.ofBits w)).display = "0" := by
  refine ⟨fun w hw ↦ ⟨toBits_ofBits hw, ?_⟩, fun w ↦ scan_text, fun w w' ↦ eq_of_text_eq,
    truthy_number_eq_false_iff⟩
  intro before after ending rest m name line level hblank hending hlevel hinput
  exact Exec.readNumber_text hw hblank hending hlevel hinput line

/-- The text of `-0.5` between blanks, that of `0.5` as a source, and the two zeros. -/
theorem number_round_trip_half :
    text (Float.ofBits 0xBFE0000000000000) = "-0.5" ∧
      Exec.readNumber "x" 1
        { env := Environment.initial.define "x" .nil
          input := Input.encode " -0.5\t\r\n" ++ [49, 10] } =
        .ok ()
          { env := (Environment.initial.define "x" .nil).setAt 0 "x"
              (.number (Float.ofBits 0xBFE0000000000000))
            input := [49, 10] } ∧
      scan "0.5" = ⟨[⟨.number (Float.ofBits 0x3FE0000000000000), "0.5", 1⟩, ⟨.eof, "", 1⟩], []⟩ ∧
      (Value.number (Float.ofBits 0)).display ≠
        (Value.number (Float.ofBits 0x8000000000000000)).display ∧
      ((Value.number (Float.ofBits 0)).truthy = false ↔
        (Value.number (Float.ofBits 0)).display = "0") := by
  have hminus : text (Float.ofBits 0xBFE0000000000000) = "-0.5" := by decide +kernel
  have hplus : text (Float.ofBits 0x3FE0000000000000) = "0.5" := by decide +kernel
  refine ⟨hminus, ?_, ?_, fun h ↦ ?_, number_round_trip.2.2.2 0⟩
  · refine (number_round_trip.1 0xBFE0000000000000 (by decide)).2 " " "\t" "\r\n" [49, 10] _ "x" 1 0
      (by simp) (.carriageReturn _) (by decide) ?_
    rw [hminus]
    rfl
  · have hscan := number_round_trip.2.1 0x3FE0000000000000 (by decide) (by decide)
    rwa [hplus] at hscan
  · have hsame := number_round_trip.2.2.1 0 0x8000000000000000 (by decide) (by decide) h
    exact absurd hsame (by decide)

end BlockScript
