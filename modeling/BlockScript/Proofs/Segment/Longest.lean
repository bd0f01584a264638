import BlockScript.Proofs.Segment.Split
import Mathlib.Data.List.TakeWhile

/-!
# Every cut takes the longest segment

What a segment may look like is said here by a grammar, with no regard to how a source is cut up: a
run of blanks is any run of blanks, a number any digits with or without a fraction, and so on
(`Fits`). The grammar is ambiguous on purpose. A slash may be a symbol or begin a comment, and every
part of a word from its beginning on is a word. What makes a split of a source definite is that each
segment has to be the longest possible one where it stands (`IsSplit`). Cutting decides by one or
two characters and never compares lengths, so that it finds this split, and that there is no other,
has to be proved.

## How the longest segment is recognised

No segment of the grammar reaches further than the one that is cut off, and one that reaches as far
is the same (`covers_cut`). This is proved by cases on the segment of the grammar: its form says
which branch the cut takes, and in that branch the cut goes on at least as far. A character that
begins nothing needs no case of its own. If it is cut off alone and a segment of the grammar began
there, that segment would have to be shorter than one character.
-/

namespace BlockScript.Segment

/-! ## The grammar -/

/-- The marks around a text. -/
def IsQuote (c : Char) : Prop := c = '"' ∨ c = '\''

/-- What a segment in front of the rest of a source may look like. Only what is left open depends on
the rest: nothing may follow it. -/
inductive Fits : Segment → List Char → Prop where
  | newline {rest : List Char} : Fits .newline rest
  | blank {run rest : List Char} : run ≠ [] → (∀ c ∈ run, isBlank c = true) →
    Fits (.blank run) rest
  | lineComment {body rest : List Char} : '\n' ∉ body → Fits (.lineComment body) rest
  | blockComment {body rest : List Char} : ¬ ['*', '/'] <:+: body → Fits (.blockComment body) rest
  | number {whole fraction rest : List Char} : whole ≠ [] ∨ fraction ≠ [] →
    (∀ c ∈ whole ++ fraction, c.isDigit = true) → Fits (.number whole fraction) rest
  | quotation {quote : Char} {body rest : List Char} : IsQuote quote → quote ∉ body →
    Fits (.quotation quote body) rest
  | word {c : Char} {letters rest : List Char} : isWordStart c = true →
    (∀ c ∈ letters, isWordPart c = true) → Fits (.word (c :: letters)) rest
  | symbol {rest : List Char} (s : Symbol) : Fits (.symbol s) rest
  | openQuotation {quote : Char} {body : List Char} : IsQuote quote → quote ∉ body →
    Fits (.openQuotation quote body) []
  | openComment {body : List Char} : ¬ ['*', '/'] <:+: body → Fits (.openComment body) []

/-- A segment that is possible in front of the rest of a source: one of the grammar, or a single
character with which none of them begins. -/
def IsPossible (s : Segment) (rest : List Char) : Prop :=
  Fits s rest ∨
    ∃ c, s = .stray c ∧ ∀ s' rest', Fits s' rest' → s'.chars ++ rest' ≠ c :: rest

/-- A segment that is possible and not shorter than any other one at the same place. -/
structure IsLongest (s : Segment) (rest : List Char) : Prop where
  /-- It is possible. -/
  isPossible : IsPossible s rest
  /-- No other one reaches further. -/
  length_le {s' : Segment} {rest' : List Char} : IsPossible s' rest' →
    s'.chars ++ rest' = s.chars ++ rest → s'.chars.length ≤ s.chars.length

/-- The segments are, one after the other, longest ones of a source, and nothing is left of it. -/
inductive IsSplit : List Segment → List Char → Prop where
  | nil : IsSplit [] []
  | cons {s : Segment} {segments : List Segment} {rest : List Char} : IsLongest s rest →
    IsSplit segments rest → IsSplit (s :: segments) (s.chars ++ rest)

variable {c : Char} {cs rest body : List Char} {s : Segment}

theorem Fits.chars_ne_nil (h : Fits s rest) : s.chars ≠ [] := by
  cases h with
  | blank hne _ => exact hne
  | number hne _ => exact chars_number_ne_nil hne
  | symbol s => cases s <;> exact List.cons_ne_nil _ _
  | _ => exact List.cons_ne_nil _ _

theorem IsPossible.chars_ne_nil (h : IsPossible s rest) : s.chars ≠ [] := by
  rcases h with h | ⟨c, rfl, -⟩
  · exact h.chars_ne_nil
  · exact List.cons_ne_nil _ _

/-! ## Comments -/

private theorem closeComment?_cons (h : ¬ ['*', '/'] <+: c :: cs) :
    closeComment? (c :: cs) = (closeComment? cs).map fun (body, rest) ↦ (c :: body, rest) := by
  rw [closeComment?]
  rintro rest rfl rfl
  exact h ⟨rest, rfl⟩

private theorem closeComment?_append_mark (h : ¬ ['*', '/'] <:+: body) (rest : List Char) :
    closeComment? (body ++ '*' :: '/' :: rest) = some (body, rest) := by
  induction body with
  | nil => rfl
  | cons c body ih =>
    rw [List.infix_cons_iff, not_or] at h
    -- the mark does not begin in the body and end behind it, since it ends in a slash
    have hmark : ¬ ['*', '/'] <+: c :: (body ++ '*' :: '/' :: rest) := by
      rintro ⟨t, ht⟩
      obtain _ | ⟨d, body⟩ := body
      · cases ht
      · cases ht
        exact h.1 ⟨body, rfl⟩
    rw [List.cons_append, closeComment?_cons hmark, ih h.2]
    rfl

private theorem not_infix_of_closeComment?_eq_none (h : closeComment? cs = none) :
    ¬ ['*', '/'] <:+: cs := by
  fun_induction closeComment? cs with
  | case1 rest => cases h
  | case2 c cs hne ih =>
    rw [List.infix_cons_iff, not_or]
    refine ⟨?_, ih (Option.map_eq_none_iff.mp h)⟩
    rintro ⟨t, ht⟩
    cases ht
    exact hne t rfl rfl
  | case3 => simp

private theorem not_infix_of_closeComment?_eq_some (h : closeComment? cs = some (body, rest)) :
    ¬ ['*', '/'] <:+: body := by
  fun_induction closeComment? cs generalizing body rest with
  | case1 rest' =>
    cases h
    simp
  | case2 c cs hne ih =>
    obtain ⟨⟨body', rest'⟩, h', heq⟩ := Option.map_eq_some_iff.mp h
    cases heq
    rw [List.infix_cons_iff, not_or]
    refine ⟨?_, ih h'⟩
    rintro ⟨t, ht⟩
    cases ht
    exact hne _ rfl (eq_of_closeComment? h')
  | case3 => cases h

private theorem closeComment?_eq_none (h : ¬ ['*', '/'] <:+: cs) : closeComment? cs = none := by
  rw [Option.eq_none_iff_forall_ne_some]
  rintro ⟨body, rest⟩ hsome
  refine h ⟨body, rest, ?_⟩
  rw [eq_of_closeComment? hsome, List.append_assoc]
  rfl

/-! ## Which way a cut goes -/

theorem cut_blank (h : isBlank c = true) :
    cut c cs = (blank (c :: cs.takeWhile isBlank), cs.dropWhile isBlank) := by
  have hne : c ≠ '\n' := by
    rintro rfl
    cases h
  rw [cut, if_neg hne, if_pos h]

private theorem not_isWhite {p : Char → Bool} (hp : ['\n', ' ', '\t', '\r', '\x0c'].any p = false)
    (h : p c = true) : ¬ IsWhite c := by
  intro hc
  rw [hc.eq_false hp] at h
  cases h

private theorem cut_digit (h : c.isDigit = true) : cut c cs = cutNumber c cs := by
  obtain ⟨hne, hblank⟩ := not_or.mp (not_isWhite rfl h)
  rw [cut, if_neg hne, if_neg hblank, if_pos h]

theorem val_le_of_isDigit (h : c.isDigit = true) : c.val ≤ '9'.val :=
  of_decide_eq_true (Bool.and_eq_true_iff.mp h).2

private theorem not_isDigit_of_isWordStart (h : isWordStart c = true) : ¬ c.isDigit = true := by
  intro hdigit
  simp only [isWordStart, Bool.or_eq_true, decide_eq_true_eq] at h
  rcases h with h | rfl
  · have hge : 'A'.val ≤ c.val := by
      rcases Bool.or_eq_true_iff.mp h with h | h
      · exact (of_decide_eq_true h).1
      · exact UInt32.le_trans (by decide) (of_decide_eq_true (Bool.and_eq_true_iff.mp h).1)
    exact absurd (UInt32.le_trans hge (val_le_of_isDigit hdigit)) (by decide)
  · cases hdigit

private theorem cut_wordStart (h : isWordStart c = true) :
    cut c cs = (word (c :: cs.takeWhile isWordPart), cs.dropWhile isWordPart) := by
  obtain ⟨hne, hblank⟩ := not_or.mp (not_isWhite rfl h)
  rw [cut, if_neg hne, if_neg hblank, if_neg (not_isDigit_of_isWordStart h), if_pos h]

private theorem cut_quote (h : IsQuote c) : cut c cs = cutQuotation c cs := by
  rcases h with rfl | rfl <;> rfl

private theorem cutFraction_digit (h : c.isDigit = true) (cs : List Char) :
    cutFraction ('.' :: c :: cs) =
      (c :: cs.takeWhile Char.isDigit, cs.dropWhile Char.isDigit) := if_pos h

/-! ## What is cut off is possible -/

private theorem not_mem_iff_all_bne : c ∉ cs ↔ ∀ d ∈ cs, (d != c) = true := by
  constructor
  · exact fun h d hd ↦ bne_iff_ne.mpr (ne_of_mem_of_not_mem hd h)
  · intro h hc
    have hne := h c hc
    rw [bne_self_eq_false] at hne
    cases hne

private theorem not_mem_takeWhile_bne (c : Char) (cs : List Char) : c ∉ cs.takeWhile (· != c) :=
  not_mem_iff_all_bne.mpr fun _ h ↦ List.mem_takeWhile_imp (p := (· != c)) h

private theorem isDigit_cutFraction (cs : List Char) :
    ∀ d ∈ (cutFraction cs).1, d.isDigit = true := by
  fun_cases cutFraction cs with
  | case1 d cs hd => exact List.forall_mem_cons.mpr ⟨hd, fun _ h ↦ List.mem_takeWhile_imp h⟩
  | case2 => exact List.forall_mem_nil _
  | case3 => exact List.forall_mem_nil _

private theorem fits_cutNumber (h : c.isDigit = true) :
    Fits (cutNumber c cs).1 (cutNumber c cs).2 := by
  have hwhole : ∀ d ∈ c :: cs.takeWhile Char.isDigit, d.isDigit = true :=
    List.forall_mem_cons.mpr ⟨h, fun _ h ↦ List.mem_takeWhile_imp h⟩
  refine .number (.inl (List.cons_ne_nil _ _)) ?_
  exact List.forall_mem_append.mpr ⟨hwhole, isDigit_cutFraction _⟩

private theorem fits_cutPoint (cs : List Char) : Fits (cutPoint cs).1 (cutPoint cs).2 := by
  have hdigits := isDigit_cutFraction ('.' :: cs)
  rw [cutPoint]
  split
  · exact .symbol .dot
  · next fraction rest hne heq =>
    rw [heq] at hdigits
    exact .number (.inr hne) hdigits

private theorem fits_cutQuotation (h : IsQuote c) :
    Fits (cutQuotation c cs).1 (cutQuotation c cs).2 := by
  rw [cutQuotation]
  split
  · next heq => exact .openQuotation h (not_mem_iff_all_bne.mpr (List.dropWhile_eq_nil_iff.mp heq))
  · exact .quotation h (not_mem_takeWhile_bne c cs)

private theorem fits_cutSlash (cs : List Char) : Fits (cutSlash cs).1 (cutSlash cs).2 := by
  fun_cases cutSlash cs with
  | case1 cs => exact .lineComment (not_mem_takeWhile_bne _ _)
  | case2 cs body rest heq => exact .blockComment (not_infix_of_closeComment?_eq_some heq)
  | case3 cs heq => exact .openComment (not_infix_of_closeComment?_eq_none heq)
  | case4 cs => exact .symbol .slash

private theorem fits_cutSymbol (c : Char) (cs : List Char) :
    Fits (cutSymbol c cs).1 (cutSymbol c cs).2 ∨ cutSymbol c cs = (stray c, cs) := by
  unfold cutSymbol
  split
  · exact .inl (.symbol _)
  · split
    · exact .inl (.symbol _)
    · exact .inr rfl

/-- What is cut off is a segment of the grammar or a single character. -/
theorem fits_cut (c : Char) (cs : List Char) :
    Fits (cut c cs).1 (cut c cs).2 ∨ cut c cs = (stray c, cs) := by
  unfold cut
  split
  · exact .inl .newline
  split
  · next h =>
    refine .inl (.blank (List.cons_ne_nil _ _) ?_)
    exact List.forall_mem_cons.mpr ⟨h, fun _ h ↦ List.mem_takeWhile_imp h⟩
  split
  · next h => exact .inl (fits_cutNumber h)
  split
  · next h => exact .inl (.word h fun _ h ↦ List.mem_takeWhile_imp h)
  split
  · next h =>
    simp only [Bool.or_eq_true, decide_eq_true_eq] at h
    exact .inl (fits_cutQuotation h)
  split
  · exact .inl (fits_cutSlash cs)
  split
  · exact .inl (fits_cutPoint cs)
  · exact fits_cutSymbol c cs

/-! ## Nothing reaches further -/

/-- A segment is another one, or reaches further. -/
def Covers (s s' : Segment) : Prop := s' = s ∨ s'.chars.length < s.chars.length

private theorem covers_takeWhile {p : Char → Bool} (segment : List Char → Segment) {k : Nat}
    (hlength : ∀ run, (segment run).chars.length = run.length + k) {run : List Char}
    (hrun : ∀ c ∈ run, p c = true) (rest : List Char) :
    (segment ((run ++ rest).takeWhile p)).Covers (segment run) := by
  rw [List.takeWhile_append_of_pos hrun]
  rcases rest.takeWhile p with _ | ⟨c, more⟩
  · rw [List.append_nil]
    exact .inl rfl
  · refine .inr ?_
    rw [hlength, hlength, List.length_append, List.length_cons]
    omega

private theorem length_le_length_chars_number (whole fraction : List Char) :
    whole.length + fraction.length ≤ (number whole fraction).chars.length := by
  cases fraction with
  | nil => exact Nat.le_refl _
  | cons d fraction =>
    rw [chars, List.length_append, List.length_cons, List.length_cons, List.length_cons]
    omega

private theorem length_chars_number_cons (whole : List Char) (d : Char) (fraction : List Char) :
    (number whole (d :: fraction)).chars.length = fraction.length + (whole.length + 2) := by
  rw [chars, List.length_append, List.length_cons, List.length_cons]
  omega

/-- Digits without a fraction. -/
theorem covers_cutNumber {whole : List Char} (h : ∀ d ∈ whole, d.isDigit = true)
    (c : Char) (rest : List Char) :
    (cutNumber c (whole ++ rest)).1.Covers (number (c :: whole) []) := by
  have hlength := length_le_length_chars_number (c :: whole ++ rest.takeWhile Char.isDigit)
    (cutFraction (rest.dropWhile Char.isDigit)).1
  rw [cutNumber, List.takeWhile_append_of_pos h, List.dropWhile_append_of_pos h]
  dsimp only
  rw [List.cons_append, List.length_cons, List.length_append] at hlength
  by_cases hmore : rest.takeWhile Char.isDigit = [] ∧
      (cutFraction (rest.dropWhile Char.isDigit)).1 = []
  · rw [hmore.1, hmore.2, List.append_nil]
    exact .inl rfl
  · refine .inr ?_
    rw [← List.length_eq_zero_iff, ← List.length_eq_zero_iff] at hmore
    change whole.length + 1 < _
    omega

/-- Digits with a fraction. -/
theorem covers_cutNumber_fraction {whole fraction : List Char} {d : Char}
    (hwhole : ∀ d ∈ whole, d.isDigit = true) (hd : d.isDigit = true)
    (hfraction : ∀ d ∈ fraction, d.isDigit = true) (c : Char) (rest : List Char) :
    (cutNumber c (whole ++ '.' :: d :: fraction ++ rest)).1.Covers
      (number (c :: whole) (d :: fraction)) := by
  have hpoint : ¬ '.'.isDigit = true := by decide
  rw [cutNumber, List.append_assoc, List.takeWhile_append_of_pos hwhole,
    List.dropWhile_append_of_pos hwhole, List.cons_append, List.cons_append,
    List.takeWhile_cons_of_neg hpoint, List.dropWhile_cons_of_neg hpoint, List.append_nil,
    cutFraction_digit hd]
  exact covers_takeWhile _ (length_chars_number_cons (c :: whole) d) hfraction rest

private theorem covers_cutPoint (cs : List Char) : (cutPoint cs).1.Covers (symbol .dot) := by
  rw [cutPoint]
  split
  · exact .inl rfl
  · next fraction rest hne _ =>
    obtain ⟨d, fraction, rfl⟩ := List.exists_cons_of_ne_nil hne
    refine .inr ?_
    rw [length_chars_number_cons]
    change 1 < _
    omega

private theorem covers_cutPoint_fraction {fraction : List Char} {d : Char} (hd : d.isDigit = true)
    (hfraction : ∀ d ∈ fraction, d.isDigit = true) (rest : List Char) :
    (cutPoint (d :: fraction ++ rest)).1.Covers (number [] (d :: fraction)) := by
  rw [cutPoint, List.cons_append, cutFraction_digit hd]
  exact covers_takeWhile _ (length_chars_number_cons [] d) hfraction rest

private theorem covers_cutSlash (cs : List Char) : (cutSlash cs).1.Covers (symbol .slash) := by
  fun_cases cutSlash cs with
  | case1 cs => exact .inr (by simp [chars, Symbol.chars])
  | case2 cs body rest heq => exact .inr (by simp [chars, Symbol.chars])
  | case3 cs heq => exact .inr (by simp [chars, Symbol.chars])
  | case4 cs => exact .inl rfl

private theorem covers_cutSymbol {t : Symbol} (h : Symbol.single? c = some t) (cs : List Char) :
    (cutSymbol c cs).1.Covers (symbol t) := by
  unfold cutSymbol
  split
  · next rest t' ht' =>
    refine .inr ?_
    rw [chars, chars, chars_of_single? h, chars_of_withEquals? ht']
    exact Nat.lt_succ_self 1
  · rw [h]
    exact .inl rfl

private theorem covers_cutSymbol_equals {t : Symbol} (h : Symbol.withEquals? c = some t)
    (cs : List Char) : (cutSymbol c ('=' :: cs)).1.Covers (symbol t) := by
  simp only [cutSymbol, h]
  exact .inl rfl

private theorem cutQuotation_append_quote (h : c ∉ body) (rest : List Char) :
    cutQuotation c (body ++ c :: rest) = (quotation c body, rest) := by
  have hbody := not_mem_iff_all_bne.mp h
  have hquote : ¬ (c != c) = true := by simp
  rw [cutQuotation, List.takeWhile_append_of_pos hbody, List.dropWhile_append_of_pos hbody,
    List.takeWhile_cons_of_neg (p := (· != c)) hquote,
    List.dropWhile_cons_of_neg (p := (· != c)) hquote, List.append_nil]

private theorem cutQuotation_open (h : c ∉ body) :
    cutQuotation c body = (openQuotation c body, []) := by
  rw [cutQuotation, List.dropWhile_eq_nil_iff.mpr (not_mem_iff_all_bne.mp h)]

private theorem covers_cut_blank {run : List Char} (hne : run ≠ [])
    (hrun : ∀ c ∈ run, isBlank c = true) (heq : run ++ rest = c :: cs) :
    (cut c cs).1.Covers (blank run) := by
  obtain ⟨d, run, rfl⟩ := List.exists_cons_of_ne_nil hne
  cases heq
  rw [cut_blank (hrun _ List.mem_cons_self)]
  exact covers_takeWhile (blank <| c :: ·) (fun _ ↦ rfl)
    (fun _ h ↦ hrun _ (List.mem_cons_of_mem _ h)) rest

private theorem covers_cut_blockComment (hbody : ¬ ['*', '/'] <:+: body)
    (heq : '/' :: '*' :: (body ++ ['*', '/'] ++ rest) = c :: cs) :
    (cut c cs).1.Covers (blockComment body) := by
  rw [List.append_assoc] at heq
  obtain ⟨rfl, rfl⟩ := List.cons.inj heq
  change (cutSlash ('*' :: (body ++ '*' :: '/' :: rest))).1.Covers _
  rw [cutSlash, closeComment?_append_mark hbody]
  exact .inl rfl

private theorem covers_cut_openComment (hbody : ¬ ['*', '/'] <:+: body) :
    (cut '/' ('*' :: body)).1.Covers (openComment body) := by
  change (cutSlash ('*' :: body)).1.Covers _
  rw [cutSlash, closeComment?_eq_none hbody]
  exact .inl rfl

private theorem covers_cut_number {whole fraction : List Char} (hne : whole ≠ [] ∨ fraction ≠ [])
    (hdigits : ∀ c ∈ whole ++ fraction, c.isDigit = true)
    (heq : (number whole fraction).chars ++ rest = c :: cs) :
    (cut c cs).1.Covers (number whole fraction) := by
  rw [List.forall_mem_append] at hdigits
  obtain _ | ⟨d, fraction⟩ := fraction
  · obtain ⟨d, whole, rfl⟩ := List.exists_cons_of_ne_nil (hne.resolve_right fun h ↦ h rfl)
    cases heq
    rw [cut_digit (hdigits.1 _ List.mem_cons_self)]
    exact covers_cutNumber (List.forall_mem_cons.mp hdigits.1).2 _ rest
  obtain ⟨hd, hfraction⟩ := List.forall_mem_cons.mp hdigits.2
  obtain _ | ⟨d', whole⟩ := whole
  · cases heq
    exact covers_cutPoint_fraction hd hfraction rest
  · cases heq
    obtain ⟨hd', hwhole⟩ := List.forall_mem_cons.mp hdigits.1
    rw [cut_digit hd']
    exact covers_cutNumber_fraction hwhole hd hfraction _ rest

private theorem covers_cut_quotation {quote : Char} (hquote : IsQuote quote) (hbody : quote ∉ body)
    (heq : quote :: (body ++ [quote] ++ rest) = c :: cs) :
    (cut c cs).1.Covers (quotation quote body) := by
  rw [List.append_assoc] at heq
  obtain ⟨rfl, rfl⟩ := List.cons.inj heq
  rw [cut_quote hquote, List.singleton_append, cutQuotation_append_quote hbody]
  exact .inl rfl

private theorem covers_cut_symbol (t : Symbol) (heq : t.chars ++ rest = c :: cs) :
    (cut c cs).1.Covers (symbol t) := by
  cases t with
  | slash =>
    cases heq
    exact covers_cutSlash rest
  | dot =>
    cases heq
    exact covers_cutPoint rest
  | equalEqual =>
    cases heq
    exact covers_cutSymbol_equals (c := '=') rfl rest
  | bangEqual =>
    cases heq
    exact covers_cutSymbol_equals (c := '!') rfl rest
  | lessEqual =>
    cases heq
    exact covers_cutSymbol_equals (c := '<') rfl rest
  | greaterEqual =>
    cases heq
    exact covers_cutSymbol_equals (c := '>') rfl rest
  | _ =>
    cases heq
    exact covers_cutSymbol rfl rest

/-- **No segment of the grammar reaches further than the one that is cut off**, and one that reaches
as far is the same. -/
theorem covers_cut (h : Fits s rest) (heq : s.chars ++ rest = c :: cs) :
    (cut c cs).1.Covers s := by
  cases h with
  | newline =>
    cases heq
    exact .inl rfl
  | blank hne hrun => exact covers_cut_blank hne hrun heq
  | lineComment hbody =>
    cases heq
    exact covers_takeWhile lineComment (k := 2) (fun _ ↦ rfl) (not_mem_iff_all_bne.mp hbody) rest
  | blockComment hbody => exact covers_cut_blockComment hbody heq
  | openComment hbody =>
    rw [List.append_nil] at heq
    cases heq
    exact covers_cut_openComment hbody
  | number hne hdigits => exact covers_cut_number hne hdigits heq
  | quotation hquote hbody => exact covers_cut_quotation hquote hbody heq
  | openQuotation hquote hbody =>
    rw [List.append_nil] at heq
    cases heq
    rw [cut_quote hquote, cutQuotation_open hbody]
    exact .inl rfl
  | word hstart hparts =>
    cases heq
    rw [cut_wordStart hstart]
    exact covers_takeWhile (word <| c :: ·) (fun _ ↦ rfl) hparts rest
  | symbol t => exact covers_cut_symbol t heq

/-! ## The split of a source -/

private theorem isPossible_cut (c : Char) (cs : List Char) :
    IsPossible (cut c cs).1 (cut c cs).2 := by
  rcases fits_cut c cs with h | h
  · exact .inl h
  · rw [h]
    refine .inr ⟨c, rfl, fun s rest hs heq ↦ ?_⟩
    rcases h ▸ covers_cut hs heq with rfl | hlt
    · cases hs
    · exact hs.chars_ne_nil (List.length_eq_zero_iff.mp (Nat.lt_one_iff.mp hlt))

/-- A segment of a source is possible in front of the rest only if the one that is cut off covers
it. -/
theorem IsPossible.covers_cut (h : IsPossible s rest) (heq : s.chars ++ rest = c :: cs) :
    (cut c cs).1.Covers s := by
  rcases h with h | ⟨d, rfl, hnone⟩
  · exact Segment.covers_cut h heq
  · change d :: rest = c :: cs at heq
    cases heq
    rcases fits_cut c cs with h | h
    · exact absurd (isCut_cut c cs).chars_append (hnone _ _ h)
    · rw [h]
      exact .inl rfl

private theorem isLongest_cut (c : Char) (cs : List Char) :
    IsLongest (cut c cs).1 (cut c cs).2 := by
  refine ⟨isPossible_cut c cs, fun {s rest} hs heq ↦ ?_⟩
  rw [(isCut_cut c cs).chars_append] at heq
  rcases hs.covers_cut heq with rfl | hlt
  · exact Nat.le_refl _
  · exact Nat.le_of_lt hlt

private theorem IsLongest.eq_cut (h : IsLongest s rest) (heq : s.chars ++ rest = c :: cs) :
    (s, rest) = cut c cs := by
  have happend := (isCut_cut c cs).chars_append
  have hle := h.length_le (isPossible_cut c cs) (happend.trans heq.symm)
  have hs : s = (cut c cs).1 := by
    rcases h.isPossible.covers_cut heq with hs | hlt
    · exact hs
    · omega
  rw [← happend, hs, List.append_cancel_left_eq] at heq
  rw [hs, heq]

/-- **Cutting up a source gives a split into longest segments.** -/
theorem isSplit_split (source : List Char) : IsSplit (split source) source := by
  induction source using split_induction with
  | nil => exact .nil
  | cons c cs ih =>
    have hcons := IsSplit.cons (isLongest_cut c cs) ih
    rwa [(isCut_cut c cs).chars_append, ← split_cons] at hcons

theorem IsSplit.isPossible {segments : List Segment} {source : List Char}
    (h : IsSplit segments source) : ∀ s ∈ segments, ∃ rest, IsPossible s rest := by
  induction h with
  | nil => exact List.forall_mem_nil _
  | cons hlongest _ ih => exact List.forall_mem_cons.mpr ⟨⟨_, hlongest.isPossible⟩, ih⟩

/-- **There is no other split into longest segments.** -/
theorem IsSplit.eq_split {segments : List Segment} {source : List Char}
    (h : IsSplit segments source) : segments = split source := by
  induction h with
  | nil => rfl
  | @cons s segments rest hlongest _ ih =>
    obtain ⟨c, cs, heq⟩ : ∃ c cs, s.chars ++ rest = c :: cs :=
      List.exists_cons_of_ne_nil
        (List.append_ne_nil_of_left_ne_nil hlongest.isPossible.chars_ne_nil rest)
    have hcut := hlongest.eq_cut heq
    rw [heq, split_cons, ← hcut, ih]

end BlockScript.Segment
