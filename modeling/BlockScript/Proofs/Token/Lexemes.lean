import BlockScript.Proofs.Segment.Longest
import BlockScript.Proofs.Token.Scan
import Mathlib.Data.List.Forall2

/-!
# What becomes of the segments

The split of a source into longest segments is definite, so what scanning has to find can be said of
that split: which of its segments are tokens and of which kind, which are faults, and that the rest
is dropped. The kind of a token is said without the functions of the scanner (`Denotes`). A number
is whatever its text reads as, with the reader that also reads what a user types; a word is the
keyword that is spelled like it, and a name only if there is none.

A text or a comment that is left open reaches to the end of the source. So it is the last segment,
and its error comes last.
-/

namespace BlockScript

/-! ## Numbers and keywords -/

private theorem Keyword.ofSpelling?_eq_some_iff {word : String} {k : Keyword} :
    Keyword.ofSpelling? word = some k ↔ k.spelling = word := by
  constructor
  · intro h
    have hbeq := List.find?_some (p := fun k : Keyword ↦ k.spelling == word) h
    exact beq_iff_eq.mp hbeq
  · rintro rfl
    cases k <;> decide

private theorem Keyword.ofSpelling?_eq_none_iff {word : String} :
    Keyword.ofSpelling? word = none ↔ ∀ k : Keyword, k.spelling ≠ word := by
  rw [Option.eq_none_iff_forall_ne_some]
  exact forall_congr' fun k ↦ not_congr Keyword.ofSpelling?_eq_some_iff

namespace Segment

/-- A numeral begins with a digit or a point. -/
theorem exists_chars_number {whole fraction rest : List Char}
    (h : Fits (number whole fraction) rest) :
    ∃ c cs, (number whole fraction).chars = c :: cs ∧ (c.isDigit = true ∨ c = '.') := by
  cases h with
  | number hne hdigits =>
    rw [List.forall_mem_append] at hdigits
    obtain _ | ⟨c, whole⟩ := whole
    · obtain ⟨d, fraction, rfl⟩ := List.exists_cons_of_ne_nil (hne.resolve_left fun h ↦ h rfl)
      exact ⟨'.', d :: fraction, rfl, .inr rfl⟩
    · have hc := hdigits.1 c List.mem_cons_self
      obtain _ | ⟨d, fraction⟩ := fraction
      · exact ⟨c, whole, rfl, .inl hc⟩
      · exact ⟨c, whole ++ '.' :: d :: fraction, rfl, .inl hc⟩

/-- What begins with a digit or a point has no sign. -/
theorem read?_eq_readUnsigned? {c : Char} {cs : List Char} (h : c.isDigit = true ∨ c = '.') :
    Number.read? (c :: cs) = Number.readUnsigned? false (c :: cs) := by
  unfold Number.read?
  split
  · next heq =>
    cases heq
    rcases h with h | h <;> cases h
  · next heq =>
    cases heq
    rcases h with h | h <;> cases h
  · rfl

/-- Nor is it a name. -/
theorem readUnsigned?_eq_readDecimal? {c : Char} {cs : List Char}
    (h : c.isDigit = true ∨ c = '.') (negative : Bool) :
    Number.readUnsigned? negative (c :: cs) = Number.readDecimal? negative (c :: cs) := by
  have hlower : c.toLower = c := by
    rcases h with h | rfl
    · exact dif_neg fun hupper ↦
        absurd (UInt32.le_trans hupper.1 (val_le_of_isDigit h)) (by decide)
    · decide
  have hname (word : String) (hword : word.toList.head? ≠ some c) :
      String.ofList ((c :: cs).map Char.toLower) ≠ word := by
    rintro rfl
    refine hword ?_
    rw [String.toList_ofList, List.map_cons, hlower, List.head?_cons]
  have hi : c ≠ 'i' := by
    rintro rfl
    rcases h with h | h <;> cases h
  have hn : c ≠ 'n' := by
    rintro rfl
    rcases h with h | h <;> cases h
  have hinf := hname "inf" fun h ↦ hi (Option.some.inj h).symm
  have hinfinity := hname "infinity" fun h ↦ hi (Option.some.inj h).symm
  have hnan := hname "nan" fun h ↦ hn (Option.some.inj h).symm
  unfold Number.readUnsigned?
  dsimp only
  rw [if_neg (not_or.mpr ⟨hinf, hinfinity⟩), if_neg hnan]

private theorem spanDigits_append {digits : List Char} (h : ∀ d ∈ digits, d.isDigit = true)
    (rest : List Char) (hrest : ∀ c ∈ rest.head?, ¬ c.isDigit = true) :
    Number.spanDigits (digits ++ rest) = (digits, rest) := by
  rw [Number.spanDigits, List.takeWhile_append_of_pos h, List.dropWhile_append_of_pos h]
  cases rest with
  | nil => rw [List.takeWhile_nil, List.append_nil, List.dropWhile_nil]
  | cons c rest =>
    have hc := hrest c rfl
    rw [List.takeWhile_cons_of_neg hc, List.dropWhile_cons_of_neg hc, List.append_nil]

/-- The digits of a numeral are read back, with whatever sign is in front of it. -/
theorem readDecimal?_chars_number {whole fraction rest : List Char}
    (h : Fits (number whole fraction) rest) (negative : Bool) :
    Number.readDecimal? negative (number whole fraction).chars =
      some (Number.ofDigits negative whole fraction 0) := by
  cases h with
  | number hne hdigits =>
    rw [List.forall_mem_append] at hdigits
    obtain ⟨hwhole, hfraction⟩ := hdigits
    obtain _ | ⟨d, fraction⟩ := fraction
    · have hspan := spanDigits_append hwhole [] nofun
      rw [List.append_nil] at hspan
      rw [chars, Number.readDecimal?, hspan]
      exact if_neg fun hnone ↦ (hne.resolve_right fun h ↦ h rfl) hnone.1
    · have hpoint : ∀ c ∈ ('.' :: d :: fraction).head?, ¬ c.isDigit = true := by
        rintro c ⟨⟩
        decide
      have hwholeSpan := spanDigits_append hwhole ('.' :: d :: fraction) hpoint
      have hfractionSpan := spanDigits_append hfraction [] nofun
      rw [List.append_nil] at hfractionSpan
      simp [chars, Number.readDecimal?, hwholeSpan, hfractionSpan, Number.readExponent?]

theorem readUnsigned?_chars_number {whole fraction rest : List Char}
    (h : Fits (number whole fraction) rest) (negative : Bool) :
    Number.readUnsigned? negative (number whole fraction).chars =
      some (Number.ofDigits negative whole fraction 0) := by
  obtain ⟨c, cs, hchars, hc⟩ := exists_chars_number h
  rw [← readDecimal?_chars_number h, hchars, readUnsigned?_eq_readDecimal? hc]

/-- A number is what its text reads as. -/
theorem read?_chars_number {whole fraction rest : List Char}
    (h : Fits (number whole fraction) rest) :
    Number.read? (number whole fraction).chars =
      some (Number.ofDigits false whole fraction 0) := by
  obtain ⟨c, cs, hchars, hc⟩ := exists_chars_number h
  rw [← readUnsigned?_chars_number h, hchars, read?_eq_readUnsigned? hc]

/-! ## Tokens -/

/-- Segments that are tokens. -/
def isToken : Segment → Bool
  | number _ _ | quotation _ _ | word _ | symbol _ => true
  | _ => false

/-- The kind of token that a segment is. -/
inductive Denotes : Segment → TokenKind → Prop where
  | number {whole fraction : List Char} {x : Float} :
    Number.read? (Segment.number whole fraction).chars = some x →
      Denotes (.number whole fraction) (.number x)
  | text (quote : Char) (body : List Char) :
    Denotes (.quotation quote body) (.text (String.ofList body))
  | keyword {letters : List Char} {k : Keyword} : k.spelling = String.ofList letters →
    Denotes (.word letters) (.keyword k)
  | name {letters : List Char} : (∀ k : Keyword, k.spelling ≠ String.ofList letters) →
    Denotes (.word letters) (.name (String.ofList letters))
  | symbol (s : Symbol) : Denotes (.symbol s) (.symbol s)

/-- A token is made of a segment: it has its text and the kind of token that it is. -/
def IsTokenOf (s : Segment) (t : Token) : Prop := Denotes s t.kind ∧ t.lexeme = s.lexeme

theorem denotes_wordKind (letters : List Char) : Denotes (word letters) (wordKind letters) := by
  unfold wordKind
  dsimp only
  split
  · next k hk => exact .keyword (Keyword.ofSpelling?_eq_some_iff.mp hk)
  · next hnone => exact .name (Keyword.ofSpelling?_eq_none_iff.mp hnone)

theorem token?_eq {s : Segment} {rest : List Char} (h : IsPossible s rest) (line : Nat) :
    if s.isToken then ∃ t, s.token? line = some t ∧ s.IsTokenOf t else s.token? line = none := by
  cases s with
  | number whole fraction =>
    have hfits : Fits (number whole fraction) rest := h.resolve_right nofun
    exact ⟨_, rfl, .number (read?_chars_number hfits), rfl⟩
  | quotation quote body => exact ⟨_, rfl, .text quote body, rfl⟩
  | word letters => exact ⟨_, rfl, denotes_wordKind letters, rfl⟩
  | symbol s => exact ⟨_, rfl, .symbol s, rfl⟩
  | _ => rfl

/-! ## Faults -/

/-- Segments that nothing can be made of. -/
def isFault : Segment → Bool
  | stray _ | openQuotation _ _ | openComment _ => true
  | _ => false

/-- What is wrong with a segment. -/
inductive HasFault : Segment → LexCause → Prop where
  | stray (c : Char) : HasFault (.stray c) (.unexpectedCharacter c)
  | openQuotation (quote : Char) (body : List Char) :
    HasFault (.openQuotation quote body) .unterminatedText
  | openComment (body : List Char) : HasFault (.openComment body) .unterminatedComment

theorem error?_eq (s : Segment) (line : Nat) :
    if s.isFault then ∃ e, s.error? line = some e ∧ s.HasFault e.cause
    else s.error? line = none := by
  cases s with
  | stray c => exact ⟨_, rfl, .stray c⟩
  | openQuotation quote body => exact ⟨_, rfl, .openQuotation quote body⟩
  | openComment body => exact ⟨_, rfl, .openComment body⟩
  | _ => rfl

/-! ## Collecting from a split -/

private theorem collect_cons {α : Type} (g : Segment → Nat → Option α) (line : Nat) (s : Segment)
    (segments : List Segment) :
    collect g line (s :: segments) =
      (g s (line + s.newlines)).toList ++ collect g (line + s.newlines) segments := by
  rw [collect, locate, List.filterMap_cons]
  dsimp only
  rcases g s (line + s.newlines) with _ | a <;> rfl

/-- If something is made exactly of what `p` selects, then what is made corresponds to what is
selected, one to one and in order. -/
theorem forall₂_filterMap {α β : Type} {f : α → Option β} {p : α → Bool} {R : α → β → Prop}
    {xs : List α} (h : ∀ x ∈ xs, if p x then ∃ b, f x = some b ∧ R x b else f x = none) :
    List.Forall₂ R (xs.filter p) (xs.filterMap f) := by
  induction xs with
  | nil => exact .nil
  | cons x xs ih =>
    rw [List.forall_mem_cons] at h
    obtain ⟨hx, hrest⟩ := h
    rw [List.filter_cons, List.filterMap_cons]
    split at hx
    · next hp =>
      obtain ⟨b, hb, hR⟩ := hx
      rw [if_pos hp, hb]
      exact .cons hR (ih hrest)
    · next hp =>
      rw [if_neg hp, hx]
      exact ih hrest

/-- What is collected from segments belongs to them one by one, in their order. -/
theorem forall₂_collect {α : Type} {g : Segment → Nat → Option α} {p : Segment → Bool}
    {R : Segment → α → Prop} {segments : List Segment}
    (h : ∀ s ∈ segments, ∀ line,
      if p s then ∃ a, g s line = some a ∧ R s a else g s line = none) (line : Nat) :
    List.Forall₂ R (segments.filter p) (collect g line segments) := by
  have hlocated : ∀ x ∈ locate line segments,
      if p x.1 then ∃ a, g x.1 x.2 = some a ∧ R x.1 a else g x.1 x.2 = none := by
    intro x hx
    refine h x.1 ?_ x.2
    rw [← map_fst_locate line segments]
    exact List.mem_map_of_mem hx
  have hfilter :
      segments.filter p = ((locate line segments).filter (p ∘ Prod.fst)).map Prod.fst := by
    rw [← List.filter_map, map_fst_locate]
  rw [hfilter, List.forall₂_map_left_iff]
  exact forall₂_filterMap hlocated

theorem IsPossible.rest_eq_nil {s : Segment} {rest : List Char} (h : IsPossible s rest)
    (hopen : s.isOpen = true) : rest = [] := by
  rcases h with h | ⟨c, rfl, -⟩
  · cases h <;> cases hopen <;> rfl
  · cases hopen

theorem cause_of_error? {s : Segment} {line : Nat} {e : LexError} (h : s.error? line = some e)
    (hopen : s.isOpen = false) : ∃ c, e.cause = .unexpectedCharacter c := by
  cases s with
  | stray c =>
    cases h
    exact ⟨c, rfl⟩
  | openQuotation | openComment => cases hopen
  | _ => cases h

private theorem mem_dropLast_cons {α : Type} {a b : α} {l : List α} (h : b ∈ (a :: l).dropLast) :
    b = a ∨ b ∈ l.dropLast := by
  cases l with
  | nil => cases h
  | cons c l =>
    rw [List.dropLast_cons_cons] at h
    exact List.mem_cons.mp h

/-- Of the errors of a split only the last may be about something that is left open. -/
theorem IsSplit.cause_of_mem_dropLast {segments : List Segment} {source : List Char}
    (h : IsSplit segments source) (line : Nat) :
    ∀ e ∈ (collect error? line segments).dropLast, ∃ c, e.cause = .unexpectedCharacter c := by
  induction h generalizing line with
  | nil => exact List.forall_mem_nil _
  | @cons s segments rest hlongest hrest ih =>
    intro e he
    rw [collect_cons] at he
    rcases herror : s.error? (line + s.newlines) with _ | e'
    · rw [herror] at he
      exact ih _ e he
    by_cases hopen : s.isOpen = true
    · -- nothing follows what is left open
      obtain rfl := hlongest.isPossible.rest_eq_nil hopen
      rw [hrest.eq_split, herror] at he
      cases he
    · rw [herror] at he
      rcases mem_dropLast_cons he with rfl | he
      · exact cause_of_error? herror (Bool.eq_false_iff.mpr hopen)
      · exact ih _ e he

end Segment

open Segment

/-- **Nothing is lost and nothing is added.** A source has exactly one split into longest segments.
Its tokens are the segments of this split that are tokens, in order, each with the text and the kind
of its segment, and the mark of the end behind them; its errors are the faults among the segments,
in order, and only the last error may be about something that is left open. -/
theorem scan_eq_split (source : String) :
    ∃ segments, IsSplit segments source.toList ∧
      (∀ segments', IsSplit segments' source.toList → segments' = segments) ∧
      (∀ s ∈ segments, s.chars ≠ []) ∧ segments.flatMap chars = source.toList ∧
      (∃ tokens line, (scan source).tokens = tokens ++ [⟨.eof, "", line⟩] ∧
        List.Forall₂ IsTokenOf (segments.filter isToken) tokens) ∧
      List.Forall₂ (fun s e ↦ HasFault s e.cause) (segments.filter isFault) (scan source).errors ∧
      ∀ e ∈ (scan source).errors.dropLast, ∃ c, e.cause = .unexpectedCharacter c := by
  have hsplit := isSplit_split source.toList
  have hscan := scanChars_eq source.toList
  refine ⟨split source.toList, hsplit, fun _ h ↦ h.eq_split, ?_, flatMap_chars_split _, ?_, ?_, ?_⟩
  · intro s hs
    obtain ⟨rest, hpossible⟩ := hsplit.isPossible s hs
    exact hpossible.chars_ne_nil
  · rw [scan, hscan]
    refine ⟨_, _, rfl, forall₂_collect (fun s hs line ↦ ?_) 1⟩
    obtain ⟨rest, hpossible⟩ := hsplit.isPossible s hs
    exact token?_eq hpossible line
  · rw [scan, hscan]
    exact forall₂_collect (fun s _ line ↦ s.error?_eq line) 1
  · rw [scan, hscan]
    exact hsplit.cause_of_mem_dropLast 1

end BlockScript
