import BlockScript.Proofs.Token.Lexemes

/-!
# Tokens written with spaces between them

The texts of the tokens of a source, written one after the other with a space between any two, are
scanned as the same tokens: whatever the source had between them, and even if it had errors there.

Two facts make this so. A segment that is a token is a source by itself: it is the longest one that
fits there, since there is nothing else (`split_chars`). And it does not go on across a space, since
of the segments that do none is a token (`endsAt_of_isToken`). A space in front of a text adds
nothing but a blank, even if the text begins with blanks, so that nothing need be said of how the
next token begins (`filterMap_split_space`).
-/

namespace BlockScript

namespace Segment

variable {s : Segment} {rest cs : List Char} {c : Char}

/-! ## One segment by itself -/

theorem Fits.nil (h : Fits s rest) : Fits s [] := by
  cases h with
  | newline => exact .newline
  | blank hne hrun => exact .blank hne hrun
  | lineComment hbody => exact .lineComment hbody
  | blockComment hbody => exact .blockComment hbody
  | number hne hdigits => exact .number hne hdigits
  | quotation hquote hbody => exact .quotation hquote hbody
  | word hstart hparts => exact .word hstart hparts
  | symbol s => exact .symbol s
  | openQuotation hquote hbody => exact .openQuotation hquote hbody
  | openComment hbody => exact .openComment hbody

/-- **A segment by itself** is cut off as a whole. -/
theorem split_chars (h : Fits s rest) : split s.chars = [s] := by
  obtain ⟨c, cs, hchars⟩ := List.exists_cons_of_ne_nil h.chars_ne_nil
  have happend := (isCut_cut c cs).chars_append
  have hcut : (cut c cs).1 = s := by
    rcases covers_cut h.nil ((List.append_nil _).trans hchars) with heq | hlt
    · exact heq.symm
    · have hlength := congrArg List.length happend
      rw [List.length_append, ← hchars] at hlength
      omega
  have hrest : (cut c cs).2 = [] := by
    rw [hcut, ← hchars] at happend
    exact List.append_right_eq_self.mp happend
  rw [hchars, split_cons, hcut, hrest]
  rfl

private theorem endsAt_of_isToken (h : s.isToken = true) (b : Char) : s.endsAt b = true := by
  cases s with
  | number | quotation | word | symbol => rfl
  | _ => cases h

theorem IsPossible.fits (h : IsPossible s rest) (htoken : s.isToken = true) : Fits s rest := by
  rcases h with h | ⟨c, rfl, -⟩
  · exact h
  · cases htoken

/-! ## Segments with spaces between them -/

variable {α : Type} {f : Segment → Option α}

/-- A space in front of a text is part of a blank. -/
theorem filterMap_split_space (hf : ∀ run, f (blank run) = none) (text : List Char) :
    (split (' ' :: text)).filterMap f = (split text).filterMap f := by
  have hspace : cut ' ' text = (blank (' ' :: text.takeWhile isBlank), text.dropWhile isBlank) :=
    cut_blank rfl
  rw [split_cons, hspace, List.filterMap_cons_none (hf _)]
  obtain _ | ⟨c, cs⟩ := text
  · rfl
  · dsimp only
    by_cases hblank : isBlank c = true
    · rw [List.dropWhile_cons_of_pos hblank, split_cons, cut_blank hblank,
        List.filterMap_cons_none (hf _)]
    · rw [List.dropWhile_cons_of_neg hblank]

/-- **Tokens with spaces between them** are cut where the spaces are. -/
theorem filterMap_split_intercalate (hf : ∀ run, f (blank run) = none) {segments : List Segment}
    (h : ∀ s ∈ segments, s.isToken = true ∧ ∃ rest, Fits s rest) :
    (split ([' '].intercalate (segments.map chars))).filterMap f = segments.filterMap f := by
  induction segments with
  | nil => rfl
  | cons s segments ih =>
    rw [List.forall_mem_cons] at h
    obtain ⟨⟨htoken, rest, hfits⟩, hsegments⟩ := h
    have hs := split_chars hfits
    obtain _ | ⟨s', segments⟩ := segments
    · rw [List.map_singleton, List.intercalate_singleton, hs]
    · have hends : ∀ segment ∈ split s.chars, segment.endsAt ' ' = true := by
        rw [hs, List.forall_mem_singleton]
        exact endsAt_of_isToken htoken ' '
      have hrest := ih hsegments
      rw [List.map_cons] at hrest
      rw [List.map_cons, List.map_cons, List.intercalate_cons_cons, List.append_assoc,
        List.singleton_append, split_append_white (.inr rfl) hends, hs, List.filterMap_append,
        filterMap_split_space hf, hrest, ← List.filterMap_append, List.singleton_append]

/-! ## What is collected, without its lines -/

private theorem map_collect {β : Type} {g : Segment → Nat → Option α} {h : α → β}
    {f : Segment → Option β} (hf : ∀ s line, (g s line).map h = f s) (line : Nat)
    (segments : List Segment) : (collect g line segments).map h = segments.filterMap f := by
  rw [collect, List.map_filterMap]
  calc (locate line segments).filterMap (fun x ↦ (g x.1 x.2).map h)
      = (locate line segments).filterMap (f ∘ Prod.fst) :=
        congrArg (List.filterMap · _) (funext fun x ↦ hf x.1 x.2)
    _ = segments.filterMap f := by rw [← List.filterMap_map, map_fst_locate]

/-- The kind and the text of the token that a segment is. -/
def reading? (s : Segment) : Option (TokenKind × String) := s.tokenKind?.map (·, s.lexeme)

private theorem map_collect_token? (line : Nat) (segments : List Segment) :
    (collect token? line segments).map (fun t ↦ (t.kind, t.lexeme)) =
      segments.filterMap reading? := by
  refine map_collect (fun s line ↦ ?_) line segments
  rw [token?, Option.map_map]
  rfl

private theorem map_collect_error? (line : Nat) (segments : List Segment) :
    (collect error? line segments).map (·.cause) = segments.filterMap fault? := by
  refine map_collect (fun s line ↦ ?_) line segments
  rw [error?, Option.map_map]
  exact Option.map_id'

/-! ## The segments that are tokens -/

/-- The segments of a source that are tokens. -/
def tokenSegments (source : List Char) : List Segment := (split source).filter isToken

private theorem fits_of_mem_tokenSegments {source : List Char} (h : s ∈ tokenSegments source) :
    s.isToken = true ∧ ∃ rest, Fits s rest := by
  obtain ⟨hmem, htoken⟩ := List.mem_filter.mp h
  obtain ⟨rest, hpossible⟩ := (isSplit_split source).isPossible s hmem
  exact ⟨htoken, rest, hpossible.fits htoken⟩

private theorem filterMap_reading?_tokenSegments (source : List Char) :
    (tokenSegments source).filterMap reading? = (split source).filterMap reading? := by
  rw [tokenSegments, List.filterMap_filter]
  refine congrArg (List.filterMap · _) (funext fun s ↦ ?_)
  cases s <;> rfl

private theorem filterMap_fault?_tokenSegments (source : List Char) :
    (tokenSegments source).filterMap fault? = [] := by
  rw [tokenSegments, List.filterMap_filter, List.filterMap_eq_nil_iff]
  intro s _
  cases s <;> rfl

private theorem map_lexeme_collect_token? (source : List Char) :
    (collect token? 1 (split source)).map (·.lexeme) = (tokenSegments source).map lexeme := by
  have htokens : List.Forall₂ IsTokenOf (tokenSegments source)
      (collect token? 1 (split source)) := by
    refine forall₂_collect (fun s hs line ↦ ?_) 1
    obtain ⟨rest, hpossible⟩ := (isSplit_split source).isPossible s hs
    exact token?_eq hpossible line
  rw [eq_comm, ← List.forall₂_eq_eq_eq, List.forall₂_map_left_iff, List.forall₂_map_right_iff]
  exact htokens.imp fun s t h ↦ h.2.symm

/-- What is written when the tokens of a source are written with spaces between them. -/
theorem toList_intercalate_lexemes (source : List Char) :
    (" ".intercalate ((collect token? 1 (split source)).map (·.lexeme))).toList =
      [' '].intercalate ((tokenSegments source).map chars) := by
  rw [String.toList_intercalate, map_lexeme_collect_token?, List.map_map]
  refine congrArg _ (List.map_congr_left fun s _ ↦ ?_)
  exact String.toList_ofList

end Segment

open Segment

/-- **Writing tokens and scanning them again.** Write the texts of the tokens of any source, without
the mark of its end, one after the other with a space between any two. Scanning what is written
finds no errors, and it finds tokens of the same kinds with the same texts in the same order, and
the mark of the end behind them. -/
theorem scan_intercalate_space (source : String) :
    ∃ tokens line, (scan source).tokens = tokens ++ [.eof line] ∧ (∀ t ∈ tokens, t.kind ≠ .eof) ∧
      ∃ tokens' line',
        scan (" ".intercalate (tokens.map (·.lexeme))) =
          { tokens := tokens' ++ [.eof line'], errors := [] } ∧
        tokens'.map (fun t ↦ (t.kind, t.lexeme)) = tokens.map (fun t ↦ (t.kind, t.lexeme)) := by
  obtain ⟨tokens, hsource, hkinds⟩ := exists_tokens_eq source.toList
  obtain rfl : tokens = collect token? 1 (split source.toList) := by
    rw [scanChars_eq] at hsource
    exact (List.append_cancel_right hsource).symm
  have hsegments (s : Segment) (hs : s ∈ tokenSegments source.toList) :=
    fits_of_mem_tokenSegments hs
  refine ⟨_, _, hsource, hkinds, ?_⟩
  rw [scan, toList_intercalate_lexemes, scanChars_eq]
  refine ⟨_, _, congrArg (Scan.mk _) ?_, ?_⟩
  · rw [← List.map_eq_nil_iff (f := (·.cause)), map_collect_error?,
      filterMap_split_intercalate (fun _ ↦ rfl) hsegments, filterMap_fault?_tokenSegments]
  · rw [map_collect_token?, map_collect_token?,
      filterMap_split_intercalate (fun _ ↦ rfl) hsegments, filterMap_reading?_tokenSegments]

end BlockScript
