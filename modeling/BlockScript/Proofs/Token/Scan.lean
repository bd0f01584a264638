import BlockScript.Proofs.Segment.Longest
import BlockScript.Token.Scan

/-!
# Scanning distributes over line breaks

Tokens and errors are collected from the segments of a source in the same way: a segment with the
line it ends on gives one of them or nothing. What is said here of collecting is therefore said of
both. Moving all segments down by some lines moves what is collected by as many (`collect_add`),
which, with the cut at a line break, is all that scanning two texts at once needs.
-/

namespace BlockScript

/-- The same token on another line. -/
def Token.mapLine (f : Nat → Nat) (t : Token) : Token := { t with line := f t.line }

/-- The same error on another line. -/
def LexError.mapLine (f : Nat → Nat) (e : LexError) : LexError := { e with line := f e.line }

namespace Segment

variable {α : Type} {g : Segment → Nat → Option α}

/-- What `g` makes of segments from line `line` on. -/
def collect (g : Segment → Nat → Option α) (line : Nat) (segments : List Segment) : List α :=
  (locate line segments).filterMap fun (s, l) ↦ g s l

/-! ## Line ends inside segments

Line ends are counted by one rule for each kind of segment. The segments of a source are such that
nothing else of them is a line end. -/

private theorem count_break_eq_zero {cs : List Char} {p : Char → Bool} (hp : p '\n' = false)
    (h : ∀ c ∈ cs, p c = true) : cs.count '\n' = 0 := by
  refine List.count_eq_zero.mpr fun hmem ↦ ?_
  rw [h _ hmem] at hp
  cases hp

private theorem IsQuote.ne_break {c : Char} (h : IsQuote c) : c ≠ '\n' := by
  rcases h with rfl | rfl <;> decide

private theorem Fits.newlines_eq {s : Segment} {rest : List Char} (h : Fits s rest) :
    s.newlines = s.chars.count '\n' := by
  cases h with
  | newline => rfl
  | blank _ hrun => exact (count_break_eq_zero rfl hrun).symm
  | lineComment hbody => simp [newlines, chars, List.count_eq_zero.mpr hbody]
  | blockComment _ => simp [newlines, chars]
  | @number whole fraction _ _ hdigits =>
    rw [List.forall_mem_append] at hdigits
    have hwhole := count_break_eq_zero rfl hdigits.1
    have hfraction := count_break_eq_zero rfl hdigits.2
    cases fraction with
    | nil => exact hwhole.symm
    | cons d fraction => simp [newlines, chars, hwhole, hfraction]
  | quotation hquote _ => simp [newlines, chars, hquote.ne_break]
  | @word c letters _ hstart hparts =>
    have hletters := count_break_eq_zero rfl hparts
    have hc : c ≠ '\n' := by
      rintro rfl
      cases hstart
    simp [newlines, chars, hletters, hc]
  | symbol s => cases s <;> rfl
  | openQuotation hquote _ => simp [newlines, chars, hquote.ne_break]
  | openComment _ => simp [newlines, chars]

private theorem IsPossible.newlines_eq {s : Segment} {rest : List Char} (h : IsPossible s rest) :
    s.newlines = s.chars.count '\n' := by
  rcases h with h | ⟨c, rfl, hnone⟩
  · exact h.newlines_eq
  · -- a line end is a segment of the grammar
    have hc : c ≠ '\n' := by
      rintro rfl
      exact hnone newline rest .newline rfl
    simp [newlines, chars, hc]

/-- **All line ends of a source are counted**, whatever kind of segment they are in. -/
theorem newlines_of_mem_split {source : List Char} {s : Segment} (h : s ∈ split source) :
    s.newlines = s.chars.count '\n' := by
  obtain ⟨rest, hpossible⟩ := (isSplit_split source).isPossible s h
  exact hpossible.newlines_eq

/-! ## Lines -/

private theorem lastLine_append (line : Nat) (a b : List Segment) :
    lastLine line (a ++ b) = lastLine (lastLine line a) b := List.foldl_append

private theorem lastLine_eq (line : Nat) {segments : List Segment}
    (h : ∀ s ∈ segments, s.newlines = s.chars.count '\n') :
    lastLine line segments = line + (segments.flatMap chars).count '\n' := by
  induction segments generalizing line with
  | nil => rfl
  | cons s segments ih =>
    rw [List.forall_mem_cons] at h
    rw [lastLine, List.foldl_cons, ← lastLine, ih _ h.2, List.flatMap_cons, List.count_append,
      ← Nat.add_assoc, h.1]

theorem lastLine_split (line : Nat) (source : List Char) :
    lastLine line (split source) = line + source.count '\n' := by
  rw [lastLine_eq line fun _ ↦ newlines_of_mem_split, flatMap_chars_split]

private theorem le_lastLine (line : Nat) (segments : List Segment) :
    line ≤ lastLine line segments := by
  induction segments generalizing line with
  | nil => exact Nat.le_refl line
  | cons s segments ih => exact Nat.le_trans (Nat.le_add_right line _) (ih _)

private theorem locate_append (line : Nat) (a b : List Segment) :
    locate line (a ++ b) = locate line a ++ locate (lastLine line a) b := by
  induction a generalizing line with
  | nil => rfl
  | cons s a ih => rw [List.cons_append, locate, locate, ih, List.cons_append]; rfl

private theorem locate_add (line k : Nat) (segments : List Segment) :
    locate (line + k) segments = (locate line segments).map fun (s, l) ↦ (s, l + k) := by
  induction segments generalizing line with
  | nil => rfl
  | cons s segments ih =>
    rw [locate, locate, Nat.add_right_comm, ih, List.map_cons]

theorem map_fst_locate (line : Nat) (segments : List Segment) :
    (locate line segments).map Prod.fst = segments := by
  induction segments generalizing line with
  | nil => rfl
  | cons s segments ih => rw [locate, List.map_cons, ih]

private theorem exists_mem_locate {s : Segment} {segments : List Segment} (h : s ∈ segments)
    (line : Nat) : ∃ l, (s, l) ∈ locate line segments := by
  rw [← map_fst_locate line segments] at h
  obtain ⟨⟨_, l⟩, hl, rfl⟩ := List.mem_map.mp h
  exact ⟨l, hl⟩

theorem le_of_mem_locate {line l : Nat} {s : Segment} {segments : List Segment}
    (h : (s, l) ∈ locate line segments) : line ≤ l := by
  induction segments generalizing line with
  | nil => nomatch h
  | cons s' segments ih =>
    rw [locate] at h
    rcases List.mem_cons.mp h with heq | h
    · cases heq
      exact Nat.le_add_right line _
    · exact Nat.le_trans (Nat.le_add_right line _) (ih h)

theorem le_lastLine_of_mem_locate {line l : Nat} {s : Segment} {segments : List Segment}
    (h : (s, l) ∈ locate line segments) : l ≤ lastLine line segments := by
  induction segments generalizing line with
  | nil => nomatch h
  | cons s' segments ih =>
    rw [locate] at h
    rcases List.mem_cons.mp h with heq | h
    · cases heq
      exact le_lastLine _ segments
    · exact ih h

/-- Lines never decrease. -/
theorem pairwise_locate (line : Nat) (segments : List Segment) :
    (locate line segments).Pairwise fun a b ↦ a.2 ≤ b.2 := by
  induction segments generalizing line with
  | nil => exact .nil
  | cons s segments ih => exact .cons (fun _ hb ↦ le_of_mem_locate hb) (ih _)

/-! ## Collecting -/

private theorem exists_mem_collect {s : Segment} {segments : List Segment} (h : s ∈ segments)
    (line : Nat) : ∃ l, ∀ a, g s l = some a → a ∈ collect g line segments := by
  have ⟨l, hl⟩ := exists_mem_locate h line
  exact ⟨l, fun a ha ↦ List.mem_filterMap.mpr ⟨(s, l), hl, ha⟩⟩

private theorem collect_append (line : Nat) (a b : List Segment) :
    collect g line (a ++ b) = collect g line a ++ collect g (lastLine line a) b := by
  rw [collect, locate_append, List.filterMap_append, ← collect, ← collect]

/-- What is collected from segments in order is in order. -/
theorem pairwise_collect {lineOf : α → Nat} (hg : ∀ s l a, g s l = some a → lineOf a = l)
    (line : Nat) (segments : List Segment) :
    (collect g line segments).Pairwise fun a b ↦ lineOf a ≤ lineOf b := by
  rw [collect, List.pairwise_filterMap]
  refine (pairwise_locate line segments).imp fun {p q} hle a ha b hb ↦ ?_
  rw [hg _ _ _ ha, hg _ _ _ hb]
  exact hle

/-- **Moving down.** -/
theorem collect_add {h : α → α} (line k : Nat) (hg : ∀ s l, g s (l + k) = (g s l).map h)
    (segments : List Segment) :
    collect g (line + k) segments = (collect g line segments).map h := by
  rw [collect, locate_add, List.filterMap_map, collect, List.map_filterMap]
  exact congrArg (List.filterMap · _) (funext fun (s, l) ↦ hg s l)

end Segment

open Segment

theorem scanChars_eq (source : List Char) :
    scanChars source =
      { tokens := collect token? 1 (split source) ++ [.eof (1 + source.count '\n')]
        errors := collect error? 1 (split source) } := by
  rw [scanChars, lastLine_split]
  rfl

private theorem kind_ne_eof_of_token? {s : Segment} {line : Nat} {t : Token}
    (h : token? s line = some t) : t.kind ≠ .eof := by
  obtain ⟨kind, hkind, rfl⟩ := Option.map_eq_some_iff.mp h
  unfold tokenKind? at hkind
  split at hkind <;> cases hkind
  · nofun
  · nofun
  · unfold wordKind
    dsimp only
    split <;> nofun
  · nofun

/-- The mark of the end stands at the end and nowhere else. -/
theorem exists_tokens_eq (source : List Char) :
    ∃ w, (scanChars source).tokens = w ++ [.eof (1 + source.count '\n')] ∧
      ∀ t ∈ w, t.kind ≠ .eof := by
  rw [scanChars_eq]
  refine ⟨_, rfl, ?_⟩
  intro t ht
  have ⟨⟨s, line⟩, _, hs⟩ := List.mem_filterMap.mp ht
  exact kind_ne_eof_of_token? hs

theorem line_of_token? {s : Segment} {line : Nat} {t : Token} (h : token? s line = some t) :
    t.line = line := by
  obtain ⟨kind, -, rfl⟩ := Option.map_eq_some_iff.mp h
  rfl

theorem line_of_error? {s : Segment} {line : Nat} {e : LexError} (h : error? s line = some e) :
    e.line = line := by
  obtain ⟨cause, -, rfl⟩ := Option.map_eq_some_iff.mp h
  rfl

/-- **Tokens come in the order of their lines**, the mark of the end last. -/
theorem pairwise_tokens (source : List Char) :
    (scanChars source).tokens.Pairwise (·.line ≤ ·.line) := by
  rw [scanChars_eq, List.pairwise_append]
  refine ⟨pairwise_collect (fun _ _ _ ↦ line_of_token?) 1 _, List.pairwise_singleton _ _, ?_⟩
  intro t ht eof heof
  obtain rfl := List.mem_singleton.mp heof
  obtain ⟨⟨s, line⟩, hs, hline⟩ := List.mem_filterMap.mp ht
  rw [line_of_token? hline, ← lastLine_split 1 source]
  exact le_lastLine_of_mem_locate hs

/-- So do lexical errors. -/
theorem pairwise_errors (source : List Char) :
    (scanChars source).errors.Pairwise (·.line ≤ ·.line) := by
  rw [scanChars_eq]
  exact pairwise_collect (g := error?) (fun _ _ _ ↦ line_of_error?) 1 (split source)

/-- A text that is left open is reported as such. -/
theorem isOpen_eq_false_of_errors {source : List Char}
    (h : ∀ e ∈ (scanChars source).errors,
      e.cause ≠ .unterminatedText ∧ e.cause ≠ .unterminatedComment) :
    ∀ segment ∈ split source, segment.isOpen = false := by
  intro segment hmem
  rw [scanChars_eq] at h
  have ⟨l, hl⟩ := exists_mem_collect (g := error?) hmem 1
  rw [← Bool.not_eq_true]
  intro hopen
  unfold isOpen at hopen
  split at hopen
  · exact (h _ (hl ⟨.unterminatedText, l⟩ rfl)).1 rfl
  · exact (h _ (hl ⟨.unterminatedComment, l⟩ rfl)).2 rfl
  · exact absurd hopen Bool.false_ne_true

private theorem token?_add (s : Segment) (l k : Nat) :
    token? s (l + k) = (token? s l).map (.mapLine (· + k)) := by
  rw [token?, token?, Option.map_map]
  rfl

private theorem error?_add (s : Segment) (l k : Nat) :
    error? s (l + k) = (error? s l).map (.mapLine (· + k)) := by
  rw [error?, error?, Option.map_map]
  rfl

/-- **Two texts at once.** If the first leaves nothing open, its tokens are followed by those of the
second on the lines behind it, and so are its errors. -/
theorem scanChars_append_break {s₁ : List Char}
    (h : ∀ segment ∈ split s₁, segment.isOpen = false) (s₂ : List Char) :
    scanChars (s₁ ++ '\n' :: s₂) =
      { tokens := (scanChars s₁).tokens.dropLast ++
          (scanChars s₂).tokens.map (.mapLine (· + (1 + s₁.count '\n')))
        errors := (scanChars s₁).errors ++
          (scanChars s₂).errors.map (.mapLine (· + (1 + s₁.count '\n'))) } := by
  have hline : lastLine 1 (split s₁ ++ [newline]) = 1 + (1 + s₁.count '\n') := by
    rw [lastLine_append, lastLine_split]
    change 1 + s₁.count '\n' + 1 = _
    omega
  have hsegments : split (s₁ ++ '\n' :: s₂) = split s₁ ++ [newline] ++ split s₂ := by
    rw [split_append_break h, List.append_assoc]
    rfl
  -- the break itself is neither a token nor an error
  have hbreak {α : Type} (g : Segment → Nat → Option α) (hg : ∀ l, g newline l = none) :
      collect g 1 (split s₁ ++ [newline]) = collect g 1 (split s₁) := by
    rw [collect_append]
    simp [collect, locate, hg]
  have hend : (1 + (s₁ ++ '\n' :: s₂).count '\n') = 1 + s₂.count '\n' + (1 + s₁.count '\n') := by
    rw [List.count_append, List.count_cons_self]
    omega
  rw [scanChars_eq, scanChars_eq, scanChars_eq, hsegments, hend]
  congr 1
  · rw [collect_append, hline, hbreak _ fun _ ↦ rfl, collect_add 1 _ fun s l ↦ token?_add s l _,
      List.dropLast_concat, List.map_append, List.append_assoc]
    rfl
  · rw [collect_append, hline, hbreak _ fun _ ↦ rfl, collect_add 1 _ fun s l ↦ error?_add s l _]

/-- **Scanning distributes over line breaks.** If nothing is reported to be left open in a text, the
text may be followed by a line break and any other text: there are the tokens of the first, but for
the mark of its end, and then those of the second, and the same goes for the errors. Those of the
second are found on the lines that begin behind the first. -/
theorem scan_append_break {s₁ : String}
    (h : ∀ e ∈ (scan s₁).errors, e.cause ≠ .unterminatedText ∧ e.cause ≠ .unterminatedComment)
    (s₂ : String) :
    ∃ tokens, (scan s₁).tokens = tokens ++ [.eof (1 + s₁.toList.count '\n')] ∧
      scan (s₁ ++ "\n" ++ s₂) =
        { tokens := tokens ++ (scan s₂).tokens.map (.mapLine (· + (1 + s₁.toList.count '\n')))
          errors := (scan s₁).errors ++
            (scan s₂).errors.map (.mapLine (· + (1 + s₁.toList.count '\n'))) } := by
  have hopen := isOpen_eq_false_of_errors h
  have hchars : (s₁ ++ "\n" ++ s₂).toList = s₁.toList ++ '\n' :: s₂.toList := by
    rw [String.toList_append, String.toList_append, List.append_assoc]
    rfl
  obtain ⟨tokens, htokens, -⟩ := exists_tokens_eq s₁.toList
  refine ⟨tokens, htokens, ?_⟩
  rw [scan, hchars, scanChars_append_break hopen, htokens, List.dropLast_concat]
  rfl

/-- A line comment with a quote in it, in front of a text that goes on across a line break. -/
theorem scan_append_break_comment :
    (∀ e ∈ (scan "a ! . // '").errors,
      e.cause ≠ .unterminatedText ∧ e.cause ≠ .unterminatedComment) ∧
    scan ("a ! . // '" ++ "\n" ++ "'b\n' # =") =
      { tokens := [⟨.name "a", "a", 1⟩, ⟨.symbol .dot, ".", 1⟩, ⟨.text "b\n", "'b\n'", 3⟩,
          ⟨.symbol .equals, "=", 3⟩, .eof 3]
        errors := [⟨.unexpectedCharacter '!', 1⟩, ⟨.unexpectedCharacter '#', 3⟩] } := by
  have hscan : scan "a ! . // '" =
      { tokens := [⟨.name "a", "a", 1⟩, ⟨.symbol .dot, ".", 1⟩, .eof 1]
        errors := [⟨.unexpectedCharacter '!', 1⟩] } := by rfl
  have herrors : ∀ e ∈ (scan "a ! . // '").errors,
      e.cause ≠ .unterminatedText ∧ e.cause ≠ .unterminatedComment := by
    rw [hscan]
    decide
  refine ⟨herrors, ?_⟩
  obtain ⟨tokens, htokens, hboth⟩ := scan_append_break herrors "'b\n' # ="
  rw [hscan] at htokens
  have hfirst : [⟨.name "a", "a", 1⟩, ⟨.symbol .dot, ".", 1⟩] ++ [.eof 1] = tokens ++ [.eof 1] :=
    htokens
  rw [hboth, hscan, ← List.append_cancel_right hfirst]
  rfl

end BlockScript
