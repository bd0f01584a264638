import BlockScript.Proofs.Token.Lexemes

/-!
# The line of a token

The line of a token or an error is counted along with the segments: each segment adds the line ends
that its kind has a rule for, which are all that are inside it. That this is the line on which the
segment ends can be said of the source alone. A segment ends where a certain part of the source,
from its beginning on, ends (`ends`), and the line is one more than there are line ends in that
part.

So a segment with line ends inside is found on its last line, and what is left open is found on the
last line of the source, since it reaches to the end.
-/

namespace BlockScript

namespace Segment

/-- Segments, each with all of the source up to its end, if `before` is in front of the first. -/
def ends (before : List Char) : List Segment → List (Segment × List Char)
  | [] => []
  | s :: rest => (s, before ++ s.chars) :: ends (before ++ s.chars) rest

variable {segments : List Segment} {source before : List Char}

private theorem map_fst_ends (before : List Char) (segments : List Segment) :
    (ends before segments).map Prod.fst = segments := by
  induction segments generalizing before with
  | nil => rfl
  | cons s segments ih => rw [ends, List.map_cons, ih]

/-- **Lines are counted by line ends.** -/
theorem locate_eq_map_ends (line : Nat) (before : List Char)
    (h : ∀ s ∈ segments, s.newlines = s.chars.count '\n') :
    locate (line + before.count '\n') segments =
      (ends before segments).map fun x ↦ (x.1, line + x.2.count '\n') := by
  induction segments generalizing before with
  | nil => rfl
  | cons s segments ih =>
    rw [List.forall_mem_cons] at h
    have hline : line + before.count '\n' + s.newlines = line + (before ++ s.chars).count '\n' := by
      rw [List.count_append, Nat.add_assoc, h.1]
    rw [locate, hline, ih _ h.2, ends, List.map_cons]

private theorem collect_eq_filterMap_ends {α : Type} (g : Segment → Nat → Option α)
    (h : ∀ s ∈ segments, s.newlines = s.chars.count '\n') :
    collect g 1 segments = (ends [] segments).filterMap fun x ↦ g x.1 (1 + x.2.count '\n') := by
  rw [collect, ← Nat.add_zero 1, ← List.count_nil (a := '\n'), locate_eq_map_ends 1 [] h,
    List.filterMap_map]
  rfl

/-- If a segment gives something exactly when `p` selects it, and puts it on the line on which it
ends, then what is collected corresponds to the selected segments and is on the lines of their
ends. -/
theorem forall₂_collect_ends {α : Type} {g : Segment → Nat → Option α} {p : Segment → Bool}
    {R : Segment → α → Prop} {lineOf : α → Nat}
    (hcount : ∀ s ∈ segments, s.newlines = s.chars.count '\n')
    (h : ∀ s ∈ segments, ∀ line,
      if p s then ∃ a, g s line = some a ∧ R s a else g s line = none)
    (hline : ∀ s line a, g s line = some a → lineOf a = line) :
    List.Forall₂ (fun x a ↦ R x.1 a ∧ lineOf a = 1 + x.2.count '\n')
      ((ends [] segments).filter (p ·.1)) (collect g 1 segments) := by
  rw [collect_eq_filterMap_ends g hcount]
  refine forall₂_filterMap fun x hx ↦ ?_
  have hmem : x.1 ∈ segments := by
    rw [← map_fst_ends [] segments]
    exact List.mem_map_of_mem hx
  have hmade := h x.1 hmem (1 + x.2.count '\n')
  split at hmade
  · next hp =>
    obtain ⟨a, ha, hR⟩ := hmade
    rw [if_pos hp]
    exact ⟨a, ha, hR, hline _ _ _ ha⟩
  · next hp =>
    rw [if_neg hp]
    exact hmade

/-- What is paired with a segment is a part of the source, and the segment is the end of it. -/
theorem isPrefix_of_mem_ends {x : Segment × List Char} (h : x ∈ ends before segments) :
    x.2 <+: before ++ segments.flatMap chars ∧ x.1.chars <:+ x.2 := by
  induction segments generalizing before with
  | nil => cases h
  | cons s segments ih =>
    rw [List.flatMap_cons, ← List.append_assoc]
    rcases List.mem_cons.mp h with rfl | h
    · exact ⟨List.prefix_append _ _, List.suffix_append _ _⟩
    · exact ih h

/-- What is left open ends with the source. -/
theorem IsSplit.eq_of_mem_ends (h : IsSplit segments source) {x : Segment × List Char}
    (hx : x ∈ ends before segments) (hopen : x.1.isOpen = true) : x.2 = before ++ source := by
  induction h generalizing before with
  | nil => cases hx
  | @cons s segments rest hlongest hrest ih =>
    rcases List.mem_cons.mp hx with rfl | hx
    · rw [hlongest.isPossible.rest_eq_nil hopen, List.append_nil]
    · rw [ih hx, List.append_assoc]

end Segment

open Segment

/-- **Lines are exact.** A source has a split into longest segments, each of which ends where some
part of the source ends. The tokens are found on the lines on which their segments end: one more
than there are line ends in that part. So are the errors, and an error about something left open is
found on the last line of the source. So is the mark of the end. And lines never decrease, neither
among the tokens nor among the errors. -/
theorem lines_exact (source : String) :
    ∃ segments, IsSplit segments source.toList ∧
      (∀ segments', IsSplit segments' source.toList → segments' = segments) ∧
      (∀ x ∈ ends [] segments, x.2 <+: source.toList ∧ x.1.chars <:+ x.2) ∧
      (∃ tokens, (scan source).tokens = tokens ++ [.eof (1 + source.toList.count '\n')] ∧
        List.Forall₂ (fun x t ↦ x.1.IsTokenOf t ∧ t.line = 1 + x.2.count '\n')
          ((ends [] segments).filter (·.1.isToken)) tokens) ∧
      List.Forall₂ (fun x e ↦ x.1.HasFault e.cause ∧ e.line = 1 + x.2.count '\n')
        ((ends [] segments).filter (·.1.isFault)) (scan source).errors ∧
      (∀ e ∈ (scan source).errors,
        e.cause = .unterminatedText ∨ e.cause = .unterminatedComment →
          e.line = 1 + source.toList.count '\n') ∧
      (scan source).tokens.Pairwise (·.line ≤ ·.line) ∧
      (scan source).errors.Pairwise (·.line ≤ ·.line) := by
  have hsplit := isSplit_split source.toList
  have hscan := scanChars_eq source.toList
  refine ⟨split source.toList, hsplit, fun _ h ↦ h.eq_split, fun x hx ↦ ?_,
    ⟨_, congrArg Scan.tokens hscan, ?_⟩, ?_, fun e he hcause ↦ ?_, pairwise_tokens source.toList,
    pairwise_errors source.toList⟩
  · have hprefix := isPrefix_of_mem_ends hx
    rwa [List.nil_append, flatMap_chars_split] at hprefix
  · refine forall₂_collect_ends (fun _ ↦ newlines_of_mem_split) (fun s hs line ↦ ?_)
      fun _ _ _ ↦ line_of_token?
    obtain ⟨rest, hpossible⟩ := hsplit.isPossible s hs
    exact token?_eq hpossible line
  · rw [scan, hscan]
    exact forall₂_collect_ends (fun _ ↦ newlines_of_mem_split) (fun s _ line ↦ s.error?_eq line)
      fun _ _ _ ↦ line_of_error?
  · rw [scan, hscan] at he
    change e ∈ collect error? 1 _ at he
    rw [collect_eq_filterMap_ends _ fun _ ↦ newlines_of_mem_split] at he
    obtain ⟨x, hx, herror⟩ := List.mem_filterMap.mp he
    have hopen : x.1.isOpen = true := by
      rw [← Bool.not_eq_false]
      intro hclosed
      obtain ⟨c, hc⟩ := cause_of_error? herror hclosed
      rw [hc] at hcause
      rcases hcause with h | h <;> cases h
    rw [line_of_error? herror, hsplit.eq_of_mem_ends hx hopen, List.nil_append]

end BlockScript
