import BlockScript.Input
import BlockScript.Proofs.Outcome

/-!
# Lines that are taken from the input

Whoever reads takes a whole line from the front of the input, or finds that there is none. Whether
the line is a text plays no role for that. What several readers have taken one after the other is
therefore a list of whole lines (`LinesFrom`), and it is shorter than the number of readers only if
the input has come to its end (`Reads`).
-/

namespace BlockScript.Input

variable {n n' : Nat} {line bytes before mid after rest : List UInt8}
  {lines more : List (List UInt8)}

/-- A whole line and what follows it. The line goes through its line end, or to the end of the input
if it has none. -/
inductive IsLine : List UInt8 → List UInt8 → Prop where
  | ended {body rest : List UInt8} : 10 ∉ body → IsLine (body ++ [10]) rest
  | last {body : List UInt8} : body ≠ [] → 10 ∉ body → IsLine body []

theorem IsLine.ne_nil (h : IsLine line rest) : line ≠ [] := by
  rcases h with hbody | ⟨hne, -⟩
  · exact List.append_ne_nil_of_right_ne_nil _ (List.cons_ne_nil 10 [])
  · exact hne

/-- Whole lines from the front of some bytes, and the bytes that are left. -/
inductive LinesFrom : List UInt8 → List (List UInt8) → List UInt8 → Prop where
  | nil (bytes : List UInt8) : LinesFrom bytes [] bytes
  | cons {line rest after : List UInt8} {lines : List (List UInt8)} :
    IsLine line rest → LinesFrom rest lines after → LinesFrom (line ++ rest) (line :: lines) after

namespace LinesFrom

theorem append (h : LinesFrom before lines mid) (h' : LinesFrom mid more after) :
    LinesFrom before (lines ++ more) after := by
  induction h with
  | nil bytes => exact h'
  | cons hline _ ih => exact .cons hline (ih h')

theorem eq_flatten_append (h : LinesFrom before lines after) :
    before = lines.flatten ++ after := by
  induction h with
  | nil bytes => rw [List.flatten_nil, List.nil_append]
  | cons hline _ ih => rw [List.flatten_cons, List.append_assoc, ← ih]

/-- Where there is nothing, no line is taken. -/
theorem eq_nil (h : LinesFrom [] lines after) : after = [] :=
  (List.append_eq_nil_iff.mp h.eq_flatten_append.symm).2

end LinesFrom

/-! ## Readers -/

/-- Some readers have taken a line each, as long as there was one. -/
def Reads (n : Nat) (before after : List UInt8) : Prop :=
  ∃ lines, LinesFrom before lines after ∧ lines.length ≤ n ∧ (lines.length < n → after = [])

namespace Reads

theorem zero (bytes : List UInt8) : Reads 0 bytes bytes :=
  ⟨[], .nil bytes, Nat.le_refl 0, fun h ↦ absurd h (Nat.lt_irrefl 0)⟩

theorem add (h : Reads n before mid) (h' : Reads n' mid after) : Reads (n + n') before after := by
  obtain ⟨lines, hlines, hle, hend⟩ := h
  obtain ⟨more, hmore, hle', hend'⟩ := h'
  refine ⟨lines ++ more, hlines.append hmore, ?_, fun hlt ↦ ?_⟩
  · rw [List.length_append]
    omega
  · rw [List.length_append] at hlt
    by_cases hfirst : lines.length < n
    · obtain rfl := hend hfirst
      exact hmore.eq_nil
    · exact hend' (by omega)

end Reads

/-! ## One line -/

/-- What a reader takes is a whole line, and the rest is what is left. -/
theorem cutLine_of_ne_nil (h : bytes ≠ []) :
    IsLine (cutLine bytes).1 (cutLine bytes).2 ∧
      bytes = (cutLine bytes).1 ++ (cutLine bytes).2 := by
  have hbody : 10 ∉ bytes.takeWhile (· != 10) := by
    intro hmem
    have hne := List.all_eq_true.mp List.all_takeWhile 10 hmem
    simp at hne
  have hsplit : bytes.takeWhile (· != 10) ++ bytes.dropWhile (· != 10) = bytes :=
    List.takeWhile_append_dropWhile
  rw [cutLine]
  generalize bytes.takeWhile (· != 10) = body at hbody hsplit ⊢
  rcases hrest : bytes.dropWhile (· != 10) with _ | ⟨newline, rest⟩
  · rw [hrest, List.append_nil] at hsplit
    rw [hsplit] at hbody ⊢
    exact ⟨.last h hbody, (List.append_nil bytes).symm⟩
  · -- what is not skipped begins with a line end
    have hnewline : newline = 10 := by
      have hhead := List.head?_dropWhile_not (· != 10) bytes
      rw [hrest] at hhead
      simpa using hhead
    rw [hrest, hnewline] at hsplit
    rw [hnewline]
    refine ⟨.ended hbody, ?_⟩
    rw [List.append_assoc, ← hsplit]
    rfl

theorem takeLine_of_ne_nil (h : bytes ≠ []) :
    takeLine bytes = match String.fromUTF8? (cutLine bytes).1.toByteArray with
      | some text => .ok (some text) (cutLine bytes).2
      | none => .error .invalidText (cutLine bytes).2 := by
  rcases bytes with _ | ⟨byte, bytes⟩
  · exact absurd rfl h
  · rfl

/-- The line at the front of the input is no text. -/
def Garbled (bytes : List UInt8) : Prop :=
  ∃ line rest, bytes = line ++ rest ∧ IsLine line rest ∧
    ∀ text : String, text.toUTF8 ≠ line.toByteArray

/-- A reader gets the line at the front as a text, or finds that it is none. -/
theorem takeLine_cases (h : bytes ≠ []) :
    (∃ line rest text, bytes = line ++ rest ∧ IsLine line rest ∧
      text.toUTF8 = line.toByteArray ∧ takeLine bytes = .ok (some text) rest) ∨
    Garbled bytes ∧ ∃ rest, takeLine bytes = .error .invalidText rest := by
  obtain ⟨hline, hsplit⟩ := cutLine_of_ne_nil h
  rw [takeLine_of_ne_nil h]
  by_cases hvalid : (cutLine bytes).1.toByteArray.IsValidUTF8
  · rw [String.fromUTF8?, dif_pos hvalid]
    exact .inl ⟨_, _, _, hsplit, hline, rfl, rfl⟩
  · rw [String.fromUTF8?, dif_neg hvalid]
    refine .inr ⟨⟨_, _, hsplit, hline, fun text htext ↦ hvalid ?_⟩, _, rfl⟩
    rw [← htext]
    exact text.isValidUTF8

/-- A reader takes one line if there is one, whether or not it is a text. -/
theorem reads_takeLine (bytes : List UInt8) : Reads 1 bytes (stateAfter (takeLine bytes)) := by
  by_cases h : bytes = []
  · rw [h]
    exact ⟨[], .nil [], Nat.zero_le 1, fun _ ↦ rfl⟩
  · obtain ⟨hline, hsplit⟩ := cutLine_of_ne_nil h
    have hlines : LinesFrom bytes [(cutLine bytes).1] (cutLine bytes).2 := by
      have hcons := LinesFrom.cons hline (.nil _)
      rwa [← hsplit] at hcons
    have hrest : stateAfter (takeLine bytes) = (cutLine bytes).2 := by
      rw [takeLine_of_ne_nil h]
      rcases String.fromUTF8? (cutLine bytes).1.toByteArray with _ | text
      · rfl
      · rfl
    rw [hrest]
    exact ⟨_, hlines, Nat.le_refl 1, fun hlt ↦ absurd hlt (Nat.lt_irrefl 1)⟩

end BlockScript.Input
