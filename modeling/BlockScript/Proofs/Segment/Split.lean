import BlockScript.Segment
import Mathlib.Tactic.SplitIfs

/-!
# Cutting a source loses nothing, and cuts it at white space

A segment is cut off in front of the rest of the source, so cutting up a source is an induction on
what is left (`split_induction`), and it is enough to say what one cut does. Two facts are proved
that way.

* The segments of a source put together are the source.
* Two texts with white space between them are cut as if they stood alone, unless a segment of the
  first goes on across it. Only few kinds of segments do (`endsAt`). Across a line break a segment
  goes on only if it asks for a mark that comes behind it, and then it is left open. So for a line
  break, which is a segment of its own, the only condition is that the first text leaves nothing
  open.
-/

namespace BlockScript.Segment

variable {c : Char} {cs t : List Char}

/-! ## What one cut does -/

/-- **One cut.** The segment is not empty, and the segment and the rest together are what was
there. -/
structure IsCut (source : List Char) (r : Segment × List Char) : Prop where
  /-- There is something in it. -/
  chars_ne_nil : r.1.chars ≠ []
  /-- Nothing is lost. -/
  chars_append : r.1.chars ++ r.2 = source

private theorem IsCut.length_lt {source : List Char} {r : Segment × List Char}
    (h : IsCut source r) : r.2.length < source.length := by
  have hpos := List.length_pos_iff.mpr h.chars_ne_nil
  rw [← h.chars_append, List.length_append]
  omega

private theorem chars_number_append (whole cs : List Char) :
    (number whole (cutFraction cs).1).chars ++ (cutFraction cs).2 = whole ++ cs := by
  fun_cases cutFraction cs with
  | case1 d cs hd => simp [chars, List.takeWhile_append_dropWhile]
  | case2 d cs hd => rfl
  | case3 cs => rfl

theorem chars_number_ne_nil {whole fraction : List Char} (h : whole ≠ [] ∨ fraction ≠ []) :
    (number whole fraction).chars ≠ [] := by
  cases fraction with
  | nil => exact h.resolve_right fun h ↦ h rfl
  | cons d fraction => exact List.append_ne_nil_of_right_ne_nil whole (List.cons_ne_nil _ _)

private theorem isCut_cutNumber (d : Char) (cs : List Char) : IsCut (d :: cs) (cutNumber d cs) := by
  have happend := chars_number_append (d :: cs.takeWhile Char.isDigit) (cs.dropWhile Char.isDigit)
  rw [List.cons_append, List.takeWhile_append_dropWhile] at happend
  exact ⟨chars_number_ne_nil (.inl (List.cons_ne_nil _ _)), happend⟩

private theorem isCut_cutPoint (cs : List Char) : IsCut ('.' :: cs) (cutPoint cs) := by
  have happend := chars_number_append [] ('.' :: cs)
  rw [cutPoint]
  split
  · exact ⟨List.cons_ne_nil _ _, rfl⟩
  · next fraction rest hne heq =>
    rw [heq] at happend
    exact ⟨chars_number_ne_nil (.inr hne), happend⟩

private theorem isCut_cutQuotation (quote : Char) (cs : List Char) :
    IsCut (quote :: cs) (cutQuotation quote cs) := by
  rw [cutQuotation]
  split
  · exact ⟨List.cons_ne_nil _ _, List.append_nil _⟩
  · next q rest heq =>
    -- what stops the search for the quote is the quote
    have hq : q = quote := by
      have hhead := List.head?_dropWhile_not (· != quote) cs
      rw [heq] at hhead
      simpa using hhead
    refine ⟨List.cons_ne_nil _ _, ?_⟩
    have happend := List.takeWhile_append_dropWhile (p := (· != quote)) (l := cs)
    rw [heq, hq] at happend
    simpa [chars] using happend

theorem eq_of_closeComment? {body rest : List Char}
    (h : closeComment? cs = some (body, rest)) : cs = body ++ '*' :: '/' :: rest := by
  fun_induction closeComment? cs generalizing body rest with
  | case1 rest' =>
    cases h
    rfl
  | case2 c cs hne ih =>
    obtain ⟨⟨body', rest'⟩, h', heq⟩ := Option.map_eq_some_iff.mp h
    cases heq
    rw [ih h', List.cons_append]
  | case3 => cases h

private theorem isCut_cutSlash (cs : List Char) : IsCut ('/' :: cs) (cutSlash cs) := by
  fun_cases cutSlash cs with
  | case1 cs =>
    refine ⟨List.cons_ne_nil _ _, ?_⟩
    simp only [chars, List.cons_append, List.takeWhile_append_dropWhile]
  | case2 cs body rest heq =>
    refine ⟨List.cons_ne_nil _ _, ?_⟩
    rw [eq_of_closeComment? heq]
    simp [chars]
  | case3 cs heq => exact ⟨List.cons_ne_nil _ _, List.append_nil _⟩
  | case4 cs => exact ⟨List.cons_ne_nil _ _, rfl⟩

theorem chars_of_withEquals? {s : Symbol} (h : Symbol.withEquals? c = some s) :
    s.chars = [c, '='] := by
  unfold Symbol.withEquals? at h
  split at h <;> cases h <;> rfl

theorem chars_of_single? {s : Symbol} (h : Symbol.single? c = some s) : s.chars = [c] := by
  unfold Symbol.single? at h
  split at h <;> cases h <;> rfl

private theorem isCut_cutSymbol (c : Char) (cs : List Char) : IsCut (c :: cs) (cutSymbol c cs) := by
  unfold cutSymbol
  split
  · next rest s hs =>
    refine ⟨?_, ?_⟩ <;> simp [chars, chars_of_withEquals? hs]
  · split
    · next s hs =>
      refine ⟨?_, ?_⟩ <;> simp [chars, chars_of_single? hs]
    · exact ⟨List.cons_ne_nil _ _, rfl⟩

private theorem isCut_takeWhile {p : Char → Bool} {segment : Segment}
    (h : segment.chars = c :: cs.takeWhile p) : IsCut (c :: cs) (segment, cs.dropWhile p) := by
  refine ⟨?_, ?_⟩
  · rw [h]
    exact List.cons_ne_nil _ _
  · rw [h, List.cons_append, List.takeWhile_append_dropWhile]

theorem isCut_cut (c : Char) (cs : List Char) : IsCut (c :: cs) (cut c cs) := by
  rw [cut]
  split
  · next h => exact ⟨List.cons_ne_nil _ _, by rw [h]; rfl⟩
  split
  · exact isCut_takeWhile rfl
  split
  · exact isCut_cutNumber c cs
  split
  · exact isCut_takeWhile rfl
  split
  · exact isCut_cutQuotation c cs
  split
  · next h => exact h ▸ isCut_cutSlash cs
  split
  · next h => exact h ▸ isCut_cutPoint cs
  · exact isCut_cutSymbol c cs

/-! ## All cuts -/

private theorem splitWithin_cons (bound : Nat) (c : Char) (cs : List Char) :
    splitWithin (bound + 1) (c :: cs) = (cut c cs).1 :: splitWithin bound (cut c cs).2 := rfl

private theorem splitWithin_eq_split {bound : Nat} {source : List Char}
    (h : source.length ≤ bound) : splitWithin bound source = split source := by
  suffices hall : ∀ n m (source : List Char), source.length ≤ n → source.length ≤ m →
      splitWithin n source = splitWithin m source from hall _ _ source h (Nat.le_refl _)
  intro n
  induction n with
  | zero =>
    intro m source hn _
    obtain rfl := List.length_eq_zero_iff.mp (Nat.le_zero.mp hn)
    cases m <;> rfl
  | succ n ih =>
    intro m source hn hm
    cases source with
    | nil => cases m <;> rfl
    | cons c cs =>
      obtain ⟨m, rfl⟩ : ∃ k, m = k + 1 := ⟨m - 1, by rw [List.length_cons] at hm; omega⟩
      have hlt := (isCut_cut c cs).length_lt
      rw [splitWithin_cons, splitWithin_cons, ih m _ (by omega) (by omega)]

theorem split_cons (c : Char) (cs : List Char) :
    split (c :: cs) = (cut c cs).1 :: split (cut c cs).2 := by
  have hlt := (isCut_cut c cs).length_lt
  rw [List.length_cons] at hlt
  rw [split, List.length_cons, splitWithin_cons, splitWithin_eq_split (by omega)]

/-- What holds of nothing, and holds of a source if it holds of what one cut leaves of it, holds of
every source. -/
theorem split_induction {motive : List Char → Prop} (nil : motive [])
    (cons : ∀ c cs, motive (cut c cs).2 → motive (c :: cs)) (source : List Char) :
    motive source := by
  induction hn : source.length using Nat.strongRecOn generalizing source with
  | ind n ih =>
    cases source with
    | nil => exact nil
    | cons c cs => exact cons c cs (ih _ (hn ▸ (isCut_cut c cs).length_lt) _ rfl)

/-- **Nothing is lost.** -/
theorem flatMap_chars_split (source : List Char) : (split source).flatMap chars = source := by
  induction source using split_induction with
  | nil => rfl
  | cons c cs ih => rw [split_cons, List.flatMap_cons, ih, (isCut_cut c cs).chars_append]

/-! ## White space behind a text -/

/-- White space: line breaks and blanks. -/
def IsWhite (c : Char) : Prop := c = '\n' ∨ isBlank c = true

/-- A kind of characters among which there is no white space. -/
theorem IsWhite.eq_false {b : Char} (hb : IsWhite b) {p : Char → Bool}
    (hp : ['\n', ' ', '\t', '\r', '\x0c'].any p = false) : p b = false := by
  rw [List.any_eq_false] at hp
  rw [← Bool.not_eq_true]
  rcases hb with rfl | hb
  · exact hp _ (by decide)
  · simp only [isBlank, Bool.or_eq_true, decide_eq_true_eq] at hb
    rcases hb with ((rfl | rfl) | rfl) | rfl <;> exact hp _ (by decide)

/-- Whether a segment asks for a mark that never came. -/
def isOpen : Segment → Bool
  | openQuotation _ _ | openComment _ => true
  | _ => false

/-- Whether a segment ends in front of a character of white space, whatever comes behind that.
Blanks and line comments go on across other blanks, and what is left open across everything. -/
def endsAt (b : Char) : Segment → Bool
  | openQuotation _ _ | openComment _ => false
  | blank _ | lineComment _ => b = '\n'
  | _ => true

private theorem isOpen_eq_false_of_endsAt {b : Char} {s : Segment} (h : s.endsAt b = true) :
    s.isOpen = false := by
  cases s with
  | openQuotation | openComment => cases h
  | _ => rfl

private theorem endsAt_break {s : Segment} (h : s.isOpen = false) : s.endsAt '\n' = true := by
  cases s with
  | openQuotation | openComment => cases h
  | _ => rfl

variable {b : Char}

private theorem takeWhile_append_cons {p : Char → Bool} (hp : p b = false) (cs t : List Char) :
    (cs ++ b :: t).takeWhile p = cs.takeWhile p := by
  induction cs with
  | nil => exact List.takeWhile_cons_of_neg (by simp [hp])
  | cons c cs ih =>
    rw [List.cons_append, List.takeWhile_cons, List.takeWhile_cons, ih]

private theorem dropWhile_append_cons {p : Char → Bool} (hp : p b = false) (cs t : List Char) :
    (cs ++ b :: t).dropWhile p = cs.dropWhile p ++ b :: t := by
  induction cs with
  | nil => exact List.dropWhile_cons_of_neg (by simp [hp])
  | cons c cs ih =>
    rw [List.cons_append, List.dropWhile_cons, List.dropWhile_cons, ih]
    split <;> rfl

private theorem cutFraction_append_white (hb : IsWhite b) (cs t : List Char) :
    cutFraction (cs ++ b :: t) = ((cutFraction cs).1, (cutFraction cs).2 ++ b :: t) := by
  have hdigit : b.isDigit = false := hb.eq_false rfl
  have hpoint : (b == '.') = false := hb.eq_false (p := (· == '.')) rfl
  fun_cases cutFraction cs with
  | case1 d cs hd =>
    rw [List.cons_append, List.cons_append, cutFraction, if_pos hd, takeWhile_append_cons hdigit,
      dropWhile_append_cons hdigit]
  | case2 d cs hd => rw [List.cons_append, List.cons_append, cutFraction, if_neg hd]
  | case3 cs hne =>
    -- a point alone in front of white space has no digit behind it
    obtain _ | ⟨c, _ | ⟨d, cs⟩⟩ := cs
    · rw [List.nil_append, cutFraction]
      rintro d cs heq
      rw [(List.cons.inj heq).1] at hpoint
      cases hpoint
    · rw [List.singleton_append, cutFraction.eq_def]
      split
      · next heq =>
        cases heq
        exact if_neg (Bool.eq_false_iff.mp hdigit)
      · rfl
    · rw [List.cons_append, List.cons_append, cutFraction]
      rintro d' cs' heq
      cases heq
      exact hne d cs rfl

private theorem cutNumber_append_white (hb : IsWhite b) (d : Char) (cs t : List Char) :
    cutNumber d (cs ++ b :: t) = ((cutNumber d cs).1, (cutNumber d cs).2 ++ b :: t) := by
  have hdigit : b.isDigit = false := hb.eq_false rfl
  rw [cutNumber, takeWhile_append_cons hdigit, dropWhile_append_cons hdigit,
    cutFraction_append_white hb]
  rfl

private theorem cutPoint_append_white (hb : IsWhite b) (cs t : List Char) :
    cutPoint (cs ++ b :: t) = ((cutPoint cs).1, (cutPoint cs).2 ++ b :: t) := by
  have hfraction := cutFraction_append_white hb ('.' :: cs) t
  rw [List.cons_append] at hfraction
  rw [cutPoint, cutPoint, hfraction]
  generalize cutFraction ('.' :: cs) = r
  obtain ⟨fraction, rest⟩ := r
  cases fraction <;> rfl

private theorem cutQuotation_append {quote : Char} (h : (cutQuotation quote cs).1.isOpen = false)
    (t : List Char) : cutQuotation quote (cs ++ t) =
      ((cutQuotation quote cs).1, (cutQuotation quote cs).2 ++ t) := by
  cases hdrop : cs.dropWhile (· != quote) with
  | nil =>
    rw [cutQuotation, hdrop] at h
    cases h
  | cons q rest =>
    have hlen := congrArg List.length
      (List.takeWhile_append_dropWhile (p := (· != quote)) (l := cs))
    rw [List.length_append, hdrop, List.length_cons] at hlen
    have htake : (cs ++ t).takeWhile (· != quote) = cs.takeWhile (· != quote) := by
      rw [List.takeWhile_append, if_neg (by omega)]
    have hdrop' : (cs ++ t).dropWhile (· != quote) = q :: rest ++ t := by
      rw [List.dropWhile_append, hdrop]
      rfl
    rw [cutQuotation, cutQuotation, htake, hdrop, hdrop']
    rfl

private theorem closeComment?_append {body rest : List Char}
    (h : closeComment? cs = some (body, rest)) (t : List Char) :
    closeComment? (cs ++ t) = some (body, rest ++ t) := by
  fun_induction closeComment? cs generalizing body rest with
  | case1 rest' =>
    cases h
    rfl
  | case2 c cs hne ih =>
    obtain ⟨⟨body', rest'⟩, h', heq⟩ := Option.map_eq_some_iff.mp h
    cases heq
    -- nothing closes a comment of which this is the last character
    obtain _ | ⟨d, cs⟩ := cs
    · cases h'
    · rw [List.cons_append, closeComment?, ih h']
      · rfl
      · rintro rest rfl heq
        cases heq
        exact hne cs rfl rfl
  | case3 => cases h

private theorem cutSlash_append_white (hb : IsWhite b) (h : (cutSlash cs).1.endsAt b = true)
    (t : List Char) : cutSlash (cs ++ b :: t) = ((cutSlash cs).1, (cutSlash cs).2 ++ b :: t) := by
  fun_cases cutSlash cs with
  | case1 cs =>
    obtain rfl : b = '\n' := of_decide_eq_true h
    rw [List.cons_append, cutSlash, takeWhile_append_cons rfl, dropWhile_append_cons rfl]
  | case2 cs body rest heq => rw [List.cons_append, cutSlash, closeComment?_append heq]
  | case3 cs heq =>
    simp only [cutSlash, heq] at h
    cases h
  | case4 cs hslash hstar =>
    have hne (c : Char) (hc : c = '/' ∨ c = '*') : b ≠ c := by
      rintro rfl
      rcases hc with rfl | rfl
      · cases hb.eq_false (p := (· == '/')) rfl
      · cases hb.eq_false (p := (· == '*')) rfl
    obtain _ | ⟨c, cs⟩ := cs
    · rw [List.nil_append, cutSlash]
      · rintro cs' heq
        exact hne '/' (.inl rfl) (List.cons.inj heq).1
      · rintro cs' heq
        exact hne '*' (.inr rfl) (List.cons.inj heq).1
    · rw [List.cons_append, cutSlash]
      · rintro cs' heq
        cases heq
        exact hslash cs rfl
      · rintro cs' heq
        cases heq
        exact hstar cs rfl

private theorem cutSymbol_append_white (hb : IsWhite b) (c : Char) (cs t : List Char) :
    cutSymbol c (cs ++ b :: t) = ((cutSymbol c cs).1, (cutSymbol c cs).2 ++ b :: t) := by
  -- white space is no equals sign, so it completes no symbol
  have hequals : (b == '=') = false := hb.eq_false (p := (· == '=')) rfl
  have hne (h : ∀ rest s, cs = '=' :: rest → Symbol.withEquals? c = some s → False) :
      ∀ rest s, cs ++ b :: t = '=' :: rest → Symbol.withEquals? c = some s → False := by
    intro rest s heq hs
    obtain _ | ⟨d, cs⟩ := cs
    · rw [(List.cons.inj heq).1] at hequals
      cases hequals
    · cases heq
      exact h cs s rfl hs
  fun_cases cutSymbol c cs with
  | case1 rest s hs => simp only [List.cons_append, cutSymbol, hs]
  | case2 _ s hs h =>
    rw [cutSymbol, hs]
    exact hne h
  | case3 _ hs h =>
    rw [cutSymbol, hs]
    exact hne h

/-- **One cut in front of white space.** A segment that does not go on across it ends where it would
end at the end of the source. -/
theorem cut_append_white (hb : IsWhite b) (h : (cut c cs).1.endsAt b = true) (t : List Char) :
    cut c (cs ++ b :: t) = ((cut c cs).1, (cut c cs).2 ++ b :: t) := by
  unfold cut at h ⊢
  split_ifs at h ⊢
  · rfl
  · obtain rfl : b = '\n' := of_decide_eq_true h
    rw [takeWhile_append_cons rfl, dropWhile_append_cons rfl]
  · exact cutNumber_append_white hb c cs t
  · have hpart : isWordPart b = false := hb.eq_false rfl
    rw [takeWhile_append_cons hpart, dropWhile_append_cons hpart]
  · exact cutQuotation_append (isOpen_eq_false_of_endsAt h) _
  · exact cutSlash_append_white hb h t
  · exact cutPoint_append_white hb cs t
  · exact cutSymbol_append_white hb c cs t

/-- **White space between two texts.** If no segment of the first goes on across it, the texts are
cut as if they stood alone. -/
theorem split_append_white (hb : IsWhite b) {source : List Char}
    (h : ∀ segment ∈ split source, segment.endsAt b = true) (t : List Char) :
    split (source ++ b :: t) = split source ++ split (b :: t) := by
  induction source using split_induction with
  | nil => rfl
  | cons c cs ih =>
    rw [split_cons, List.forall_mem_cons] at h
    rw [List.cons_append, split_cons, split_cons, cut_append_white hb h.1, ih h.2, List.cons_append]

/-- **A line break is a cut of its own**, between the cuts of the text in front of it, if that text
leaves nothing open, and those of the text behind it. -/
theorem split_append_break {source : List Char}
    (h : ∀ segment ∈ split source, segment.isOpen = false) (t : List Char) :
    split (source ++ '\n' :: t) = split source ++ newline :: split t := by
  rw [split_append_white (.inl rfl) (fun s hs ↦ endsAt_break (h s hs)), split_cons]
  rfl

end BlockScript.Segment
