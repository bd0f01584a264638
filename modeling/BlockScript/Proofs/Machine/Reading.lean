import BlockScript.Machine
import BlockScript.Proofs.Environment
import BlockScript.Proofs.Input

/-!
# Lines of text and the variables they are read into

Input is bytes, and the readers of the language make texts of its lines. A byte that ends a line is
the encoding of a line feed and part of the encoding of no other character, so the lines of a text
are the lines of its bytes, and a text without a line feed comes back from a line as it is.

Both readers take a line first and then assign what they make of it, or refuse it. What they do to
the machine is therefore said once, for whatever is made of a line (`readsAs_readAs`): the line is
gone in any case, and the only variable that changes is the one that is assigned to.
-/

namespace BlockScript

namespace Input

variable {s ending : String} {line rest : List UInt8}

/-! ## The bytes of a text -/

/-- The bytes of a text. -/
def encode (s : String) : List UInt8 := s.toUTF8.data.toList

@[simp] theorem toByteArray_encode (s : String) : (encode s).toByteArray = s.toUTF8 := by
  apply ByteArray.ext
  rw [List.data_toByteArray, encode, Array.toArray_toList]

private theorem encode_append (s t : String) : encode (s ++ t) = encode s ++ encode t := by
  rw [encode, String.toUTF8_eq_toByteArray, String.toByteArray_append]
  exact ByteArray.toList_data_append

private theorem encode_eq_flatMap (s : String) :
    encode s = s.toList.flatMap String.utf8EncodeChar := by
  rw [encode, String.toUTF8_eq_toByteArray, ← String.utf8Encode_toList, List.utf8Encode]
  exact List.toList_data_toByteArray

private theorem encode_eq_nil_iff : encode s = [] ↔ s = "" := by
  rw [← String.toByteArray_inj, ← List.toByteArray_inj, toByteArray_encode]
  rfl

/-- A character is encoded by its number, or by bytes that are all at least 128. -/
theorem utf8EncodeChar_cases (c : Char) :
    (∀ b ∈ String.utf8EncodeChar c, b.toNat = c.val.toNat) ∨
      ∀ b ∈ String.utf8EncodeChar c, 128 ≤ b.toNat := by
  fun_cases String.utf8EncodeChar c
  all_goals simp only [List.forall_mem_cons, UInt8.toNat_ofNat']
  · exact .inl ⟨by omega, nofun⟩
  · exact .inr ⟨by omega, by omega, nofun⟩
  · exact .inr ⟨by omega, by omega, by omega, nofun⟩
  · exact .inr ⟨by omega, by omega, by omega, by omega, nofun⟩

private theorem ten_not_mem_utf8EncodeChar {c : Char} (h : c ≠ '\n') :
    10 ∉ String.utf8EncodeChar c := by
  intro hmem
  rcases utf8EncodeChar_cases c with hsmall | hlarge
  · exact h (Char.ext (UInt32.toNat_inj.mp (hsmall 10 hmem).symm))
  · exact absurd (hlarge 10 hmem) (by decide)

private theorem ten_not_mem_encode (h : '\n' ∉ s.toList) : 10 ∉ encode s := by
  rw [encode_eq_flatMap, List.mem_flatMap]
  rintro ⟨c, hc, hmem⟩
  exact ten_not_mem_utf8EncodeChar (fun heq ↦ h (heq ▸ hc)) hmem

/-! ## Lines that are texts -/

/-- There is one way to cut off a line. -/
theorem IsLine.cutLine_eq (h : IsLine line rest) : cutLine (line ++ rest) = (line, rest) := by
  have hkeep {body : List UInt8} (hbody : 10 ∉ body) : ∀ b ∈ body, (b != 10) = true := by
    intro b hb
    rw [bne_iff_ne]
    rintro rfl
    exact hbody hb
  rw [cutLine]
  cases h with
  | @ended body _ hbody =>
    rw [List.append_assoc, List.takeWhile_append_of_pos (hkeep hbody),
      List.dropWhile_append_of_pos (hkeep hbody), List.singleton_append,
      List.takeWhile_cons_of_neg (by decide), List.dropWhile_cons_of_neg (by decide),
      List.append_nil]
  | last hne hbody =>
    rw [List.takeWhile_append_of_pos (hkeep hbody), List.dropWhile_append_of_pos (hkeep hbody),
      List.takeWhile_nil, List.dropWhile_nil, List.append_nil]

/-- A line that is a text is taken as that text. -/
theorem IsLine.takeLine_eq (h : IsLine (encode s) rest) :
    takeLine (encode s ++ rest) = .ok (some s) rest := by
  have hne : encode s ++ rest ≠ [] := List.append_ne_nil_of_left_ne_nil h.ne_nil rest
  rw [takeLine_of_ne_nil hne, h.cutLine_eq]
  have hvalid : s.toUTF8.IsValidUTF8 := s.isValidUTF8
  dsimp only
  rw [toByteArray_encode, String.fromUTF8?, dif_pos hvalid]
  rfl

/-- How a line of text may end in front of the rest of the input: with a line feed, with a carriage
return and a line feed, or where the input ends. -/
inductive Ending : String → List UInt8 → Prop where
  | lineFeed (rest : List UInt8) : Ending "\n" rest
  | carriageReturn (rest : List UInt8) : Ending "\r\n" rest
  | endOfInput : Ending "" []

namespace Ending

theorem isLine (h : Ending ending rest) (hs : '\n' ∉ s.toList) (hne : s ++ ending ≠ "") :
    IsLine (encode (s ++ ending)) rest := by
  have hten := ten_not_mem_encode hs
  cases h with
  | lineFeed =>
    rw [encode_append]
    exact .ended hten
  | carriageReturn =>
    have hsplit : s ++ "\r\n" = s ++ "\r" ++ "\n" := by rw [String.append_assoc]; rfl
    rw [hsplit, encode_append]
    refine .ended ?_
    rw [encode_append]
    exact List.not_mem_append hten (by decide)
  | endOfInput =>
    rw [String.append_empty] at hne ⊢
    exact .last (encode_eq_nil_iff.not.mpr hne) hten

private theorem chomp_eq (h : Ending ending rest) (hs : '\n' ∉ s.toList)
    (hreturn : s.toList.getLast? ≠ some '\r') : chomp (s ++ ending).toList = s.toList := by
  rw [String.toList_append]
  rw [List.getLast?_eq_head?_reverse] at hreturn
  cases h with
  | lineFeed =>
    have hreverse : (s.toList ++ ['\n']).reverse = '\n' :: s.toList.reverse := List.reverse_concat
    change chomp (s.toList ++ ['\n']) = s.toList
    rw [chomp, hreverse]
    split
    · next heq =>
      rw [(List.cons.inj heq).2] at hreturn
      exact absurd rfl hreturn
    · next heq => rw [← (List.cons.inj heq).2, List.reverse_reverse]
    · next hnone => exact absurd rfl (hnone _)
  | carriageReturn =>
    change chomp (s.toList ++ ['\r', '\n']) = s.toList
    rw [chomp, List.reverse_append]
    exact List.reverse_reverse _
  | endOfInput =>
    change chomp (s.toList ++ []) = s.toList
    rw [List.append_nil, chomp]
    split
    · next heq => exact absurd (List.mem_reverse.mp (heq ▸ List.mem_cons_self)) hs
    · next heq => exact absurd (List.mem_reverse.mp (heq ▸ List.mem_cons_self)) hs
    · rfl

end Ending

end Input

open Input

namespace Exec

variable {m m' : Machine} {name s ending : String} {rest : List UInt8} {level : Nat}

/-! ## Taking a line -/

/-- The text on the first line of some bytes, without its line end, and what comes after the line;
there is no text where the bytes end. -/
inductive FirstText : List UInt8 → Option String → List UInt8 → Prop where
  | line {s : String} {rest : List UInt8} : IsLine (encode s) rest →
    FirstText (encode s ++ rest) (some (String.ofList (chomp s.toList))) rest
  | none : FirstText [] none []

/-- The first line is gone, and nothing else of the input; there need not be one. -/
def LineGone (before after : List UInt8) : Prop :=
  before = [] ∧ after = [] ∨ ∃ line, IsLine line after ∧ before = line ++ after

private theorem FirstText.lineGone {before after : List UInt8} {text : Option String}
    (h : FirstText before text after) : LineGone before after := by
  cases h with
  | line hline => exact .inr ⟨_, hline, rfl⟩
  | none => exact .inl ⟨rfl, rfl⟩

private theorem FirstText.not_garbled {before after : List UInt8} {text : Option String}
    (h : FirstText before text after) : ¬ Garbled before := by
  rintro ⟨line, rest, heq, hline, hgarbled⟩
  cases h with
  | @line s after hs =>
    have hcut := hs.cutLine_eq
    rw [heq, hline.cutLine_eq] at hcut
    obtain ⟨rfl, -⟩ := Prod.mk.inj hcut
    exact hgarbled s (toByteArray_encode s).symm
  | none => exact hline.ne_nil (List.append_eq_nil_iff.mp heq.symm).1

/-- A line is taken as the text that it is, or found to be none; it is gone in both cases. -/
theorem ends_takeLine (line : Nat) (m : Machine) :
    Ends (fun text m' ↦ ∃ rest, m' = { m with input := rest } ∧ FirstText m.input text rest)
      (fun stop m' ↦ stop = .error ⟨.inputFailure .invalidText, line⟩ ∧ Garbled m.input ∧
        ∃ rest, m' = { m with input := rest } ∧ LineGone m.input rest)
      (takeLine line m) := by
  obtain ⟨env, input, output⟩ := m
  rw [takeLine]
  by_cases hinput : input = []
  · subst hinput
    exact .ok ⟨[], rfl, .none⟩
  rcases takeLine_cases hinput with ⟨bytes, rest, text, rfl, hline, htext, htake⟩ |
    ⟨hgarbled, rest, htake⟩
  · have hbytes : bytes = encode text := by
      rw [← List.toByteArray_inj, toByteArray_encode, htext]
    rw [htake]
    subst hbytes
    exact .ok ⟨rest, rfl, .line hline⟩
  · have hgone : LineGone input rest := by
      obtain ⟨hline, hsplit⟩ := cutLine_of_ne_nil hinput
      rw [takeLine_of_ne_nil hinput] at htake
      split at htake
      · cases htake
      · cases htake
        exact .inr ⟨_, hline, hsplit⟩
    rw [htake]
    exact .error ⟨rfl, hgarbled, rest, rfl, hgone⟩

/-- A text on a line of its own is taken as it is. -/
theorem takeLine_of_ending (h : Ending ending rest) (hs : '\n' ∉ s.toList)
    (hreturn : s.toList.getLast? ≠ some '\r') (hne : s ++ ending ≠ "") (line : Nat)
    (hinput : m.input = encode (s ++ ending) ++ rest) :
    takeLine line m = .ok (some s) { m with input := rest } := by
  obtain ⟨env, input, output⟩ := m
  subst hinput
  rw [takeLine, (h.isLine hs hne).takeLine_eq]
  dsimp only
  rw [Option.map_some, h.chomp_eq hs hreturn, String.ofList_toList]

/-! ## Assigning what has been read -/

theorem assign_of_level? (h : m.env.level? name = some level) (v : Value) (line : Nat) :
    (liftM (Eval.assign name v line) : Exec Unit) m =
      .ok () { m with env := m.env.setAt level name v } := by
  obtain ⟨env, input, output⟩ := m
  change ofEval (Eval.assign name v line) ⟨env, input, output⟩ = _
  rw [ofEval, Eval.assign, Environment.assign?_eq_map, h]
  rfl

private theorem assign_of_level?_eq_none (h : m.env.level? name = none) (v : Value) (line : Nat) :
    (liftM (Eval.assign name v line) : Exec Unit) m =
      .error (.error ⟨.undefinedVariable name, line⟩) m := by
  obtain ⟨env, input, output⟩ := m
  change ofEval (Eval.assign name v line) ⟨env, input, output⟩ = _
  rw [ofEval, Eval.assign, Environment.assign?_eq_map, h]
  rfl

/-! ## What a reader does -/

/-- A name has a new value on the level where it is found, and nothing else has changed. -/
structure AssignedAt (level : Nat) (name : String) (v : Value) (env env' : Environment) : Prop where
  /-- The innermost scope that binds the name is at that level. -/
  found : env.level? name = some level
  depth : env'.depth = env.depth
  /-- All bindings of all scopes but one are the same. -/
  valueAt (l : Nat) (x : String) :
    env'.valueAt l x = if l = level ∧ x = name then some v else env.valueAt l x

private theorem assignedAt_setAt {env : Environment} (h : env.level? name = some level)
    (v : Value) : AssignedAt level name v env (env.setAt level name v) :=
  ⟨h, Environment.depth_setAt,
    fun _ _ ↦ Environment.valueAt_setAt (Environment.lt_depth_of_level? h)⟩

/-- A reader takes a line, makes a value of its text, and assigns it. It stops at a line that is no
text, at a text of which it can make no value, and at a name that is not bound. Either way the line
is gone, but only if it does not stop is there a variable that has changed. -/
def ReadsAs (value? : Option String → Option Value) (read : String → Nat → Exec Unit) : Prop :=
  ∀ name line m, Ends
    (fun _ m' ↦ LineGone m.input m'.input ∧ m'.output = m.output ∧ ¬ Garbled m.input ∧
      ∃ text v level, FirstText m.input text m'.input ∧ value? text = some v ∧
        AssignedAt level name v m.env m'.env)
    (fun stop m' ↦ LineGone m.input m'.input ∧ m'.output = m.output ∧ m'.env = m.env ∧
      (stop = .error ⟨.inputFailure .invalidText, line⟩ ∧ Garbled m.input ∨
        (∃ text, FirstText m.input text m'.input ∧ value? text = none ∧
          stop = .error ⟨.invalidNumberInput (text.getD ""), line⟩) ∨
        stop = .error ⟨.undefinedVariable name, line⟩ ∧ m.env.level? name = none))
    (read name line m)

/-- Takes a line and assigns the value that is made of it. -/
def readAs (value? : Option String → Option Value) (name : String) (line : Nat) : Exec Unit := do
  let text ← takeLine line
  match value? text with
  | some v => Eval.assign name v line
  | none => throw (.error ⟨.invalidNumberInput (text.getD ""), line⟩)

theorem readLine_eq : readLine = readAs fun text ↦ some (text.elim .nil .text) := rfl

/-- The end of the input is read as the empty text, which is no number. -/
theorem readNumber_eq :
    readNumber = readAs fun text ↦
      (Number.read? (Text.trim (text.getD "").toList)).map .number := by
  funext name line
  refine congrArg (takeLine line >>= ·) (funext fun text ↦ ?_)
  dsimp only
  rcases Number.read? (Text.trim (text.getD "").toList) with _ | x
  · rfl
  · rfl

theorem readsAs_readAs (value? : Option String → Option Value) :
    ReadsAs value? (readAs value?) := by
  intro name line m
  have htake := ends_takeLine line m
  rcases hrun : takeLine line m with ⟨text, m₁⟩ | ⟨stop, m₁⟩
  · rw [hrun] at htake
    obtain ⟨rest, rfl, hfirst⟩ | _ := htake
    rw [readAs, bind_of_ok hrun]
    rcases hvalue : value? text with _ | v
    · exact .error ⟨hfirst.lineGone, rfl, rfl, .inr (.inl ⟨text, hfirst, hvalue, rfl⟩)⟩
    · rcases hlevel : m.env.level? name with _ | level
      · dsimp only
        rw [assign_of_level?_eq_none (m := { m with input := rest }) hlevel]
        exact .error ⟨hfirst.lineGone, rfl, rfl, .inr (.inr ⟨rfl, rfl⟩)⟩
      · dsimp only
        rw [assign_of_level? (m := { m with input := rest }) hlevel]
        exact .ok ⟨hfirst.lineGone, rfl, hfirst.not_garbled, text, v, level, hfirst, hvalue,
          assignedAt_setAt hlevel v⟩
  · rw [hrun] at htake
    obtain _ | ⟨hstop, hgarbled, rest, rfl, hgone⟩ := htake
    rw [readAs, bind_of_error hrun]
    exact .error ⟨hgone, rfl, rfl, .inl ⟨hstop, hgarbled⟩⟩

end Exec

end BlockScript
