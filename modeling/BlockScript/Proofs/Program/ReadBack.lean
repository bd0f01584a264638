import BlockScript.Proofs.Machine.Reading
import BlockScript.Proofs.Program.Streams
import BlockScript.Proofs.Stmt.Scopes

/-!
# Lines that are written and read back

Texts that are written on lines of their own are read back as they are, as long as none of them
looks like two lines or loses its end to the line end: a text may not have a line feed in it, and
may not end in a carriage return. An empty text is read back, too, since its line is not the end of
the input; that is reached only behind all lines, and then nil is read.

How the writing machine and the reading one are related does not matter: only the bytes are passed
on.
-/

namespace BlockScript

open Input Environment

namespace Exec

variable {m m' : Machine} {name : String} {level line : Nat} {rest : List UInt8}
  {texts names : List (String × Nat)}

/-- Writes texts, each on a line of its own and with the line that a fault is reported on. -/
def writeLines : List (String × Nat) → Exec Unit
  | [] => pure ()
  | (s, line) :: texts => do
    write (.text s) "\n" line
    writeLines texts

/-- Reads a line into each of some variables, and looks at its value at once: a later line may be
read into the same variable. -/
def readLines : List (String × Nat) → Exec (List Value)
  | [] => pure []
  | (name, line) :: names => do
    readLine name line
    let v ← (Eval.lookup name line : Exec Value)
    let vs ← readLines names
    return v :: vs

/-- The bytes of texts on lines of their own. -/
def lineBytes (texts : List (String × Nat)) : List UInt8 :=
  texts.flatMap fun t ↦ encode (t.1 ++ "\n")

/-! ## Writing -/

private theorem written_of_write {v : Value} {terminator : String}
    (h : write v terminator line m = .ok () m') :
    m'.output.written = m.output.written ++ (encode (v.display ++ terminator)).toByteArray := by
  obtain ⟨env, input, output⟩ := m
  have hemit := Output.ends_emit (v.display ++ terminator) output
  rw [write] at h
  rcases hrun : Output.emit (v.display ++ terminator) output with ⟨_, output'⟩ | ⟨fault, output'⟩
  · rw [hrun] at hemit h
    obtain ⟨-, hwritten, hfits⟩ | _ := hemit
    cases h
    rw [toByteArray_encode, ← Output.holding_of_fits hfits]
    exact hwritten
  · rw [hrun] at h
    cases h

/-- Writing lines adds their bytes behind what has been written before. -/
theorem written_of_writeLines (h : writeLines texts m = .ok () m') :
    m'.output.written = m.output.written ++ (lineBytes texts).toByteArray := by
  induction texts generalizing m with
  | nil =>
    cases h
    exact ByteArray.append_empty.symm
  | cons t texts ih =>
    obtain ⟨_, m₁, hwrite, hrest⟩ := bind_eq_ok_iff.mp h
    rw [ih hrest, written_of_write hwrite, ByteArray.append_assoc, ← List.toByteArray_append]
    rfl

/-- An output without a limit whose flushes do not fail takes everything. -/
theorem exists_writeLines (texts : List (String × Nat)) (hlimit : m.output.limit = none)
    (hflush : m.output.failingFlush = none) : ∃ m', writeLines texts m = .ok () m' := by
  induction texts generalizing m with
  | nil => exact ⟨m, rfl⟩
  | cons t texts ih =>
    obtain ⟨env, input, ⟨written, limit, flushes, failingFlush⟩⟩ := m
    cases hlimit
    cases hflush
    exact ih rfl rfl

/-! ## Reading -/

private theorem get?_setAt {env : Environment} (h : env.level? name = some level) (v : Value) :
    (env.setAt level name v).get? name = some v := by
  have hsame :=
    sameNames_of_assign? (assign?_eq_some_iff.mpr ⟨level, h, rfl⟩ : env.assign? name v = _)
  rw [get?_eq_bind, hsame.level?, h, Option.bind_some, valueAt_setAt (lt_depth_of_level? h),
    if_pos ⟨rfl, rfl⟩]

private theorem isSome_get?_setAt {env : Environment} (h : env.level? name = some level) (v : Value)
    (x : String) : ((env.setAt level name v).get? x).isSome = (env.get? x).isSome := by
  have hsame :=
    sameNames_of_assign? (assign?_eq_some_iff.mpr ⟨level, h, rfl⟩ : env.assign? name v = _)
  rw [Bool.eq_iff_iff, isSome_get?_iff, isSome_get?_iff]
  simp only [hsame.bindsAt]

private theorem lookup_of_get? {v : Value} (h : m.env.get? name = some v) (line : Nat) :
    (liftM (Eval.lookup name line) : Exec Value) m = .ok v m := by
  obtain ⟨env, input, output⟩ := m
  change ofEval (Eval.lookup name line) ⟨env, input, output⟩ = _
  rw [ofEval, Eval.lookup, h]

/-- One line is read into one variable, and the others are read afterwards. -/
theorem readLines_cons {text : Option String} {vs : List Value}
    (htake : takeLine line m = .ok text { m with input := rest })
    (hlevel : m.env.level? name = some level)
    (hrest : readLines names
      { m with env := m.env.setAt level name (text.elim .nil .text), input := rest } = .ok vs m') :
    readLines ((name, line) :: names) m = .ok (text.elim .nil .text :: vs) m' := by
  have hread : readLine name line m = .ok ()
      { m with env := m.env.setAt level name (text.elim .nil .text), input := rest } := by
    rw [readLine, bind_of_ok htake]
    exact assign_of_level? (m := { m with input := rest }) hlevel _ line
  rw [readLines, bind_of_ok hread, bind_of_ok (lookup_of_get? (get?_setAt hlevel _) line),
    bind_of_ok hrest]
  rfl

private theorem exists_level?_of_isSome {env : Environment} (h : (env.get? name).isSome = true) :
    ∃ level, env.level? name = some level := by
  obtain ⟨level, hlevel⟩ := isSome_get?_iff.mp h
  exact exists_level?_of_bindsAt hlevel

/-- **Lines are read back** as the texts that were written, and behind them there is nil. -/
theorem readLines_lineBytes
    (htexts : ∀ t ∈ texts, '\n' ∉ t.1.toList ∧ t.1.toList.getLast? ≠ some '\r')
    (hinput : m.input = lineBytes texts) (hlength : names.length = texts.length + 1)
    (hnames : ∀ x ∈ names, (m.env.get? x.1).isSome = true) :
    ∃ m', readLines names m = .ok (texts.map (fun t ↦ .text t.1) ++ [.nil]) m' ∧ m'.input = [] := by
  induction texts generalizing m names with
  | nil =>
    obtain ⟨⟨name, line⟩, rfl⟩ := List.length_eq_one_iff.mp hlength
    obtain ⟨level, hlevel⟩ := exists_level?_of_isSome (hnames _ List.mem_cons_self)
    have htake : takeLine line m = .ok none { m with input := [] } := by
      obtain ⟨env, input, output⟩ := m
      cases hinput
      rfl
    exact ⟨_, readLines_cons htake hlevel rfl, rfl⟩
  | cons t texts ih =>
    obtain ⟨⟨name, line⟩, names, rfl⟩ := List.exists_cons_of_length_eq_add_one hlength
    rw [List.forall_mem_cons] at htexts hnames
    obtain ⟨level, hlevel⟩ := exists_level?_of_isSome hnames.1
    have hne : t.1 ++ "\n" ≠ "" := by
      intro hempty
      have hnil := congrArg String.toList hempty
      rw [String.toList_append] at hnil
      exact List.append_ne_nil_of_right_ne_nil _ (List.cons_ne_nil '\n' []) hnil
    have htake :=
      takeLine_of_ending (.lineFeed (lineBytes texts)) htexts.1.1 htexts.1.2 hne line hinput
    -- the value of one variable has changed, but they are all still bound
    have hbound (x : String × Nat) (hx : x ∈ names) :
        ((m.env.setAt level name (.text t.1)).get? x.1).isSome = true :=
      (isSome_get?_setAt hlevel (.text t.1) x.1).trans (hnames.2 x hx)
    obtain ⟨m', hrest, hend⟩ :=
      ih (m := { m with env := m.env.setAt level name (.text t.1), input := lineBytes texts })
        htexts.2 rfl (Nat.succ.inj hlength) hbound
    exact ⟨m', readLines_cons htake hlevel hrest, hend⟩

/-- **Writing and reading lines undo each other**, and a reader that fails changes no variable.
Texts without a line feed that do not end in a carriage return can be written one after the other,
each on a line of its own; the bytes that this adds to the output, given as input to whatever
machine, are read back as these texts into variables that are bound, in order, and one reader more
reads nil.

On every machine a reader takes the first line, if there is one, whether or not it succeeds. If it
does, the variable that it reads into has changed where it is found, and nothing else has. If it
does not, all variables are as they were: the line was no text, or no number where one is read, or
there was no such variable. Where a number is read, the end of the input is none. -/
theorem lines_read_back :
    (∀ texts : List (String × Nat),
      (∀ t ∈ texts, '\n' ∉ t.1.toList ∧ t.1.toList.getLast? ≠ some '\r') →
      (∀ m : Machine, m.output.limit = none → m.output.failingFlush = none →
        ∃ m', writeLines texts m = .ok () m') ∧
      ∀ m m' : Machine, writeLines texts m = .ok () m' →
        ∃ bytes : List UInt8, m'.output.written = m.output.written ++ bytes.toByteArray ∧
          ∀ (reader : Machine) (names : List (String × Nat)), reader.input = bytes →
            names.length = texts.length + 1 →
            (∀ x ∈ names, (reader.env.get? x.1).isSome = true) →
            ∃ reader', readLines names reader =
              .ok (texts.map (fun t ↦ .text t.1) ++ [.nil]) reader' ∧ reader'.input = []) ∧
    ReadsAs (fun text ↦ some (text.elim .nil .text)) readLine ∧
    ReadsAs (fun text ↦ (Number.read? (Text.trim (text.getD "").toList)).map .number) readNumber ∧
    ∀ (m : Machine) (name : String) (line : Nat), m.input = [] →
      readNumber name line m = .error (.error ⟨.invalidNumberInput "", line⟩) m := by
  refine ⟨fun texts htexts ↦ ⟨fun m ↦ exists_writeLines texts, fun m m' h ↦ ?_⟩, ?_, ?_, ?_⟩
  · exact ⟨lineBytes texts, written_of_writeLines h, fun reader names ↦ readLines_lineBytes htexts⟩
  · rw [readLine_eq]
    exact readsAs_readAs _
  · rw [readNumber_eq]
    exact readsAs_readAs _
  · rintro ⟨env, input, output⟩ name line rfl
    rfl

/-- Two texts, the second of them empty, are read into one variable one after the other. There is no
number at the end of the input. -/
theorem lines_read_back_twice :
    (∀ t ∈ [("a\rb", 1), ("", 2)], '\n' ∉ t.1.toList ∧ t.1.toList.getLast? ≠ some '\r') ∧
      (∃ m', writeLines [("a\rb", 1), ("", 2)] {} = .ok () m' ∧
        ∃ bytes : List UInt8, m'.output.written = bytes.toByteArray ∧
          ∃ reader', readLines [("x", 1), ("x", 2), ("x", 3)]
            { env := Environment.initial.define "x" .nil, input := bytes } =
              .ok [.text "a\rb", .text "", .nil] reader' ∧ reader'.input = []) ∧
      readNumber "x" 1 {} = .error (.error ⟨.invalidNumberInput "", 1⟩) {} := by
  have htexts : ∀ t ∈ [("a\rb", 1), ("", 2)],
      '\n' ∉ t.1.toList ∧ t.1.toList.getLast? ≠ some '\r' := by decide
  have hnames : ∀ x ∈ [("x", 1), ("x", 2), ("x", 3)],
      ((Environment.initial.define "x" .nil).get? x.1).isSome = true := by decide
  obtain ⟨hsucceeds, hread⟩ := lines_read_back.1 [("a\rb", 1), ("", 2)] htexts
  refine ⟨htexts, ?_, lines_read_back.2.2.2 {} "x" 1 rfl⟩
  obtain ⟨m', hwrite⟩ := hsucceeds {} rfl rfl
  obtain ⟨bytes, hbytes, hback⟩ := hread {} m' hwrite
  refine ⟨m', hwrite, bytes, ?_, ?_⟩
  · rw [hbytes]
    exact ByteArray.empty_append
  · exact hback { env := Environment.initial.define "x" .nil, input := bytes }
      [("x", 1), ("x", 2), ("x", 3)] rfl rfl hnames

end Exec

end BlockScript
