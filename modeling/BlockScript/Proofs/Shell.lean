import BlockScript.Proofs.Program.Streams
import BlockScript.Proofs.Stmt.Scopes
import BlockScript.Shell

/-!
# Sessions of the interactive shell

The shell and the programs it runs take lines from one input, and which of them takes the next line
is decided by the program that is running. A session is therefore told turn by turn: a turn is a
line that the shell takes, together with the lines that the run of it takes, and the next turn
begins on the machine that the run has left, whether or not it has failed.

`Session` puts turns in a sequence. What they have taken is then a list of whole lines from the
front of the input (`Session.linesFrom`), and what they have written is known from the statements
that were executed (`Session.output`). It remains to be shown that the shell does nothing but have a
session and say how it ended (`exists_session`).
-/

namespace BlockScript

open Input (IsLine LinesFrom)

variable [Memory]

/-! ## Turns -/

/-- A line that the shell has taken, and the run of it. -/
structure Turn where
  /-- The line as it stands in the input. -/
  line : List UInt8
  /-- The line as a text. -/
  source : String
  /-- The machine on which it is run. -/
  machine : Machine
  /-- The lines that are read while it runs. -/
  read : List (List UInt8)

namespace Turn

/-- All lines that a turn takes, in the order in which it takes them. -/
def lines (t : Turn) : List (List UInt8) := t.line :: t.read

/-- The statements that are executed. -/
def visits (fuel : Nat) (t : Turn) : List Visit := runVisits fuel t.source t.machine

/-- What is written while the line runs. -/
def text (fuel : Nat) (t : Turn) : String := Visit.texts (t.visits fuel)

/-- What is reported about the run: its error if it fails, and nothing otherwise. -/
def report (fuel : Nat) (t : Turn) : String :=
  match runWithin fuel t.source t.machine with
  | .ok _ _ => ""
  | .error failure _ => failure.message ++ "\n"

/-- The machine that the run leaves behind, however it ends. -/
def after (fuel : Nat) (t : Turn) : Machine := stateAfter (runWithin fuel t.source t.machine)

/-- A turn begins on a machine: the prompt is shown, and the first line is taken from the input. -/
structure BeginsOn (fuel : Nat) (prompt : String) (m : Machine) (t : Turn) : Prop where
  /-- The line is at the front of the input. -/
  input : m.input = t.line ++ t.machine.input
  /-- It is a whole line. -/
  isLine : IsLine t.line t.machine.input
  /-- It is the source. -/
  source : t.source.toUTF8 = t.line.toByteArray
  /-- Variables and output are those of the machine, but for the prompt. -/
  machine : t.machine = { m.print prompt with input := t.machine.input }
  /-- The run takes whole lines from what is left. -/
  read : LinesFrom t.machine.input t.read (t.after fuel).input
  /-- Each of them is taken by a statement that reads. -/
  reads : t.read.length ≤ Visit.reads (t.visits fuel)

variable {fuel : Nat} {prompt : String} {m : Machine} {t : Turn}

theorem exchanged (fuel : Nat) (t : Turn) :
    Exchanged (Visit.reads (t.visits fuel)) (t.text fuel) t.machine (t.after fuel) :=
  exchanged_runWithin fuel t.source t.machine

namespace BeginsOn

private theorem linesFrom (h : BeginsOn fuel prompt m t) :
    LinesFrom m.input t.lines (t.after fuel).input := by
  rw [h.input]
  exact .cons h.isLine h.read

/-- Something is taken in every turn. -/
theorem length_input_lt (h : BeginsOn fuel prompt m t) :
    (t.after fuel).input.length < m.input.length := by
  have hline := List.length_pos_iff.mpr h.isLine.ne_nil
  have hread := congrArg List.length h.read.eq_flatten_append
  rw [List.length_append] at hread
  rw [h.input, List.length_append]
  omega

theorem output (h : BeginsOn fuel prompt m t) (hlimit : m.output.limit = none) :
    (t.after fuel).output.limit = none ∧ (t.after fuel).output.written =
      m.output.written ++ (prompt ++ t.text fuel).toUTF8 := by
  have hmachine : t.machine.output = (m.print prompt).output := by rw [h.machine]
  have hnone : t.machine.output.limit = none := hmachine ▸ hlimit
  have hrun := t.exchanged fuel
  refine ⟨hrun.limit.trans hnone, hrun.written.trans ?_⟩
  rw [Output.holding, hnone, hmachine, Output.toUTF8_append, ← ByteArray.append_assoc]
  rfl

theorem depth (h : BeginsOn fuel prompt m t) :
    t.machine.env.depth = m.env.depth ∧ (t.after fuel).env.depth = m.env.depth := by
  have hdepth : t.machine.env.depth = m.env.depth := by
    rw [h.machine]
    rfl
  exact ⟨hdepth, (depth_runWithin fuel t.source t.machine).trans hdepth⟩

end BeginsOn

end Turn

/-! ## Sessions -/

/-- Turns, each of which begins on the machine that the one in front of it has left. -/
inductive Session (fuel : Nat) (prompt : String) : Machine → List Turn → Machine → Prop where
  | nil (m : Machine) : Session fuel prompt m [] m
  | cons {m last : Machine} {t : Turn} {turns : List Turn} :
    t.BeginsOn fuel prompt m → Session fuel prompt (t.after fuel) turns last →
    Session fuel prompt m (t :: turns) last

namespace Session

variable {fuel : Nat} {prompt : String} {m last : Machine} {turns : List Turn}

/-- What is shown in some turns. -/
def shown (fuel : Nat) (prompt : String) (turns : List Turn) : String :=
  String.join (turns.map fun t ↦ prompt ++ t.text fuel)

/-- What is reported about some turns. -/
def reports (fuel : Nat) (turns : List Turn) : String := String.join (turns.map (·.report fuel))

private theorem shown_cons (t : Turn) (turns : List Turn) :
    shown fuel prompt (t :: turns) = prompt ++ t.text fuel ++ shown fuel prompt turns := by
  rw [shown, List.map_cons, String.join_cons]
  rfl

private theorem reports_nil : reports fuel [] = "" := rfl

private theorem reports_cons (t : Turn) (turns : List Turn) :
    reports fuel (t :: turns) = t.report fuel ++ reports fuel turns := by
  rw [reports, List.map_cons, String.join_cons]
  rfl

/-- **No line is lost**, and none is taken twice. -/
theorem linesFrom (h : Session fuel prompt m turns last) :
    LinesFrom m.input (turns.flatMap Turn.lines) last.input := by
  induction h with
  | nil m => exact .nil m.input
  | cons hturn _ ih =>
    rw [List.flatMap_cons]
    exact hturn.linesFrom.append ih

theorem output (h : Session fuel prompt m turns last) (hlimit : m.output.limit = none) :
    last.output.written = m.output.written ++ (shown fuel prompt turns).toUTF8 := by
  induction h with
  | nil m => exact ByteArray.append_empty.symm
  | cons hturn _ ih =>
    obtain ⟨hafter, hwritten⟩ := hturn.output hlimit
    rw [ih hafter, hwritten, shown_cons, Output.toUTF8_append _ (shown fuel prompt _),
      ByteArray.append_assoc]

theorem depth (h : Session fuel prompt m turns last) :
    ∀ t ∈ turns, t.machine.env.depth = m.env.depth ∧ (t.after fuel).env.depth = m.env.depth := by
  induction h with
  | nil m => exact nofun
  | cons hturn _ ih =>
    rw [List.forall_mem_cons]
    refine ⟨hturn.depth, fun t ht ↦ ?_⟩
    rw [← hturn.depth.2]
    exact ih t ht

end Session

/-! ## The shell -/

section

variable {fuel : Nat} {prompt : String} {stderr : String} {m : Machine}

/-- Where the input ends, so does the shell. -/
theorem shellWithin_of_nil (h : m.input = []) (lines : Nat) :
    shellWithin fuel prompt lines stderr m = shellEnd (m.print prompt) stderr := by
  obtain ⟨env, input, output⟩ := m
  obtain rfl : input = [] := h
  rcases lines with _ | lines
  · rfl
  · rfl

private theorem shellWithin_of_error {rest : List UInt8}
    (h : Input.takeLine m.input = .error .invalidText rest) (lines : Nat) :
    shellWithin fuel prompt (lines + 1) stderr m = .ending (m.print prompt)
      (stderr ++ "Error reading line from stdin: stream did not contain valid UTF-8\n") 1 := by
  have htake : Input.takeLine (m.print prompt).input = .error .invalidText rest := h
  rw [shellWithin, htake]
  rfl

/-- A run that fails is reported, and the shell goes on after it as after any other. -/
theorem shellWithin_of_ok {t : Turn} (hturn : t.BeginsOn fuel prompt m)
    (h : Input.takeLine m.input = .ok (some t.source) t.machine.input) (lines : Nat) :
    shellWithin fuel prompt (lines + 1) stderr m =
      shellWithin fuel prompt lines (stderr ++ t.report fuel) (t.after fuel) := by
  have htake : Input.takeLine (m.print prompt).input = .ok (some t.source) t.machine.input := h
  rw [shellWithin, htake]
  dsimp only
  rw [← hturn.machine, Turn.report, Turn.after]
  rcases runWithin fuel t.source t.machine with ⟨_, m'⟩ | ⟨failure, m'⟩
  · rw [String.append_empty]
    rfl
  · rw [← String.append_assoc]
    rfl

private theorem exists_turn (fuel : Nat) (prompt : String) {line rest : List UInt8} {text : String}
    (hinput : m.input = line ++ rest) (hline : IsLine line rest)
    (htext : text.toUTF8 = line.toByteArray) :
    ∃ t : Turn, t.BeginsOn fuel prompt m ∧ t.source = text ∧ t.machine.input = rest := by
  have hrun := exchanged_runWithin fuel text { m.print prompt with input := rest }
  obtain ⟨read, hread, hreads, -⟩ := hrun.input
  exact ⟨⟨line, text, { m.print prompt with input := rest }, read⟩,
    ⟨hinput, hline, htext, rfl, hread, hreads⟩, rfl, rfl⟩

/-- **The shell has a session** and says how it ended. -/
theorem exists_session (fuel : Nat) (prompt : String) (lines : Nat) (stderr : String) (m : Machine)
    (hlines : m.input.length ≤ lines) :
    ∃ turns last, Session fuel prompt m turns last ∧
      (last.input = [] ∧ shellWithin fuel prompt lines stderr m =
        shellEnd (last.print prompt) (stderr ++ Session.reports fuel turns) ∨
      Input.Garbled last.input ∧ shellWithin fuel prompt lines stderr m =
        .ending (last.print prompt) (stderr ++ Session.reports fuel turns ++
          "Error reading line from stdin: stream did not contain valid UTF-8\n") 1) := by
  -- every turn takes a line, so there is one less to be taken after it
  induction lines generalizing stderr m with
  | zero =>
    have hnil : m.input = [] := List.length_eq_zero_iff.mp (Nat.le_zero.mp hlines)
    refine ⟨[], m, .nil m, .inl ⟨hnil, ?_⟩⟩
    rw [Session.reports_nil, String.append_empty, shellWithin_of_nil hnil]
  | succ lines ih =>
    by_cases hnil : m.input = []
    · refine ⟨[], m, .nil m, .inl ⟨hnil, ?_⟩⟩
      rw [Session.reports_nil, String.append_empty, shellWithin_of_nil hnil]
    obtain ⟨line, rest, text, hinput, hline, htext, htake⟩ | ⟨hgarbled, rest, htake⟩ :=
      Input.takeLine_cases hnil
    · obtain ⟨t, hturn, rfl, rfl⟩ := exists_turn fuel prompt hinput hline htext
      have hlength := hturn.length_input_lt
      obtain ⟨turns, last, hsession, hend⟩ :=
        ih (stderr ++ t.report fuel) (t.after fuel) (by omega)
      rw [String.append_assoc, ← Session.reports_cons] at hend
      refine ⟨t :: turns, last, .cons hturn hsession, ?_⟩
      rwa [shellWithin_of_ok hturn htake]
    · refine ⟨[], m, .nil m, .inr ⟨hgarbled, ?_⟩⟩
      rw [Session.reports_nil, String.append_empty, shellWithin_of_error htake]

end

/-- **The shell shares its input with the programs it runs, and no line is lost.** What has been
taken from the input are whole lines from its front, each by the shell as a source or by a statement
that reads in the run of a source; all of them, if the shell ends with the input. It has shown the
prompt and what was written, turn by turn, and then the prompt once more, and it has reported each
run that failed. The variables of one run are those of the next, and no scope is open between them.
The shell ends with the input, or before a line that is no text. With ample fuel this is
`runShell`. -/
theorem shell_loses_no_line (fuel : Nat) (prompt : String) (input : List UInt8) :
    ∃ turns last, Session fuel prompt { input } turns last ∧
      LinesFrom input (turns.flatMap Turn.lines) last.input ∧
      (∀ t ∈ turns, t.machine.env.isGlobal = true ∧ (t.after fuel).env.isGlobal = true) ∧
      (last.input = [] ∧ shellWithin fuel prompt input.length "" { input } =
        ⟨(Session.shown fuel prompt turns ++ prompt ++ "\n").toUTF8,
          Session.reports fuel turns, 0⟩ ∨
      Input.Garbled last.input ∧ shellWithin fuel prompt input.length "" { input } =
        ⟨(Session.shown fuel prompt turns ++ prompt).toUTF8, Session.reports fuel turns ++
          "Error reading line from stdin: stream did not contain valid UTF-8\n", 1⟩) := by
  obtain ⟨turns, last, hsession, hend⟩ :=
    exists_session fuel prompt input.length "" { input } (Nat.le_refl _)
  have hwritten : last.output.written = (Session.shown fuel prompt turns).toUTF8 :=
    (hsession.output rfl).trans ByteArray.empty_append
  refine ⟨turns, last, hsession, hsession.linesFrom, fun t ht ↦ ?_, ?_⟩
  · obtain ⟨hbefore, hafter⟩ := hsession.depth t ht
    exact ⟨beq_iff_eq.mpr hbefore, beq_iff_eq.mpr hafter⟩
  · rw [String.empty_append] at hend
    rcases hend with ⟨hnil, hshell⟩ | ⟨hgarbled, hshell⟩
    · refine .inl ⟨hnil, hshell.trans ?_⟩
      rw [Output.toUTF8_append, Output.toUTF8_append, ← hwritten]
      rfl
    · refine .inr ⟨hgarbled, hshell.trans ?_⟩
      rw [Output.toUTF8_append, ← hwritten]
      rfl

end BlockScript
