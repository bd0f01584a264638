import BlockScript.Program.Run

/-!
# The command line

A process either runs one script or is an interactive shell. The shell takes its lines from the same
input that the programs on them read from. It shows its prompt before every line, reports errors and
goes on, until the input ends or a line is no text.
-/

namespace BlockScript

structure Transcript where
  stdout : ByteArray
  stderr : String
  exitCode : Nat

namespace Transcript

def ending (m : Machine) (stderr : String) (exitCode : Nat) : Transcript :=
  ⟨m.output.written, stderr, exitCode⟩

end Transcript

/-! ## Scripts -/

inductive ScriptFault where
  | missing
  | invalidText
  | refused (reason : String)

def ScriptFault.reason : ScriptFault → String
  | missing => "No such file or directory (os error 2)"
  | invalidText => StreamFault.invalidText.details
  | refused reason => reason

def exitUnreadable : Nat := 66

def decodeScript : Except ScriptFault ByteArray → Except ScriptFault String
  | .error fault => .error fault
  | .ok bytes => (String.fromUTF8? bytes).elim (.error .invalidText) .ok

variable [Memory]

def runScript (name : String) (content : Except ScriptFault ByteArray) (input : List UInt8) :
    Transcript :=
  match decodeScript content with
  | .error fault =>
    ⟨.empty, s!"Failed to read the script '{name}': {fault.reason}\n", exitUnreadable⟩
  | .ok source =>
    match run source { input } with
    | .ok _ m => .ending m "" 0
    | .error failure m => .ending m (failure.message ++ "\n") failure.exitCode

/-! ## The interactive shell -/

/-- Shows a text; the shell itself is not subject to limits on the output. -/
def Machine.print (m : Machine) (text : String) : Machine :=
  { m with output := { m.output with written := m.output.written ++ text.toUTF8 } }

def defaultPrompt : String := "> "

/-- The end of a shell: the prompt still waits, so the line is ended for it. -/
def shellEnd (m : Machine) (stderr : String) : Transcript := .ending (m.print "\n") stderr 0

/-- Goes on with at most `lines` lines. The reports so far are in `stderr`. -/
def shellWithin (fuel : Nat) (prompt : String) : Nat → String → Machine → Transcript
  | 0, stderr, m => shellEnd (m.print prompt) stderr
  | lines + 1, stderr, m =>
    let m := m.print prompt
    match Input.takeLine m.input with
    | .error fault input =>
      .ending { m with input }
        (stderr ++ s!"Error reading line from stdin: {fault.details}\n") 1
    | .ok none input => shellEnd { m with input } stderr
    | .ok (some line) input =>
      match runWithin fuel line { m with input } with
      | .ok _ m => shellWithin fuel prompt lines stderr m
      | .error failure m =>
        shellWithin fuel prompt lines (stderr ++ failure.message ++ "\n") m

/-- A shell on the given input. Every line has at least one byte, so there are at most as many lines
as bytes. -/
def runShell (prompt : String) (input : List UInt8) : Transcript :=
  shellWithin ampleFuel prompt input.length "" { input }

/-- A process has ample memory. -/
instance : Memory := Memory.ample

end BlockScript
