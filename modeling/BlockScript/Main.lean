import BlockScript.Shell

/-!
# The executable

The only module with effects: it collects the arguments, the script and the input, and prints what
the process leaves behind. Standard input is read to its end before anything runs.
-/

namespace BlockScript

structure Options where
  prompt : String := defaultPrompt
  /-- The script to run; without one there is a shell. -/
  script : Option String := none

/-- Reads the arguments, at most one of which is a script. -/
def Options.ofArgs? : List String → Options → Option Options
  | [], options => some options
  | "-p" :: prompt :: rest, options => ofArgs? rest { options with prompt }
  | "--prompt" :: prompt :: rest, options => ofArgs? rest { options with prompt }
  | name :: rest, options =>
    match options.script with
    | none => ofArgs? rest { options with script := some name }
    | some _ => none

partial def readToEnd (stream : IO.FS.Stream) (sofar : ByteArray) : IO ByteArray := do
  let chunk ← stream.read 65536
  if chunk.isEmpty then return sofar else readToEnd stream (sofar ++ chunk)

def readScript (name : String) : IO (Except ScriptFault ByteArray) := do
  try
    return .ok (← IO.FS.readBinFile name)
  catch
    | .noFileOrDirectory .. => return .error .missing
    | e => return .error (.refused (toString e))

def Transcript.print (t : Transcript) : IO UInt32 := do
  let stdout ← IO.getStdout
  stdout.write t.stdout
  stdout.flush
  IO.eprint t.stderr
  return t.exitCode.toUInt32

end BlockScript

open BlockScript in
def main (args : List String) : IO UInt32 := do
  match Options.ofArgs? args {} with
  | none =>
    IO.eprintln "usage: [--prompt PROMPT] [SCRIPT]"
    return 2
  | some options =>
    let input := (← readToEnd (← IO.getStdin) .empty).toList
    match options.script with
    | some name => (runScript name (← readScript name) input).print
    | none => (runShell options.prompt input).print
