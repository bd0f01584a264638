import BlockScript.RuntimeError

/-!
# Output

Output collects bytes. It may be able to take only so many of them, and one of its flushes may fail;
a program sees both as faults. A write that does not fit leaves what fits.
-/

namespace BlockScript

/-- What has been written, and how the output will fail, if it does. -/
structure Output where
  written : ByteArray := .empty
  /-- Number of bytes that can be written in all. -/
  limit : Option Nat := none
  flushes : Nat := 0
  /-- The flush that will fail, counted from one. -/
  failingFlush : Option Nat := none

namespace Output

/-- Writes bytes as far as there is room for them. -/
def write (bytes : ByteArray) : EStateM StreamFault Output Unit := fun out ↦
  match out.limit with
  | none => .ok () { out with written := out.written ++ bytes }
  | some limit =>
    let room := limit - out.written.size
    if bytes.size ≤ room then .ok () { out with written := out.written ++ bytes }
    else .error .incompleteWrite { out with written := out.written ++ bytes.extract 0 room }

def flush : EStateM StreamFault Output Unit := fun out ↦
  let flushes := out.flushes + 1
  if out.failingFlush = some flushes then .error .flush { out with flushes }
  else .ok () { out with flushes }

def emit (text : String) : EStateM StreamFault Output Unit := do
  write text.toUTF8
  flush

end Output

end BlockScript
