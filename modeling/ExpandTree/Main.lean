import ExpandTree.CommandLine

/-!
The program: it reads standard input when no tree is given, and writes what the run leaves behind.
-/
namespace ExpandTree.CommandLine

partial def readAll (stream : IO.FS.Stream) (read : ByteArray) : IO ByteArray := do
  let chunk ← stream.read 65536
  if chunk.isEmpty then return read else readAll stream (read ++ chunk)

def needsInput : Except Stop Invocation → Bool
  | .ok invocation => invocation.tree.isNone
  | .error _ => false

/-- One run on the standard streams. A terminal counts as empty input. -/
def runHere (args : List String) : IO UInt32 := do
  let stdin ← IO.getStdin
  let input ←
    if needsInput (parse args) && !(← stdin.isTty) then readAll stdin ByteArray.empty
    else pure ByteArray.empty
  let outcome := run args input
  IO.print outcome.stdout
  IO.eprint outcome.stderr
  return outcome.code.toUInt32

end ExpandTree.CommandLine

def main (args : List String) : IO UInt32 := ExpandTree.CommandLine.runHere args
