import SoftTier.CommandLine

/-!
# The program

Reads the file that the arguments name, if any, runs, and prints.
-/

namespace SoftTier.CommandLine

/-- The content of a file, if there is such a file. -/
def readFile? (path : String) : IO (Option ByteArray) := do
  try
    return some (← IO.FS.readBinFile path)
  catch _ =>
    return none

/-- Does what the arguments ask for; gives the exit code. -/
def runProgram (args : List String) : IO UInt32 := do
  let content ←
    match Invocation.ofArgs args with
    | .run { config := some path, .. } => readFile? path
    | _ => pure none
  let conclusion := execute (fun _ => content) args
  for line in conclusion.log do
    IO.println line
  IO.print conclusion.output
  if let some error := conclusion.error then
    IO.eprintln error
  return conclusion.exitCode.toUInt32

end SoftTier.CommandLine

/-- The program. -/
def main (args : List String) : IO UInt32 := SoftTier.CommandLine.runProgram args
