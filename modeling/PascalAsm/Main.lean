import PascalAsm.CommandLine.Run

/-!
# The command line program

Reads the input, asks the command for its answer, and carries the answer out.
-/

namespace PascalAsm.CommandLine

/-- Prints what a run shows, and gives its exit code. -/
def Exit.print (e : Exit) : IO UInt32 := do
  IO.print e.stdout
  IO.eprint e.stderr
  return e.code.toUInt32

/-- The text of a file, if it can be read. -/
def readFile? (path : String) : IO (Option String) := do
  return (← (IO.FS.readFile path).toBaseIO).toOption

/-- Whether a file could be written. -/
def writeFile (path text : String) : IO Bool := do
  return (← (IO.FS.writeFile path text).toBaseIO).toOption.isSome

/-- Runs the program with some arguments. -/
def runProgram (args : List String) : IO UInt32 := do
  match Command.ofArgs args with
  | .error ending => ending.exit.print
  | .ok command =>
    match command.answer (← readFile? command.input) with
    | .ends exit => exit.print
    | .writes path text written =>
      if ← writeFile path text then written.print
      else (written.unwritten path).print

end PascalAsm.CommandLine

/-- The entry point. -/
def main (args : List String) : IO UInt32 := PascalAsm.CommandLine.runProgram args
