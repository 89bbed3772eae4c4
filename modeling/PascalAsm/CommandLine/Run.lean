import PascalAsm.Compile
import PascalAsm.CommandLine.Arguments
import PascalAsm.CommandLine.Directory
import PascalAsm.CommandLine.Path
import PascalAsm.Syntax.Read

/-!
# Running a command

A command is a function of the text of its input: `Command.answer` says what is printed, and what is
written where. Nothing is written before everything else has succeeded, so a run that fails leaves
all files as they were. `Directory.run` is a whole run inside a directory.
-/

namespace PascalAsm.CommandLine

/-! ### What a run shows -/

/-- The exit code of a run and what it prints, the log apart: that goes to the error stream too, with a
line for each coercion, and with lines for every step of the work if the command is verbose. -/
structure Exit where
  code : Nat := 0
  stdout : String := ""
  stderr : String := ""
deriving DecidableEq

/-- What a command makes of its input. A file is not written here but by whoever asked for the
answer. -/
inductive Answer where
  | ends (exit : Exit)
  /-- A file is to be written; `written` is the exit if that succeeds. -/
  | writes (path text : String) (written : Exit)
deriving DecidableEq

/-- The line for an error that ends a run. -/
def failureLine (message : String) : String := "Error: " ++ message ++ "\n"

namespace Exit

/-- The end of a run by an error, after something else was printed. -/
def failure (printed message : String) : Exit :=
  { code := 1, stderr := printed ++ failureLine message }

/-- The end of a run that could not write a file. -/
def unwritten (e : Exit) (path : String) : Exit := failure e.stderr ("Failed to write " ++ path)

end Exit

/-- A report as it is printed: every diagnostic on a line, and the summary unless there is none. An
empty report prints nothing, not even that there are no errors. -/
def printed (r : Report) : String :=
  if r.diagnostics = [] then ""
  else Assembly.unlines (r.diagnostics.map Diagnostic.text ++ [r.summary])

/-! ### Commands -/

namespace Command

/-- The name of the source file, as a tree knows it: the input with the extension of programs. -/
def source (c : Command) : String := (Path.stem? c.input).getD "input" ++ ".p"

/-- Whether the assembly is to name its statements. -/
def comments (c : Command) : Bool :=
  match c.action with
  | .compile _ comments => comments
  | .check => false

/-- How the input is to be compiled. -/
def options (c : Command) : Options :=
  { registers := c.registers, comments := c.comments, source := c.source }

/-- What a command does with a compiled program. `check` tells how many functions there are, and `compile`
prints its warnings only. -/
def complete (c : Command) (result : Compiled) : Answer :=
  let stderr := printed result.report
  match c.action with
  | .compile output _ =>
    -- the warnings are shown once the file is written, or before the error if it cannot be
    .writes (output.getD (Path.withExtension c.input "s")) result.assembly { stderr }
  | .check =>
    let count := toString result.unit.functions.length
    .ends { stdout := c.input ++ ": " ++ count ++ " functions, ok\n", stderr }

/-- What a command makes of the text of its input, if it could be read. -/
def answer (c : Command) : Option String → Answer
  | none => .ends (.failure "" ("Failed to read " ++ c.input))
  | some text =>
    match Program.read? text with
    | none => .ends (.failure "" ("Invalid syntax tree in " ++ c.input))
    | some program =>
      match program.compile c.options with
      | .ok result => c.complete result
      | .error e =>
        -- a report of its own: the warnings that were raised before the error are not in it
        let report := (CompileError.ofLowering c.source e).report
        .ends (.failure (printed report) ("Compilation of " ++ c.input ++ " failed"))

end Command

/-! ### Runs without a command -/

/-- The line that `--version` prints. -/
def versionLine : String := "gpc 0.1.0\n"

/-- The text that `--help` prints. -/
def helpText : String := Assembly.unlines [
  "Usage: gpc [-v] compile [-o FILE] [--registers N] [--comments] INPUT",
  "       gpc [-v] check [--registers N] INPUT"]

/-- The end of a run that has no command. Only wrong arguments are an error, with a code of their
own. -/
def Ending.exit : Ending → Exit
  | version => { stdout := versionLine }
  | help => { stdout := helpText }
  | misuse m => { code := 2, stderr := "error: " ++ m.message ++ "\n\n" ++ helpText }

/-- A whole run inside a directory: what it shows, and the directory afterwards. -/
def Directory.run (d : Directory) (args : List String) : Exit × Directory :=
  match Command.ofArgs args with
  | .error ending => (ending.exit, d)
  | .ok command =>
    match command.answer (d.read? command.input) with
    | .ends exit => (exit, d)
    | .writes path text written =>
      -- the only write of a run, when everything else has succeeded
      match d.write? path text with
      | some d => (written, d)
      | none => (written.unwritten path, d)

end PascalAsm.CommandLine
