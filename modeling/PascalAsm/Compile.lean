import PascalAsm.Lowering.Routine

/-!
# Compiling a program

From a syntax tree to the text of an assembly file: `Program.compile`. The text is made only once
every function is complete, so a failure leaves nothing half done.
-/

namespace PascalAsm

open Lowering

/-- What a compilation can be asked for. -/
structure Options where
  /-- The size of the register pool: two or three. -/
  registers : Nat := 3
  /-- Whether the code names the statement that each part comes from. -/
  comments : Bool := false
  /-- The source file, as the assembly text and the diagnostics name it. -/
  source : String := "<input>"
deriving DecidableEq

/-- What a compilation gives. The unit is what the text was made from. -/
structure Compiled where
  unit : Assembly.Program
  /-- The text of the unit. -/
  assembly : String
  /-- The warnings. -/
  report : Report

/-- The outcome of the code generator on a program, whatever it is. It is the outcome and not only
the result, since a failing one has warnings, too. -/
def Program.generate (p : Program) (comments : Bool) (s : State) : Outcome Unit :=
  (p.lower comments).run s

/-- Compiles a program. Its errors are those of the generator, of the check at its end, and of
rendering. -/
def Program.compile (p : Program) (options : Options) : Except LoweringError Compiled := do
  let start ← State.initial options.registers
  let outcome := p.generate options.comments start
  outcome.result
  -- a generator that lost count of scopes or registers gives no text
  outcome.state.checkDone
  let unit : Assembly.Program :=
    { source := options.source, entry := p.name, functions := outcome.state.finished }
  let assembly ← unit.render.mapError .emit
  return { unit, assembly, report := outcome.state.report options.source }

/-- A failed compilation, as it is told to the user. Errors without a line are shown on line zero.
-/
structure CompileError where
  location : Location
  message : String
deriving DecidableEq

namespace CompileError

/-- The text of a failed compilation. -/
def text (e : CompileError) : String :=
  "Code generation error at " ++ e.location.text ++ ": " ++ e.message

/-- An error of the generator on its line in a source file; without a line, on line zero. -/
def ofLowering (source : String) (e : LoweringError) : CompileError :=
  ⟨.atLine source (e.line?.getD 0), e.message⟩

/-- An error of a unit of assembly, which is in no source file. -/
def ofEmit (e : Assembly.EmitError) : CompileError := ⟨.unknown, e.message⟩

/-- The failure as a report of its own. -/
def report (e : CompileError) : Report := Report.empty.error e.message e.location

end CompileError

end PascalAsm
