import PascalAsm.Lowering.Jump

/-!
# Code for statements

Each statement appends its code to that of the routine. A register that holds a value is given back
as soon as the value is stored, so between statements every register is free.

Loops test at the bottom: control enters at the test and comes back to the body when it holds. A
`for` statement is such a loop, with a comparison of its variable with the limit and a step by one.
-/

namespace PascalAsm

open Lowering Gen

namespace Lowering.Gen

/-- Names a statement in the code, if that is wanted. Comments say the line and begin with the text
of the statement. -/
def comment (wanted : Bool) (line : Line) (summary : String) : Gen Unit :=
  if wanted then emit [.comment ("line " ++ toString line.toNat ++ ": " ++ summary)] else return ()

/-- The slot that an assignment stores to. -/
def assignmentSlot (line : Line) : Expr → Gen Assembly.Operand
  | .var varLine name => varOperand name varLine
  -- arrays are declared and dropped, so their elements are named as unsupported
  | .element _ array _ => fail (.unsupported (.elementAssignment array) line)
  | target => fail (.onLine (.internal (.assignmentTarget target.text)) line)

/-- Gives a variable a value. The register that the value is computed into is free again afterwards.
-/
def assignValue (line : Line) (target value : Expr) : Gen Unit := do
  let slot ← assignmentSlot line target
  -- the target comes first: what is wrong with it is reported before the value
  let r ← value.lower
  emit [.movl (.reg r) slot]
  free r

/-- Writes some values, each on a line of its own. The values are computed one by one, each of them
after the one before was written. -/
def writeAll : List Expr → Gen Unit
  | [] => return ()
  | arg :: rest => do
    let r ← arg.lower
    writeReg r
    writeAll rest

/-- The slot that reading stores to. -/
def readTarget (line : Line) : Expr → Gen Assembly.Operand
  | .var varLine name => varOperand name varLine
  | .element elementLine array _ => fail (.unsupported (.elementRead array) elementLine)
  | arg => fail (.onLine (.internal (.readTarget arg.text)) line)

/-- Reads some variables. -/
def readAll (line : Line) : List Expr → Gen Unit
  | [] => return ()
  | arg :: rest => do
    let slot ← readTarget line arg
    readSlot slot
    readAll line rest

/-- Calls a procedure, which may be a built-in one. A procedure of this program cannot take the
place of a built-in one. -/
def callProcedure (line : Line) (callee : String) (args : List Expr) : Gen Unit :=
  match Builtin.ofName? callee with
  | some .write => writeAll args
  | some .read => readAll line args
  | none => callRoutine callee args.length line (Expr.stageAll args)

/-- A loop around a body, which the test at its end comes back to. -/
def loop (condition : Expr) (body : Gen Unit) : Gen Unit := do
  let start ← newLabel
  let test ← newLabel
  -- control enters at the test, which stands after the body
  emit [.jmp test, .label start]
  body
  emit [.label test]
  condition.jumpWhen true start

end Lowering.Gen

/-- The test of a `for` statement: the variable is below the limit. -/
def ForInit.test (init : ForInit) (line : Line) (limit : Expr) : Expr :=
  .relational line .lt init.var limit

/-- What a `for` statement adds to its variable after each pass. -/
def ForInit.next (init : ForInit) (line : Line) : Expr :=
  .add line .plus init.var (.integer line 1)

/-- The step of a `for` statement: the variable goes up by one. -/
def ForInit.step (init : ForInit) (comments : Bool) (line : Line) : Gen Unit := do
  comment comments line (Stmt.assignText init.var (init.next line))
  assignValue line init.var (init.next line)

/-- What a `for` statement does before its loop. -/
def ForInit.lower (line : Line) : ForInit → Gen Unit
  | .assign var value => assignValue line var value
  | .keep _ => return ()

mutual

/-- Makes the code of a statement. If it is wanted, a comment with the text of the statement comes
first. -/
def Stmt.lower (comments : Bool) (s : Stmt) : Gen Unit := do
  if let some summary := s.summary? then
    comment comments s.line summary
  match s with
  | .assign line target value => assignValue line target value
  | .call line callee args => callProcedure line callee args
  | .compound _ body => Stmt.lowerAll comments body
  | .ifThen _ condition thenBranch =>
    let past ← newLabel
    condition.jumpWhen false past
    thenBranch.lower comments
    emit [.label past]
  | .ifElse _ condition thenBranch elseBranch =>
    let otherwise ← newLabel
    condition.jumpWhen false otherwise
    thenBranch.lower comments
    -- drawn after the code of the branch, so its number is higher than those in it
    let past ← newLabel
    emit [.jmp past, .label otherwise]
    elseBranch.lower comments
    emit [.label past]
  | .whileDo _ condition body => loop condition (body.lower comments)
  | .forTo line init limit body =>
    if init.var.varName?.isNone then
      fail (.unsupported (.loopVariable init.var.text) line)
    -- from here on it is a loop with a test and a step that the source does not have
    init.lower line
    loop (init.test line limit) do
      body.lower comments
      init.step comments line

/-- Makes the code of statements one after another. -/
def Stmt.lowerAll (comments : Bool) : List Stmt → Gen Unit
  | [] => return ()
  | s :: rest => do
    s.lower comments
    Stmt.lowerAll comments rest

end

end PascalAsm
