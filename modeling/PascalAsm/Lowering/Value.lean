import PascalAsm.Lowering.Call
import PascalAsm.Lowering.Tree

/-!
# Code for expressions

An evaluation tree is computed into the register on top of the pool. What else has to be kept
meanwhile is taken from the pool, and given back in the reverse order. Where the right side needs
more registers than the left, it is evaluated first, with the two topmost registers exchanged, so
that the combining instruction still has the left side in its destination.

`Tree.lower` makes the code of a tree. `Expr.lower` computes an expression into a register, which is
then taken; `Expr.lowerComparison` leaves the outcome of a comparison in the flags. Neither leaves
any code behind when it fails.
-/

namespace PascalAsm.Lowering

open Assembly

namespace Gen

/-- An evaluation may need no more registers than the pool has. The label of a tree is known before
any of its code, so what is too complex is not begun. -/
def requireRegs (label : Nat) (line : Line) : Gen Unit := do
  let capacity := (← get).pool.capacity
  if capacity < label then fail (.onLine (.expressionTooComplex label capacity) line)

/-- The operand of a leaf. A variable without a slot is an error on the line of the leaf. -/
def leafOperand (line : Line) : Leaf → Gen Operand
  | .var name => varOperand name line
  | .int value => return .imm value

/-- The operand that a tree is. Only a leaf can be one; the generator asks for no other tree. -/
def treeOperand : Tree → Gen Operand
  | .leaf _ line leaf => leafOperand line leaf
  | .call _ line callee _ => fail (.onLine (.internal (.callOperand callee)) line)
  | .negate _ line _ | .binary _ line .. => fail (.onLine (.internal .missingLeaf) line)

/-- Divides a register by an operand and puts the quotient or remainder, whichever `result` holds,
back into it. Division takes no constant, so a constant divisor goes through a temporary. -/
def divide (result : Reg) (divisor : Operand) (dest : Reg) : Gen Unit := do
  let divisor ←
    if divisor.isImm then
      -- one slot is enough for all divisions, as the constant is used at once
      let slot ← tempOperand divisorTemp
      emit [.movl divisor slot]
      pure slot
    else pure divisor
  emit
    -- `idivl` takes its dividend from fixed registers, and none of them is in a pool
    [.movl (.reg dest) (.reg Convention.resultReg),
     .cdq,
     .idivl divisor,
     .movl (.reg result) (.reg dest)]

/-- Combines an operand into a register, or compares the register with it. Both divisions are the
same instruction and differ in the register of the result. -/
def combine (op : BinOp) (src : Operand) (dest : Reg) : Gen Unit :=
  match op with
  | .add => emit [.arith .add src (.reg dest)]
  | .sub => emit [.arith .sub src (.reg dest)]
  | .mul => emit [.arith .imul src (.reg dest)]
  | .div => divide Convention.resultReg src dest
  | .mod => divide Convention.remainderReg src dest
  -- the operation is left to the jump; only the flags are set here
  | .compare _ => emit [.cmpl src (.reg dest)]

/-- Runs a generator that gives back every register it takes, in order. The counts of the pool are
compared, and so is its order; the checkpoint from before is given back. -/
def balanced (m : Gen Unit) : Gen Checkpoint := do
  let since := (← get).pool.checkpoint
  m
  -- the stack of free registers has to be as it was, in the same order
  askPool fun p => p.balance since 0
  return since

/-- Computes into the top register by `m` and takes that register. If anything fails, there is no
code, and the error has a line. -/
def compute (line : Line) (m : Gen Unit) : Gen Reg :=
  buffered <| onLine line do
    let since ← balanced m
    -- the value is in the register on top, so taking that register keeps the value
    let r ← allocate
    askPool fun p => p.balance since 1
    return r

/-- Sets the flags by `m`. No register is taken, as a comparison leaves nothing but the flags. -/
def setFlags (line : Line) (m : Gen Unit) : Gen Unit :=
  buffered <| onLine line do
    let _ ← balanced m

end Gen

open Gen

mutual

/-- Computes a tree into the top register; all registers are free again afterwards. -/
def Tree.lower : Tree → Gen Unit
  | .leaf label line leaf => do
    requireRegs label line
    let dest ← target
    let src ← leafOperand line leaf
    emit [.movl src (.reg dest)]
  | .call label line callee args => do
    requireRegs label line
    let dest ← target
    callValue callee args.length line dest fun depth => Arg.stageAll depth 0 args
  | .negate label line child => do
    requireRegs label line
    child.lower
    let dest ← target
    emit [.negl (.reg dest)]
  | .binary label line op left right => do
    requireRegs label line
    if right.isOperand then
      -- the right side is an operand of the combining instruction
      left.lower
      let src ← treeOperand right
      let dest ← target
      combine op src dest
    else if left.label < right.label then
      -- the right side is harder: into the second register, and before the left
      swapTop
      right.lower
      let held ← allocate
      left.lower
      let dest ← target
      combine op (.reg held) dest
      free held
      swapTop
    else
      left.lower
      let held ← allocate
      right.lower
      let src ← target
      combine op (.reg src) held
      free held

/-- Carries out the plan of an integer expression: its value ends in a register that is taken. Where
the expression is ruled out, its warnings are given all the same. -/
def Plan.lower (line : Line) : Plan → Gen Reg
  | .ready warnings tree => do
    warnAll warnings
    compute line tree.lower
  | .rejected warnings construct place => do
    warnAll warnings
    fail (.unsupported construct place)

/-- An operand for an argument of a call at a depth: a computed value goes into a temporary. -/
def Arg.stage (depth index : Nat) : Arg → Gen Operand
  | .var line name => varOperand name line
  | .int value => return .imm value
  | .element line array => fail (.unsupported (.elementArgument array) line)
  | .computed line plan => do
    let r ← plan.lower line
    let slot ← tempOperand (argumentTemp depth index)
    emit [.movl (.reg r) slot]
    free r
    return slot

/-- Operands for arguments, the first of which has the given index. The index goes into the name of
the temporary of an argument that is computed. -/
def Arg.stageAll (depth index : Nat) : List Arg → Gen (List Operand)
  | [] => return []
  | arg :: rest => do
    let operand ← arg.stage depth index
    return operand :: (← Arg.stageAll depth (index + 1) rest)

end

/-- The tree of a plan, after its warnings. -/
def Plan.tree : Plan → Gen Tree
  | .ready warnings tree => do
    warnAll warnings
    return tree
  | .rejected warnings construct place => do
    warnAll warnings
    fail (.unsupported construct place)

/-- The plan of an expression that is to be a comparison, and its relation. -/
def Plan.ofCondition : Expr → Except LoweringError (RelOp × Plan)
  | .relational line op left right => .ok (op, .ofComparison line op left right)
  -- conditions are made of comparisons, so this is for callers that ask for something else
  | e => .error (.onLine (.internal (.notComparison e.text)) e.line)

/-- The jump condition that holds when the relation does: the left side was compared with the
right. -/
def conditionOf : RelOp → Condition
  | .eq => .e
  | .ne => .ne
  | .lt => .l
  | .le => .le
  | .gt => .g
  | .ge => .ge

end PascalAsm.Lowering

namespace PascalAsm.Expr

open Lowering

/-- Computes an integer expression into a register, which is taken. -/
def lower (e : Expr) : Gen Assembly.Reg := (Plan.ofExpr false e).lower e.line

/-- Compares the two sides of a comparison, and gives the relation that is to be tested; it is read
off the tree. -/
def lowerComparison (e : Expr) : Gen RelOp := do
  let (_, plan) ← Gen.ofExcept (Plan.ofCondition e)
  let tree ← plan.tree
  match tree.relation? with
  | some op =>
    Gen.setFlags e.line tree.lower
    return op
  -- the tree of a comparison has one at its root, so this is never reached
  | none => Gen.fail (.onLine (.internal .missingComparison) e.line)

/-- Computes an argument of a procedure of this program, as `Arg.stageAll` does. -/
def stageAll (args : List Expr) (depth : Nat) : Gen (List Assembly.Operand) :=
  Arg.stageAll depth 0 (Arg.ofExprs args)

end PascalAsm.Expr
