import PascalAsm.Lowering.Generator

/-!
# Calls

A call first evaluates the arguments that need it, each into a temporary of its own, and loads the
argument registers only afterwards; so the evaluation of one argument cannot disturb another. While
the registers are loaded and the call is made, those of them that the pool owns are taken.

A call inside an expression keeps the registers that are in use around it in temporaries, and has
the whole pool for the evaluation of its arguments.
-/

namespace PascalAsm.Lowering

open Assembly

/-- The procedures that the runtime library stands in for. -/
inductive Builtin where
  | read
  | write
deriving DecidableEq

/-- The built-in procedure of a name; letter case does not matter. -/
def Builtin.ofName? (name : String) : Option Builtin :=
  if name.toLower = "read" then some .read
  else if name.toLower = "write" then some .write
  else none

namespace Gen

/-- Makes a call of a routine with some number of arguments. `stage` evaluates them for a call at
some depth, and gives an operand for each that depends on no register. If that fails, the call is counted
no more and the error goes on. -/
def callRoutine (callee : String) (count : Nat) (line : Line)
    (stage : Nat → Gen (List Operand)) : Gen Unit := do
  if Convention.maxArguments < count then
    fail (.onLine (.tooManyArguments callee count Convention.maxArguments) line)
  -- the depth of this call names its temporaries; calls in its arguments are one deeper
  let depth := (← get).callDepth
  enterCall
  let staged ← attempt (stage depth)
  leaveCall
  -- an error in an argument goes on only now, when the call is no longer counted
  let operands ← ofExcept staged
  let regs := Convention.argumentRegs.take operands.length
  let claimed ← claim regs
  -- no operand is a register, so loading one cannot disturb another
  emit (operands.zipWith (fun src r => .movl src (.reg r)) regs)
  emit [clear Convention.vectorCountReg, .call callee]
  release claimed

/-- Copies registers into the temporaries that keep them across a call at a depth. The name of each
temporary has the depth and the register in it, so nested calls keep theirs apart. -/
def saveAll (depth : Nat) : List Reg → Gen (List (Reg × Operand))
  | [] => return []
  | r :: rest => do
    let slot ← tempOperand (saveTemp depth r)
    emit [.movl (.reg r) slot]
    -- the slots are given back, so that the registers are loaded from the same places
    return (r, slot) :: (← saveAll depth rest)

/-- Makes a call and puts its result into a register. Registers that are in use survive the call.
The built-in procedures have no result and are refused. -/
def callValue (callee : String) (count : Nat) (line : Line) (dest : Reg)
    (stage : Nat → Gen (List Operand)) : Gen Unit := do
  if (Builtin.ofName? callee).isSome then
    fail (.unsupported (.builtinValue callee) line)
  let state ← get
  let saved ← saveAll state.callDepth state.pool.held
  -- the free registers are noted in their order, since the top one is being computed into
  let free := (← get).pool.free
  modify fun s => { s with pool := s.pool.reset }
  let called ← attempt (callRoutine callee count line stage)
  modify fun s => { s with pool := s.pool.restore free }
  -- the pool is put back before an error goes on
  ofExcept called
  -- none of the registers that are loaded is `dest`, which was free and so not saved
  emit (saved.map fun (r, slot) => .movl slot (.reg r))
  emit [.movl (.reg Convention.resultReg) (.reg dest)]

/-- Calls a function of the runtime library while the registers of its two arguments are taken;
`load` loads them. The registers are those that the pool has of the two; the others hold nothing. -/
def callLibrary (symbol : String) (load : List Inst) : Gen Unit := do
  let claimed ← claim [.rdi, .rsi]
  emit (load ++ [clear Convention.vectorCountReg, .call symbol])
  release claimed

/-- Writes the number in a register, which is given back before the call. -/
def writeReg (r : Reg) : Gen Unit := do
  emit [.movl (.reg r) (.reg .rsi)]
  -- the value is in `%rsi` by now, where the library looks for it
  free r
  callLibrary Runtime.printf [.leaq (.rip Runtime.writeFormat) .rdi]

/-- Reads a number into a slot. The library stores the number by itself, so nothing is moved
afterwards. -/
def readSlot (slot : Operand) : Gen Unit :=
  callLibrary Runtime.scanf [.leaq slot .rsi, .leaq (.rip Runtime.readFormat) .rdi]

end Gen

end PascalAsm.Lowering
