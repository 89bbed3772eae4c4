import PascalAsm.Lowering.Statement

/-!
# Code for routines

Every subprogram and the program itself become one function. A routine opens a scope, lays out its
parameters and variables, then generates what is nested in it, then its own body; so inner functions
are complete before outer ones, and the program comes last. The scope is closed again whether or not
all this succeeds.
-/

namespace PascalAsm

open Assembly Lowering Gen

namespace Lowering.Gen

/-- Gives each name a slot of a region. The first one that is refused ends it. -/
def addSlots (region : Region) : List String → Gen (List Slot)
  | [] => return []
  | name :: rest => do
    let slot ← addSlot region name
    return slot :: (← addSlots region rest)

/-- Drops each array of a declaration, with a warning. So its elements can be named in errors,
although there is no storage for them. -/
def dropArrays (line : Line) : List String → Gen Unit
  | [] => return ()
  | name :: rest => do
    warn ⟨.arrayDropped name, line⟩
    declareArray name
    dropArrays line rest

/-- Lays out the parameters. A real parameter is an integer with a warning, and an array is an
error. -/
def bindParams : List Declaration → Gen (List Slot)
  | [] => return []
  | .vars line names type :: rest => do
    if type = .real then warn ⟨.realParameter, line⟩
    let slots ← addSlots .argument names
    return slots ++ (← bindParams rest)
  | .arrays line names .. :: _ => fail (.unsupported (.arrayParameter names) line)

/-- Lays out the variables. Arrays are dropped here and are no error. -/
def bindLocals : List Declaration → Gen Unit
  | [] => return ()
  | .vars line names type :: rest => do
    if type = .real then warn ⟨.realVariable, line⟩
    let _ ← addSlots .local names
    bindLocals rest
  | .arrays line names .. :: rest => do
    dropArrays line names
    bindLocals rest

/-- Copies argument registers into slots, the first of which is that of the argument with the given
index. -/
def storeParams (index : Nat) : List Slot → Gen Unit
  | [] => return ()
  | slot :: rest => do
    let r ← ofExcept ((argumentReg index).mapError fun e => .emit (.convention e))
    emit [.movl (.reg r) slot.operand]
    storeParams (index + 1) rest

end Lowering.Gen

namespace Routine

/-- How many parameters there are, all declarations together. -/
def paramCount (r : Routine) : Nat := (r.params.flatMap (·.names)).length

/-- Makes the body of a routine, after the code that `nested` makes for what is inside it. -/
def lowerBody (r : Routine) (comments : Bool) (nested : Gen Unit) : Gen Unit := do
  if Convention.maxArguments < r.paramCount then
    fail (.onLine (.tooManyArguments r.name r.paramCount Convention.maxArguments) r.line)
  -- regions are laid out in this order; temporaries come with the code
  let params ← bindParams r.params
  bindLocals r.declarations
  let result ← if r.returnsValue then addSlots .local [r.name] else pure []
  -- the scope stays open meanwhile; the code of what is nested goes into functions of its own
  nested
  storeParams 0 params
  -- a register that brings a parameter is free again once the slot has it
  r.body.lower comments
  emit (result.map fun slot => .movl slot.operand (.reg Convention.resultReg))

/-- Makes the function of a routine. -/
def lower (r : Routine) (comments : Bool) (nested : Gen Unit) : Gen Unit := do
  enterScope
  -- neither error goes on before the scope is closed
  let body ← attempt (collect (r.lowerBody comments nested))
  let size ← attempt frameSize
  leaveScope
  let body ← ofExcept body
  let frameSize ← ofExcept size
  finish { name := r.name, frameSize, body }

end Routine

mutual

/-- Makes the functions of a subprogram and of all that is nested in it. -/
def Subprogram.lower (comments : Bool) : Subprogram → Gen Unit
  | s@(.mk _ _ _ _ subprograms _ _) => s.routine.lower comments (Subprogram.lowerAll comments subprograms)

/-- Makes the functions of subprograms in order. -/
def Subprogram.lowerAll (comments : Bool) : List Subprogram → Gen Unit
  | [] => return ()
  | s :: rest => do
    s.lower comments
    Subprogram.lowerAll comments rest

end

/-- Makes the functions of a program, its own the last. -/
def Program.lower (comments : Bool) (p : Program) : Gen Unit :=
  p.routine.lower comments (Subprogram.lowerAll comments p.subprograms)

end PascalAsm
