import PascalAsm.Assembly.Instruction

/-!
# Names of generated things

Labels and temporaries that no source program names. Labels are numbered over the whole
compilation unit. Temporaries start with a dollar sign, which no Pascal identifier has, and carry
the nesting depth of the call that they serve, so the temporaries of a call and of the calls among
its arguments differ.
-/

namespace PascalAsm.Lowering

open Assembly

/-- The label with a number. -/
def localLabel (id : Nat) : String := ".L" ++ toString id

/-- The temporary that holds an argument of a call at a depth until the registers are loaded. -/
def argumentTemp (depth index : Nat) : String := "$arg" ++ toString depth ++ "_" ++ toString index

/-- The temporary that keeps a register across a call at a depth. -/
def saveTemp (depth : Nat) (r : Reg) : String := "$save" ++ toString depth ++ "_" ++ r.bareName

/-- The temporary that holds a constant divisor, since a division takes no constant. -/
def divisorTemp : String := "$div_const"

end PascalAsm.Lowering
