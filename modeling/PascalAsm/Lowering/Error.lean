import PascalAsm.Assembly.Program
import PascalAsm.Lowering.Pool
import PascalAsm.Lowering.Scope
import PascalAsm.Single.Text
import PascalAsm.Source

/-!
# Failures and warnings of the code generator

Every failure ends the compilation, so an error only says what went wrong and where. The causes
that belong to a place in the source are a `Fault`, which carries a line once somebody knows it;
the others are about the generator's own bookkeeping and have no line.

A warning is no failure: it says that a real or an array was treated as something else.
-/

namespace PascalAsm.Lowering

open Assembly

/-! ### What cannot be compiled -/

/-- A construct that is not supported. Expressions appear as their text. -/
inductive Construct where
  /-- A variable that was declared as an array. -/
  | arrayVariable (name : String)
  /-- A variable of a routine around the present one. -/
  | nonLocal (name : String)
  /-- The value of an array element. -/
  | arrayAccess (array : String)
  /-- A condition where an integer is wanted. -/
  | booleanValue (expr : String)
  /-- An array element on the left of an assignment. -/
  | elementAssignment (array : String)
  /-- An array element among the arguments of a call. -/
  | elementArgument (array : String)
  /-- An array element that is to be read into. -/
  | elementRead (array : String)
  /-- Parameters that are arrays. -/
  | arrayParameter (names : List String)
  /-- The result of reading or writing. -/
  | builtinValue (name : String)
  /-- A `for` statement that counts with something else than a variable. -/
  | loopVariable (expr : String)
  /-- An integer where a condition is wanted. -/
  | nonBooleanCondition (expr : String)
  /-- A construct in the caller's own words. -/
  | other (text : String)
deriving DecidableEq

/-- The words for a construct. -/
def Construct.text : Construct → String
  | .arrayVariable name => "array variable " ++ name
  | .nonLocal name => "non-local access to " ++ name
  | .arrayAccess array => "array access " ++ array ++ "[...]"
  | .booleanValue expr => "boolean value " ++ expr ++ " inside an arithmetic expression"
  | .elementAssignment array => "assignment to array element " ++ array ++ "[...]"
  | .elementArgument array => "array element " ++ array ++ "[...] as an argument"
  | .elementRead array => "read into array element " ++ array ++ "[...]"
  | .arrayParameter names => "array parameter " ++ ", ".intercalate names
  | .builtinValue name => "builtin procedure " ++ name ++ " used as a value"
  | .loopVariable expr => "for loop over " ++ expr
  | .nonBooleanCondition expr => "non-boolean condition " ++ expr
  | .other text => text

/-- A tree that no checker lets through, or a generator that lost count. -/
inductive Defect where
  /-- Something else than a comparison is to set the flags. -/
  | notComparison (expr : String)
  /-- Something else than a variable is assigned to. -/
  | assignmentTarget (expr : String)
  /-- Something else than a variable is read into. -/
  | readTarget (expr : String)
  /-- A call is to be the operand of an instruction. -/
  | callOperand (callee : String)
  /-- A tree that is to be an operand is no leaf. -/
  | missingLeaf
  /-- A tree that is to set the flags does not compare. -/
  | missingComparison
  /-- Scopes are open at the end. -/
  | openScopes (count : Nat)
  /-- A defect in the caller's own words. -/
  | other (text : String)
deriving DecidableEq

/-- The words for a defect. -/
def Defect.text : Defect → String
  | .notComparison expr => "expected a comparison, found " ++ expr
  | .assignmentTarget expr => "assignment target " ++ expr ++ " is not a variable"
  | .readTarget expr => "read target " ++ expr ++ " is not a variable"
  | .callOperand callee => "call to " ++ callee ++ " used as a direct operand"
  | .missingLeaf => "case 1 without a leaf operand"
  | .missingComparison => "condition tree without a comparison"
  | .openScopes count => toString count ++ " scopes left open"
  | .other text => text

/-! ### Errors -/

/-- A cause of failure that belongs to a place in the source. -/
inductive Fault where
  /-- No register is free. -/
  | registerExhausted
  /-- An expression needs more registers than the pool has. -/
  | expressionTooComplex (label capacity : Nat)
  /-- A call passes, or a routine takes, more arguments than travel in registers. -/
  | tooManyArguments (callee : String) (count max : Nat)
  | unsupported (construct : Construct)
  /-- A variable that no scope declares. -/
  | undefinedVariable (name : String)
  /-- Registers were not given back. -/
  | registerImbalance (allocations frees : Nat)
  | internal (defect : Defect)
deriving DecidableEq

/-- What is said about a fault, without its line. -/
def Fault.message : Fault → String
  | .registerExhausted => "no free register left in the pool"
  | .expressionTooComplex label capacity =>
    "expression needs " ++ toString label ++ " registers but only " ++ toString capacity ++ " exist"
  | .tooManyArguments callee count max =>
    "call to " ++ callee ++ " passes " ++ toString count ++ " arguments (maximum: "
      ++ toString max ++ ")"
  | .unsupported construct => construct.text ++ " is not supported"
  | .undefinedVariable name => "variable " ++ name ++ " has no stack slot"
  | .registerImbalance allocations frees =>
    "register pool unbalanced: " ++ toString allocations ++ " allocations, "
      ++ toString frees ++ " frees"
  | .internal defect => "internal code generator error: " ++ defect.text

/-- Why no code is generated. -/
inductive LoweringError where
  /-- A fault, and its line where that is known. -/
  | fault (fault : Fault) (line : Option Line)
  | frameLayout (error : LayoutError)
  | invalidRegister (error : RegisterError)
  | emit (error : EmitError)
deriving DecidableEq

namespace LoweringError

/-- A fault on a line. -/
def onLine (f : Fault) (line : Line) : LoweringError := .fault f (some line)

/-- A construct that is not supported, on a line. -/
def unsupported (c : Construct) (line : Line) : LoweringError := onLine (.unsupported c) line

/-- The line, if the error has one and knows it. -/
def line? : LoweringError → Option Line
  | fault _ line => line
  | _ => none

/-- The error with a line, unless it has one already or is of a kind that has none. -/
def withLine (line : Line) : LoweringError → LoweringError
  | fault f none => fault f (some line)
  | e => e

/-- What is said about the error; a known line comes first. -/
def message : LoweringError → String
  | fault f none => f.message
  | fault f (some line) => "line " ++ toString line.toNat ++ ": " ++ f.message
  | frameLayout e => "stack frame layout error: " ++ e.message
  | invalidRegister e => "invalid register request: " ++ e.message
  | emit e => e.message

/-- The refusal of the pool as an error without a line. -/
def ofPool : PoolError → LoweringError
  | .exhausted => .fault .registerExhausted none
  | .unbalanced allocations frees => .fault (.registerImbalance allocations frees) none
  | .invalid e => .invalidRegister e

/-- A line once known stays. -/
@[simp] theorem withLine_withLine (e : LoweringError) (l m : Line) :
    (e.withLine l).withLine m = e.withLine l := by
  rcases e with ⟨f, _ | line⟩ | _ | _ | _ <;> rfl

end LoweringError

/-! ### Warnings -/

/-- A construct that is compiled as something else. -/
inductive Coercion where
  /-- A real literal becomes an integer. -/
  | realLiteral (value : Single)
  /-- A division of reals becomes one of integers. -/
  | realDivision
  /-- A real parameter becomes an integer one. -/
  | realParameter
  /-- A real variable becomes an integer one. -/
  | realVariable
  /-- An array is declared and gets no storage. -/
  | arrayDropped (name : String)
  /-- A coercion in the caller's own words. -/
  | other (text : String)
deriving DecidableEq

/-- What is said about a coercion. -/
def Coercion.message : Coercion → String
  | .realLiteral value =>
    "REAL literal " ++ value.text ++ " not supported, truncating to integer"
  | .realDivision => "REAL division not supported, using integer division"
  | .realParameter => "REAL parameters not supported, treating as integer"
  | .realVariable => "REAL types not supported, treating as integer"
  | .arrayDropped name => "array " ++ name ++ " not supported, no storage allocated"
  | .other text => text

/-- A coercion and the line of the node that is coerced. -/
structure Warning where
  coercion : Coercion
  line : Line
deriving DecidableEq

end PascalAsm.Lowering
