import PascalAsm.Syntax.Stmt

/-!
# Programs

Declarations, subprograms and programs. A program and a subprogram are alike but for their heads:
both declare variables, hold subprograms, and have one statement for a body. `Routine` is what they
have in common once the nested subprograms are set aside.
-/

namespace PascalAsm

/-- The type of a variable. -/
inductive VarType where
  | integer
  | real
deriving DecidableEq

/-- A declaration of variables or of arrays, or of parameters. -/
inductive Declaration where
  | vars (line : Line) (names : List String) (type : VarType)
  | arrays (line : Line) (names : List String) (type : VarType) (first last : Int32)
deriving DecidableEq

namespace Declaration

/-- The line of the declaration. -/
def line : Declaration → Line
  | vars l .. | arrays l .. => l

/-- The names that are declared. -/
def names : Declaration → List String
  | vars _ ns _ | arrays _ ns .. => ns

end Declaration

/-- Whether a subprogram has a result, and of which type. -/
inductive SubprogramKind where
  | procedure
  | function (result : VarType)
deriving DecidableEq

/-- A procedure or function. -/
inductive Subprogram where
  | mk (kind : SubprogramKind) (name : String) (params declarations : List Declaration)
    (subprograms : List Subprogram) (body : Stmt) (line : Line)

/-- A whole program. -/
structure Program where
  name : String
  /-- The names in the head of the program, such as `input` and `output`. -/
  args : List String
  declarations : List Declaration
  subprograms : List Subprogram
  body : Stmt
  line : Line

/-- A program or subprogram without what is nested in it. -/
structure Routine where
  name : String
  params : List Declaration
  declarations : List Declaration
  body : Stmt
  /-- Whether a variable of the routine's own name holds its result. -/
  returnsValue : Bool
  line : Line

namespace Subprogram

/-- The name of the subprogram. -/
def name : Subprogram → String
  | mk _ n .. => n

/-- The line of the subprogram. -/
def line : Subprogram → Line
  | mk _ _ _ _ _ _ l => l

/-- Whether the subprogram has a result. -/
def isFunction : Subprogram → Bool
  | mk (.function _) .. => true
  | mk .procedure .. => false

/-- The subprogram without what is nested in it. -/
def routine : Subprogram → Routine
  | s@(mk _ name params declarations _ body line) =>
    { name, params, declarations, body, returnsValue := s.isFunction, line }

end Subprogram

/-- The program without what is nested in it. -/
def Program.routine (p : Program) : Routine where
  name := p.name
  params := []
  declarations := p.declarations
  body := p.body
  returnsValue := false
  line := p.line

end PascalAsm
