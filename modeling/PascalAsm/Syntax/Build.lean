import PascalAsm.Syntax.Program

/-!
# Common forms

Short ways to say what most programs are made of. Whatever one of them builds stands on one line, the
variables that it names included; expressions and statements that it is given keep theirs.
-/

namespace PascalAsm

/-! ### Statements -/

namespace Stmt

/-- A variable is given a value. -/
def assignVar (line : Line) (name : String) (value : Expr) : Stmt :=
  .assign line (.var line name) value

/-- Values are written. -/
def write (line : Line) (values : List Expr) : Stmt := .call line "write" values

/-- Variables are read. -/
def read (line : Line) (names : List String) : Stmt := .call line "read" (names.map (.var line))

/-- A variable counts from its first value. -/
def forFrom (line : Line) (name : String) (first limit : Expr) (body : Stmt) : Stmt :=
  .forTo line (.assign (.var line name) first) limit body

/-- A variable counts from the value that it has. -/
def forOnward (line : Line) (name : String) (limit : Expr) (body : Stmt) : Stmt :=
  .forTo line (.keep (.var line name)) limit body

end Stmt

/-! ### Declarations and routines -/

/-- Integer variables. -/
def Declaration.ints (line : Line) (names : List String) : Declaration := .vars line names .integer

/-- A function with an integer for its result. -/
def SubprogramKind.intFunction : SubprogramKind := .function .integer

/-- A program that reads its input and writes its output. -/
def Program.ofBody (line : Line) (name : String) (declarations : List Declaration)
    (subprograms : List Subprogram) (body : Stmt) : Program where
  name
  args := ["input", "output"]
  declarations
  subprograms
  body
  line

end PascalAsm
