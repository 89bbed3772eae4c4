import PascalAsm.Syntax.Expr

/-!
# Statements

The statements of a checked program, each with the line that it starts on. `Stmt.summary?` is the
one-line text by which a listing names a statement.
-/

namespace PascalAsm

/-- The start of a `for` statement. -/
inductive ForInit where
  /-- The variable is given its first value. -/
  | assign (var value : Expr)
  /-- The variable keeps the value that it has. -/
  | keep (var : Expr)

/-- The variable that a `for` statement counts with. -/
def ForInit.var : ForInit → Expr
  | assign var _ => var
  | keep var => var

/-- A statement. The first field of every form is its line. -/
inductive Stmt where
  /-- A variable is given a value. -/
  | assign (line : Line) (target value : Expr)
  /-- A procedure is called; reading and writing are calls too. -/
  | call (line : Line) (callee : String) (args : List Expr)
  /-- Statements one after another. -/
  | compound (line : Line) (body : List Stmt)
  | ifThen (line : Line) (condition : Expr) (thenBranch : Stmt)
  | ifElse (line : Line) (condition : Expr) (thenBranch elseBranch : Stmt)
  | whileDo (line : Line) (condition : Expr) (body : Stmt)
  /-- The variable counts up until it reaches the limit, which is not run through. -/
  | forTo (line : Line) (init : ForInit) (limit : Expr) (body : Stmt)

namespace Stmt

/-- The line that the statement starts on. -/
def line : Stmt → Line
  | assign l .. | call l .. | compound l _ | ifThen l .. | ifElse l .. | whileDo l .. | forTo l .. => l

/-- An assignment as it is written. -/
def assignText (target value : Expr) : String := target.text ++ " := " ++ value.text

/-- The statement in one line, inner statements left out. A compound statement has no line of its
own. -/
def summary? : Stmt → Option String
  | assign _ target value => some (assignText target value)
  | call _ callee args => some (Expr.callText callee args)
  | compound .. => none
  | ifThen _ condition _ => some ("if " ++ condition.text ++ " then ...")
  | ifElse _ condition _ _ => some ("if " ++ condition.text ++ " then ... else ...")
  | whileDo _ condition _ => some ("while " ++ condition.text ++ " do ...")
  | forTo _ (.assign var value) limit _ =>
    some ("for " ++ var.text ++ " := " ++ value.text ++ " to " ++ limit.text ++ " do ...")
  | forTo _ (.keep var) limit _ =>
    some ("for " ++ var.text ++ " to " ++ limit.text ++ " do ...")

end Stmt

end PascalAsm
