import PascalAsm.Source
import PascalAsm.Single.Text
import PascalAsm.Syntax.Operator

/-!
# Expressions

The expressions of a checked program, each with the line that it stands on, and their text.
Integer and truth-valued expressions share one type, because the tree does: whether a condition
stands where one is wanted is decided where code is made for it.
-/

namespace PascalAsm

/-- An expression. The first field of every form is its line. -/
inductive Expr where
  /-- A comparison of two integers. -/
  | relational (line : Line) (op : RelOp) (left right : Expr)
  /-- Two conditions joined by a connective. -/
  | logical (line : Line) (op : LogicalOp) (left right : Expr)
  /-- The opposite of a condition. -/
  | not (line : Line) (condition : Expr)
  /-- An expression with a minus sign in front. -/
  | sign (line : Line) (operand : Expr)
  | add (line : Line) (op : AddOp) (left right : Expr)
  | mul (line : Line) (op : MulOp) (left right : Expr)
  | var (line : Line) (name : String)
  /-- An element of an array. -/
  | element (line : Line) (array : String) (index : Expr)
  /-- The result of a function. -/
  | call (line : Line) (callee : String) (args : List Expr)
  | integer (line : Line) (value : Int32)
  | real (line : Line) (value : Single)

namespace Expr

/-- The line that the expression stands on. -/
def line : Expr → Line
  | relational l .. | logical l .. | not l _ | sign l _ | add l .. | mul l .. | var l _
  | element l .. | call l .. | integer l _ | real l _ => l

/-- The name, if the expression is a variable. -/
def varName? : Expr → Option String
  | var _ name => some name
  | _ => none

/-- Whether the form of the expression gives a truth value. -/
def isCondition : Expr → Bool
  | relational .. | logical .. | not .. => true
  | _ => false

mutual

/-- The text of an expression. Sums, products and the operands of connectives are in parentheses,
comparisons are not. -/
def text : Expr → String
  | relational _ op left right => left.text ++ " " ++ op.text ++ " " ++ right.text
  | logical _ op left right => "(" ++ left.text ++ ") " ++ op.text ++ " (" ++ right.text ++ ")"
  | not _ condition => "not (" ++ condition.text ++ ")"
  | sign _ operand => "-" ++ operand.text
  | add _ op left right => "(" ++ left.text ++ " " ++ op.text ++ " " ++ right.text ++ ")"
  | mul _ op left right => "(" ++ left.text ++ " " ++ op.text ++ " " ++ right.text ++ ")"
  | var _ name => name
  | element _ array index => array ++ "[" ++ index.text ++ "]"
  | call _ callee args => callee ++ "(" ++ ", ".intercalate (texts args) ++ ")"
  | integer _ value => toString value.toInt
  | real _ value => value.text

/-- The texts of some expressions. -/
def texts : List Expr → List String
  | [] => []
  | e :: rest => e.text :: texts rest

end

theorem texts_eq_map (es : List Expr) : texts es = es.map text := by
  induction es with
  | nil => rfl
  | cons e rest ih => simp [texts, ih]

/-- A call as it is written. -/
def callText (callee : String) (args : List Expr) : String :=
  callee ++ "(" ++ ", ".intercalate (args.map text) ++ ")"

end Expr

end PascalAsm
