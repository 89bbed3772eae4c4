import PascalAsm.Json.Shape
import PascalAsm.Syntax.Program

/-!
# Programs as JSON

The form in which a checked program is handed on: nodes are records of their kind and their line,
and the kinds are variants. `Program.render` is the text of that form.
-/

namespace PascalAsm

/-! ### Operators and types -/

/-- The name of a relation in a serialized tree. -/
def RelOp.tag : RelOp → String
  | eq => "Eq"
  | ne => "Ne"
  | lt => "Lt"
  | le => "Le"
  | gt => "Gt"
  | ge => "Ge"

/-- The name of an operator in a serialized tree. -/
def AddOp.tag : AddOp → String
  | plus => "Plus"
  | minus => "Minus"

/-- The name of an operator in a serialized tree. -/
def MulOp.tag : MulOp → String
  | star => "Star"
  | slash => "Slash"
  | div => "Div"
  | mod => "Mod"

/-- The name of a connective in a serialized tree. -/
def LogicalOp.tag : LogicalOp → String
  | and => "And"
  | or => "Or"

/-- The name of a type in a serialized tree. -/
def VarType.tag : VarType → String
  | integer => "Integer"
  | real => "Real"

/-! ### Trees -/

/-- A number as JSON; what is not finite has no spelling there. -/
def Single.toJson (x : Single) : Json :=
  match x.numeral? with
  | some spelling => .number spelling
  | none => .null

namespace Json

/-- The content of a variant with two operands. -/
def operation (op : String) (left right : Json) : Json :=
  record [("op", str op), ("left", left), ("right", right)]

end Json

open Json

mutual

/-- An expression as JSON. -/
def Expr.toJson : Expr → Json
  | .relational line op left right =>
    node (variant "Relational" (operation op.tag left.toJson right.toJson)) line
  | .logical line op left right =>
    node (variant "Logical" (operation op.tag left.toJson right.toJson)) line
  | .not line e => node (variant "Not" e.toJson) line
  | .sign line e => node (variant "Sign" e.toJson) line
  | .add line op left right =>
    node (variant "Add" (operation op.tag left.toJson right.toJson)) line
  | .mul line op left right =>
    node (variant "Mul" (operation op.tag left.toJson right.toJson)) line
  | .var line name => node (variant "Var" (str name)) line
  | .element line name index =>
    node (variant "ArrayAccess" (record [("id", str name), ("index", index.toJson)])) line
  | .call line callee args =>
    node (variant "FunctionCall"
      (record [("id", str callee), ("args", .array (Expr.toJsons args))])) line
  | .integer line value => node (variant "Integer" (int value.toInt)) line
  | .real line value => node (variant "Real" value.toJson) line

/-- Expressions as JSON. -/
def Expr.toJsons : List Expr → List Json
  | [] => []
  | e :: rest => e.toJson :: Expr.toJsons rest

end

/-- The start of a `for` statement as JSON. -/
def ForInit.toJson : ForInit → Json
  | .assign var value =>
    variant "Assign" (record [("var", var.toJson), ("value", value.toJson)])
  | .keep var => variant "Var" var.toJson

mutual

/-- A statement as JSON. -/
def Stmt.toJson : Stmt → Json
  | .assign line target value =>
    node (variant "Assign" (record [("target", target.toJson), ("value", value.toJson)])) line
  | .call line callee args =>
    node (variant "ProcedureCall"
      (record [("id", str callee), ("args", .array (Expr.toJsons args))])) line
  | .compound line body => node (variant "Compound" (.array (Stmt.toJsons body))) line
  | .ifThen line condition thenBranch =>
    node (variant "If" (record [("condition", condition.toJson),
      ("then_stmt", thenBranch.toJson), ("else_stmt", .null)])) line
  | .ifElse line condition thenBranch elseBranch =>
    node (variant "If" (record [("condition", condition.toJson),
      ("then_stmt", thenBranch.toJson), ("else_stmt", elseBranch.toJson)])) line
  | .whileDo line condition body =>
    node (variant "While" (record [("condition", condition.toJson), ("body", body.toJson)])) line
  | .forTo line init limit body =>
    node (variant "For" (record [("init", init.toJson), ("to", limit.toJson),
      ("body", body.toJson)])) line

/-- Statements as JSON. -/
def Stmt.toJsons : List Stmt → List Json
  | [] => []
  | s :: rest => s.toJson :: Stmt.toJsons rest

end

/-- A declaration as JSON. -/
def Declaration.toJson : Declaration → Json
  | .vars line names type =>
    node (variant "Var" (record [("ids", strs names), ("var_type", str type.tag)])) line
  | .arrays line names type first last =>
    node (variant "Array" (record [("ids", strs names), ("var_type", str type.tag),
      ("start", int first.toInt), ("end", int last.toInt)])) line

/-- The kind of a subprogram as JSON. -/
def SubprogramKind.toJson : SubprogramKind → Json
  | .procedure => str "Procedure"
  | .function result => variant "Function" (record [("return_type", str result.tag)])

mutual

/-- A subprogram as JSON. -/
def Subprogram.toJson : Subprogram → Json
  | .mk kind name params declarations subprograms body line =>
    record [("kind", kind.toJson), ("name", str name),
      ("params", .array (params.map Declaration.toJson)),
      ("declarations", .array (declarations.map Declaration.toJson)),
      ("subprograms", .array (Subprogram.toJsons subprograms)),
      ("body", body.toJson), ("line", int line.toNat)]

/-- Subprograms as JSON. -/
def Subprogram.toJsons : List Subprogram → List Json
  | [] => []
  | s :: rest => s.toJson :: Subprogram.toJsons rest

end

/-- A program as JSON. -/
def Program.toJson (p : Program) : Json :=
  record [("name", str p.name), ("args", strs p.args),
    ("declarations", .array (p.declarations.map Declaration.toJson)),
    ("subprograms", .array (Subprogram.toJsons p.subprograms)),
    ("body", p.body.toJson), ("line", int p.line.toNat)]

/-- The text of a program. -/
def Program.render (p : Program) : String := p.toJson.render

end PascalAsm
