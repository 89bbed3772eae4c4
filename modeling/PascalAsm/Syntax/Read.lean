import PascalAsm.Json.Read
import PascalAsm.Json.Shape
import PascalAsm.Syntax.Program

/-!
# Programs from JSON

Reads the form that `Syntax.Write` writes, in every way of writing records and variants. Each reader
is given the number of levels that containers may still nest, and every level that it descends uses
one up; this bounds the recursion. `Program.read?` reads a text.
-/

namespace PascalAsm

open Json

/-! ### Operators and types -/

/-- The relation of a name. -/
def RelOp.ofTag? : String → Option RelOp
  | "Eq" => some eq
  | "Ne" => some ne
  | "Lt" => some lt
  | "Le" => some le
  | "Gt" => some gt
  | "Ge" => some ge
  | _ => none

/-- The operator of a name. -/
def AddOp.ofTag? : String → Option AddOp
  | "Plus" => some plus
  | "Minus" => some minus
  | _ => none

/-- The operator of a name. -/
def MulOp.ofTag? : String → Option MulOp
  | "Star" => some star
  | "Slash" => some slash
  | "Div" => some div
  | "Mod" => some mod
  | _ => none

/-- The connective of a name. -/
def LogicalOp.ofTag? : String → Option LogicalOp
  | "And" => some and
  | "Or" => some or
  | _ => none

/-- The type of a name. -/
def VarType.ofTag? : String → Option VarType
  | "Integer" => some integer
  | "Real" => some real
  | _ => none

/-- The type that a value names; `levels` are left. -/
def VarType.ofJson? (levels : Nat) (v : Json) : Option VarType := do ofTag? (← v.bare? levels)

/-! ### Expressions -/

mutual

/-- The expression of a value; `levels` are left. -/
def Expr.ofJson? : Nat → Json → Option Expr
  | levels + 2, v => do
    let (line, name, content) ← v.node?
    match name with
    | "Var" => return .var line (← content.text?)
    | "Integer" => return .integer line (← content.int32?)
    | "Real" => return .real line (← content.single?)
    | "Not" => return .not line (← Expr.ofJson? levels content)
    | "Sign" => return .sign line (← Expr.ofJson? levels content)
    | "Relational" =>
      let (op, left, right) ← Expr.operation? levels content
      return .relational line (← RelOp.ofTag? op) left right
    | "Logical" =>
      let (op, left, right) ← Expr.operation? levels content
      return .logical line (← LogicalOp.ofTag? op) left right
    | "Add" =>
      let (op, left, right) ← Expr.operation? levels content
      return .add line (← AddOp.ofTag? op) left right
    | "Mul" =>
      let (op, left, right) ← Expr.operation? levels content
      return .mul line (← MulOp.ofTag? op) left right
    | "ArrayAccess" =>
      let (name, index) ← Expr.element? levels content
      return .element line name index
    | "FunctionCall" =>
      let (callee, args) ← Expr.call? levels content
      return .call line callee args
    | _ => none
  | _, _ => none

/-- The name of an operator and its two operands; `levels` are left. -/
def Expr.operation? : Nat → Json → Option (String × Expr × Expr)
  | levels + 1, v => do
    let [op, left, right] ← v.record? ["op", "left", "right"] | none
    return (← op.bare? levels, ← Expr.ofJson? levels left, ← Expr.ofJson? levels right)
  | _, _ => none

/-- The name of an array and an index; `levels` are left. -/
def Expr.element? : Nat → Json → Option (String × Expr)
  | levels + 1, v => do
    let [name, index] ← v.record? ["id", "index"] | none
    return (← name.text?, ← Expr.ofJson? levels index)
  | _, _ => none

/-- The name of a function and the arguments of a call; `levels` are left. -/
def Expr.call? : Nat → Json → Option (String × List Expr)
  | levels + 2, v => do
    let [callee, .array args] ← v.record? ["id", "args"] | none
    return (← callee.text?, ← args.mapM fun arg => Expr.ofJson? levels arg)
  | _, _ => none

end

/-- The expressions of an array; `levels` are left. -/
def Expr.listOfJson? : Nat → Json → Option (List Expr) := list? Expr.ofJson?

/-! ### Statements -/

/-- The start of a `for` statement; `levels` are left. -/
def ForInit.ofJson? (levels : Nat) (v : Json) : Option ForInit :=
  match v.variant?, levels with
  | some ("Assign", some content), levels + 2 => do
    let [var, value] ← content.record? ["var", "value"] | none
    return .assign (← Expr.ofJson? levels var) (← Expr.ofJson? levels value)
  | some ("Var", some content), levels + 1 => return .keep (← Expr.ofJson? levels content)
  | _, _ => none

/-- The statement of a value; `levels` are left. -/
def Stmt.ofJson? : Nat → Json → Option Stmt
  | levels + 3, v => do
    let (line, name, content) ← v.node?
    match name with
    | "Assign" =>
      let [target, value] ← content.record? ["target", "value"] | none
      return .assign line (← Expr.ofJson? levels target) (← Expr.ofJson? levels value)
    | "ProcedureCall" =>
      let [callee, args] ← content.record? ["id", "args"] | none
      return .call line (← callee.text?) (← Expr.listOfJson? levels args)
    | "Compound" =>
      let .array body := content | none
      return .compound line (← body.mapM fun s => Stmt.ofJson? levels s)
    | "If" =>
      let [some condition, some thenBranch, elseBranch] ←
        content.fields? ["condition", "then_stmt", "else_stmt"] | none
      let condition ← Expr.ofJson? levels condition
      let thenBranch ← Stmt.ofJson? levels thenBranch
      match elseBranch with
      -- a branch that is missing may be left out or be written as null
      | none | some .null => return .ifThen line condition thenBranch
      | some s => return .ifElse line condition thenBranch (← Stmt.ofJson? levels s)
    | "While" =>
      let [condition, body] ← content.record? ["condition", "body"] | none
      return .whileDo line (← Expr.ofJson? levels condition) (← Stmt.ofJson? levels body)
    | "For" =>
      let [init, limit, body] ← content.record? ["init", "to", "body"] | none
      return .forTo line (← ForInit.ofJson? levels init) (← Expr.ofJson? levels limit)
        (← Stmt.ofJson? levels body)
    | _ => none
  | _, _ => none

/-! ### Declarations and programs -/

/-- The declaration of a value; `levels` are left. -/
def Declaration.ofJson? : Nat → Json → Option Declaration
  | levels + 3, v => do
    let (line, name, content) ← v.node?
    match name with
    | "Var" =>
      let [names, type] ← content.record? ["ids", "var_type"] | none
      return .vars line (← names.texts? levels) (← VarType.ofJson? levels type)
    | "Array" =>
      let [names, type, first, last] ← content.record? ["ids", "var_type", "start", "end"] | none
      return .arrays line (← names.texts? levels) (← VarType.ofJson? levels type)
        (← first.int32?) (← last.int32?)
    | _ => none
  | _, _ => none

/-- The declarations of an array; `levels` are left. -/
def Declaration.listOfJson? : Nat → Json → Option (List Declaration) := list? Declaration.ofJson?

/-- The kind of a subprogram; `levels` are left. -/
def SubprogramKind.ofJson? (levels : Nat) (v : Json) : Option SubprogramKind :=
  match v.bare? levels, v.variant?, levels with
  | some "Procedure", _, _ => some .procedure
  | _, some ("Function", some content), levels + 2 => do
    let [result] ← content.record? ["return_type"] | none
    return .function (← VarType.ofJson? levels result)
  | _, _, _ => none

/-- The fields of a subprogram, in order. -/
def Subprogram.fieldNames : List String :=
  ["kind", "name", "params", "declarations", "subprograms", "body", "line"]

/-- The subprogram of a value; `levels` are left. -/
def Subprogram.ofJson? : Nat → Json → Option Subprogram
  | levels + 2, v => do
    let [kind, name, params, declarations, .array subprograms, body, line] ←
      v.record? Subprogram.fieldNames | none
    return .mk (← SubprogramKind.ofJson? (levels + 1) kind) (← name.text?)
      (← Declaration.listOfJson? (levels + 1) params)
      (← Declaration.listOfJson? (levels + 1) declarations)
      (← subprograms.mapM fun s => Subprogram.ofJson? levels s)
      (← Stmt.ofJson? (levels + 1) body) (← line.nat32?)
  | _, _ => none

/-- The subprograms of an array; `levels` are left. -/
def Subprogram.listOfJson? : Nat → Json → Option (List Subprogram) := list? Subprogram.ofJson?

/-- The fields of a program, in order. -/
def Program.fieldNames : List String :=
  ["name", "args", "declarations", "subprograms", "body", "line"]

/-- The program of a value; `levels` are left. -/
def Program.ofJson? : Nat → Json → Option Program
  | levels + 1, v => do
    let [name, args, declarations, subprograms, body, line] ←
      v.record? Program.fieldNames | none
    return {
      name := ← name.text?
      args := ← args.texts? levels
      declarations := ← Declaration.listOfJson? levels declarations
      subprograms := ← Subprogram.listOfJson? levels subprograms
      body := ← Stmt.ofJson? levels body
      line := ← line.nat32? }
  | _, _ => none

/-- How deep the arrays and objects of a program may nest. A text that nests deeper is refused,
although every part of it could be read. -/
def Program.maxDepth : Nat := 127

/-- The program of a value. -/
def Program.ofValue? (v : Json) : Option Program := Program.ofJson? Program.maxDepth v

/-- The program of a text. -/
def Program.read? (s : String) : Option Program := do Program.ofValue? (← Json.parse? s)

end PascalAsm
