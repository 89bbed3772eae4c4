import PascalAsm.Lowering.Error
import PascalAsm.Syntax.Program

/-!
# Evaluation trees

An expression is turned into a tree of the operations that code can be made for, and each node is
labelled with the number of registers that its evaluation needs: one for an operand, one more than
either side where both sides need the same number, the greater number where they differ. Evaluating
the harder side first meets that number.

`Plan.ofExpr` makes the tree. What it finds on the way, it keeps beside the tree: the warnings about
reals, and the construct that rules the expression out, if there is one. A call is one value in the
tree; its arguments have plans of their own, which are looked at when the call is made and not
before.
-/

namespace PascalAsm.Lowering

/-- An operation with two operands. A comparison stands only at the root, where it sets the flags. -/
inductive BinOp where
  | add
  | sub
  | mul
  | div
  | mod
  | compare (op : RelOp)
deriving DecidableEq

/-- The name of an operation in the text of a tree. -/
def BinOp.text : BinOp → String
  | add => "ADD"
  | sub => "SUB"
  | mul => "MUL"
  | div => "DIV"
  | mod => "MOD"
  | compare op => "RELOP " ++ op.text

/-- The operation of a sum. -/
def BinOp.ofAddOp : AddOp → BinOp
  | .plus => add
  | .minus => sub

/-- The operation of a product: both divisions are division of integers. -/
def BinOp.ofMulOp : MulOp → BinOp
  | .star => mul
  | .slash | .div => div
  | .mod => mod

/-- A value that an instruction can name. It is loaded, or it is an operand of what is done with it.
-/
inductive Leaf where
  | var (name : String)
  | int (value : Int32)
deriving DecidableEq

mutual

/-- An evaluation tree. Each node has its label and its line. -/
inductive Tree where
  | leaf (label : Nat) (line : Line) (leaf : Leaf)
  /-- A call, which behaves as one value. -/
  | call (label : Nat) (line : Line) (callee : String) (args : List Arg)
  | negate (label : Nat) (line : Line) (child : Tree)
  | binary (label : Nat) (line : Line) (op : BinOp) (left right : Tree)

/-- What is to be done for an expression. -/
inductive Plan where
  /-- Evaluate a tree, after giving some warnings. -/
  | ready (warnings : List Warning) (tree : Tree)
  /-- Give up because of a construct, after giving some warnings. -/
  | rejected (warnings : List Warning) (construct : Construct) (line : Line)

/-- How an argument is passed. -/
inductive Arg where
  /-- A variable is loaded from its slot. -/
  | var (line : Line) (name : String)
  | int (value : Int32)
  /-- An array element cannot be passed. -/
  | element (line : Line) (array : String)
  /-- Anything else is evaluated first. -/
  | computed (line : Line) (plan : Plan)

end

/-! ### Trees -/

namespace Tree

/-- The number of registers that the node needs. -/
def label : Tree → Nat
  | leaf l .. | call l .. | negate l .. | binary l .. => l

/-- The line of the node. -/
def line : Tree → Line
  | leaf _ l _ | call _ l .. | negate _ l _ | binary _ l .. => l

/-- The leaf and its line, if the tree is a leaf. -/
def leaf? : Tree → Option (Line × Leaf)
  | leaf _ line l => some (line, l)
  | _ => none

/-- Whether the tree can stand as an operand of an instruction. A call is none, although it is one
value. -/
def isOperand (t : Tree) : Bool := t.leaf?.isSome

/-- The relation that the tree tests, if it is a comparison. -/
def relation? : Tree → Option RelOp
  | binary _ _ (.compare op) .. => some op
  | _ => none

/-- A value alone needs no register to be set aside; as the operand of something it needs one. -/
def leafLabel (operand : Bool) : Nat := if operand then 1 else 0

/-- The label of a node over two others. With equal needs one value has to be kept while the other
is computed, which takes a register more. -/
def joinLabels (left right : Nat) : Nat := if left = right then left + 1 else max left right

/-- A minus sign over a tree: negation happens in place and needs nothing more. -/
def negated (line : Line) (child : Tree) : Tree := negate child.label line child

/-- An operation over two trees. -/
def joined (line : Line) (op : BinOp) (left right : Tree) : Tree :=
  binary (joinLabels left.label right.label) line op left right

@[simp] theorem label_negated (line : Line) (child : Tree) :
    (negated line child).label = child.label := rfl

@[simp] theorem label_joined (line : Line) (op : BinOp) (left right : Tree) :
    (joined line op left right).label = joinLabels left.label right.label := rfl

/-- The lines of a tree's text, one node a line and its children two columns further in. -/
def lines (pad : String) : Tree → List String
  | leaf label _ (.var name) => [pad ++ "[NODE VAR " ++ name ++ ", L:" ++ toString label ++ "]"]
  | leaf label _ (.int value) =>
    [pad ++ "[NODE INUM " ++ toString value.toInt ++ ", L:" ++ toString label ++ "]"]
  | call label _ callee args =>
    [pad ++ "[NODE CALL " ++ callee ++ "/" ++ toString args.length ++ ", L:" ++ toString label ++ "]"]
  | negate label _ child =>
    (pad ++ "[NODE SIGN, L:" ++ toString label ++ "]") :: child.lines (pad ++ "  ")
  | binary label _ op left right =>
    (pad ++ "[NODE " ++ op.text ++ ", L:" ++ toString label ++ "]")
      :: (pad ++ "[LEFT]") :: left.lines (pad ++ "  ")
      ++ (pad ++ "[RIGHT]") :: right.lines (pad ++ "  ")

/-- The text of a tree. -/
def text (t : Tree) : String := Assembly.unlines (t.lines "")

end Tree

/-! ### Plans -/

namespace Plan

/-- A plan with a warning before all others. -/
def warned (w : Warning) : Plan → Plan
  | ready ws t => ready (w :: ws) t
  | rejected ws c line => rejected (w :: ws) c line

/-- A minus sign over a plan. -/
def negated (line : Line) : Plan → Plan
  | ready ws t => ready ws (t.negated line)
  | rejected ws c l => rejected ws c l

/-- An operation over two plans. The left one is made first, so if it gives up the right one has no
part in the whole. -/
def joined (line : Line) (op : BinOp) : Plan → Plan → Plan
  | ready ws left, ready ws' right => ready (ws ++ ws') (.joined line op left right)
  -- what the left side has said before stays said
  | ready ws _, rejected ws' c l => rejected (ws ++ ws') c l
  | rejected ws c l, _ => rejected ws c l

end Plan

/-- How an argument is passed, given the plan of its value. Only the form of the expression decides;
its plan is used where it is computed. -/
def Arg.ofPlan : Expr → Plan → Arg
  | .var line name, _ => var line name
  -- a real number is no operand: it is computed, and its plan has the warning
  | .integer _ value, _ => int value
  | .element line array _, _ => element line array
  | e, plan => computed e.line plan

mutual

/-- The plan of an integer expression; `operand` says whether it feeds another node. -/
def Plan.ofExpr (operand : Bool) : Expr → Plan
  | .var line name => .ready [] (.leaf (Tree.leafLabel operand) line (.var name))
  | .integer line value => .ready [] (.leaf (Tree.leafLabel operand) line (.int value))
  | .real line value =>
    -- the number is cut off here, and the tree does not know that it was real
    .ready [⟨.realLiteral value, line⟩] (.leaf (Tree.leafLabel operand) line (.int value.truncate))
  | .call line callee args =>
    -- the arguments have plans of their own, so nothing in them rejects the call yet
    .ready [] (.call (Tree.leafLabel operand) line callee (Arg.ofExprs args))
  | .sign line e => (Plan.ofExpr true e).negated line
  | .add line op left right => (Plan.ofExpr true left).joined line (.ofAddOp op) (Plan.ofExpr true right)
  | .mul line op left right =>
    -- the warning about the division stands before those of its sides
    let plan := (Plan.ofExpr true left).joined line (.ofMulOp op) (Plan.ofExpr true right)
    if op = .slash then plan.warned ⟨.realDivision, line⟩ else plan
  | .element line array _ => .rejected [] (.arrayAccess array) line
  | .relational line op left right =>
    .rejected [] (.booleanValue (Expr.relational line op left right).text) line
  | .logical line op left right =>
    .rejected [] (.booleanValue (Expr.logical line op left right).text) line
  | .not line e => .rejected [] (.booleanValue (Expr.not line e).text) line

/-- How some arguments are passed. -/
def Arg.ofExprs : List Expr → List Arg
  | [] => []
  | e :: rest => .ofPlan e (Plan.ofExpr false e) :: Arg.ofExprs rest

end

/-- The plan of a comparison, which ends in the flags. -/
def Plan.ofComparison (line : Line) (op : RelOp) (left right : Expr) : Plan :=
  (Plan.ofExpr true left).joined line (.compare op) (Plan.ofExpr true right)

theorem Arg.ofExprs_eq_map (es : List Expr) :
    Arg.ofExprs es = es.map fun e => .ofPlan e (Plan.ofExpr false e) := by
  induction es with
  | nil => rfl
  | cons e rest ih => simp [Arg.ofExprs, ih]

end PascalAsm.Lowering
