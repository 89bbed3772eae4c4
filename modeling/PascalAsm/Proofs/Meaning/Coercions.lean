import PascalAsm.Proofs.Meaning.Run

/-!
# What is coerced

Code is made for integers only. Some constructs of the language are taken for what they are not: reals
for integers, a division of reals for one of integers, and arrays for nothing at all. The places where
this happens can be read off a program: its declarations, and the nodes of the expressions in its bodies.

* **`Expr.nodes`**, **`Stmt.nodes`** — all expressions that occur somewhere, each as often as it does.
* **`Program.coercions`** — everything that is coerced in a program, with the line of its node.
-/

namespace PascalAsm

open Lowering

/-! ## Nodes -/

namespace Expr

mutual

/-- The expression and all expressions in it. -/
def nodes : Expr → List Expr
  | var line x => [var line x]
  | integer line value => [integer line value]
  | real line value => [real line value]
  | sign line e => sign line e :: e.nodes
  | not line e => not line e :: e.nodes
  | add line op left right => add line op left right :: (left.nodes ++ right.nodes)
  | mul line op left right => mul line op left right :: (left.nodes ++ right.nodes)
  | relational line op left right => relational line op left right :: (left.nodes ++ right.nodes)
  | logical line op left right => logical line op left right :: (left.nodes ++ right.nodes)
  | element line array index => element line array index :: index.nodes
  | call line callee args => call line callee args :: nodesAll args

/-- The expressions and all expressions in them. -/
def nodesAll : List Expr → List Expr
  | [] => []
  | e :: rest => e.nodes ++ nodesAll rest

end

end Expr

/-- The expressions at the start of a `for` statement. The test and the step of the loop repeat only
the variable, in which nothing is coerced. -/
def ForInit.nodes : ForInit → List Expr
  | .assign var value => var.nodes ++ value.nodes
  | .keep var => var.nodes

namespace Stmt

mutual

/-- All expressions in a statement. -/
def nodes : Stmt → List Expr
  | assign _ target value => target.nodes ++ value.nodes
  | call _ _ args => Expr.nodesAll args
  | compound _ body => nodesAll body
  | ifThen _ condition thenBranch => condition.nodes ++ thenBranch.nodes
  | ifElse _ condition thenBranch elseBranch =>
    condition.nodes ++ (thenBranch.nodes ++ elseBranch.nodes)
  | whileDo _ condition body => condition.nodes ++ body.nodes
  | forTo _ init limit body => init.nodes ++ (limit.nodes ++ body.nodes)

/-- All expressions in some statements. -/
def nodesAll : List Stmt → List Expr
  | [] => []
  | s :: rest => s.nodes ++ nodesAll rest

end

end Stmt

/-! ## Coercions -/

/-- What is coerced at a node itself: a real number, or a division of reals. What is coerced further
down has a node of its own. -/
def Expr.coercion? : Expr → Option Warning
  | .real line value => some ⟨.realLiteral value, line⟩
  | .mul line .slash _ _ => some ⟨.realDivision, line⟩
  | _ => none

/-- What is coerced at some nodes. -/
def Expr.coercionsOf (nodes : List Expr) : List Warning := nodes.filterMap Expr.coercion?

/-- What is coerced in a declaration: each group of reals is taken for integers, and each array is
dropped. -/
def Declaration.coercions (ofReal : Coercion) : Declaration → List Warning
  | .vars line _ .real => [⟨ofReal, line⟩]
  | .vars _ _ .integer => []
  | .arrays line names .. => names.map fun name => ⟨.arrayDropped name, line⟩

/-- What is coerced in a routine, what is nested in it left out. Declarations come first, then what
the body says, in the order in which it is written. -/
def Routine.coercions (r : Routine) : List Warning :=
  r.params.flatMap (·.coercions .realParameter) ++
    (r.declarations.flatMap (·.coercions .realVariable) ++ Expr.coercionsOf r.body.nodes)

/-- What is coerced in a program. -/
def Program.coercions (p : Program) : List Warning := p.routines.flatMap Routine.coercions

namespace Expr

@[simp] theorem coercionsOf_append (es fs : List Expr) :
    coercionsOf (es ++ fs) = coercionsOf es ++ coercionsOf fs :=
  List.filterMap_append

theorem coercionsOf_cons_none {e : Expr} (h : e.coercion? = none) (es : List Expr) :
    coercionsOf (e :: es) = coercionsOf es :=
  List.filterMap_cons_none h

/-- A variable is nothing but itself. So targets of assignments and of reading have nothing to warn
of. -/
theorem coercionsOf_nodes_of_varName? {e : Expr} {x : String} (h : e.varName? = some x) :
    coercionsOf e.nodes = [] := by
  cases e with
  | var => rfl
  | _ => cases h

end Expr

end PascalAsm
