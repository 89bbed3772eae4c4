import PascalAsm.Lowering.Value

/-!
# Code for conditions

A condition is not computed: it becomes jumps. `Expr.jumpWhen sense` makes code that goes to a label
when the condition comes out as `sense` and falls through otherwise. Connectives evaluate their
right side only where the left one leaves the outcome open.
-/

namespace PascalAsm

open Lowering Gen

/-- Goes to the label `goal` when the condition is `sense`, and on to the next instruction
otherwise.

Of a connective, one side alone can settle one outcome: a true side settles an `or`, a false side an
`and`. Where that outcome is the one to jump on, both sides jump to the goal. Where it is the other
one, the left side jumps past the right. -/
def Expr.jumpWhen (sense : Bool) (goal : String) : Expr → Gen Unit
  | e@(.relational ..) => do
    let op ← e.lowerComparison
    let condition := conditionOf op
    emit [.jcc (if sense then condition else condition.inverse) goal]
  | .not _ e => e.jumpWhen (!sense) goal
  | .logical _ op left right => do
    if sense = (op = .or : Bool) then
      left.jumpWhen sense goal
      right.jumpWhen sense goal
    else
      let past ← newLabel
      left.jumpWhen (!sense) past
      right.jumpWhen sense goal
      emit [.label past]
  | e => fail (.unsupported (.nonBooleanCondition e.text) e.line)

end PascalAsm
