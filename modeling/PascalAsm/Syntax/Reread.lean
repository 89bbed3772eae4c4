import PascalAsm.Syntax.Read
import PascalAsm.Syntax.Write

/-!
# Reading what was written

A program has one text, and different programs have different texts. So a program survives being
written and read exactly when what is read has the text that was written.

Two things are lost on the way: a real that is not finite, which has no spelling, and a tree that is
too deep to be read.
-/

namespace PascalAsm

/-! ### Names of operators and types -/

@[simp] theorem RelOp.ofTag?_tag (op : RelOp) : RelOp.ofTag? op.tag = some op := by cases op <;> rfl

@[simp] theorem AddOp.ofTag?_tag (op : AddOp) : AddOp.ofTag? op.tag = some op := by cases op <;> rfl

@[simp] theorem MulOp.ofTag?_tag (op : MulOp) : MulOp.ofTag? op.tag = some op := by cases op <;> rfl

@[simp] theorem LogicalOp.ofTag?_tag (op : LogicalOp) : LogicalOp.ofTag? op.tag = some op := by
  cases op <;> rfl

@[simp] theorem VarType.ofTag?_tag (t : VarType) : VarType.ofTag? t.tag = some t := by
  cases t <;> rfl

/-! ### Programs -/

/-- Whether the text of a program is read back as that program. -/
def Program.rereads (p : Program) : Bool :=
  match Program.read? p.render with
  | some q => q.render = p.render
  | none => false

end PascalAsm
