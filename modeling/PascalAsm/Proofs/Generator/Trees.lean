import PascalAsm.Lowering.Value
import PascalAsm.Proofs.Meaning.Value

/-!
# The trees of expressions

What `Plan.ofExpr` makes of an expression, when it does not give up: `Expr.tree_induction` goes
through an expression and its tree side by side. Proofs about the code of expressions are made one
node of the tree at a time and put together by it.
-/

namespace PascalAsm

open Lowering

namespace Lowering.Plan

variable {ws : List Warning} {t : Tree} {line : Line}

theorem negated_eq_ready_iff {p : Plan} :
    p.negated line = .ready ws t ↔ ∃ t', p = .ready ws t' ∧ t = t'.negated line := by
  cases p with
  | ready ws' t' =>
    simp only [negated, ready.injEq]
    constructor
    · rintro ⟨rfl, rfl⟩
      exact ⟨t', ⟨rfl, rfl⟩, rfl⟩
    · rintro ⟨_, ⟨rfl, rfl⟩, rfl⟩
      exact ⟨rfl, rfl⟩
  | rejected => simp [negated]

theorem joined_eq_ready_iff {op : BinOp} {p q : Plan} :
    p.joined line op q = .ready ws t ↔ ∃ ws₁ ws₂ left right, p = .ready ws₁ left ∧
      q = .ready ws₂ right ∧ ws = ws₁ ++ ws₂ ∧ t = .joined line op left right := by
  cases p with
  | ready ws₁ left =>
    cases q with
    | ready ws₂ right =>
      simp only [joined, ready.injEq]
      constructor
      · rintro ⟨rfl, rfl⟩
        exact ⟨ws₁, ws₂, left, right, ⟨rfl, rfl⟩, ⟨rfl, rfl⟩, rfl, rfl⟩
      · rintro ⟨_, _, _, _, ⟨rfl, rfl⟩, ⟨rfl, rfl⟩, rfl, rfl⟩
        exact ⟨rfl, rfl⟩
    | rejected => simp [joined]
  | rejected => simp [joined]

theorem warned_eq_ready_iff {w : Warning} {p : Plan} :
    p.warned w = .ready ws t ↔ ∃ ws', p = .ready ws' t ∧ ws = w :: ws' := by
  cases p with
  | ready ws' t' =>
    simp only [warned, ready.injEq]
    constructor
    · rintro ⟨rfl, rfl⟩
      exact ⟨ws', ⟨rfl, rfl⟩, rfl⟩
    · rintro ⟨_, ⟨rfl, rfl⟩, rfl⟩
      exact ⟨rfl, rfl⟩
  | rejected => simp [warned]

/-- The plan of a product is that of its sides, but for a warning. Only a division of reals has one,
and it comes before those of the sides. -/
theorem ofExpr_mul_eq_ready {operand : Bool} {op : MulOp} {left right : Expr}
    (h : Plan.ofExpr operand (.mul line op left right) = .ready ws t) :
    ∃ ws', (Plan.ofExpr true left).joined line (.ofMulOp op) (Plan.ofExpr true right) =
      .ready ws' t := by
  simp only [Plan.ofExpr] at h
  split at h
  · obtain ⟨ws', h', -⟩ := warned_eq_ready_iff.1 h
    exact ⟨ws', h'⟩
  · exact ⟨ws, h⟩

end Lowering.Plan

namespace Expr

section

variable {motive : Bool → Expr → Tree → Prop}
  (var : ∀ operand line name,
    motive operand (.var line name) (.leaf (Tree.leafLabel operand) line (.var name)))
  (integer : ∀ operand line value,
    motive operand (.integer line value) (.leaf (Tree.leafLabel operand) line (.int value)))
  (real : ∀ operand line value,
    motive operand (.real line value) (.leaf (Tree.leafLabel operand) line (.int value.truncate)))
  (call : ∀ operand line callee args,
    (∀ e ∈ args, ∀ {ws t}, Plan.ofExpr false e = .ready ws t → motive false e t) →
    motive operand (.call line callee args)
      (.call (Tree.leafLabel operand) line callee (Arg.ofExprs args)))
  (sign : ∀ operand line e t, motive true e t → motive operand (.sign line e) (t.negated line))
  (add : ∀ operand line op left right t u, motive true left t → motive true right u →
    motive operand (.add line op left right) (.joined line (.ofAddOp op) t u))
  (mul : ∀ operand line op left right t u, motive true left t → motive true right u →
    motive operand (.mul line op left right) (.joined line (.ofMulOp op) t u))

include var integer real call sign add mul

/-- What holds of every node of a tree, given that it holds of the nodes below, holds of the tree of
every expression. -/
theorem tree_induction : ∀ (e : Expr) {operand : Bool} {ws : List Warning} {t : Tree},
    Plan.ofExpr operand e = .ready ws t → motive operand e t
  | .var line name, operand, _, _, h => by
    simp only [Plan.ofExpr, Plan.ready.injEq] at h
    exact h.2 ▸ var operand line name
  | .integer line value, operand, _, _, h => by
    simp only [Plan.ofExpr, Plan.ready.injEq] at h
    exact h.2 ▸ integer operand line value
  | .real line value, operand, _, _, h => by
    simp only [Plan.ofExpr, Plan.ready.injEq] at h
    exact h.2 ▸ real operand line value
  | .call line callee args, operand, _, _, h => by
    simp only [Plan.ofExpr, Plan.ready.injEq] at h
    exact h.2 ▸ call operand line callee args fun e _ _ _ he => tree_induction e he
  | .sign line e, operand, _, _, h => by
    rw [Plan.ofExpr, Plan.negated_eq_ready_iff] at h
    obtain ⟨t, he, rfl⟩ := h
    exact sign operand line e t (tree_induction e he)
  | .add line op left right, operand, _, _, h => by
    rw [Plan.ofExpr, Plan.joined_eq_ready_iff] at h
    obtain ⟨_, _, t, u, hl, hr, -, rfl⟩ := h
    exact add operand line op left right t u (tree_induction left hl) (tree_induction right hr)
  | .mul line op left right, operand, _, _, h => by
    obtain ⟨_, h⟩ := Plan.ofExpr_mul_eq_ready h
    rw [Plan.joined_eq_ready_iff] at h
    obtain ⟨_, _, t, u, hl, hr, -, rfl⟩ := h
    exact mul operand line op left right t u (tree_induction left hl) (tree_induction right hr)
  -- these have no tree
  | .element .., _, _, _, h | .relational .., _, _, _, h | .logical .., _, _, _, h
  | .not .., _, _, _, h => by simp [Plan.ofExpr] at h
termination_by e => e

end

/-- The label of a tree is the number of registers that its expression needs. So what is said with
labels can be said of the source, without its tree. -/
theorem label_of_ready {e : Expr} {operand : Bool} {ws : List Warning} {t : Tree}
    (h : Plan.ofExpr operand e = .ready ws t) : t.label = e.registers operand := by
  refine tree_induction (motive := fun operand e t => t.label = e.registers operand)
    ?var ?integer ?real ?call ?sign ?add ?mul e h
  case var | integer | real | call => intros; rfl
  case sign => intro _ _ _ _ ih; exact ih
  case add | mul =>
    intro _ _ _ _ _ t u hl hr
    rw [Tree.label_joined, hl, hr]
    rfl

/-- As an operand, every expression that has a tree needs a register. A side of an operation never
has the label zero. -/
theorem registers_pos {e : Expr} {ws : List Warning} {t : Tree}
    (h : Plan.ofExpr true e = .ready ws t) : 1 ≤ e.registers true := by
  refine tree_induction (motive := fun operand e _ => operand = true → 1 ≤ e.registers true)
    ?var ?integer ?real ?call ?sign ?add ?mul e h rfl
  case var | integer | real | call => intros; simp [registers]
  case sign => intro _ _ _ _ ih _; exact ih rfl
  -- Joining never needs fewer registers than the left side, which is an operand: `hl`.
  case add | mul =>
    intro _ _ _ _ _ _ _ hl _ _
    have := hl rfl
    simp only [registers, joinRegisters]
    split <;> omega

end Expr

end PascalAsm
