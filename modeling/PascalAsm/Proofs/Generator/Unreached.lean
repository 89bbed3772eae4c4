import PascalAsm.Proofs.Generator.Yields

/-!
# Errors that do not come up

In four places the generator looks once more at what it has made sure of before, and has an error for
the case that this is not so: a call or an operation that is to be an operand, a tree that is to set
the flags and does not compare, and a parameter without a register. No program brings these errors
about. For each of the functions concerned there is an equation without them, and all that is shown
about a function is shown from its equation.

* **`Tree.lower_binary`** — the right side is asked for an operand only where it is a leaf.
* **`Expr.lowerComparison_eq`** — the tree of a comparison compares, and with the same relation.
* **`Routine.lowerBody_eq_stores`** — when the parameters are counted, all of them have registers.
-/

namespace PascalAsm

open Assembly Lowering Gen

/-! ## Operands -/

namespace Lowering

/-- Where there is a leaf, there is no defect. `Tree.lower` asks for an operand only after it has
found that there is one. -/
theorem Gen.treeOperand_of_leaf? {t : Tree} {line : Line} {leaf : Leaf}
    (h : t.leaf? = some (line, leaf)) : treeOperand t = leafOperand line leaf := by
  cases t with
  | leaf label l leaf' =>
    obtain ⟨rfl, rfl⟩ := Prod.mk.inj (Option.some.inj h)
    rfl
  | call | negate | binary => simp [Tree.leaf?] at h

/-- The right side of an operation is asked for an operand only if it is a leaf, so that the question
is answered. -/
theorem Tree.lower_binary (label : Nat) (line : Line) (op : BinOp) (left right : Tree) :
    (Tree.binary label line op left right).lower = (do
      requireRegs label line
      match right.leaf? with
      | some (place, value) =>
        left.lower
        let src ← leafOperand place value
        let dest ← target
        combine op src dest
      | none =>
        if left.label < right.label then
          swapTop
          right.lower
          let held ← allocate
          left.lower
          let dest ← target
          combine op (.reg held) dest
          free held
          swapTop
        else
          left.lower
          let held ← allocate
          right.lower
          let src ← target
          combine op (.reg src) held
          free held) := by
  rw [Tree.lower, Tree.isOperand]
  cases hright : right.leaf? with
  | none => rfl
  | some p =>
    obtain ⟨place, value⟩ := p
    simp only [Option.isSome_some, if_true, treeOperand_of_leaf? hright]

/-! ## Comparisons -/

/-- Carries out the plan of a comparison: its outcome ends in the flags. Since plans of comparisons
always have a comparison at the root, this is all that is left of `Expr.lowerComparison`. -/
def Plan.lowerFlags (line : Line) (plan : Plan) : Gen Unit := do
  let tree ← plan.tree
  setFlags line tree.lower

/-- The tree of a comparison tests the relation that was asked for. So the defect of a tree without
one is never raised. -/
theorem Plan.relation?_of_ofComparison {line : Line} {op : RelOp} {left right : Expr}
    {ws : List Warning} {t : Tree} (h : Plan.ofComparison line op left right = .ready ws t) :
    t.relation? = some op := by
  rw [ofComparison] at h
  -- Both sides have to be ready for the plan to be, and then the root of the tree is `op`.
  cases hl : Plan.ofExpr true left with
  | rejected ws c l => simp [hl, Plan.joined] at h
  | ready ws l =>
    cases hr : Plan.ofExpr true right with
    | rejected ws' c l' => simp [hl, hr, Plan.joined] at h
    | ready ws' r =>
      rw [hl, hr, Plan.joined] at h
      obtain ⟨-, rfl⟩ := Plan.ready.inj h
      rfl

end Lowering

/-- The relation that is read off the tree is the one in the source. In this form the defect is
gone, and `yields_jumpWhen_comparison` starts from it. -/
theorem Expr.lowerComparison_eq (e : Expr) : e.lowerComparison = (do
    let (op, plan) ← Gen.ofExcept (Plan.ofCondition e)
    plan.lowerFlags e.line
    return op) := by
  refine Gen.ext fun s => ?_
  rw [lowerComparison]
  cases hplan : Plan.ofCondition e with
  | error err => rfl
  | ok p =>
    obtain ⟨op, plan⟩ := p
    cases plan with
    | rejected ws c l => rfl
    | ready ws t =>
      -- Only a comparison has a plan as a condition, by `hplan`; its tree is a comparison too.
      have hrelation : t.relation? = some op := by
        cases e <;> simp only [Plan.ofCondition, reduceCtorEq, Except.ok.injEq, Prod.mk.injEq] at hplan
        exact hplan.1 ▸ Plan.relation?_of_ofComparison hplan.2
      have hok : ofExcept (.ok (op, Plan.ready ws t)) = (pure (op, Plan.ready ws t) : Gen _) := rfl
      simp only [hok, pure_bind, Plan.lowerFlags, Plan.tree, bind_assoc, hrelation]

/-! ## Parameters -/

namespace Lowering.Gen

variable {slots : List Slot} {s s' : State} {c : List Inst}

/-- Every name gets a slot. A name that cannot get one ends the whole. -/
theorem length_of_addSlots {region : Region} {names : List String}
    (h : (addSlots region names).Yields s slots s' c) : slots.length = names.length := by
  induction names generalizing slots s s' c with
  | nil =>
    obtain ⟨rfl, -⟩ := yields_pure.1 h
    rfl
  | cons name rest ih =>
    obtain ⟨slot, s₁, c₁, c₂, -, h, -⟩ := yields_bind.1 h
    obtain ⟨slots', s₂, c₃, c₄, hrest, h, -⟩ := yields_bind.1 h
    obtain ⟨rfl, -⟩ := yields_pure.1 h
    simp [ih hrest]

/-- Every parameter gets a slot. With the check on the number of parameters this bounds the number
of slots. -/
theorem length_of_bindParams {ds : List Declaration} (h : (bindParams ds).Yields s slots s' c) :
    slots.length = (ds.flatMap (·.names)).length := by
  induction ds generalizing slots s s' c with
  | nil =>
    obtain ⟨rfl, -⟩ := yields_pure.1 h
    rfl
  | cons d rest ih =>
    cases d with
    | arrays line names => simp [bindParams] at h
    | vars line names type =>
      have hslots {s₁ : State} {c₁ : List Inst}
          (h : (do let slots ← addSlots .argument names
                   return slots ++ (← bindParams rest)).Yields s₁ slots s' c₁) :
          slots.length = ((Declaration.vars line names type :: rest).flatMap (·.names)).length := by
        obtain ⟨first, s₂, c₂, c₃, hfirst, h, -⟩ := yields_bind.1 h
        obtain ⟨others, s₃, c₄, c₅, hothers, h, -⟩ := yields_bind.1 h
        obtain ⟨rfl, -⟩ := yields_pure.1 h
        simp [length_of_addSlots hfirst, ih hothers, Declaration.names]
      rw [bindParams] at h
      split at h
      · obtain ⟨_, s₁, c₁, c₂, -, h, -⟩ := yields_bind.1 h
        exact hslots h
      · exact hslots h

/-- The instructions that copy argument registers into slots, one for each. It is what
`Gen.storeParams` comes to once no register is missing. -/
def paramStores (index : Nat) (slots : List Slot) : List Inst :=
  (Convention.argumentRegs.drop index).zipWith (fun r slot => .movl (.reg r) slot.operand) slots

/-- As long as there are registers, every slot gets what is in one. The error of a missing register
is raised only beyond the bound. -/
theorem storeParams_eq {index : Nat} (h : index + slots.length ≤ Convention.maxArguments) :
    storeParams index slots = emit (paramStores index slots) := by
  -- `hindex` is where the bound `h` is used: the register of this slot exists.
  induction slots generalizing index with
  | nil => simp [storeParams, paramStores]; rfl
  | cons slot rest ih =>
    rw [List.length_cons] at h
    have hindex : index < Convention.argumentRegs.length := by
      rw [← Convention.maxArguments]
      omega
    have hreg : argumentReg index = .ok Convention.argumentRegs[index] := by
      rw [argumentReg, List.getElem?_eq_getElem hindex]
    rw [storeParams, hreg, ih (by omega), paramStores, paramStores,
      List.drop_eq_getElem_cons hindex]
    rfl

end Lowering.Gen

namespace Routine

/-- The parameters are counted before they are laid out, so there is a register for each of them. -/
theorem lowerBody_eq_stores (r : Routine) (comments : Bool) (nested : Gen Unit) :
    r.lowerBody comments nested = (do
      if Convention.maxArguments < r.paramCount then
        fail (.onLine (.tooManyArguments r.name r.paramCount Convention.maxArguments) r.line)
      let params ← bindParams r.params
      bindLocals r.declarations
      let result ← if r.returnsValue then addSlots .local [r.name] else pure []
      nested
      emit (paramStores 0 params)
      r.body.lower comments
      emit (result.map fun slot => .movl slot.operand (.reg Convention.resultReg))) := by
  -- Too many parameters are refused before anything is laid out.
  by_cases hcount : Convention.maxArguments < r.paramCount
  · rw [lowerBody, if_pos hcount, if_pos hcount]
    rfl
  · rw [lowerBody, if_neg hcount, if_neg hcount]
    refine Gen.ext fun s => ?_
    rcases h : (bindParams r.params).run s with ⟨e | params, s', c⟩
    · rw [run_bind_of_error _ h, run_bind_of_error _ h]
    -- `length_of_bindParams` counts the slots, and `hcount` bounds them.
    · have hlength : params.length = r.paramCount := length_of_bindParams h
      have hparams : 0 + params.length ≤ Convention.maxArguments := by omega
      rw [run_bind_of_ok _ h, run_bind_of_ok _ h, storeParams_eq hparams]

end Routine

end PascalAsm
