import Mathlib
import PascalAsm.Proofs.Correctness.Expressions
import PascalAsm.Proofs.Simulation.Conditions

/-!
# Conditions are compiled correctly

The code of a condition leaves to its goal when the condition comes out as the code is to jump on,
and runs to its end otherwise. It makes the comparisons that short-circuit evaluation makes, and no
others.
-/

namespace PascalAsm

open Assembly Lowering Gen

variable {W : Type}

/-- A pool with all registers free has a register. There are two members at least. -/
theorem Lowering.Pool.Sound.free_ne_nil {p : Pool} (h : p.Sound) (hfull : p.isFull = true) :
    p.free ≠ [] := by
  intro hnil
  have hlength : p.free.length = p.members.length := of_decide_eq_true hfull
  rw [hnil] at hlength
  rcases h.members with hm | hm <;> rw [hm] at hlength <;> simp at hlength

/-- **The code of a condition jumps as the condition says.** Made to jump on `sense`, it ends at the
goal if the condition is `sense`, and behind its last instruction otherwise. The comparisons that it
has made by then are those that short-circuit evaluation asks for, in the same order and with the
same sides, none of them twice. -/
theorem Expr.reaches_of_jumpWhen {e : Expr} {sense : Bool} {goal : String} {s s' : State}
    {c : List Inst} {scope : Scope} {targets : Targets W} {calls : Callees W} {store : Store}
    {m : Machine W} {truth : Bool} {made : List Comparison} {w : W} (hbody : InBody s scope)
    (hfull : s.pool.isFull = true) (hgen : (e.jumpWhen sense goal).run s = ⟨.ok (), s', c⟩)
    (hgoal : goal ∉ labels c) (hcalls : Answers targets calls) (hstore : scope.Holds store m)
    (hvalue : e.outcome calls store 0 m.world = some ((truth, made), w)) :
    ∃ m', Reaches targets c ⟨.ahead c, m, []⟩
        ⟨if truth = sense then .outside goal else .ahead [], m', made⟩ ∧
      made.Pairwise (·.number < ·.number) ∧ scope.SameVariables m m' ∧ m'.world = w := by
  obtain ⟨ha, -, hlabels, -⟩ := jumpWhen_settled hgen
  -- Slots that are open at the end give the layout; those of variables are open from the start.
  let L := Layout.ofScopes s'.scopes (hbody.laid_of_grows ha.scopes)
  have hL : L.Covers s'.scopes := Layout.covers_ofScopes _ _
  have hcount : compareCount c = 0 + compareCount (c ++ []) := by simp
  -- `jumpWhen_resolves` at the start of the code, with nothing compared yet: `hcount`.
  obtain ⟨m', hreaches, hk, hw⟩ := jumpWhen_resolves hcalls hgen hL hbody.sound
    (hbody.sound.free_ne_nil hfull) (.self hlabels.nodup) hcount [] (hbody.holds ha.scopes hL hstore)
    hvalue
  rw [goto_of_notMem hgoal, List.append_nil, List.nil_append] at hreaches
  obtain ⟨hincreasing, -⟩ := outcome_increasing hvalue
  exact ⟨m', hreaches, hincreasing, hbody.sameVariables ha.scopes hL hk, hw⟩

/-! ### A condition with all connectives

The code of `(not (x >= 0) and sqr(y) >= 16) or x = y`, made to jump when the condition is false:
both connectives get a label of their own, at the place where the right side ends. -/

/-- The body of a routine with an argument and a local, while all registers are free. -/
def between : State where
  scopes := [argumentAndLocal]
  pool := .ofRegs [.rdi, .rsi, .rcx]

theorem inBody_between : InBody between argumentAndLocal where
  isOpen := ⟨[], rfl⟩
  laid := ⟨by decide, by decide⟩
  user := by decide
  sound := ⟨.inr rfl, by decide, by decide⟩

/-- A condition with both connectives and a negation, in which a call is made on the way. -/
def nestedCondition : Expr :=
  .logical 1 .or
    (.logical 1 .and (.not 1 (.relational 1 .ge (.var 1 "x") (.integer 1 0)))
      (.relational 1 .ge (.call 1 "sqr" [.var 1 "y"]) (.integer 1 16)))
    (.relational 1 .eq (.var 1 "x") (.var 1 "y"))

/-- What its code is made to be, if it is to jump when the condition is false. -/
def nestedOutcome : Outcome Unit := (nestedCondition.jumpWhen false "otherwise").run between

/-- With `-7` and `4` for the variables, the first two comparisons settle the outcome, and the code
runs to its end. -/
theorem reaches_of_jumpWhen_nested :
    nestedOutcome.result = .ok () ∧
    ∃ m', Reaches squareTargets nestedOutcome.code ⟨.ahead nestedOutcome.code, midwayMachine, []⟩
        ⟨.ahead [], m', [⟨0, -7, 0⟩, ⟨1, 16, 16⟩]⟩ ∧
      argumentAndLocal.SameVariables midwayMachine m' := by
  have hgen : (nestedCondition.jumpWhen false "otherwise").run between =
      ⟨.ok (), nestedOutcome.state, nestedOutcome.code⟩ := by cbv
  have hlabels : labels nestedOutcome.code = [".L1", ".L0"] := by cbv
  -- The goal is outside the code, so that jumping there leaves it.
  have hgoal : "otherwise" ∉ labels nestedOutcome.code := by
    rw [hlabels]
    decide
  have hvalue : nestedCondition.outcome squares.callees minusSevenAndFour 0 () =
      some ((true, [⟨0, -7, 0⟩, ⟨1, 16, 16⟩]), ()) := by cbv
  refine ⟨congrArg Outcome.result hgen, ?_⟩
  obtain ⟨m', hreaches, -, hsame, -⟩ := Expr.reaches_of_jumpWhen inBody_between (by decide) hgen
    hgoal (answers_of_compute compute_squareTargets) holds_midwayMachine hvalue
  exact ⟨m', hreaches, hsame⟩

end PascalAsm
