import PascalAsm.Proofs.Generator.Jumps
import PascalAsm.Proofs.Simulation.Values

/-!
# Running the code of conditions

The code of a condition goes to its goal if the condition comes out as the code is to jump on, and
to what follows it otherwise. On its way it makes the comparisons that the condition asks for.

The code stands somewhere in a body: a jump to the goal leads wherever the body has that label, while
a jump to a label of the code itself leads to its only place.

* **`Resolves`** — code that stands in a body finds the truth value of a condition, and jumps as it
  comes out.

There is one lemma for each form of a condition; `Expr.jumpWhen_resolves` collects them.
-/

namespace PascalAsm

open Assembly Lowering Gen State

variable {W : Type} {targets : Targets W} {calls : Callees W} {L : Layout} {store : Store}
  {body : List Inst}

/-- The jump after a comparison tests the relation. Conditions look at the two numbers that were
compared last, in the order in which the source has them. -/
theorem holds_conditionOf (op : RelOp) (a b : Int32) :
    (conditionOf op).holds a b = op.holds a b := by
  cases op <;> rfl

/-- The jump is taken if the relation comes out as it is to. The inverse condition is the one that
holds where the relation does not, `Condition.holds_inverse`. -/
theorem holds_jumpCondition (op : RelOp) (sense : Bool) (a b : Int32) :
    (if sense then conditionOf op else (conditionOf op).inverse).holds a b =
      decide (op.holds a b = sense) := by
  cases sense with
  | true => simp [holds_conditionOf]
  | false => simp [Condition.holds_inverse, holds_conditionOf]

/-- A comparison compares the values of its sides. It is one step behind the code of the operands,
and the one step that the log of comparisons notes. -/
theorem Lowering.Tree.Computes.compares {x y : Eval W Int32} {left right : Tree} {line : Line}
    {op : RelOp} {s s' : State} {u : Unit} {c k : List Inst} {number : Nat}
    {m : Machine W} {a b : Int32} {w : W} (log : List Comparison)
    (hl : left.Computes targets L store x) (hr : right.Computes targets L store y)
    (h : (Tree.joined line (.compare op) left right).lower.Yields s u s' c)
    (hcov : L.Covers s'.scopes) (hsound : s.pool.Sound) (hfree : s.pool.free ≠ [])
    (hcount : compareCount body = number + compareCount (c ++ k)) (hstore : Holds L store m)
    (hab : Eval.operands (left.label < right.label) x y m.world = some ((a, b), w)) :
    ∃ m', Reaches targets body ⟨.ahead (c ++ k), m, log⟩
        ⟨.ahead k, m', log ++ [⟨number, a, b⟩]⟩ ∧ m'.flags = some (a, b) ∧
      Kept L (Temp s.callDepth) (fun _ => False) m m' ∧ m'.world = w := by
  obtain ⟨dest, rest, hfree⟩ := List.exists_cons_of_ne_nil hfree
  obtain ⟨s₁, s₂, c₁, c₂, src, rfl, hcombine, -, -, hoperands⟩ :=
    hl.operands hr h hcov hsound hfree
  obtain ⟨-, rfl⟩ := yields_emit.1 hcombine
  obtain ⟨m₁, hex, ha, hb, hk, hw⟩ := hoperands hstore hab
  -- nothing is compared on the way, so the number of this comparison is known
  have hstraight : compareCount c₁ = 0 := by
    obtain ⟨-, -, -, hone⟩ := hl.settled.comparison hr.settled h
    rw [compareCount_append] at hone
    exact Nat.succ.inj hone
  rw [List.append_assoc, compareCount_append, hstraight, Nat.zero_add] at hcount
  have hdest : m₁.read? (.reg dest) = some a := congrArg some ha
  have hstep : step targets body ⟨.ahead (.cmpl src (.reg dest) :: k), m₁, log⟩ = _ :=
    step_cmpl hdest hb hcount
  refine ⟨{ m₁ with flags := some (a, b) }, ?_, rfl, ?_, hw⟩
  · rw [List.append_assoc]
    exact (Reaches.ofExecAll _ log hex).tail hstep
  · exact (hk.mono (fun _ h => h) fun _ h => h.elim).trans (.ofRegs rfl fun _ h => h.elim)

section

variable (targets : Targets W) (L : Layout) (body : List Inst) (depth : Nat) (store : Store)

/-- Code that stands in a body, with some code behind it, resolves a condition: control goes to a goal
if the condition comes out as the code is to jump on, and behind the code otherwise. By then exactly
the comparisons have been made that the condition asks for. -/
def Resolves (c k : List Inst) (sense : Bool) (goal : Control)
    (outcome : Eval W (Bool × List Comparison)) : Prop :=
  ∀ ⦃m : Machine W⦄ ⦃truth : Bool⦄ ⦃made : List Comparison⦄ ⦃w : W⦄ (log : List Comparison),
    Holds L store m → outcome m.world = some ((truth, made), w) →
    ∃ m', Reaches targets body ⟨.ahead (c ++ k), m, log⟩
        ⟨if truth = sense then goal else .ahead k, m', log ++ made⟩ ∧
      Kept L (Temp depth) (fun _ => False) m m' ∧ m'.world = w

end

namespace Resolves

variable {depth number : Nat} {c d k : List Inst} {sense : Bool} {goal : Control} {line : Line}
  {op : LogicalOp} {e left right : Expr}

/-- Code that jumps when a condition is false jumps when its negation is true. No code is made for
the negation itself. -/
theorem not (h : Resolves targets L body depth store c k (!sense) goal
      (e.outcome calls store number)) (line : Line) :
    Resolves targets L body depth store c k sense goal
      ((Expr.not line e).outcome calls store number) := by
  intro m truth made w log hstore hv
  obtain ⟨⟨truth', made'⟩, w', hv', hp⟩ := Eval.bind_eq_some_iff.1 hv
  obtain ⟨⟨rfl, rfl⟩, rfl⟩ := by simpa using hp
  obtain ⟨m', hreaches, hk, hw⟩ := h log hstore hv'
  refine ⟨m', ?_, hk, hw⟩
  simpa [Bool.not_eq_eq_eq_not] using hreaches

/-- Where one side alone settles the outcome to jump on, both sides jump to the goal. -/
theorem either
    (hl : Resolves targets L body depth store c (d ++ k) (op = .or) goal
      (left.outcome calls store number))
    (hr : Resolves targets L body depth store d k (op = .or) goal
      (right.outcome calls store (number + left.comparisons))) :
    Resolves targets L body depth store (c ++ d) k (op = .or) goal
      ((Expr.logical line op left right).outcome calls store number) := by
  intro m truth made w log hstore hv
  obtain ⟨truth₁, made₁, w₁, hv₁, hv⟩ := Expr.outcome_logical hv
  obtain ⟨m₁, hreaches₁, hk₁, rfl⟩ := hl log hstore hv₁
  rw [List.append_assoc]
  rcases hv with ⟨hsettled, rfl, rfl, rfl⟩ | ⟨hopen, made₂, rfl, hv₂⟩
  · -- the left side settles the outcome
    refine ⟨m₁, ?_, hk₁, rfl⟩
    rwa [if_pos hsettled] at hreaches₁ ⊢
  · rw [if_neg hopen] at hreaches₁
    obtain ⟨m₂, hreaches₂, hk₂, hw⟩ :=
      hr (log ++ made₁) (hstore.kept hk₁ fun _ => dollar_of_temp) hv₂
    refine ⟨m₂, ?_, hk₁.trans hk₂, hw⟩
    rw [← List.append_assoc log]
    exact hreaches₁.trans hreaches₂

/-- Where one side alone settles the other outcome, the left side jumps past the right one. -/
theorem both {past : String} (hsense : sense ≠ (op = .or : Bool))
    (hl : Resolves targets L body depth store c (d ++ .label past :: k) (!sense) (.ahead k)
      (left.outcome calls store number))
    (hr : Resolves targets L body depth store d (.label past :: k) sense goal
      (right.outcome calls store (number + left.comparisons))) :
    Resolves targets L body depth store (c ++ (d ++ [.label past])) k sense goal
      ((Expr.logical line op left right).outcome calls store number) := by
  intro m truth made w log hstore hv
  obtain ⟨truth₁, made₁, w₁, hv₁, hv⟩ := Expr.outcome_logical hv
  obtain ⟨m₁, hreaches₁, hk₁, rfl⟩ := hl log hstore hv₁
  simp only [List.append_assoc, List.cons_append, List.nil_append]
  rcases hv with ⟨hsettled, rfl, rfl, rfl⟩ | ⟨hopen, made₂, rfl, hv₂⟩
  · -- the left side settles the outcome, and it is not the one to jump on
    have hne : truth ≠ sense := fun e => hsense (e ▸ hsettled)
    rw [if_pos (Bool.eq_not.2 hne)] at hreaches₁
    refine ⟨m₁, ?_, hk₁, rfl⟩
    rwa [if_neg hne]
  · have hsame : truth₁ = sense := by
      rw [Bool.eq_not.2 hopen, Bool.eq_not.2 hsense]
    rw [if_neg (fun e => Bool.eq_not.1 e hsame)] at hreaches₁
    obtain ⟨m₂, hreaches₂, hk₂, hw⟩ :=
      hr (log ++ made₁) (hstore.kept hk₁ fun _ => dollar_of_temp) hv₂
    refine ⟨m₂, ?_, hk₁.trans hk₂, hw⟩
    rw [← List.append_assoc log]
    refine hreaches₁.trans ?_
    by_cases hgoal : truth = sense
    · rwa [if_pos hgoal] at hreaches₂ ⊢
    · -- the label behind the right side is passed by
      rw [if_neg hgoal] at hreaches₂ ⊢
      exact hreaches₂.tail (step_of_exec _ rfl)

end Resolves

namespace Expr

variable {sense : Bool} {goal : String} {s s' : State} {u : Unit} {c k : List Inst} {number : Nat}

/-- A comparison sets the flags, and the jump behind it tests them. The number of the comparison in
the body, by `hcount`, is the one that the outcome counts from. -/
theorem jumpWhen_resolves_comparison (hans : Answers targets calls) {line : Line} {op : RelOp}
    {left right : Expr} (h : ((relational line op left right).jumpWhen sense goal).Yields s u s' c)
    (hcov : L.Covers s'.scopes) (hsound : s.pool.Sound) (hfree : s.pool.free ≠ [])
    (hcount : compareCount body = number + compareCount (c ++ k)) :
    Resolves targets L body s.callDepth store c k sense (goto goal body)
      ((relational line op left right).outcome calls store number) := by
  intro m truth made w log hstore hv
  obtain ⟨ws, t, c', hplan, ht, -, rfl⟩ := yields_jumpWhen_comparison.1 h
  obtain ⟨_, _, tl, tr, hl, hr, -, rfl⟩ := Plan.joined_eq_ready_iff.1 hplan
  obtain ⟨⟨a, b⟩, w', hab, hp⟩ := Eval.bind_eq_some_iff.1 hv
  obtain ⟨⟨rfl, rfl⟩, rfl⟩ := by simpa using hp
  -- Which side is evaluated first is read off the labels of the trees.
  rw [rightFirst, ← label_of_ready hl, ← label_of_ready hr] at hab
  rw [List.append_assoc] at hcount ⊢
  -- `compares` runs the code of the operands; what it leaves in the flags is `hflags`.
  obtain ⟨m₁, hreaches, hflags, hk, hw⟩ := (computes_of_ready hans hl).compares log
    (computes_of_ready hans hr) ht hcov hsound hfree hcount hstore hab
  refine ⟨m₁, hreaches.tail ?_, hk, hw⟩
  show step targets body ⟨.ahead (.jcc _ goal :: k), m₁, _⟩ = _
  rw [step_jcc hflags, holds_jumpCondition]
  simp

/-- **The code of a condition resolves it.** -/
theorem jumpWhen_resolves (hans : Answers targets calls) {e : Expr}
    (h : (e.jumpWhen sense goal).Yields s u s' c) (hcov : L.Covers s'.scopes)
    (hsound : s.pool.Sound) (hfree : s.pool.free ≠ []) (hplaced : Placed body c k)
    (hcount : compareCount body = number + compareCount (c ++ k)) :
    Resolves targets L body s.callDepth store c k sense (goto goal body)
      (e.outcome calls store number) := by
  induction sense, goal, e using jumpWhen.induct generalizing s s' u c k number with
  | case1 sense goal line op left right =>
    exact jumpWhen_resolves_comparison hans h hcov hsound hfree hcount
  | case2 sense goal line e ih => exact (ih h hcov hsound hfree hplaced hcount).not line
  | case3 goal line op left right ihl ihr =>
    obtain ⟨s₁, c₁, c₂, hl, hr, rfl⟩ := yields_jumpWhen_either.1 h
    obtain ⟨ha₁, hp₁, -, hn₁⟩ := jumpWhen_settled hl
    obtain ⟨ha₂, -, -, -⟩ := jumpWhen_settled hr
    rw [List.append_assoc] at hcount
    -- the right side counts on from the comparisons of the left one
    have hcount₂ : compareCount body =
        number + left.comparisons + compareCount (c₂ ++ k) := by
      rw [hcount, compareCount_append, hn₁, Nat.add_assoc]
    have hleft := ihl hl (hcov.of_grows ha₂.scopes) hsound hfree hplaced.left hcount
    have hright := ihr hr hcov (hsound.restored hp₁) (hp₁.free_eq ▸ hfree) hplaced.right hcount₂
    exact hleft.either (ha₁.callDepth ▸ hright)
  | case4 sense goal line op left right hsense ihl ihr =>
    obtain ⟨s₁, c₁, c₂, hl, hr, rfl⟩ := (yields_jumpWhen_both hsense).1 h
    obtain ⟨ha₁, hp₁, -, hn₁⟩ := jumpWhen_settled hl
    obtain ⟨ha₂, -, -, -⟩ := jumpWhen_settled hr
    -- here a left side that settles the condition jumps over the right one
    have hpast : goto (localLabel s.labels) body = .ahead k := hplaced.right.right.goto
    have hplaced₁ := hplaced.left
    simp only [List.append_assoc, List.cons_append, List.nil_append] at hcount hplaced₁
    have hcount₂ : compareCount body =
        number + left.comparisons + compareCount (c₂ ++ .label (localLabel s.labels) :: k) := by
      rw [hcount, compareCount_append, hn₁, Nat.add_assoc]
    have hleft := ihl _ hl (hcov.of_grows ha₂.scopes) hsound hfree hplaced₁ hcount
    have hright := ihr hr hcov (hsound.restored hp₁) (hp₁.free_eq ▸ hfree) hplaced.right.left hcount₂
    rw [hpast, callDepth_draw] at hleft
    rw [ha₁.callDepth, callDepth_draw] at hright
    exact hleft.both hsense hright
  | case5 sense goal e hcomparison hnot hlogical =>
    exact (not_yields_jumpWhen hcomparison hnot hlogical h).elim

end Expr

end PascalAsm
