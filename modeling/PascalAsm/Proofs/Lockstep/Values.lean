import PascalAsm.Proofs.Lockstep.Basic

/-!
# Values in lockstep

The code of an expression and of a condition is the same in both generations, but for the numbers of
labels: `Expr.repeats_lower` and `Expr.mirrors_jumpWhen`.

Two things are not as plain as the steps that they are made of. A call takes the registers of its
arguments out of the pool by name, and a fourth argument travels in the register that only one of the
pools may have; `State.Lockstep.claim_release` says that after the call the pools agree all the same. And
the pool is asked at the end whether it is balanced, by counts that differ on the two sides; that they
are in order follows on each side from `Tree.Settled` alone.
-/

namespace PascalAsm

open Assembly Lowering Gen State

namespace Lowering

variable {o : Pairing} {k : Nat} {s t : State}

/-! ## Registers taken by name -/

namespace Pairing

variable (o : Pairing)

/-- The registers of some arguments do not include the one that only the second pool has; or they
include all registers of both pools. -/
theorem argumentRegs_cases (n : Nat) :
    (∀ r ∈ o.extra, r ∉ Convention.argumentRegs.take n) ∨
      o.own ⊆ (Convention.argumentRegs.take n).filter (· ∈ o.own) ∧
        (Convention.argumentRegs.take n).filter (· ∈ o.own ++ o.extra) =
          (Convention.argumentRegs.take n).filter (· ∈ o.own) ++ o.extra := by
  rcases o.registers with ⟨hextra, -⟩ | ⟨hextra, hown⟩
  · rw [hextra]
    exact .inl (List.forall_mem_nil _)
  · rw [hextra, hown]
    -- the fourth argument is the one that travels in the third register of the pool
    match n with
    | 0 | 1 | 2 | 3 => exact .inl (by decide)
    | n + 4 =>
      have hall : Convention.argumentRegs.take (n + 4) = Convention.argumentRegs :=
        List.take_of_length_le (Nat.le_add_left 4 n)
      rw [hall]
      exact .inr (by decide)

/-- Taken out for some arguments and put back on top, the free registers are in the same order in
both pools. -/
theorem claimed_append_filter {free : List Reg} (n : Nat) (hs : free ⊆ o.own) :
    (Convention.argumentRegs.take n).filter (· ∈ o.own ++ o.extra) ++ (free ++ o.extra).filter
        (· ∉ (Convention.argumentRegs.take n).filter (· ∈ o.own ++ o.extra)) =
      (Convention.argumentRegs.take n).filter (· ∈ o.own) ++
        free.filter (· ∉ (Convention.argumentRegs.take n).filter (· ∈ o.own)) ++ o.extra := by
  rw [List.filter_append]
  rcases o.argumentRegs_cases n with hnone | ⟨hall, heq⟩
  · have hsame : (Convention.argumentRegs.take n).filter (· ∈ o.own ++ o.extra) =
        (Convention.argumentRegs.take n).filter (· ∈ o.own) := by
      refine List.filter_congr fun r hr => ?_
      have : r ∉ o.extra := fun hr' => hnone r hr' hr
      simp [this]
    have hextra : o.extra.filter (· ∉ (Convention.argumentRegs.take n).filter (· ∈ o.own)) =
        o.extra := by
      rw [List.filter_eq_self]
      intro r hr
      simp [hnone r hr]
    rw [hsame, hextra, List.append_assoc]
  · -- all registers were taken, so nothing is left in either pool
    generalize (Convention.argumentRegs.take n).filter (· ∈ o.own) = taken at hall heq
    have hfree (more : List Reg) : free.filter (· ∉ taken ++ more) = [] := by
      rw [List.filter_eq_nil_iff]
      intro r hr
      simp [hall (hs hr)]
    have hextra : o.extra.filter (· ∉ taken ++ o.extra) = [] := by
      rw [List.filter_eq_nil_iff]
      intro r hr
      simp [hr]
    have hown := hfree []
    rw [List.append_nil] at hown
    rw [heq, hfree, hextra, hown, List.append_nil, List.append_nil, List.append_nil]

end Pairing

/-- A call takes the registers of its arguments and puts them back on top. If that is possible in the
first pool it is in the second, and they are in lockstep again. -/
theorem State.Lockstep.claim_release (h : s.Lockstep o k t) {n : Nat} {claimed : List Reg}
    {s₁ s' : State} {u : Unit} {c c' : List Inst}
    (hclaim : (claim (Convention.argumentRegs.take n)).Yields s claimed s₁ c)
    (hrelease : (release claimed).Yields s₁ u s' c') :
    ∃ claimed' t₁ t', (claim (Convention.argumentRegs.take n)).Yields t claimed' t₁ [] ∧
      (release claimed').Yields t₁ () t' [] ∧ s'.Lockstep o k t' := by
  have hwanted : (Convention.argumentRegs.take n).Nodup :=
    List.Nodup.sublist (List.take_sublist n _) (by decide)
  obtain ⟨-, rfl, left, hleft, rfl⟩ := claim_spec hclaim
  rw [h.pool.members] at *
  obtain ⟨claimed', t₁, hclaim'⟩ := exists_claim (s := t) _ hwanted fun r hr hmem => by
    -- what was there to be claimed from the first pool is there in the second
    rw [h.pool.members', List.mem_append] at hmem
    rw [h.pool.free, List.mem_append]
    refine hmem.imp_left fun hown => hleft.subset (List.mem_append_left _ ?_)
    exact List.mem_filter.2 ⟨hr, decide_eq_true hown⟩
  obtain ⟨t', hrelease'⟩ := exists_release_of_claim h.pool.nodup_second hclaim'
  refine ⟨claimed', t₁, t', hclaim', hrelease', ?_⟩
  have hfree := free_of_claim h.pool.nodup hclaim
  have hfree' := free_of_claim h.pool.nodup_second hclaim'
  obtain ⟨-, rfl, left', hleft', rfl⟩ := claim_spec hclaim'
  obtain ⟨-, rfl⟩ := release_spec hrelease
  obtain ⟨-, rfl⟩ := release_spec hrelease'
  simp only [pool_withPool, Pool.free_moved] at hfree hfree'
  subst hfree hfree'
  simp only [withPool_withPool, pool_withPool, Pool.moved_moved, Pool.free_moved]
  refine h.withPool (h.pool.moved ?_ ?_ ?_ ..)
  · rw [h.pool.members', h.pool.free]
    exact o.claimed_append_filter n h.pool.subset
  · exact hleft.nodup_iff.2 h.pool.nodup
  · exact List.Subset.trans hleft.subset h.pool.subset

namespace Gen

/-! ## Calls -/

/-- A call is made twice alike if its arguments are staged twice alike. The depth of calls is the
same in both, so the temporaries have the same names. -/
theorem repeats_callRoutine {callee : String} {count : Nat} {line : Line}
    {stage : Nat → Gen (List Operand)} (hstage : ∀ depth, (stage depth).Repeats o k) :
    (callRoutine callee count line stage).Repeats o k := by
  intro s t s' u c hst hm
  obtain ⟨hcount, operands, s₁, s₂, c₁, claimed, hs, hclaim, hrelease, rfl⟩ :=
    yields_callRoutine.1 hm
  have hinner : State.Lockstep o k { s with callDepth := s.callDepth + 1 }
      { t with callDepth := t.callDepth + 1 } :=
    { hst with callDepth := congrArg (· + 1) hst.callDepth }
  obtain ⟨_, t₁, d₁, ht, rfl, hst₁, hd₁⟩ := hstage s.callDepth hinner hs
  rw [← hst.callDepth] at ht
  -- both calls end one level further out again
  have houter : State.Lockstep o k { s₁ with callDepth := s₁.callDepth - 1 }
      { t₁ with callDepth := t₁.callDepth - 1 } :=
    { hst₁ with callDepth := congrArg (· - 1) hst₁.callDepth }
  obtain ⟨claimed', t₂, t', hclaim', hrelease', hst'⟩ := houter.claim_release hclaim hrelease
  have hload : Straight (loadArgs operands ++ [clear Convention.vectorCountReg, .call callee]) := by
    simp [straight_loadArgs, clear, Inst.isStraight]
  exact ⟨(), t', _, yields_callRoutine.2
    ⟨hcount, operands, t₁, t₂, d₁, claimed', ht, hclaim', hrelease', rfl⟩, rfl, hst',
    List.rel_append hd₁ hload.renumbered⟩

theorem repeats_saveAll (depth : Nat) : ∀ regs : List Reg, (saveAll depth regs).Repeats o (k + 1)
  | [] => repeats_pure _
  | r :: rest => by
    refine (repeats_tempOperand _).andThen fun slot => ?_
    refine (repeats_emit (by simp [Inst.isStraight])).andThen fun _ => ?_
    exact (repeats_saveAll depth rest).andThen fun _ => repeats_pure _

/-- Inside an expression, a call saves the registers that are in use, which are the same twice. -/
theorem repeats_callValue {callee : String} {count : Nat} {line : Line} {dest : Reg}
    {stage : Nat → Gen (List Operand)} (hstage : ∀ depth, (stage depth).Repeats o (k + 1)) :
    (callValue callee count line dest stage).Repeats o (k + 1) := by
  intro s t s' u c hst hm
  obtain ⟨hbuiltin, saved, s₁, s₂, c₁, c₂, hs, hcall, rfl, rfl⟩ := yields_callValue.1 hm
  obtain ⟨_, t₁, d₁, ht, rfl, hst₁, hd₁⟩ := repeats_saveAll _ _ hst hs
  rw [← hst.callDepth, ← hst.pool.held_eq] at ht
  -- for the call both pools are full
  have hfull : s₁.pool.reset.Paired o t₁.pool.reset := by
    have hown := List.nodup_append.1 o.nodup
    refine hst₁.pool.moved ?_ ?_ ?_ 0 0 0 0
    · rw [hst₁.pool.members', hst₁.pool.members]
    · rw [hst₁.pool.members]
      exact hown.1
    · rw [hst₁.pool.members]
      exact List.Subset.refl _
  obtain ⟨_, t₂, d₂, hcall', -, hst₂, hd₂⟩ :=
    repeats_callRoutine hstage (hst₁.withPool hfull) hcall
  have hrestored : (s₂.pool.restore s₁.pool.free).Paired o (t₂.pool.restore t₁.pool.free) :=
    hst₂.pool.moved hst₁.pool.free hst₁.pool.nodup hst₁.pool.subset 0 0 0 0
  have hload : Straight (saved.map (fun q => Inst.movl q.2 (.reg q.1)) ++
      [.movl (.reg Convention.resultReg) (.reg dest)]) := by
    rw [Straight.append_iff]
    refine ⟨fun i hi => ?_, by simp [Inst.isStraight]⟩
    obtain ⟨_, -, rfl⟩ := List.mem_map.1 hi
    rfl
  exact ⟨(), _, _, yields_callValue.2 ⟨hbuiltin, saved, t₁, t₂, d₁, d₂, ht, hcall', rfl, rfl⟩, rfl,
    hst₂.withPool hrestored, List.rel_append hd₁ (List.rel_append hd₂ hload.renumbered)⟩

/-! ## Combining -/

theorem repeats_divide (result : Reg) (divisor : Operand) (dest : Reg) :
    (divide result divisor dest).Repeats o (k + 1) := by
  have hdivide (divisor : Operand) : (emit (divideCode result divisor dest)).Repeats o (k + 1) :=
    repeats_emit (by simp [divideCode, Inst.isStraight])
  unfold divide
  refine Mirrors.ite ?_ (hdivide divisor)
  refine (repeats_tempOperand _).andThen fun slot => ?_
  exact (repeats_emit (by simp [Inst.isStraight])).andThen fun _ => hdivide slot

theorem repeats_combine (op : BinOp) (src : Operand) (dest : Reg) :
    (combine op src dest).Repeats o (k + 1) := by
  cases op with
  | add | sub | mul => exact repeats_emit (by simp [Inst.isStraight])
  | div | mod => exact repeats_divide _ _ _
  | compare => exact mirrors_emit (renumbered_self rfl rfl)

end Gen

/-! ## Trees -/

namespace Tree

variable {left right child : Tree}

theorem repeats_leaf (label : Nat) (line : Line) (leaf : Leaf) :
    (Tree.leaf label line leaf).lower.Repeats o (k + 1) := by
  rw [Tree.lower]
  refine (repeats_requireRegs label line).andThen fun _ => repeats_target.andThen fun dest => ?_
  refine (repeats_leafOperand line leaf).andThen fun src => ?_
  exact repeats_emit (by simp [Inst.isStraight])

theorem repeats_call {args : List Arg}
    (hstage : ∀ depth, (Arg.stageAll depth 0 args).Repeats o (k + 1)) (label : Nat) (line : Line)
    (callee : String) : (Tree.call label line callee args).lower.Repeats o (k + 1) := by
  rw [Tree.lower]
  refine (repeats_requireRegs label line).andThen fun _ => repeats_target.andThen fun dest => ?_
  exact repeats_callValue hstage

theorem repeats_negated (h : child.lower.Repeats o (k + 1)) (line : Line) :
    (child.negated line).lower.Repeats o (k + 1) := by
  rw [Tree.negated, Tree.lower]
  refine (repeats_requireRegs _ line).andThen fun _ => h.andThen fun _ => ?_
  exact repeats_target.andThen fun dest => repeats_emit (by simp [Inst.isStraight])

theorem repeats_joined (hl : left.lower.Repeats o (k + 1)) (hr : right.lower.Repeats o (k + 1))
    (line : Line) (op : BinOp) : (Tree.joined line op left right).lower.Repeats o (k + 1) := by
  rw [Tree.joined, Tree.lower_binary]
  refine (repeats_requireRegs _ line).andThen fun _ => ?_
  -- Three orders, as `Tree.lower_binary` has them; the label decides alike in both.
  split
  · refine hl.andThen fun _ => (repeats_leafOperand _ _).andThen fun src => ?_
    exact repeats_target.andThen fun dest => repeats_combine op src dest
  · refine Mirrors.ite ?_ ?_
    · refine repeats_swapTop.andThen fun _ => hr.andThen fun _ => ?_
      refine repeats_allocate.andThen fun held => hl.andThen fun _ => ?_
      refine repeats_target.andThen fun dest => (repeats_combine op _ dest).andThen fun _ => ?_
      exact (repeats_free held).andThen fun _ => repeats_swapTop
    · refine hl.andThen fun _ => repeats_allocate.andThen fun held => hr.andThen fun _ => ?_
      refine repeats_target.andThen fun src => (repeats_combine op _ held).andThen fun _ => ?_
      exact repeats_free held

end Tree

namespace Gen

/-! ## Values in registers and flags -/

theorem repeats_compute {t : Tree} (ht : t.Settled) (h : t.lower.Repeats o k) (line : Line) :
    (compute line t.lower).Repeats o k := by
  intro s s₂ s' r c hst hm
  obtain ⟨s₁, hlower, -, hallocate, -⟩ := yields_compute.1 hm
  obtain ⟨_, t₁, d, hlower', -, hst₁, hd⟩ := h hst hlower
  obtain ⟨_, t', _, hallocate', rfl, hst', hnil⟩ := repeats_allocate hst₁ hallocate
  obtain ⟨rest, hfree, rfl, rfl⟩ := yields_allocate.1 hallocate'
  -- the pool of the second generation is balanced because the tree settles there too
  obtain ⟨-, hrestored, -⟩ := ht hlower'
  have htaken : s₂.pool.Taken (t₁.withPool (t₁.pool.moved rest 1 0)).pool r := by
    obtain ⟨n, hn⟩ := hrestored
    rw [hn, Pool.free_moved] at hfree
    exact ⟨rest, n, hfree, by simp [hn]⟩
  exact ⟨r, _, d, yields_compute.2 ⟨t₁, hlower', hrestored.balance, hallocate', htaken.balance⟩, rfl,
    hst', hd⟩

theorem repeats_plan_lower {plan : Plan} (line : Line)
    (ht : ∀ {ws t}, plan = .ready ws t → t.Settled ∧ t.lower.Repeats o k) :
    (plan.lower line).Repeats o k := by
  cases plan with
  | ready ws t =>
    obtain ⟨hsettled, hlower⟩ := ht rfl
    rw [Plan.lower]
    exact (repeats_warnAll ws).andThen fun _ => repeats_compute hsettled hlower line
  -- After its warnings a plan that was given up fails, and nothing has to be mirrored.
  | rejected ws construct place =>
    rw [Plan.lower]
    exact (repeats_warnAll ws).andThen fun _ => mirrors_fail

theorem repeats_computed {plan : Plan} (line : Line) (depth index : Nat)
    (ht : ∀ {ws t}, plan = .ready ws t → t.Settled ∧ t.lower.Repeats o (k + 1)) :
    ((Arg.computed line plan).stage depth index).Repeats o (k + 1) := by
  rw [Arg.stage]
  refine (repeats_plan_lower line ht).andThen fun r => (repeats_tempOperand _).andThen fun slot => ?_
  refine (repeats_emit (by simp [Inst.isStraight])).andThen fun _ => ?_
  exact (repeats_free r).andThen fun _ => repeats_pure _

theorem repeats_stage {e : Expr} (depth index : Nat) (ht : ∀ {ws t},
      Plan.ofExpr false e = .ready ws t → t.Settled ∧ t.lower.Repeats o (k + 1)) :
    ((Arg.ofPlan e (Plan.ofExpr false e)).stage depth index).Repeats o (k + 1) := by
  cases e with
  | var =>
    rw [Arg.ofPlan, Arg.stage]
    exact repeats_varOperand _ _
  | integer =>
    rw [Arg.ofPlan, Arg.stage]
    exact repeats_pure _
  | element =>
    rw [Arg.ofPlan, Arg.stage]
    exact mirrors_fail
  | _ => exact repeats_computed _ depth index ht

theorem repeats_stageAll (depth : Nat) : ∀ {es : List Expr} (index : Nat),
    (∀ e ∈ es, ∀ {ws t}, Plan.ofExpr false e = .ready ws t →
      t.Settled ∧ t.lower.Repeats o (k + 1)) →
    (Arg.stageAll depth index (Arg.ofExprs es)).Repeats o (k + 1)
  | [], _, _ => by
    rw [Arg.ofExprs, Arg.stageAll]
    exact repeats_pure _
  | e :: rest, index, ht => by
    rw [Arg.ofExprs, Arg.stageAll]
    refine (repeats_stage depth index (ht e List.mem_cons_self)).andThen fun op => ?_
    refine Mirrors.andThen (repeats_stageAll depth (index + 1) ?_) fun _ => repeats_pure _
    exact fun e' he' => ht e' (List.mem_cons_of_mem e he')

end Gen

end Lowering

namespace Expr

variable {o : Pairing} {k : Nat}

/-- The tree of an expression is computed twice alike. By induction on the plan. The order of the
sides is decided by labels, which are those of the same tree. -/
theorem repeats_of_ready {e : Expr} {operand : Bool} {ws : List Warning} {t : Tree}
    (h : Plan.ofExpr operand e = .ready ws t) : t.lower.Repeats o (k + 1) := by
  refine tree_induction (motive := fun _ _ t => t.lower.Repeats o (k + 1))
    ?var ?integer ?real ?call ?sign ?add ?mul e h
  case var | integer | real => intros; exact Tree.repeats_leaf ..
  -- Only a call needs more than its parts: that their trees are settled.
  case call =>
    intro _ line callee args ih
    refine Tree.repeats_call (fun depth => repeats_stageAll depth 0 fun e he _ _ hplan => ?_) _ line _
    exact ⟨settled_of_ready hplan, ih e he hplan⟩
  case sign => intro _ line _ _ ih; exact Tree.repeats_negated ih line
  case add => intro _ line op _ _ _ _ hl hr; exact Tree.repeats_joined hl hr line _
  case mul => intro _ line op _ _ _ _ hl hr; exact Tree.repeats_joined hl hr line _

theorem repeats_lower (e : Expr) : e.lower.Repeats o (k + 1) :=
  repeats_plan_lower _ fun h => ⟨settled_of_ready h, repeats_of_ready h⟩

theorem repeats_stageAll (args : List Expr) (depth : Nat) :
    (Expr.stageAll args depth).Repeats o (k + 1) :=
  Gen.repeats_stageAll depth 0 fun _ _ _ _ h => ⟨settled_of_ready h, repeats_of_ready h⟩

/-- A comparison sets the flags twice alike, and is followed by a jump. The code of the sides is
straight, and only the goal is renumbered. -/
theorem mirrors_comparison {line : Line} {op : RelOp} {left right : Expr} {sense : Bool}
    {goal goal' : String} (hgoal : LabelMoved o.distance goal goal') :
    ((relational line op left right).jumpWhen sense goal).Mirrors o (k + 1) Eq
      ((relational line op left right).jumpWhen sense goal') := by
  intro s s₂ s' u c hst hm
  obtain ⟨ws, t, c', hplan, ht, -, rfl⟩ := yields_jumpWhen_comparison.1 hm
  obtain ⟨_, _, tl, tr, hl, hr, -, rfl⟩ := Plan.joined_eq_ready_iff.1 hplan
  obtain ⟨vs, hs, hs₂⟩ := hst.warnings
  -- The warnings of the plan come first, in both states.
  have hwarned : State.Lockstep o (k + 1) { s with warnings := s.warnings ++ ws }
      { s₂ with warnings := s₂.warnings ++ ws } :=
    { hst with warnings := ⟨vs ++ ws, by simp [hs], by simp [hs₂]⟩ }
  have hjoined : (Tree.joined line (.compare op) tl tr).lower.Repeats o (k + 1) :=
    Tree.repeats_joined (repeats_of_ready hl) (repeats_of_ready hr) line _
  obtain ⟨_, t', d, ht', -, hst', hd⟩ := hjoined hwarned ht
  obtain ⟨-, hrestored, -⟩ := (settled_of_ready hl).comparison (settled_of_ready hr) ht'
  exact ⟨(), t', _, yields_jumpWhen_comparison.2 ⟨ws, _, d, hplan, ht', hrestored.balance, rfl⟩, rfl,
    hst', List.rel_append hd (.cons (.jcc hgoal) .nil)⟩

/-- A condition jumps to labels at the same distance as those that it was handed. By induction along
the recursion of `jumpWhen`. -/
theorem mirrors_jumpWhen {e : Expr} {sense : Bool} {goal goal' : String}
    (hgoal : LabelMoved o.distance goal goal') :
    (e.jumpWhen sense goal).Mirrors o (k + 1) Eq (e.jumpWhen sense goal') := by
  induction sense, goal, e using jumpWhen.induct generalizing goal' with
  | case1 sense goal line op left right => exact mirrors_comparison hgoal
  | case2 sense goal line e ih => exact ih hgoal
  | case3 goal line op left right ihl ihr =>
    rw [jumpWhen, jumpWhen, if_pos rfl, if_pos rfl]
    exact (ihl hgoal).andThen fun _ => ihr hgoal
  -- The label drawn here is the only one that is not handed on: `mirrors_newLabel` relates the two.
  | case4 sense goal line op left right hsense ihl ihr =>
    rw [jumpWhen, jumpWhen, if_neg hsense, if_neg hsense]
    refine mirrors_newLabel.bind fun past past' hpast => ?_
    refine (ihl past hpast).andThen fun _ => (ihr hgoal).andThen fun _ => ?_
    exact mirrors_emit (.cons (.label hpast) .nil)
  | case5 sense goal e hcomparison hnot hlogical =>
    exact fun _ _ _ _ _ _ h => (not_yields_jumpWhen hcomparison hnot hlogical h).elim

end Expr

end PascalAsm
