import PascalAsm.Proofs.Failures.Basic
import PascalAsm.Proofs.Generator.Jumps

/-!
# How the code of values fails

With as many registers free as the label of its tree says, and one at least, making the code of an
expression fails only for a fault of the source, on a line that some node of the expression stands on.
The labels do the work: the side that is evaluated second has one register less, and needs one less.
-/

namespace PascalAsm

open Assembly Lowering Gen State

/-! ## Lines -/

namespace Expr

mutual

/-- The lines that the nodes of an expression stand on. Each node adds its own, so the line of an
error is that of some node. -/
def lines : Expr → List Line
  | var line _ | integer line _ | real line _ => [line]
  | sign line e | not line e => line :: e.lines
  | add line _ left right | mul line _ left right | relational line _ left right
  | logical line _ left right => line :: (left.lines ++ right.lines)
  | element line _ index => line :: index.lines
  | call line _ args => line :: linesAll args

/-- The lines that the nodes of some expressions stand on. -/
def linesAll : List Expr → List Line
  | [] => []
  | e :: rest => e.lines ++ linesAll rest

end

theorem line_mem_lines (e : Expr) : e.line ∈ e.lines := by
  cases e <;> simp [line, lines]

/-- The lines of the sides of an operation are among its own. The same holds of the right side, and
of the argument of a minus sign. -/
theorem left_lines_subset (line : Line) (left right : Expr) :
    left.lines ⊆ line :: (left.lines ++ right.lines) :=
  List.subset_cons_of_subset line (List.subset_append_left ..)

theorem right_lines_subset (line : Line) (left right : Expr) :
    right.lines ⊆ line :: (left.lines ++ right.lines) :=
  List.subset_cons_of_subset line (List.subset_append_right ..)

end Expr

namespace Lowering

namespace Plan

variable {p q : Plan} {ws : List Warning} {construct : Construct} {line place : Line}

theorem negated_eq_rejected (h : p.negated line = .rejected ws construct place) :
    p = .rejected ws construct place := by
  cases p with
  | ready => simp [negated] at h
  | rejected => exact h

/-- A joined plan is given up for one of its sides. The left one is looked at first, and what is
said of the other one is not heard then. -/
theorem joined_eq_rejected {op : BinOp} (h : p.joined line op q = .rejected ws construct place) :
    ∃ ws', p = .rejected ws' construct place ∨ q = .rejected ws' construct place := by
  -- The left side is looked at first; if it was given up, then so is the whole.
  cases p with
  | ready _ _ =>
    cases q with
    | ready => simp [joined] at h
    | rejected ws' c l =>
      obtain ⟨-, rfl, rfl⟩ : _ ∧ c = construct ∧ l = place := by simpa [joined] using h
      exact ⟨ws', .inr rfl⟩
  | rejected ws' c l =>
    obtain ⟨-, rfl, rfl⟩ : _ ∧ c = construct ∧ l = place := by simpa [joined] using h
    exact ⟨ws', .inl rfl⟩

theorem warned_eq_rejected {w : Warning} (h : p.warned w = .rejected ws construct place) :
    ∃ ws', p = .rejected ws' construct place := by
  cases p with
  | ready => simp [warned] at h
  | rejected ws' c l =>
    obtain ⟨-, rfl, rfl⟩ : _ ∧ c = construct ∧ l = place := by simpa [warned] using h
    exact ⟨ws', rfl⟩

end Plan

end Lowering

/-- A plan is given up because of one of the nodes. By induction on the expression, in which
`joined_eq_rejected` picks the side. -/
theorem Expr.place_mem_lines {construct : Construct} {place : Line} :
    ∀ {e : Expr} {operand : Bool} {ws : List Warning},
    Plan.ofExpr operand e = .rejected ws construct place → place ∈ e.lines
  | .sign line e, _, _, h => by
    rw [Plan.ofExpr] at h
    exact List.mem_cons_of_mem _ (place_mem_lines (Plan.negated_eq_rejected h))
  | .add line op left right, _, _, h => by
    rw [Plan.ofExpr] at h
    obtain ⟨ws', h | h⟩ := Plan.joined_eq_rejected h
    · exact left_lines_subset line left right (place_mem_lines h)
    · exact right_lines_subset line left right (place_mem_lines h)
  | .mul line op left right, _, _, h => by
    have hjoined : ∃ ws', (Plan.ofExpr true left).joined line (.ofMulOp op)
        (Plan.ofExpr true right) = .rejected ws' construct place := by
      simp only [Plan.ofExpr] at h
      split at h
      · exact Plan.warned_eq_rejected h
      · exact ⟨_, h⟩
    obtain ⟨_, h⟩ := hjoined
    obtain ⟨ws', h | h⟩ := Plan.joined_eq_rejected h
    · exact left_lines_subset line left right (place_mem_lines h)
    · exact right_lines_subset line left right (place_mem_lines h)
  | .element .., _, _, h | .relational .., _, _, h | .logical .., _, _, h | .not .., _, _, h => by
    -- such a node is given up itself
    simp only [Plan.ofExpr, Plan.rejected.injEq] at h
    rw [← h.2.2]
    exact line_mem_lines _

namespace Lowering

variable {outer : Scopes} {regs free rest : List Reg} {r : Reg} {lines more : List Line}
  {line : Line}

namespace Gen

/-- With all registers free it does not matter in which order they are. So a fact about one order is
one about all of them, and the free registers may be named. -/
theorem Ends.rested {α : Type} {m : Gen α} {J : α → State → Prop} {E : LoweringError → State → Prop}
    (h : ∀ free, free.Perm regs → Ends (Inside outer regs free) m J E) :
    Ends (Rested outer regs) m J E := by
  constructor
  · rintro s a s' c ⟨free, hperm, hs⟩ hm
    exact (h free hperm).after hs hm
  · rintro s e s' ⟨free, hperm, hs⟩ hm
    exact (h free hperm).fails hs hm

/-! ## Calls -/

/-- Some registers were taken when all were free. They are held while the arguments of the call are
staged, and put back afterwards. -/
def Claimed (outer : Scopes) (regs wanted claimed : List Reg) (s : State) : Prop :=
  ∃ t, t.Rested outer regs ∧ (claim wanted).Yields t claimed s []

variable {E : LoweringError → State → Prop}

theorem ends_newLabel : Ends (Rested outer regs) newLabel (fun _ => Rested outer regs) E :=
  .always fun s hs => ⟨localLabel s.labels, s.draw 1, [], rfl, hs.congr rfl rfl⟩

theorem Rested.exists_claim_release {s : State} (hregs : regs.Nodup) (hs : s.Rested outer regs)
    {wanted : List Reg} (hwanted : wanted.Nodup) : ∃ claimed s₁ s',
      (claim wanted).Yields s claimed s₁ [] ∧ (release claimed).Yields s₁ () s' [] := by
  obtain ⟨free, hperm, hs⟩ := hs
  refine Lowering.exists_claim_release ?_ ?_ wanted hwanted
  · rwa [hs.members]
  · rwa [hs.free, hs.members]

theorem ends_claim (hregs : regs.Nodup) {wanted : List Reg} (hwanted : wanted.Nodup) :
    Ends (Rested outer regs) (claim wanted) (Claimed outer regs wanted) E := by
  refine .always fun s hs => ?_
  obtain ⟨claimed, s₁, -, hclaim, -⟩ := Rested.exists_claim_release hregs hs hwanted
  exact ⟨claimed, s₁, [], hclaim, s, hs, hclaim⟩

theorem ends_release (hregs : regs.Nodup) {wanted claimed : List Reg} (hwanted : wanted.Nodup) :
    Ends (Claimed outer regs wanted claimed) (release claimed) (fun _ => Rested outer regs) E := by
  refine .always fun s ⟨t, ht, hclaim⟩ => ?_
  obtain ⟨_, _, s', hclaim', hrelease⟩ := Rested.exists_claim_release hregs ht hwanted
  obtain ⟨rfl, rfl, -⟩ := hclaim'.unique hclaim
  obtain ⟨_, rfl, free', n, hperm', rfl⟩ := claim_release_even hclaim hrelease
  obtain ⟨free, hperm, ht⟩ := ht
  rw [ht.free] at hperm'
  have hs := ht.withPool (p := t.pool.moved free' n n) rfl rfl
  exact ⟨(), _, [], hrelease, hs.rested (hperm'.trans hperm)⟩

/-- The arguments of a call can be staged, or something in them is to blame. All orders of the free
registers have to be considered, since a call may be inside of an expression. -/
def StageBlames (regs : List Reg) (lines : List Line) (stage : Nat → Gen (List Operand)) : Prop :=
  ∀ ⦃outer depth free⦄, free.Perm regs → Ends (Inside outer regs free) (stage depth)
    (fun _ => Inside outer regs free) (ValueBlame lines outer)

/-- A call fails if its arguments do, or if they are too many. The count is compared before anything
is staged, and it is named in the error. -/
theorem ends_callRoutine (hregs : regs.Nodup) (hline : line ∈ lines) {callee : String} {count : Nat}
    {stage : Nat → Gen (List Operand)} (hstage : StageBlames regs lines stage) :
    Ends (Rested outer regs) (callRoutine callee count line stage) (fun _ => Rested outer regs)
      (ValueBlame lines outer) := by
  have hwanted (n : Nat) : (Convention.argumentRegs.take n).Nodup :=
    List.Nodup.sublist (List.take_sublist n _) (by decide)
  have hstaged (depth : Nat) : Ends (Rested outer regs) (stage depth) (fun _ => Rested outer regs)
      (ValueBlame lines outer) :=
    .rested fun free hperm => (hstage hperm).imp_after fun _ _ hs => hs.rested hperm
  unfold callRoutine
  refine .ite (fun _ => ends_fail_bind fun s hs => ?_) fun _ => .look fun t _ => ?_
  · exact ⟨⟨_, rfl, line, hline, rfl⟩, hs.isOpen⟩
  · -- the depth of calls is no concern of the scopes and of the pool
    refine (ends_modify fun s hs => hs.congr rfl rfl).bind fun _ => ?_
    refine (hstaged _).attempt_bind (fun operands => ?_) fun e => ?_
    · refine (ends_modify fun s hs => hs.congr rfl rfl).bind fun _ => ?_
      refine (ends_claim hregs (hwanted _)).bind fun claimed => ?_
      exact ends_emit.bind fun _ => ends_emit.bind fun _ => ends_release hregs (hwanted _)
    · exact (ends_modify fun s hs => hs.congr rfl).bind fun _ => ends_fail_bind fun s hs => hs

/-- Inside an expression, a call finds the whole pool free, and afterwards the registers that were free
before. -/
theorem ends_callValue (hregs : regs.Nodup) (hline : line ∈ lines) {callee : String} {count : Nat}
    {dest : Reg} {stage : Nat → Gen (List Operand)} (hstage : StageBlames regs lines stage) :
    Ends (Inside outer regs free) (callValue callee count line dest stage)
      (fun _ => Inside outer regs free) (ValueBlame lines outer) := by
  unfold callValue
  refine .ite (fun _ => ends_fail_bind fun s hs => ?_) fun _ => .look fun t _ => ?_
  · exact ⟨⟨_, rfl, line, hline, rfl⟩, hs.isOpen⟩
  · refine (ends_saveAll _ _).bind fun saved => .look fun t ht => ?_
    -- the call finds all registers free, whatever is in use around it
    have hreset (s : State) (hs : s.Inside outer regs free) :
        (s.withPool s.pool.reset).Rested outer regs :=
      (hs.withPool (p := s.pool.reset) rfl hs.members).rested (.refl regs)
    refine (ends_modify hreset).bind fun _ => ?_
    refine (ends_callRoutine hregs hline hstage).attempt_bind (fun _ => ?_) fun e => ?_
    · -- the registers that were free before are free again
      have hrestore (s : State) (hs : s.Rested outer regs) :
          (s.withPool (s.pool.restore t.pool.free)).Inside outer regs free := by
        obtain ⟨_, -, hs⟩ := hs
        exact hs.withPool rfl ht.free
      refine (ends_modify hrestore).bind fun _ => ?_
      exact ends_ofExcept_ok.bind_eq <| ends_emit.bind fun _ => ends_emit
    · exact (ends_modify fun s hs => hs.congr rfl).bind fun _ => ends_fail_bind fun s hs => hs

end Gen

/-! ## Trees -/

/-- With registers enough, making the code of the tree fails only for a fault of the source on one of
some lines, and after a success the same registers are free again. Where the tree needs more registers
than there are, this is noticed before anything is done. -/
def Tree.Blames (regs : List Reg) (lines : List Line) (t : Tree) : Prop :=
  ∀ ⦃outer free⦄, Stack regs free → free ≠ [] → (t.label ≤ regs.length → t.label ≤ free.length) →
    Ends (Inside outer regs free) t.lower (fun _ => Inside outer regs free) (ValueBlame lines outer)

/-- What is begun with enough registers in the pool has enough of them free. The check is passed, so
what follows has the registers that its label asks for. -/
theorem ends_requireRegs_bind {β : Type} {label : Nat} {f : Unit → Gen β} {K : β → State → Prop}
    (hline : line ∈ lines) (hf : label ≤ regs.length →
      Ends (Inside outer regs free) (f ()) K (ValueBlame lines outer)) :
    Ends (Inside outer regs free) (requireRegs label line >>= f) K (ValueBlame lines outer) :=
  (ends_requireRegs hline).bind fun _ =>
    ⟨fun hs hm => (hf hs.1).after hs.2 hm, fun hs hm => (hf hs.1).fails hs.2 hm⟩

namespace Tree

variable {left right : Tree}

theorem Blames.mono {t : Tree} (h : t.Blames regs lines) (hlines : lines ⊆ more) :
    t.Blames regs more := fun _ _ hstack hfree hlabel =>
  (h hstack hfree hlabel).blame_mono (fun _ hf => hf) hlines

theorem blames_leaf (hline : line ∈ lines) (label : Nat) (leaf : Leaf) :
    (Tree.leaf label line leaf).Blames regs lines := by
  intro outer free hstack hfree hlabel
  obtain ⟨r, rest, rfl⟩ := List.exists_cons_of_ne_nil hfree
  rw [Tree.lower]
  refine ends_requireRegs_bind hline fun _ => ends_target.bind_eq ?_
  exact (ends_leafOperand hline).bind fun _ => ends_emit

theorem blames_call (hregs : regs.Nodup) (hline : line ∈ lines) {args : List Arg}
    (hstage : StageBlames regs lines fun depth => Arg.stageAll depth 0 args) (label : Nat)
    (callee : String) : (Tree.call label line callee args).Blames regs lines := by
  intro outer free hstack hfree hlabel
  obtain ⟨r, rest, rfl⟩ := List.exists_cons_of_ne_nil hfree
  rw [Tree.lower]
  exact ends_requireRegs_bind hline fun _ => ends_target.bind_eq (ends_callValue hregs hline hstage)

namespace Blames

theorem negated {t : Tree} (h : t.Blames regs lines) (hline : line ∈ lines) :
    (t.negated line).Blames regs lines := by
  intro outer free hstack hfree hlabel
  have hchild := @h outer _ hstack hfree hlabel
  obtain ⟨r, rest, rfl⟩ := List.exists_cons_of_ne_nil hfree
  rw [Tree.negated, Tree.lower]
  refine ends_requireRegs_bind hline fun _ => hchild.bind fun _ => ?_
  exact ends_target.bind_eq ends_emit

/-- An operation is to blame for nothing but its sides. Taking and giving back registers in between
cannot fail, by the invariant of the pool. -/
theorem joined (hl : left.Blames regs lines) (hr : right.Blames regs lines)
    (hleft : 1 ≤ left.label) (hright : 1 ≤ right.label) (hlines : right.line ∈ lines)
    (hline : line ∈ lines) (op : BinOp) : (Tree.joined line op left right).Blames regs lines := by
  intro outer free hstack hfree hlabel
  rw [Tree.joined, Tree.lower_binary]
  refine ends_requireRegs_bind hline fun hcapacity => ?_
  obtain ⟨hlfree, hrfree, -⟩ := joinLabels_le_iff.1 (hlabel hcapacity)
  obtain ⟨a, rest, rfl⟩ := List.exists_cons_of_ne_nil hfree
  have hleft' := @hl outer _ hstack hfree fun _ => hlfree
  rcases hleaf : right.leaf? with _ | ⟨leafLine, leaf⟩
  · -- both sides are computed, so two registers are free at least
    dsimp only
    obtain ⟨b, rest, rfl, hlsecond, hrsecond⟩ := exists_second hleft hright (hlabel hcapacity)
    refine .ite (fun hlt => ?_) fun hge => ?_
    · -- the right side is harder and comes first; it is computed into the second register
      have hright' := @hr outer _ hstack.swap (List.cons_ne_nil _ _) fun _ => hrfree
      have hleft' := @hl outer _ hstack.swap.tail (List.cons_ne_nil _ _) fun _ => hlsecond hlt
      refine ends_swapTop.bind fun _ => hright'.bind fun _ => ?_
      refine ends_allocate.bind_eq (hleft'.bind fun _ => ?_)
      refine ends_target.bind_eq (ends_combine.bind fun _ => ?_)
      exact (ends_free hstack.swap.mem hstack.swap.not_mem).bind fun _ => ends_swapTop
    · -- the left side comes first
      have hright' := @hr outer _ hstack.tail (List.cons_ne_nil _ _) fun _ => hrsecond hge
      refine hleft'.bind fun _ => ends_allocate.bind_eq (hright'.bind fun _ => ?_)
      refine ends_target.bind_eq (ends_combine.bind fun _ => ?_)
      exact ends_free hstack.mem hstack.not_mem
  · -- an operand on the right is used from where it is, and no second register is taken
    dsimp only
    have hplace : leafLine ∈ lines := by
      cases right with
      | leaf label rightLine l =>
        obtain ⟨rfl, -⟩ : rightLine = leafLine ∧ l = leaf := by simpa [leaf?] using hleaf
        exact hlines
      | _ => simp [leaf?] at hleaf
    refine hleft'.bind fun _ => (ends_leafOperand hplace).bind fun _ => ?_
    exact ends_target.bind_eq ends_combine

end Blames

end Tree

/-! ## Values in registers -/

section

variable {E : LoweringError → State → Prop} {t : Tree}

/-- A generator that gives back what it takes is found to have done so. This is where `traced` is
needed: the balance is a fact about the run that succeeded. -/
theorem ends_balanced {m : Gen Unit}
    (h : Ends (Inside outer regs free) m (fun _ => Inside outer regs free) E)
    (hsettled : ∀ {s s' c}, m.Yields s () s' c → s.pool.Restored s'.pool) :
    Ends (Inside outer regs free) (balanced m) (fun since s => s.Inside outer regs free ∧
      ∃ p : Pool, since = p.checkpoint ∧ p.Restored s.pool) E := by
  refine .get_bind fun start _ => (h.traced start).bind fun _ => .always fun s ⟨hs, c, hm⟩ => ?_
  have hrestored := hsettled hm
  refine ⟨start.pool.checkpoint, s, [], ?_, hs, start.pool, rfl, hrestored⟩
  exact yields_bind.2 ⟨(), s, [], [], yields_askPool.2 ⟨hrestored.balance, rfl, rfl⟩,
    yields_pure.2 ⟨rfl, rfl, rfl⟩, rfl⟩

/-- The counts of a pool never show anything wrong. They are compared after the code is there, and
the state says that they agree. -/
theorem ends_compute (ht : t.Blames regs lines) (hsettled : t.Settled)
    (hstack : Stack regs (r :: rest)) (hlabel : t.label ≤ regs.length → t.label ≤ (r :: rest).length)
    (line : Line) : Ends (Inside outer regs (r :: rest)) (compute line t.lower)
      (fun q s => q = r ∧ s.Inside outer regs rest) (ValueBlame lines outer) := by
  refine Ends.buffered (Ends.onLine ?_ fun e s he => he.withLine line)
  refine (ends_balanced (ht hstack (List.cons_ne_nil r rest) hlabel) fun h =>
    (hsettled h).2.1).bind fun since => .always fun s ⟨hs, p, hp, hrestored⟩ => ?_
  -- since the checkpoint one register was taken, which is what is asked for
  have htaken : p.Taken (s.pool.moved rest 1 0) r := by
    obtain ⟨n, hn⟩ := hrestored
    refine ⟨rest, n, ?_, by simp [hn]⟩
    rw [← hs.free, hn, Pool.free_moved]
  have halloc := yields_allocate.2 ⟨rest, hs.free, rfl, rfl⟩
  refine ⟨r, _, [], yields_bind.2 ⟨r, _, [], [], halloc, ?_, rfl⟩, rfl,
    hs.withPool (p := s.pool.moved rest 1 0) rfl rfl⟩
  exact yields_bind.2 ⟨(), _, [], [], yields_askPool.2 ⟨hp ▸ htaken.balance, rfl, rfl⟩,
    yields_pure.2 ⟨rfl, rfl, rfl⟩, rfl⟩

theorem ends_setFlags (ht : t.Blames regs lines)
    (hsettled : ∀ {s s' c}, t.lower.Yields s () s' c → s.pool.Restored s'.pool)
    (hstack : Stack regs free) (hfree : free ≠ [])
    (hlabel : t.label ≤ regs.length → t.label ≤ free.length) (line : Line) :
    Ends (Inside outer regs free) (setFlags line t.lower) (fun _ => Inside outer regs free)
      (ValueBlame lines outer) := by
  refine Ends.buffered (Ends.onLine ?_ fun e s he => he.withLine line)
  exact (ends_balanced (ht hstack hfree hlabel) hsettled).bind fun _ =>
    ends_pure fun _ hs => hs.1

end

/-- A plan fails as its tree does, or where it was given up. Being given up is a failure on the line
of the node that has no value. -/
theorem ends_plan_lower (hregs : regs.Nodup) (hperm : (r :: rest).Perm regs) {e : Expr}
    (htree : ∀ {ws t}, Plan.ofExpr false e = .ready ws t → t.Blames regs e.lines) (line : Line) :
    Ends (Inside outer regs (r :: rest)) ((Plan.ofExpr false e).lower line)
      (fun q s => q = r ∧ s.Inside outer regs rest) (ValueBlame e.lines outer) := by
  -- The warnings of the plan come first in either case, and cannot fail.
  rcases hplan : Plan.ofExpr false e with ⟨ws, t⟩ | ⟨ws, construct, place⟩
  · rw [Plan.lower]
    refine ends_warnAll.bind fun _ => ?_
    refine ends_compute (htree hplan) (Expr.settled_of_ready hplan) (.of_perm hregs hperm) ?_ line
    rw [hperm.length_eq]
    exact id
  · rw [Plan.lower]
    exact ends_warnAll.bind fun _ => ends_blame rfl (Expr.place_mem_lines hplan)

theorem ends_stage (hregs : regs.Nodup) (hne : regs ≠ []) (hperm : free.Perm regs) {e : Expr}
    (htree : ∀ {ws t}, Plan.ofExpr false e = .ready ws t → t.Blames regs e.lines)
    (depth index : Nat) :
    Ends (Inside outer regs free) ((Arg.ofPlan e (Plan.ofExpr false e)).stage depth index)
      (fun _ => Inside outer regs free) (ValueBlame e.lines outer) := by
  have hcomputed (line : Line) :
      Ends (Inside outer regs free) ((Arg.computed line (Plan.ofExpr false e)).stage depth index)
        (fun _ => Inside outer regs free) (ValueBlame e.lines outer) := by
    obtain ⟨r, rest, rfl⟩ := Stack.exists_top hne hperm
    have hstack : Stack regs (r :: rest) := .of_perm hregs hperm
    rw [Arg.stage]
    refine (ends_plan_lower hregs hperm htree line).bind_eq (ends_tempOperand.bind fun slot => ?_)
    refine ends_emit.bind fun _ => (ends_free hstack.mem hstack.not_mem).bind fun _ => ?_
    exact ends_pure fun _ hs => hs
  -- every other argument is computed
  cases e with
  | var line x =>
    rw [Arg.ofPlan, Arg.stage]
    exact ends_varOperand (Expr.line_mem_lines _)
  | integer line value =>
    rw [Arg.ofPlan, Arg.stage]
    exact ends_pure fun _ hs => hs
  | element line array index =>
    rw [Arg.ofPlan, Arg.stage]
    exact ends_blame rfl (Expr.line_mem_lines _)
  | _ => exact hcomputed _

theorem stageBlames_stageAll (hregs : regs.Nodup) (hne : regs ≠ []) : ∀ {es : List Expr},
    (∀ e ∈ es, ∀ {ws t}, Plan.ofExpr false e = .ready ws t → t.Blames regs e.lines) →
    ∀ index, StageBlames regs (Expr.linesAll es)
      fun depth => Arg.stageAll depth index (Arg.ofExprs es)
  | [], _, index => by
    intro outer depth free hperm
    show Ends _ (Arg.stageAll depth index []) _ _
    rw [Arg.stageAll]
    exact ends_pure fun _ hs => hs
  | e :: es, htree, index => by
    intro outer depth free hperm
    have hfirst := @ends_stage outer regs free hregs hne hperm e (htree e List.mem_cons_self) depth index
    have hothers := @stageBlames_stageAll hregs hne es
      (fun e' he => htree e' (List.mem_cons_of_mem e he)) (index + 1) outer depth free hperm
    show Ends _ (Arg.stageAll depth index (.ofPlan e (Plan.ofExpr false e) :: Arg.ofExprs es)) _ _
    rw [Arg.stageAll, Expr.linesAll]
    -- One argument after another, each to be blamed on its own lines.
    refine (hfirst.blame_mono (fun _ hf => hf) (List.subset_append_left ..)).bind fun _ => ?_
    refine (hothers.blame_mono (fun _ hf => hf) (List.subset_append_right ..)).bind fun _ => ?_
    exact ends_pure fun _ hs => hs

end Lowering

/-! ## Expressions -/

namespace Expr

variable {outer : Scopes} {regs free rest : List Reg} {r : Reg}

/-- The tree of an expression is on the lines of the expression, and so are its failures. -/
theorem blames_of_ready (hregs : regs.Nodup) (hne : regs ≠ []) {e : Expr} {operand : Bool}
    {ws : List Warning} {t : Tree} (hready : Plan.ofExpr operand e = .ready ws t) :
    t.line ∈ e.lines ∧ t.Blames regs e.lines := by
  -- the labels of operands are needed on the way, since a second register is taken only for them
  suffices h : (operand = true → 1 ≤ t.label) ∧ t.line ∈ e.lines ∧ t.Blames regs e.lines from h.2
  refine tree_induction (motive := fun operand e t => (operand = true → 1 ≤ t.label) ∧
      t.line ∈ e.lines ∧ t.Blames regs e.lines) ?var ?integer ?real ?call ?sign ?add ?mul e hready
  case var | integer | real =>
    intro operand line _
    have hline : line ∈ [line] := List.mem_singleton_self line
    exact ⟨fun h => by simp [h, Tree.label, Tree.leafLabel], hline, Tree.blames_leaf hline ..⟩
  case call =>
    intro operand line callee args ih
    have hline : line ∈ lines (.call line callee args) := line_mem_lines _
    have hstage := stageBlames_stageAll hregs hne (fun e he _ _ hplan => (ih e he hplan).2.2) 0
    refine ⟨fun h => by simp [h, Tree.label, Tree.leafLabel], hline, ?_⟩
    exact Tree.blames_call hregs hline (fun outer depth free hperm => (hstage hperm).blame_mono
      (fun _ hf => hf) (List.subset_cons_self ..)) ..
  case sign =>
    intro operand line e t ih
    have hline : line ∈ lines (.sign line e) := line_mem_lines _
    exact ⟨fun _ => ih.1 rfl, hline, (ih.2.2.mono (List.subset_cons_self ..)).negated hline⟩
  case add | mul =>
    intro operand line op left right t u hl hr
    have hleft := left_lines_subset line left right
    have hright := right_lines_subset line left right
    rw [lines]
    refine ⟨fun _ => Tree.one_le_joinLabels (hl.1 rfl), List.mem_cons_self, ?_⟩
    exact (hl.2.2.mono hleft).joined (hr.2.2.mono hright) (hl.1 rfl) (hr.1 rfl) (hright hr.2.1)
      List.mem_cons_self _

/-- With all registers free, computing a value takes one of them, or something in the value is to
blame. -/
theorem ends_lower (hregs : regs.Nodup) (hne : regs ≠ []) (hperm : (r :: rest).Perm regs) (e : Expr) :
    Ends (Inside outer regs (r :: rest)) e.lower (fun q s => q = r ∧ s.Inside outer regs rest)
      (ValueBlame e.lines outer) :=
  ends_plan_lower hregs hperm (fun hready => (blames_of_ready hregs hne hready).2) e.line

theorem stageBlames_stageAll (hregs : regs.Nodup) (hne : regs ≠ []) (args : List Expr) :
    StageBlames regs (linesAll args) (stageAll args) :=
  Lowering.stageBlames_stageAll hregs hne
    (fun _ _ _ _ hready => (blames_of_ready hregs hne hready).2) 0

/-! ## Conditions -/

/-- Setting the flags fails as combining the two sides does. The two sides are computed first, and
the flags are then set by an instruction. -/
theorem ends_lowerFlags (hregs : regs.Nodup) (hne : regs ≠ []) (hperm : free.Perm regs) (line : Line)
    (op : RelOp) (left right : Expr) :
    Ends (Inside outer regs free) ((Plan.ofComparison line op left right).lowerFlags line)
      (fun _ => Inside outer regs free) (ValueBlame (relational line op left right).lines outer) := by
  have hleft : left.lines ⊆ (relational line op left right).lines := left_lines_subset line left right
  have hright : right.lines ⊆ (relational line op left right).lines :=
    right_lines_subset line left right
  -- if both sides have trees, then their nodes can be to blame, and else the one that has none
  rcases hplan : Plan.ofComparison line op left right with ⟨ws, t⟩ | ⟨ws, construct, place⟩
  · obtain ⟨ws₁, ws₂, tl, tr, htl, htr, -, rfl⟩ := Plan.joined_eq_ready_iff.1 hplan
    obtain ⟨-, hbl⟩ := blames_of_ready hregs hne htl
    obtain ⟨hplace, hbr⟩ := blames_of_ready hregs hne htr
    have hblames := (hbl.mono hleft).joined (hbr.mono hright) (label_of_ready htl ▸ registers_pos htl)
      (label_of_ready htr ▸ registers_pos htr) (hright hplace) (line_mem_lines _) (.compare op)
    obtain ⟨r, rest, rfl⟩ := Stack.exists_top hne hperm
    rw [Plan.lowerFlags, Plan.tree, bind_assoc]
    refine ends_warnAll.bind fun _ => (ends_pure fun s hs => ⟨rfl, hs⟩).bind_eq ?_
    refine ends_setFlags hblames (fun h => ?_) (.of_perm hregs hperm) (List.cons_ne_nil r rest) ?_ line
    · exact ((settled_of_ready htl).comparison (settled_of_ready htr) h).2.1
    · rw [hperm.length_eq]
      exact id
  · have hplace : place ∈ (relational line op left right).lines := by
      obtain ⟨ws', h | h⟩ := Plan.joined_eq_rejected hplan
      · exact hleft (place_mem_lines h)
      · exact hright (place_mem_lines h)
    rw [Plan.lowerFlags, Plan.tree, bind_assoc]
    exact ends_warnAll.bind fun _ => ends_fail_bind fun s hs => ⟨⟨_, rfl, place, hplace, rfl⟩, hs.isOpen⟩

/-- The code of a condition can be made, or something in the condition is to blame. By recursion
over the logical operators, with a comparison for a leaf. -/
theorem ends_jumpWhen (hregs : regs.Nodup) (hne : regs ≠ []) (e : Expr) (sense : Bool)
    (goal : String) : Ends (Rested outer regs) (e.jumpWhen sense goal) (fun _ => Rested outer regs)
      (ValueBlame e.lines outer) := by
  induction sense, goal, e using jumpWhen.induct with
  | case1 sense goal line op left right =>
    rw [jumpWhen, lowerComparison_eq, Plan.ofCondition]
    refine .rested fun free hperm => Ends.bind (J := fun _ => Rested outer regs) ?_ fun _ => ends_emit
    refine ends_ofExcept_ok.bind_eq ((ends_lowerFlags hregs hne hperm line op left right).bind fun _ => ?_)
    exact ends_pure fun s hs => hs.rested hperm
  | case2 sense goal line e ih =>
    rw [jumpWhen]
    exact ih.blame_mono (fun _ hf => hf) (List.subset_cons_self ..)
  | case3 goal line op left right ihl ihr =>
    rw [jumpWhen, if_pos rfl]
    exact (ihl.blame_mono (fun _ hf => hf) (left_lines_subset line left right)).bind fun _ =>
      ihr.blame_mono (fun _ hf => hf) (right_lines_subset line left right)
  | case4 sense goal line op left right hsense ihl ihr =>
    rw [jumpWhen, if_neg hsense]
    refine ends_newLabel.bind fun past => ?_
    refine ((ihl past).blame_mono (fun _ hf => hf) (left_lines_subset line left right)).bind fun _ => ?_
    exact (ihr.blame_mono (fun _ hf => hf) (right_lines_subset line left right)).bind fun _ => ends_emit
  | case5 sense goal e hcomparison hnot hlogical =>
    -- every other expression is refused with its own line
    have hfail : Ends (Rested outer regs)
        (fail (.unsupported (.nonBooleanCondition e.text) e.line)) (fun _ : Unit => Rested outer regs)
        (ValueBlame e.lines outer) :=
      ends_fail fun s hs => ⟨⟨_, rfl, _, e.line_mem_lines, rfl⟩, hs.isOpen⟩
    cases e with
    | relational => exact (hcomparison _ _ _ _ rfl).elim
    | not => exact (hnot _ _ rfl).elim
    | logical => exact (hlogical _ _ _ _ rfl).elim
    | _ => simpa only [jumpWhen] using hfail

end Expr

end PascalAsm
