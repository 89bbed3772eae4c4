import PascalAsm.Proofs.Generator.Programs
import PascalAsm.Proofs.Meaning.Coercions

/-!
# Every coercion is reported once

A warning is given where code is made for what is coerced. When that is depends on the construct: for
a part of a value while its tree is planned, for an argument of a call while the registers for the call
are filled, for what is nested in a routine between its declarations and its body. So the order of the
warnings is not that of the text; but each coercion is reported, and none is reported twice.

* **`Gen.Warns`** — whenever a generator succeeds, it has given some warnings.
* **`Plan.Gives`** — carrying out a plan gives some warnings, those it starts with included.
* **`Program.warnings_of_compile`** — the diagnostics of a compiled program are its coercions.
-/

namespace PascalAsm

open Assembly Lowering Gen State
open scoped List

namespace Lowering

/-! ## The warnings of a generator -/

namespace Gen

variable {α β : Type} {ws vs : List Warning}

/-- Whenever the generator succeeds, it has given these warnings, in some order. The order depends
on which operand is computed first, so it is not part of it. -/
def Warns (m : Gen α) (ws : List Warning) : Prop :=
  ∀ ⦃s : State⦄ ⦃a : α⦄ ⦃s' : State⦄ ⦃c : List Inst⦄, m.Yields s a s' c →
    s'.warnings.Perm (s.warnings ++ ws)

/-- The generator gives no warnings. Most of what statements do besides values is of this kind. -/
abbrev Silent (m : Gen α) : Prop := m.Warns []

namespace Warns

variable {m : Gen α} {f : α → Gen β}

theorem perm (h : m.Warns ws) (hp : ws.Perm vs) : m.Warns vs :=
  fun s _ _ _ hm => (h hm).trans (hp.append_left s.warnings)

/-- The warnings of two generators in sequence. Those of the second one may not depend on what the
first one gives. -/
theorem bind (h : m.Warns ws) (hf : ∀ a, (f a).Warns vs) : (m >>= f).Warns (ws ++ vs) := by
  intro s b s'' c hbind
  obtain ⟨a, s', c₁, c₂, hm, hb, -⟩ := yields_bind.1 hbind
  calc s''.warnings
    _ ~ s'.warnings ++ vs := hf a hb
    _ ~ (s.warnings ++ ws) ++ vs := (h hm).append_right vs
    _ = s.warnings ++ (ws ++ vs) := List.append_assoc ..

/-- What follows gives no more warnings. It is `bind` without an empty list at the end. -/
theorem silently (h : m.Warns ws) (hf : ∀ a, (f a).Silent) : (m >>= f).Warns ws :=
  (h.bind hf).perm (.of_eq (List.append_nil ws))

end Warns

/-- After a generator that gives none, the warnings are those of what follows. It is `bind` without
an empty list at the start. -/
theorem Silent.bind {m : Gen α} {f : α → Gen β} (h : m.Silent) (hf : ∀ a, (f a).Warns ws) :
    (m >>= f).Warns ws :=
  Warns.bind h hf

/-- Success of a silent generator leaves the warnings as they were. An order of no warnings is no
change. -/
theorem Silent.warnings_perm {m : Gen α} {s s' : State} {a : α} {c : List Inst} (h : m.Silent)
    (hm : m.Yields s a s' c) : s'.warnings ~ s.warnings := by
  simpa using h hm

/-- A generator that leaves the warnings as they are is silent. It is how the steps that emit code
or change the scopes are shown to be silent. -/
theorem silent_of_eq {m : Gen α}
    (h : ∀ {s a s' c}, m.Yields s a s' c → s'.warnings = s.warnings) : m.Silent := by
  intro s a s' c hm
  rw [h hm, List.append_nil]

/-- Where it never succeeds, a generator gives whatever is wanted. So a construct that is rejected
needs no look at its parts. -/
theorem warns_fail {e : LoweringError} : (fail e : Gen α).Warns ws :=
  fun _ _ _ _ h => (yields_fail.1 h).elim

theorem warns_warnAll : (warnAll ws).Warns ws := by
  intro s _ s' _ h
  obtain ⟨rfl, -⟩ := yields_modify.1 h
  exact .refl _

/-! ## What is silent -/

theorem silent_pure (a : α) : (pure a : Gen α).Silent :=
  silent_of_eq fun h => by rw [(yields_pure.1 h).2.1]

theorem silent_emit (code : List Inst) : (emit code).Silent :=
  silent_of_eq fun h => by rw [(yields_emit.1 h).1]

/-- What is done with registers gives no warnings. They do not touch that part of the state. -/
theorem silent_onPool (f : Pool → Except PoolError (α × Pool)) : (onPool f).Silent := by
  refine silent_of_eq fun h => ?_
  obtain ⟨q, -, rfl, -⟩ := yields_onPool.1 h
  rfl

theorem silent_allocate : allocate.Silent := silent_onPool _

theorem silent_target : target.Silent := by
  rw [target, askPool]
  exact silent_onPool _

theorem silent_free (r : Reg) : (free r).Silent := by
  rw [free, changePool]
  exact silent_onPool _

theorem silent_swapTop : swapTop.Silent := by
  rw [swapTop, changePool]
  exact silent_onPool _

theorem silent_newLabel : newLabel.Silent := by
  intro s a s' c h
  obtain ⟨-, rfl, -⟩ := Outcome.mk.inj h
  exact .of_eq (List.append_nil _).symm

theorem silent_varOperand (name : String) (line : Line) : (varOperand name line).Silent :=
  silent_of_eq fun h => by rw [(yields_varOperand.1 h).2.1]

theorem silent_tempOperand (name : String) : (tempOperand name).Silent := by
  refine silent_of_eq fun h => ?_
  obtain ⟨slot, -, -, ⟨-, rfl⟩ | ⟨-, S, -, rfl⟩⟩ := yields_tempOperand.1 h <;> rfl

theorem silent_requireRegs (label : Nat) (line : Line) : (requireRegs label line).Silent :=
  silent_of_eq fun h => by rw [(yields_requireRegs.1 h).2.1]

theorem silent_leafOperand (line : Line) (leaf : Leaf) : (leafOperand line leaf).Silent :=
  silent_of_eq fun h => by rw [(yields_leafOperand.1 h).2.1]

theorem silent_divide (result : Reg) (divisor : Operand) (dest : Reg) :
    (divide result divisor dest).Silent := by
  intro s _ s' _ h
  rcases yields_divide.1 h with ⟨-, rfl, -⟩ | ⟨-, slot, htemp, -⟩
  · exact .of_eq (List.append_nil _).symm
  · exact silent_tempOperand _ htemp

theorem silent_combine (op : BinOp) (src : Operand) (dest : Reg) : (combine op src dest).Silent := by
  cases op with
  | add | sub | mul | compare => exact silent_emit _
  | div | mod => exact silent_divide ..

theorem silent_claim (regs : List Reg) : (claim regs).Silent := by
  refine silent_of_eq fun h => ?_
  obtain ⟨-, -, free, -, rfl⟩ := claim_spec h
  rfl

theorem silent_release (regs : List Reg) : (release regs).Silent :=
  silent_of_eq fun h => by rw [(release_spec h).2]; rfl

theorem silent_callLibrary (symbol : String) (load : List Inst) : (callLibrary symbol load).Silent :=
  (silent_claim _).bind fun _ => (silent_emit _).bind fun _ => silent_release _

theorem silent_writeReg (r : Reg) : (writeReg r).Silent :=
  (silent_emit _).bind fun _ => (silent_free r).bind fun _ => silent_callLibrary ..

theorem silent_saveAll (depth : Nat) (regs : List Reg) : (saveAll depth regs).Silent := by
  induction regs with
  | nil => exact silent_pure _
  | cons r rest ih =>
    exact (silent_tempOperand _).bind fun _ => (silent_emit _).bind fun _ =>
      ih.bind fun _ => silent_pure _

theorem silent_comment (wanted : Bool) (line : Line) (summary : String) :
    (comment wanted line summary).Silent := by
  unfold comment
  split
  · exact silent_emit _
  · exact silent_pure _

/-! ## Calls -/

variable {callee : String} {count : Nat} {line : Line} {dest : Reg} {stage : Nat → Gen (List Operand)}

/-- A call gives the warnings of its arguments. At which depth they are staged makes no difference,
by `h`. -/
theorem callRoutine_warns (h : ∀ depth, (stage depth).Warns ws) :
    (callRoutine callee count line stage).Warns ws := by
  intro s _ s' _ hcall
  obtain ⟨-, operands, s₁, s₂, _, claimed, hstage, hclaim, hrelease, -⟩ := yields_callRoutine.1 hcall
  have hstaged := h s.callDepth hstage
  have hclaimed := (silent_claim _).warnings_perm hclaim
  calc s'.warnings
    _ ~ s₂.warnings := (silent_release _).warnings_perm hrelease
    _ ~ s₁.warnings := hclaimed
    _ ~ s.warnings ++ ws := hstaged

theorem callValue_warns (h : ∀ depth, (stage depth).Warns ws) :
    (callValue callee count line dest stage).Warns ws := by
  intro s _ s' _ hcall
  obtain ⟨-, saved, s₁, s₂, _, _, hsave, hroutine, rfl, -⟩ := yields_callValue.1 hcall
  have hcalled := callRoutine_warns h hroutine
  calc s₂.warnings
    _ ~ s₁.warnings ++ ws := hcalled
    _ ~ s.warnings ++ ws := ((silent_saveAll ..).warnings_perm hsave).append_right ws

theorem compute_warns {m : Gen Unit} (h : m.Warns ws) : (compute line m).Warns ws := by
  intro s r s' _ hcompute
  obtain ⟨s₁, hm, -, hallocate, -⟩ := yields_compute.1 hcompute
  calc s'.warnings
    _ ~ s₁.warnings := silent_allocate.warnings_perm hallocate
    _ ~ s.warnings ++ ws := h hm

end Gen

/-! ## Trees and plans -/

/-- Carrying out the tree gives the warnings. A leaf gives none: it may be made an operand instead of
being carried out. -/
structure Tree.Gives (t : Tree) (ws : List Warning) : Prop where
  warns : t.lower.Warns ws
  operand : t.isOperand = true → ws = []

namespace Tree

variable {ws vs : List Warning} {left right t : Tree} {line : Line}

theorem gives_leaf {label : Nat} {leaf : Leaf} : (Tree.leaf label line leaf).Gives [] := by
  refine ⟨?_, fun _ => rfl⟩
  rw [Tree.lower]
  exact (silent_requireRegs ..).bind fun _ => silent_target.bind fun _ =>
    (silent_leafOperand ..).bind fun _ => silent_emit _

theorem gives_call {label : Nat} {callee : String} {args : List Arg}
    (h : ∀ depth, (Arg.stageAll depth 0 args).Warns ws) :
    (Tree.call label line callee args).Gives ws := by
  refine ⟨?_, nofun⟩
  rw [Tree.lower]
  exact (silent_requireRegs ..).bind fun _ => silent_target.bind fun _ => callValue_warns h

theorem Gives.negated (h : t.Gives ws) : (t.negated line).Gives ws := by
  refine ⟨?_, nofun⟩
  rw [Tree.negated, Tree.lower]
  exact (silent_requireRegs ..).bind fun _ => h.warns.silently fun _ =>
    silent_target.bind fun _ => silent_emit _

/-- Both sides of an operation give their warnings, in one order or the other. If the right side is
a leaf, it is not computed at all, and gives none by itself. -/
theorem Gives.joined {op : BinOp} (hl : left.Gives ws) (hr : right.Gives vs) :
    (Tree.joined line op left right).Gives (ws ++ vs) := by
  refine ⟨?_, nofun⟩
  rw [Tree.joined, Tree.lower_binary]
  refine (silent_requireRegs ..).bind fun _ => ?_
  split
  · rename_i leafLine leaf hleaf
    -- the right side is not carried out, but it is a leaf
    have hsilent : vs = [] := hr.operand (by rw [isOperand, hleaf]; rfl)
    rw [hsilent, List.append_nil]
    exact hl.warns.silently fun _ => (silent_leafOperand ..).bind fun _ =>
      silent_target.bind fun _ => silent_combine ..
  · split
    · -- the right side is harder and comes first
      refine Warns.perm (?_ : Warns _ (vs ++ ws)) List.perm_append_comm
      refine silent_swapTop.bind fun _ => hr.warns.bind fun _ => silent_allocate.bind fun _ => ?_
      exact hl.warns.silently fun _ => silent_target.bind fun _ =>
        (silent_combine ..).bind fun _ => (silent_free _).bind fun _ => silent_swapTop
    · refine hl.warns.bind fun _ => silent_allocate.bind fun _ => ?_
      exact hr.warns.silently fun _ => silent_target.bind fun _ =>
        (silent_combine ..).bind fun _ => silent_free _

end Tree

namespace Plan

/-- Carrying out the plan gives the warnings: those it starts with, and those of its tree. Where the
plan is rejected there is nothing to be shown, since it never succeeds. -/
def Gives : Plan → List Warning → Prop
  | ready first t, ws => ∃ later, t.Gives later ∧ (first ++ later).Perm ws
  | rejected .., _ => True

variable {ws vs : List Warning} {p q : Plan} {line : Line}

theorem gives_leaf {label : Nat} {leaf : Leaf} : (ready ws (.leaf label line leaf)).Gives ws :=
  ⟨[], Tree.gives_leaf, .of_eq (List.append_nil ws)⟩

theorem Gives.negated (h : p.Gives ws) : (p.negated line).Gives ws := by
  cases p with
  | rejected => trivial
  | ready first t =>
    obtain ⟨later, ht, hp⟩ := h
    exact ⟨later, ht.negated, hp⟩

theorem Gives.warned (h : p.Gives ws) (w : Warning) : (p.warned w).Gives (w :: ws) := by
  cases p with
  | rejected => trivial
  | ready first t =>
    obtain ⟨later, ht, hp⟩ := h
    exact ⟨later, ht, hp.cons w⟩

theorem Gives.joined {op : BinOp} (hl : p.Gives ws) (hr : q.Gives vs) :
    (p.joined line op q).Gives (ws ++ vs) := by
  cases p with
  | rejected => trivial
  | ready first t =>
    cases q with
    | rejected => trivial
    | ready second u =>
      obtain ⟨later, ht, hp⟩ := hl
      obtain ⟨later', hu, hq⟩ := hr
      refine ⟨later ++ later', ht.joined hu, ?_⟩
      -- Those of the right plan come before the later ones of the left tree; order does not count.
      calc (first ++ second) ++ (later ++ later')
        _ = first ++ (second ++ (later ++ later')) := List.append_assoc ..
        _ ~ first ++ (later ++ (second ++ later')) :=
          (List.perm_append_comm_assoc second later later').append_left first
        _ = (first ++ later) ++ (second ++ later') := (List.append_assoc ..).symm
        _ ~ ws ++ vs := hp.append hq

theorem Gives.lower (h : p.Gives ws) : (p.lower line).Warns ws := by
  cases p with
  | rejected => exact fun _ _ _ _ hr => (yields_lower_rejected.1 hr).elim
  | ready first t =>
    obtain ⟨later, ht, hp⟩ := h
    rw [Plan.lower]
    exact (warns_warnAll.bind fun _ => compute_warns ht.warns).perm hp

end Plan

end Lowering

/-! ## Expressions -/

namespace Expr

/-- An argument gives the warnings of its plan. An argument that is a variable or a number has no
warnings to give. -/
theorem stage_warns {e : Expr} (h : (Plan.ofExpr false e).Gives (coercionsOf e.nodes))
    (depth index : Nat) :
    ((Arg.ofPlan e (Plan.ofExpr false e)).stage depth index).Warns (coercionsOf e.nodes) := by
  -- Storing the value and giving its register back are silent.
  have hcomputed (line : Line) : ((Arg.computed line (Plan.ofExpr false e)).stage depth index).Warns
      (coercionsOf e.nodes) := by
    rw [Arg.stage]
    exact h.lower.silently fun _ => (silent_tempOperand _).bind fun _ => (silent_emit _).bind fun _ =>
      (silent_free _).bind fun _ => silent_pure _
  cases e with
  | var line name =>
    rw [Arg.ofPlan, Arg.stage]
    exact silent_varOperand name line
  | integer line value =>
    rw [Arg.ofPlan, Arg.stage]
    exact silent_pure _
  | element line array index =>
    rw [Arg.ofPlan, Arg.stage]
    exact warns_fail
  | _ => exact hcomputed _

mutual

/-- The plan of an expression reports what is coerced in it. By induction on the expression; a real
number is reported when it is cut off. -/
theorem plan_gives (operand : Bool) :
    ∀ e : Expr, (Plan.ofExpr operand e).Gives (coercionsOf e.nodes)
  | var .. | integer .. | real .. => Plan.gives_leaf
  | call line callee args => by
    rw [Plan.ofExpr, nodes, coercionsOf_cons_none rfl]
    exact ⟨_, Tree.gives_call fun depth => stageAll_warns depth 0 args, .refl _⟩
  | sign line e => by
    rw [Plan.ofExpr, nodes, coercionsOf_cons_none rfl]
    exact (plan_gives true e).negated
  | add line op left right => by
    rw [Plan.ofExpr, nodes, coercionsOf_cons_none rfl, coercionsOf_append]
    exact (plan_gives true left).joined (plan_gives true right)
  | mul line op left right => by
    -- the warning about `/` comes on top of those about the sides
    have hjoined : ((Plan.ofExpr true left).joined line (.ofMulOp op)
        (Plan.ofExpr true right)).Gives (coercionsOf (left.nodes ++ right.nodes)) := by
      rw [coercionsOf_append]
      exact (plan_gives true left).joined (plan_gives true right)
    rw [Plan.ofExpr, nodes]
    cases op with
    | slash => exact hjoined.warned _
    | star | div | mod => exact hjoined
  | element .. | relational .. | logical .. | not .. => trivial

/-- Arguments report what is coerced in them, each at its turn. By induction on the arguments. -/
theorem stageAll_warns (depth : Nat) : ∀ (index : Nat) (es : List Expr),
    (Arg.stageAll depth index (Arg.ofExprs es)).Warns (coercionsOf (nodesAll es))
  | _, [] => by
    rw [Arg.ofExprs, Arg.stageAll]
    exact silent_pure _
  | index, e :: rest => by
    rw [Arg.ofExprs, Arg.stageAll, nodesAll, coercionsOf_append]
    exact (stage_warns (plan_gives false e) depth index).bind fun _ =>
      (stageAll_warns depth (index + 1) rest).silently fun _ => silent_pure _

end

theorem lower_warns (e : Expr) : e.lower.Warns (coercionsOf e.nodes) := (plan_gives false e).lower

/-- A condition reports what is coerced in the comparisons that it consists of. In whichever sense
it is tested, each of them is lowered once. -/
theorem jumpWhen_warns (sense : Bool) (goal : String) (e : Expr) :
    (e.jumpWhen sense goal).Warns (coercionsOf e.nodes) := by
  induction sense, goal, e using jumpWhen.induct with
  | case1 sense goal line op left right =>
    intro s _ s' _ h
    obtain ⟨first, t, _, hplan, ht, -, -⟩ := yields_jumpWhen_comparison.1 h
    -- the arguments of a call report when they are staged, which is after both sides were planned
    have hgives : (Plan.ofComparison line op left right).Gives _ :=
      (plan_gives true left).joined (plan_gives true right)
    rw [hplan] at hgives
    obtain ⟨later, htree, hp⟩ := hgives
    rw [nodes, coercionsOf_cons_none rfl, coercionsOf_append]
    calc s'.warnings
      _ ~ (s.warnings ++ first) ++ later := htree.warns ht
      _ = s.warnings ++ (first ++ later) := List.append_assoc ..
      _ ~ _ := hp.append_left s.warnings
  | case2 sense goal line e ih =>
    rw [jumpWhen, nodes, coercionsOf_cons_none rfl]
    exact ih
  | case3 goal line op left right ihl ihr =>
    rw [jumpWhen, if_pos rfl, nodes, coercionsOf_cons_none rfl, coercionsOf_append]
    exact ihl.bind fun _ => ihr
  | case4 sense goal line op left right hsense ihl ihr =>
    rw [jumpWhen, if_neg hsense, nodes, coercionsOf_cons_none rfl, coercionsOf_append]
    exact silent_newLabel.bind fun past => (ihl past).bind fun _ => ihr.silently fun _ => silent_emit _
  | case5 sense goal e hcomparison hnot hlogical =>
    exact fun _ _ _ _ h => (not_yields_jumpWhen hcomparison hnot hlogical h).elim

end Expr

/-! ## Statements -/

namespace Lowering.Gen

variable (line : Line)

/-- What is assigned to is a variable, so nothing in it is coerced. The warnings are those of the
value. -/
theorem assignValue_warns (target value : Expr) : (assignValue line target value).Warns
    (Expr.coercionsOf target.nodes ++ Expr.coercionsOf value.nodes) := by
  intro s _ s' _ h
  obtain ⟨x, -, r, s₁, _, hx, -, hvalue, hfree, -⟩ := yields_assignValue.1 h
  rw [Expr.coercionsOf_nodes_of_varName? hx, List.nil_append]
  calc s'.warnings
    _ ~ s₁.warnings := (silent_free r).warnings_perm hfree
    _ ~ s.warnings ++ Expr.coercionsOf value.nodes := value.lower_warns hvalue

theorem writeAll_warns (es : List Expr) :
    (writeAll es).Warns (Expr.coercionsOf (Expr.nodesAll es)) := by
  induction es with
  | nil => exact silent_pure _
  | cons e rest ih =>
    rw [Expr.nodesAll, Expr.coercionsOf_append]
    exact e.lower_warns.bind fun _ => (silent_writeReg _).bind fun _ => ih

/-- What is read into is a variable, too. So reading gives none at all. -/
theorem readAll_warns (es : List Expr) :
    (readAll line es).Warns (Expr.coercionsOf (Expr.nodesAll es)) := by
  induction es with
  | nil => exact silent_pure _
  | cons e rest ih =>
    intro s _ s' _ h
    obtain ⟨x, _, s₁, _, _, hx, -, hread, hrest, -⟩ := yields_readAll_cons.1 h
    rw [Expr.nodesAll, Expr.coercionsOf_append, Expr.coercionsOf_nodes_of_varName? hx, List.nil_append]
    -- Reading is silent, so all warnings are those of the rest.
    calc s'.warnings
      _ ~ s₁.warnings ++ _ := ih hrest
      _ ~ s.warnings ++ _ := ((silent_callLibrary ..).warnings_perm hread).append_right _

theorem callProcedure_warns (callee : String) (args : List Expr) :
    (callProcedure line callee args).Warns (Expr.coercionsOf (Expr.nodesAll args)) := by
  unfold callProcedure
  split
  · exact writeAll_warns args
  · exact readAll_warns line args
  · exact callRoutine_warns fun depth => Expr.stageAll_warns depth 0 args

theorem loop_warns {condition : Expr} {body : Gen Unit} {ws : List Warning} (h : body.Warns ws) :
    (loop condition body).Warns (ws ++ Expr.coercionsOf condition.nodes) :=
  silent_newLabel.bind fun _ => silent_newLabel.bind fun _ => (silent_emit _).bind fun _ =>
    h.bind fun _ => (silent_emit _).bind fun _ => condition.jumpWhen_warns _ _

end Lowering.Gen

namespace ForInit

variable {init : ForInit} {x : String}

theorem lower_warns (line : Line) (hx : init.var.varName? = some x) :
    (init.lower line).Warns (Expr.coercionsOf init.nodes) := by
  cases init with
  | assign var value =>
    rw [ForInit.nodes, Expr.coercionsOf_append]
    exact assignValue_warns line var value
  | keep var =>
    have hvar : var.varName? = some x := hx
    rw [ForInit.nodes, Expr.coercionsOf_nodes_of_varName? hvar]
    exact silent_pure _

/-- The test is made from the variable and the limit, so what is coerced in it is what is coerced in
the limit. -/
theorem coercionsOf_test (line : Line) (hx : init.var.varName? = some x) (limit : Expr) :
    Expr.coercionsOf (init.test line limit).nodes = Expr.coercionsOf limit.nodes := by
  rw [test, Expr.nodes, Expr.coercionsOf_cons_none rfl, Expr.coercionsOf_append,
    Expr.coercionsOf_nodes_of_varName? hx, List.nil_append]

theorem silent_step (comments : Bool) (line : Line) (hx : init.var.varName? = some x) :
    (init.step comments line).Silent := by
  have hvar := Expr.coercionsOf_nodes_of_varName? hx
  have hnext : Expr.coercionsOf (init.next line).nodes = [] := by
    rw [next, Expr.nodes, Expr.coercionsOf_cons_none rfl, Expr.coercionsOf_append, hvar]
    rfl
  have hassign := assignValue_warns line init.var (init.next line)
  rw [hvar, hnext] at hassign
  exact (silent_comment ..).bind fun _ => hassign

end ForInit

namespace Stmt

open PascalAsm.Expr (coercionsOf coercionsOf_append)

mutual

/-- A statement reports what is coerced in it. By recursion over the statement; a limit or a
condition is lowered once and reported once. -/
theorem lower_warns (comments : Bool) :
    ∀ t : Stmt, (t.lower comments).Warns (coercionsOf t.nodes)
  | assign line target value => by
    rw [Stmt.lower, nodes, coercionsOf_append]
    exact (silent_comment ..).bind fun _ => assignValue_warns line target value
  | call line callee args => by
    rw [Stmt.lower, nodes]
    exact (silent_comment ..).bind fun _ => callProcedure_warns line callee args
  | compound line body => by
    rw [Stmt.lower, nodes]
    exact lowerAll_warns comments body
  | ifThen line condition thenBranch => by
    rw [Stmt.lower, nodes, coercionsOf_append]
    exact (silent_comment ..).bind fun _ => silent_newLabel.bind fun _ =>
      (condition.jumpWhen_warns _ _).bind fun _ =>
        (lower_warns comments thenBranch).silently fun _ => silent_emit _
  | ifElse line condition thenBranch elseBranch => by
    rw [Stmt.lower, nodes, coercionsOf_append, coercionsOf_append]
    exact (silent_comment ..).bind fun _ => silent_newLabel.bind fun _ =>
      (condition.jumpWhen_warns _ _).bind fun _ => (lower_warns comments thenBranch).bind fun _ =>
        silent_newLabel.bind fun _ => (silent_emit _).bind fun _ =>
          (lower_warns comments elseBranch).silently fun _ => silent_emit _
  | whileDo line condition body => by
    rw [Stmt.lower, nodes, coercionsOf_append]
    exact (silent_comment ..).bind fun _ =>
      (loop_warns (lower_warns comments body)).perm List.perm_append_comm
  | forTo line init limit body => by
    intro s _ s' _ h
    obtain ⟨s₁, _, _, _, hvar, hinit, hloop, -, -⟩ := yields_forTo.1 h
    obtain ⟨x, hx⟩ := Option.isSome_iff_exists.1 hvar
    -- the variable is tested and counted up by code that has no place in the text
    have hbody := (lower_warns comments body).silently fun _ => ForInit.silent_step comments line hx
    have hwhole := loop_warns hbody hloop
    rw [ForInit.coercionsOf_test line hx] at hwhole
    rw [nodes, coercionsOf_append, coercionsOf_append]
    calc s'.warnings
      _ ~ s₁.warnings ++ (coercionsOf body.nodes ++ coercionsOf limit.nodes) := hwhole
      _ ~ (s.warnings ++ coercionsOf init.nodes) ++ (coercionsOf limit.nodes ++ coercionsOf body.nodes) :=
        (ForInit.lower_warns line hx hinit).append List.perm_append_comm
      _ = _ := List.append_assoc ..

theorem lowerAll_warns (comments : Bool) :
    ∀ ts : List Stmt, (Stmt.lowerAll comments ts).Warns (coercionsOf (nodesAll ts))
  | [] => by
    rw [Stmt.lowerAll]
    exact silent_pure _
  | t :: rest => by
    rw [Stmt.lowerAll, nodesAll, coercionsOf_append]
    exact (lower_warns comments t).bind fun _ => lowerAll_warns comments rest

end

end Stmt

/-! ## Routines -/

namespace Lowering

theorem realWarning_eq (coercion : Coercion) (line : Line) (names : List String) (type : VarType) :
    realWarning coercion line type = (Declaration.vars line names type).coercions coercion := by
  cases type <;> rfl

theorem paramWarnings_eq : ∀ {ds : List Declaration},
    (∀ d ∈ ds, ∃ line names type, d = .vars line names type) →
    paramWarnings ds = ds.flatMap (·.coercions .realParameter)
  | [], _ => rfl
  | .vars line names type :: rest, h => by
    rw [paramWarnings, realWarning_eq _ _ names, List.flatMap_cons,
      paramWarnings_eq fun d hd => h d (.tail _ hd)]
  | .arrays .. :: _, h => by
    obtain ⟨_, _, _, hvars⟩ := h _ (.head _)
    cases hvars

theorem localWarnings_eq : ∀ ds : List Declaration,
    localWarnings ds = ds.flatMap (·.coercions .realVariable)
  | [] => rfl
  | .vars line names type :: rest => by
    rw [localWarnings, realWarning_eq _ _ names, List.flatMap_cons, localWarnings_eq rest]
  | .arrays line names .. :: rest => by
    rw [localWarnings, List.flatMap_cons, localWarnings_eq rest]
    rfl

end Lowering

/-- A routine reports what is coerced in its declarations, before what is nested in it, and in its
body afterwards. -/
theorem Routine.lower_warns {r : Routine} {comments : Bool} {nested : Gen Unit} {ws : List Warning}
    (hnested : nested.Warns ws) : (r.lower comments nested).Warns (ws ++ r.coercions) := by
  intro s _ s' _ h
  obtain ⟨hsized, s₁, s₂, _, _, _, _, hn, hbody, -, rfl, -⟩ := Routine.yields_lower.1 h
  have hinner : s₁.warnings ~ (r.entered s).warnings ++ ws := hnested hn
  have houter : s₂.warnings ~ s₁.warnings ++ Expr.coercionsOf r.body.nodes :=
    r.body.lower_warns comments hbody
  have hentered : (r.entered s).warnings =
      s.warnings ++ (paramWarnings r.params ++ localWarnings r.declarations) := rfl
  have hcoercions : r.coercions = (paramWarnings r.params ++ localWarnings r.declarations) ++
      Expr.coercionsOf r.body.nodes := by
    rw [paramWarnings_eq hsized.scalar, localWarnings_eq, List.append_assoc]
    rfl
  rw [hentered] at hinner
  rw [hcoercions]
  -- what is declared is not looked into any further
  generalize paramWarnings r.params ++ localWarnings r.declarations = declared at hinner ⊢
  calc s₂.warnings
    _ ~ s₁.warnings ++ Expr.coercionsOf r.body.nodes := houter
    _ ~ ((s.warnings ++ declared) ++ ws) ++ Expr.coercionsOf r.body.nodes := hinner.append_right _
    _ = s.warnings ++ (declared ++ (ws ++ Expr.coercionsOf r.body.nodes)) := by
      simp only [List.append_assoc]
    _ ~ s.warnings ++ (ws ++ (declared ++ Expr.coercionsOf r.body.nodes)) :=
      (List.perm_append_comm_assoc declared ws _).append_left s.warnings

mutual

theorem Subprogram.lower_warns (comments : Bool) :
    ∀ p : Subprogram, (p.lower comments).Warns (p.routines.flatMap Routine.coercions)
  | p@(.mk _ _ _ _ subprograms _ _) => by
    rw [Subprogram.lower, Subprogram.routines, List.flatMap_append, List.flatMap_singleton]
    exact Routine.lower_warns (Subprogram.lowerAll_warns comments subprograms)

theorem Subprogram.lowerAll_warns (comments : Bool) : ∀ ps : List Subprogram,
    (Subprogram.lowerAll comments ps).Warns
      ((Subprogram.routinesAll ps).flatMap Routine.coercions)
  | [] => by
    rw [Subprogram.lowerAll]
    exact silent_pure _
  | p :: rest => by
    rw [Subprogram.lowerAll, Subprogram.routinesAll, List.flatMap_append]
    exact (Subprogram.lower_warns comments p).bind fun _ => Subprogram.lowerAll_warns comments rest

end

namespace Program

/-- A program reports what is coerced in its routines, wherever they are nested. It is put together
from those of its subprograms and of its own body. -/
theorem lower_warns (comments : Bool) (p : Program) : (p.lower comments).Warns p.coercions := by
  rw [coercions, routines, List.flatMap_append, List.flatMap_singleton]
  exact Routine.lower_warns (Subprogram.lowerAll_warns comments p.subprograms)

/-- The diagnostics of a compiled program are all warnings, and there is exactly one of them for each
thing that is coerced in it: each group of real variables or parameters, each array, and each real
number and each division of reals in a body. Each says what is coerced, and on which line. -/
theorem warnings_of_compile {p : Program} {options : Options} {compiled : Compiled}
    (h : p.compile options = .ok compiled) :
    (∀ d ∈ compiled.report.diagnostics, d.severity = .warning) ∧
      compiled.report.diagnostics ~ p.coercions.map fun w =>
        ⟨.warning, w.coercion.message, .atLine options.source w.line⟩ := by
  obtain ⟨s, s', _, hs, hlower, -, -, -, hreport⟩ := compile_eq_ok_iff.1 h
  have hstart : s.warnings = [] := by
    rcases State.initial_eq_ok_iff.1 hs with ⟨-, rfl⟩ | ⟨-, rfl⟩ <;> rfl
  -- Nothing was warned of before the start, so all warnings are those of the lowering.
  have hgiven : s'.warnings ~ p.coercions := by
    simpa [hstart] using p.lower_warns options.comments hlower
  rw [hreport]
  refine ⟨fun d hd => ?_, hgiven.map _⟩
  obtain ⟨w, -, rfl⟩ := List.mem_map.1 hd
  rfl

end Program

/-! ## A program with every coercion -/

/-- A function with a real parameter and two arrays, which divides. -/
def halfFunction : Subprogram :=
  .mk (.function .integer) "half" [.vars 3 ["a"] .real] [.arrays 4 ["t", "u"] .real 0 9] []
    (.assign 5 (.var 5 "half") (.mul 5 .slash (.var 5 "a") (.integer 5 2))) 3

/-- A program with real variables, which has real numbers in a condition and in a call within a call,
and a division in the limit of a loop. -/
def coercingProgram : Program where
  name := "coercing"
  args := ["output"]
  declarations := [.vars 1 ["x", "y"] .real, .vars 2 ["i"] .integer]
  subprograms := [halfFunction]
  body := .compound 6
    [.ifThen 7 (.relational 7 .lt (.var 7 "x") (.real 7 ⟨0x3f800000⟩))
      (.assign 8 (.var 8 "x") (.call 8 "half" [.call 8 "half" [.real 8 ⟨0x40000000⟩]])),
     .forTo 9 (.assign (.var 9 "i") (.integer 9 0)) (.mul 9 .slash (.var 9 "x") (.integer 9 2))
      (.call 10 "write" [.var 10 "i"])]
  line := 1

theorem isOk_compile_coercingProgram : (coercingProgram.compile {}).isOk = true := by
  decide +kernel

/-- Eight things are coerced in the program, and eight warnings are given. -/
theorem warnings_of_compile_coercingProgram :
    ∃ compiled, coercingProgram.compile {} = .ok compiled ∧ compiled.report.diagnostics ~
      [⟨.warning, "REAL parameters not supported, treating as integer", .atLine "<input>" 3⟩,
       ⟨.warning, "array t not supported, no storage allocated", .atLine "<input>" 4⟩,
       ⟨.warning, "array u not supported, no storage allocated", .atLine "<input>" 4⟩,
       ⟨.warning, "REAL division not supported, using integer division", .atLine "<input>" 5⟩,
       ⟨.warning, "REAL types not supported, treating as integer", .atLine "<input>" 1⟩,
       ⟨.warning, "REAL literal 1 not supported, truncating to integer", .atLine "<input>" 7⟩,
       ⟨.warning, "REAL literal 2 not supported, truncating to integer", .atLine "<input>" 8⟩,
       ⟨.warning, "REAL division not supported, using integer division", .atLine "<input>" 9⟩] := by
  cases hcompile : coercingProgram.compile {} with
  -- That it is compiled is computed, so there is no error.
  | error e =>
    have hok := isOk_compile_coercingProgram
    rw [hcompile] at hok
    cases hok
  | ok compiled =>
    refine ⟨compiled, rfl, (Program.warnings_of_compile hcompile).2.trans (.of_eq ?_)⟩
    rfl

end PascalAsm
