import Mathlib.Algebra.Order.Group.Multiset
import PascalAsm.Proofs.Generator.Programs
import PascalAsm.Proofs.Meaning.Coercions

/-!
# No call is lost or made twice

A call of a function has effects, so code that leaves one out, or makes it a second time, is wrong even
where the values come out right. Where the call of the text ends up depends on much: which side of an
operation is the harder one, how deep in arguments of other calls it stands, whether it belongs to the
test of a loop, which comes after the body. What is compared here does not depend on any of this: how
often each routine is called.

* **`Assembly.callees`** — what some code calls, as a multiset.
* **`Routine.callees`** — what a routine calls by its text: a function for each node that is a call, a
  procedure for each statement that is one, and the library once for each value that is written or read.
* **`Program.callees_of_compile`** — for every routine of a compiled program the two agree.
-/

namespace PascalAsm

open Assembly Lowering Gen State

/-! ## What code calls -/

namespace Assembly

/-- What an instruction calls. Jumps lead to labels of the same function, so they do not count. -/
def Inst.callee? : Inst → Option String
  | .call target => some target
  | _ => none

/-- The targets of the calls in some code, each as often as it is called. In a multiset the order in
which operands are computed does not show. -/
def callees (c : List Inst) : Multiset String := (c.filterMap Inst.callee? : List String)

@[simp] theorem callees_nil : callees [] = 0 := rfl

@[simp] theorem callees_append (c d : List Inst) : callees (c ++ d) = callees c + callees d := by
  rw [callees, List.filterMap_append]
  rfl

theorem callees_cons_none {i : Inst} (h : i.callee? = none) (c : List Inst) :
    callees (i :: c) = callees c := by
  rw [callees, List.filterMap_cons_none h]
  rfl

@[simp] theorem callees_singleton_call (target : String) : callees [.call target] = {target} := rfl

theorem callees_map_eq_zero {α : Type} {f : α → Inst} {xs : List α}
    (h : ∀ x, (f x).callee? = none) : callees (xs.map f) = 0 := by
  rw [callees, List.filterMap_eq_nil_iff.2 (List.forall_mem_map.2 fun x _ => h x)]
  rfl

end Assembly

/-! ## What a text calls -/

namespace Expr

/-- The function that is called at a node itself. The calls in its arguments belong to other nodes.
-/
def callee? : Expr → Option String
  | call _ callee _ => some callee
  | _ => none

/-- The functions that are called at some nodes, each as often as it is. It is additive, so it can
be taken apart with the list of nodes. -/
def calleesOf (nodes : List Expr) : Multiset String := (nodes.filterMap callee? : List String)

@[simp] theorem calleesOf_append (es fs : List Expr) :
    calleesOf (es ++ fs) = calleesOf es + calleesOf fs := by
  rw [calleesOf, List.filterMap_append]
  rfl

theorem calleesOf_cons_none {e : Expr} (h : e.callee? = none) (es : List Expr) :
    calleesOf (e :: es) = calleesOf es := by
  rw [calleesOf, List.filterMap_cons_none h]
  rfl

/-- Nothing is called where a variable stands. What is assigned to or read into is of this kind, and
adds no call. -/
theorem calleesOf_nodes_of_varName? {e : Expr} {x : String} (h : e.varName? = some x) :
    calleesOf e.nodes = 0 := by
  cases e with
  | var => rfl
  | _ => cases h

end Expr

namespace Stmt

mutual

/-- The statement and all statements in it. Recursion over it is recursion over the statement, so it
follows the generator case by case. -/
def parts : Stmt → List Stmt
  | assign line target value => [assign line target value]
  | call line callee args => [call line callee args]
  | compound line body => compound line body :: partsAll body
  | ifThen line condition thenBranch => ifThen line condition thenBranch :: thenBranch.parts
  | ifElse line condition thenBranch elseBranch =>
    ifElse line condition thenBranch elseBranch :: (thenBranch.parts ++ elseBranch.parts)
  | whileDo line condition body => whileDo line condition body :: body.parts
  | forTo line init limit body => forTo line init limit body :: body.parts

/-- The statements and all statements in them. They stand one after another, each with those in it.
-/
def partsAll : List Stmt → List Stmt
  | [] => []
  | s :: rest => s.parts ++ partsAll rest

end

/-- What a statement itself calls: a procedure; or the library, once for each argument, if it writes or
reads. -/
def ownCallees : Stmt → List String
  | call _ callee args =>
    match Builtin.ofName? callee with
    | some .write => args.map fun _ => Runtime.printf
    | some .read => args.map fun _ => Runtime.scanf
    | none => [callee]
  | _ => []

/-- What some statements themselves call, each routine as often as it is called. -/
def calleesOf (parts : List Stmt) : Multiset String := (parts.flatMap ownCallees : List String)

@[simp] theorem calleesOf_nil : calleesOf [] = 0 := rfl

@[simp] theorem calleesOf_append (ss ts : List Stmt) :
    calleesOf (ss ++ ts) = calleesOf ss + calleesOf ts := by
  rw [calleesOf, List.flatMap_append]
  rfl

theorem calleesOf_cons (s : Stmt) (ss : List Stmt) :
    calleesOf (s :: ss) = (s.ownCallees : Multiset String) + calleesOf ss := by
  rw [calleesOf, List.flatMap_cons]
  rfl

theorem calleesOf_cons_nil {s : Stmt} (h : s.ownCallees = []) (ss : List Stmt) :
    calleesOf (s :: ss) = calleesOf ss := by
  rw [calleesOf_cons, h, Multiset.coe_nil, zero_add]

end Stmt

/-- What a routine calls, as its body says; the bodies of what is nested in it left out. -/
def Routine.callees (r : Routine) : Multiset String :=
  Stmt.calleesOf r.body.parts + Expr.calleesOf r.body.nodes

/-! ## Trees -/

namespace Lowering

variable {s s' : State} {u : Unit} {c : List Inst}

/-- Operands are combined by instructions, never by a call. A division takes several of them, and
none of these is a call either. -/
theorem callees_of_combine {op : BinOp} {src : Operand} {dest : Reg}
    (h : (combine op src dest).Yields s u s' c) : callees c = 0 := by
  have hdivide {result : Reg} (h : (divide result src dest).Yields s u s' c) : callees c = 0 := by
    obtain ⟨-, -, rfl⟩ | ⟨-, slot, -, rfl⟩ := yields_divide.1 h <;> rfl
  cases op with
  | add | sub | mul | compare =>
    obtain ⟨-, rfl⟩ := yields_emit.1 h
    rfl
  | div | mod => exact hdivide h

theorem callees_of_saveAll {depth : Nat} {regs : List Reg} {l : List (Reg × Operand)}
    (h : (saveAll depth regs).Yields s l s' c) : callees c = 0 := by
  induction regs generalizing s l c with
  | nil =>
    obtain ⟨-, -, rfl⟩ := yields_saveAll_nil.1 h
    rfl
  | cons r rest ih =>
    obtain ⟨slot, s₁, l', c', -, hl, -, rfl⟩ := yields_saveAll_cons.1 h
    rw [callees_cons_none rfl, ih hl]

theorem callees_loadArgs (ops : List Operand) : callees (loadArgs ops) = 0 := by
  rw [loadArgs, ← List.map_uncurry_zip_eq_zipWith]
  exact callees_map_eq_zero fun _ => rfl

/-- Staging some arguments calls these functions. Which depth it is staged at changes the
temporaries and not the calls. -/
def StageCalls (stage : Nat → Gen (List Operand)) (fs : Multiset String) : Prop :=
  ∀ ⦃depth : Nat⦄ ⦃s s' : State⦄ ⦃ops : List Operand⦄ ⦃c : List Inst⦄,
    (stage depth).Yields s ops s' c → callees c = fs

/-- A call makes one call, after those that its arguments need. Loading the arguments and clearing
the register for `printf` are moves. -/
theorem callees_of_callRoutine {callee : String} {count : Nat} {line : Line}
    {stage : Nat → Gen (List Operand)} {fs : Multiset String} (hstage : StageCalls stage fs)
    (h : (callRoutine callee count line stage).Yields s u s' c) : callees c = {callee} + fs := by
  obtain ⟨-, operands, _, _, c₁, _, hs, -, -, rfl⟩ := yields_callRoutine.1 h
  have hcall : callees [clear Convention.vectorCountReg, .call callee] = {callee} := rfl
  rw [callees_append, callees_append, hstage hs, callees_loadArgs, hcall, zero_add, add_comm]

/-- Whenever the code of the tree can be made, it calls these functions. As an operand a tree has no
code, and calls none. -/
structure Tree.Calls (t : Tree) (fs : Multiset String) : Prop where
  code : ∀ ⦃s s' : State⦄ ⦃u : Unit⦄ ⦃c : List Inst⦄, t.lower.Yields s u s' c → callees c = fs
  operand : t.isOperand = true → fs = 0

namespace Tree

variable {fs gs : Multiset String} {left right t : Tree} {label : Nat} {line : Line}

theorem calls_leaf {leaf : Leaf} : (Tree.leaf label line leaf).Calls 0 where
  code := by
    intro s s' u c h
    obtain ⟨-, -, _, _, _, -, -, rfl⟩ := yields_leaf.1 h
    rfl
  operand := fun _ => rfl

theorem Calls.negated (h : t.Calls fs) : (t.negated line).Calls fs where
  code := by
    intro s s' u c hlower
    obtain ⟨-, c₁, dest, _, hc, -, rfl⟩ := yields_negate.1 hlower
    have hneg : callees [.negl (.reg dest)] = 0 := rfl
    rw [callees_append, h.code hc, hneg, add_zero]
  operand := nofun

/-- An operation calls what its sides call, whichever of them comes first. Sums of multisets do not
depend on the order, `add_comm`. -/
theorem Calls.binary {op : BinOp} (hl : left.Calls fs) (hr : right.Calls gs) :
    (Tree.binary label line op left right).Calls (fs + gs) where
  code := by
    intro s s' u c h
    rcases hleaf : right.leaf? with _ | ⟨leafLine, leaf⟩
    · by_cases hlt : left.label < right.label
      · obtain ⟨-, _, _, _, _, _, _, c₁, c₂, c₃, _, _, _, -, h₁, -, h₂, -, h₃, -, -, rfl⟩ :=
          (yields_binary_swapped hleaf hlt).1 h
        rw [callees_append, callees_append, hr.code h₁, hl.code h₂, callees_of_combine h₃, add_zero,
          add_comm]
      · obtain ⟨-, _, _, _, _, c₁, c₂, c₃, _, _, _, h₁, -, h₂, -, h₃, -, rfl⟩ :=
          (yields_binary_ordered hleaf hlt).1 h
        rw [callees_append, callees_append, hl.code h₁, hr.code h₂, callees_of_combine h₃, add_zero]
    · -- the right side is an operand
      obtain ⟨-, _, c₁, c₂, _, _, _, h₁, -, -, h₂, rfl⟩ := (yields_binary_operand hleaf).1 h
      have hnone : gs = 0 := hr.operand (by rw [isOperand, hleaf]; rfl)
      rw [callees_append, hl.code h₁, callees_of_combine h₂, hnone]
  operand := nofun

/-- Around a call inside an expression registers are saved and loaded again, which calls nothing. So
its own target is the only one beside those of the arguments. -/
theorem calls_call {callee : String} {args : List Arg}
    (hstage : StageCalls (fun depth => Arg.stageAll depth 0 args) fs) :
    (Tree.call label line callee args).Calls ({callee} + fs) where
  code := by
    intro s s' u c h
    obtain ⟨-, dest, _, -, hcall⟩ := yields_call.1 h
    obtain ⟨-, saved, _, _, c₁, c₂, hsave, hroutine, -, rfl⟩ := yields_callValue.1 hcall
    -- What is added around the call of the routine moves registers and calls nothing.
    have hresult : callees [.movl (.reg Convention.resultReg) (.reg dest)] = 0 := rfl
    rw [callees_append, callees_append, callees_append, callees_of_saveAll hsave,
      callees_of_callRoutine hstage hroutine, callees_map_eq_zero fun _ => rfl, hresult, zero_add,
      add_zero, add_zero]
  operand := nofun

end Tree

/-! ## Expressions and arguments -/

theorem callees_of_plan_lower {plan : Plan} {line : Line} {r : Reg} {fs : Multiset String}
    (ht : ∀ {ws t}, plan = .ready ws t → t.Calls fs) (h : (plan.lower line).Yields s r s' c) :
    callees c = fs := by
  obtain ⟨ws, t, hplan, hc⟩ := yields_plan_lower.1 h
  obtain ⟨_, hm, -, -, -⟩ := yields_compute.1 hc
  exact (ht hplan).code hm

theorem callees_of_stage {e : Expr} {depth index : Nat} {op : Operand}
    (ht : ∀ {ws t}, Plan.ofExpr false e = .ready ws t → t.Calls (Expr.calleesOf e.nodes))
    (h : ((Arg.ofPlan e (Plan.ofExpr false e)).stage depth index).Yields s op s' c) :
    callees c = Expr.calleesOf e.nodes := by
  cases e with
  | var =>
    rw [Arg.ofPlan, Arg.stage, yields_varOperand] at h
    obtain ⟨-, -, rfl⟩ := h
    rfl
  | integer =>
    rw [Arg.ofPlan, Arg.stage, yields_pure] at h
    obtain ⟨-, -, rfl⟩ := h
    rfl
  | element =>
    rw [Arg.ofPlan, Arg.stage, yields_fail] at h
    exact h.elim
  -- A computed argument calls what its plan does, and storing it calls nothing.
  | _ =>
    obtain ⟨r, _, _, c₁, hl, -, -, rfl⟩ := Arg.yields_computed.1 h
    have hstore : callees [.movl (.reg r) op] = 0 := rfl
    rw [callees_append, callees_of_plan_lower ht hl, hstore, add_zero]

theorem calls_stageAll {es : List Expr}
    (ht : ∀ e ∈ es, ∀ {ws t}, Plan.ofExpr false e = .ready ws t → t.Calls (Expr.calleesOf e.nodes))
    (index : Nat) : StageCalls (fun depth => Arg.stageAll depth index (Arg.ofExprs es))
      (Expr.calleesOf (Expr.nodesAll es)) := by
  intro depth s s' ops c h
  induction es generalizing index s ops c with
  | nil =>
    obtain ⟨-, -, rfl⟩ := Arg.yields_stageAll_nil.1 h
    rfl
  | cons e es ih =>
    obtain ⟨op, s₁, l', c₁, c₂, ha, hl, -, rfl⟩ := Arg.yields_stageAll_cons.1 h
    -- The index is only used for the name of a temporary, so `ih` holds at any index.
    have hrest := ih (fun e' he => @ht e' (List.mem_cons_of_mem e he)) (index + 1) hl
    rw [callees_append, callees_of_stage (@ht e List.mem_cons_self) ha, hrest, Expr.nodesAll,
      Expr.calleesOf_append]

end Lowering

namespace Expr

variable {s s' : State} {u : Unit} {c : List Inst}

/-- The tree of an expression calls what the expression calls. By induction on the expression;
numbers that are folded into leaves have no calls in them. -/
theorem calls_of_ready {e : Expr} {operand : Bool} {ws : List Warning} {t : Tree}
    (h : Plan.ofExpr operand e = .ready ws t) : t.Calls (calleesOf e.nodes) := by
  refine tree_induction (motive := fun _ e t => t.Calls (calleesOf e.nodes))
    ?var ?integer ?real ?call ?sign ?add ?mul e h
  case var | integer | real => intros; exact Tree.calls_leaf
  case call =>
    intro _ line callee args ih
    exact Tree.calls_call (calls_stageAll ih 0)
  case sign =>
    intro _ line e t ih
    rw [nodes, calleesOf_cons_none rfl]
    exact ih.negated
  -- The two sides may be computed in either order; as multisets their calls are the same.
  case add | mul =>
    intro _ line op left right t u hl hr
    rw [nodes, calleesOf_cons_none rfl, calleesOf_append]
    exact hl.binary hr

theorem callees_of_lower {e : Expr} {r : Reg} (h : e.lower.Yields s r s' c) :
    callees c = calleesOf e.nodes :=
  callees_of_plan_lower calls_of_ready h

theorem calls_stageAll (args : List Expr) : StageCalls (stageAll args) (calleesOf (nodesAll args)) :=
  Lowering.calls_stageAll (fun _ _ _ _ h => calls_of_ready h) 0

/-- A condition calls what its comparisons call, each of them once. By recursion over the logical
operators, which add jumps and labels. -/
theorem callees_of_jumpWhen {e : Expr} {sense : Bool} {goal : String}
    (h : (e.jumpWhen sense goal).Yields s u s' c) : callees c = calleesOf e.nodes := by
  induction sense, goal, e using jumpWhen.induct generalizing s s' u c with
  | case1 sense goal line op left right =>
    obtain ⟨_, t, c', hplan, ht, -, rfl⟩ := yields_jumpWhen_comparison.1 h
    obtain ⟨_, _, tl, tr, hl, hr, -, rfl⟩ := Plan.joined_eq_ready_iff.1 hplan
    have hjump (condition : Condition) : callees [.jcc condition goal] = 0 := rfl
    rw [callees_append, ((calls_of_ready hl).binary (calls_of_ready hr)).code ht, hjump, add_zero,
      nodes, calleesOf_cons_none rfl, calleesOf_append]
  | case2 sense goal line e ih =>
    rw [nodes, calleesOf_cons_none rfl]
    exact ih h
  | case3 goal line op left right ihl ihr =>
    obtain ⟨_, c₁, c₂, hl, hr, rfl⟩ := yields_jumpWhen_either.1 h
    rw [callees_append, ihl hl, ihr hr, nodes, calleesOf_cons_none rfl, calleesOf_append]
  -- The label between the sides is no call, and either side is lowered once.
  | case4 sense goal line op left right hsense ihl ihr =>
    obtain ⟨_, c₁, c₂, hl, hr, rfl⟩ := (yields_jumpWhen_both hsense).1 h
    have hlabel (name : String) : callees [.label name] = 0 := rfl
    rw [callees_append, callees_append, ihl _ hl, ihr hr, hlabel, add_zero, nodes,
      calleesOf_cons_none rfl, calleesOf_append]
  | case5 sense goal e hcomparison hnot hlogical =>
    exact (not_yields_jumpWhen hcomparison hnot hlogical h).elim

end Expr

/-! ## Statements -/

namespace Lowering

variable {s s' : State} {u : Unit} {c : List Inst} {line : Line}

theorem callees_heading (wanted : Bool) (line : Line) (summary : String) :
    callees (heading wanted line summary) = 0 := by
  cases wanted <;> rfl

theorem callees_of_assignValue {target value : Expr}
    (h : (assignValue line target value).Yields s u s' c) :
    callees c = Expr.calleesOf target.nodes + Expr.calleesOf value.nodes := by
  obtain ⟨x, slot, r, _, c₁, hx, -, hr, -, rfl⟩ := yields_assignValue.1 h
  have hstore : callees [.movl (.reg r) slot.operand] = 0 := rfl
  rw [callees_append, Expr.callees_of_lower hr, hstore, Expr.calleesOf_nodes_of_varName? hx, add_zero,
    zero_add]

/-- A call of the library is one call. What loads the second argument is left open; `hload` says
that it calls nothing. -/
theorem callees_of_callLibrary {symbol : String} {load : List Inst} (hload : callees load = 0)
    (h : (callLibrary symbol load).Yields s u s' c) : callees c = {symbol} := by
  obtain ⟨_, _, -, -, rfl⟩ := yields_callLibrary.1 h
  have hcall : callees [clear Convention.vectorCountReg, .call symbol] = {symbol} := rfl
  rw [callees_append, hload, hcall, zero_add]

/-- Each value that is written takes a call, besides those in the values. By induction on the
values, in the order in which they are written. -/
theorem callees_of_writeAll {es : List Expr} (h : (writeAll es).Yields s u s' c) :
    callees c = ((es.map fun _ => Runtime.printf : List String) : Multiset String) +
      Expr.calleesOf (Expr.nodesAll es) := by
  induction es generalizing s u c with
  | nil =>
    obtain ⟨-, rfl⟩ := yields_writeAll_nil.1 h
    rfl
  | cons e rest ih =>
    obtain ⟨r, _, _, c₁, c₂, c₃, hr, hw, hrest, rfl⟩ := yields_writeAll_cons.1 h
    obtain ⟨_, c', -, hl, rfl⟩ := yields_writeReg.1 hw
    rw [callees_append, callees_append, Expr.callees_of_lower hr, callees_cons_none rfl,
      callees_of_callLibrary rfl hl, ih hrest, Expr.nodesAll, Expr.calleesOf_append, List.map_cons,
      ← Multiset.cons_coe, ← Multiset.singleton_add]
    -- The call that writes comes between those of the first value and those of the rest.
    ac_rfl

theorem callees_of_readAll {es : List Expr} (h : (readAll line es).Yields s u s' c) :
    callees c = ((es.map fun _ => Runtime.scanf : List String) : Multiset String) +
      Expr.calleesOf (Expr.nodesAll es) := by
  induction es generalizing s u c with
  | nil =>
    obtain ⟨-, rfl⟩ := yields_readAll_nil.1 h
    rfl
  | cons e rest ih =>
    obtain ⟨x, _, _, c₁, c₂, hx, -, hread, hrest, rfl⟩ := yields_readAll_cons.1 h
    -- What is read into is a variable, `hx`, in which nothing is called.
    rw [callees_append, callees_of_callLibrary rfl hread, ih hrest, Expr.nodesAll,
      Expr.calleesOf_append, Expr.calleesOf_nodes_of_varName? hx, zero_add, List.map_cons,
      ← Multiset.cons_coe, ← Multiset.singleton_add, add_assoc]

theorem callees_of_callProcedure {callee : String} {args : List Expr}
    (h : (callProcedure line callee args).Yields s u s' c) :
    callees c = ((Stmt.call line callee args).ownCallees : Multiset String) +
      Expr.calleesOf (Expr.nodesAll args) := by
  rw [callProcedure] at h
  rw [Stmt.ownCallees]
  -- Only a name that is none of the built-in procedures is called itself.
  cases hbuiltin : Builtin.ofName? callee with
  | none =>
    simp only [hbuiltin] at h ⊢
    exact callees_of_callRoutine (Expr.calls_stageAll args) h
  | some b =>
    simp only [hbuiltin] at h ⊢
    cases b with
    | read => exact callees_of_readAll h
    | write => exact callees_of_writeAll h

/-- A loop has the calls of its body and of its test, which is made once although it is come back
to. -/
theorem callees_of_loop {condition : Expr} {body : Gen Unit} {fs : Multiset String}
    (hbody : ∀ ⦃s s' : State⦄ ⦃c : List Inst⦄, body.Yields s () s' c → callees c = fs)
    (h : (loop condition body).Yields s u s' c) :
    callees c = fs + Expr.calleesOf condition.nodes := by
  obtain ⟨_, c₁, c₂, hb, hc, rfl⟩ := yields_loop.1 h
  rw [callees_cons_none rfl, callees_cons_none rfl, callees_append, callees_cons_none rfl, hbody hb,
    Expr.callees_of_jumpWhen hc]

end Lowering

namespace ForInit

variable {init : ForInit} {x : String} {s s' : State} {u : Unit} {c : List Inst} {line : Line}

theorem callees_of_lower (hx : init.var.varName? = some x)
    (h : (init.lower line).Yields s u s' c) : callees c = Expr.calleesOf init.nodes := by
  cases init with
  | assign var value =>
    rw [callees_of_assignValue h, nodes, Expr.calleesOf_append]
  | keep var =>
    have hvar : var.varName? = some x := hx
    obtain ⟨-, -, rfl⟩ := yields_pure.1 h
    rw [nodes, Expr.calleesOf_nodes_of_varName? hvar]
    rfl

/-- The test is made from the variable and the limit, and calls what is called in the limit. -/
theorem calleesOf_test (hx : init.var.varName? = some x) (limit : Expr) :
    Expr.calleesOf (init.test line limit).nodes = Expr.calleesOf limit.nodes := by
  rw [test, Expr.nodes, Expr.calleesOf_cons_none rfl, Expr.calleesOf_append,
    Expr.calleesOf_nodes_of_varName? hx, zero_add]

/-- Counting the variable up calls nothing. It is a sum of the variable and a number, assigned to
the variable. -/
theorem callees_of_step (hx : init.var.varName? = some x)
    (h : (assignValue line init.var (init.next line)).Yields s u s' c) : callees c = 0 := by
  have hone : Expr.calleesOf (Expr.integer line 1).nodes = 0 := rfl
  rw [callees_of_assignValue h, next, Expr.nodes,
    Expr.calleesOf_cons_none rfl, Expr.calleesOf_append, Expr.calleesOf_nodes_of_varName? hx, hone]
  rfl

end ForInit

namespace Stmt

variable {comments : Bool}

mutual

/-- The code of a statement calls what the statements and the expressions in it call. By recursion
over the statement; every part of it is lowered once. -/
theorem callees_of_lower : ∀ {t : Stmt} {s s' : State} {u : Unit} {c : List Inst},
    (t.lower comments).Yields s u s' c → callees c = calleesOf t.parts + Expr.calleesOf t.nodes
  | .assign .., _, _, _, _, h => by
    obtain ⟨c', h', rfl⟩ := yields_assign.1 h
    rw [callees_append, callees_heading, callees_of_assignValue h', parts, calleesOf_cons_nil rfl,
      nodes, Expr.calleesOf_append]
    rfl
  | .call .., _, _, _, _, h => by
    obtain ⟨c', h', rfl⟩ := yields_call.1 h
    rw [callees_append, callees_heading, callees_of_callProcedure h', parts, calleesOf_cons,
      calleesOf_nil, nodes, zero_add, add_zero]
  | .compound .., _, _, _, _, h => by
    rw [callees_of_lowerAll (yields_compound.1 h), parts, calleesOf_cons_nil rfl, nodes]
  | .ifThen .., _, _, _, _, h => by
    obtain ⟨_, c₁, c₂, hc, ht, rfl⟩ := yields_ifThen.1 h
    have hlabel (name : String) : callees [.label name] = 0 := rfl
    rw [callees_append, callees_append, callees_append, callees_heading, Expr.callees_of_jumpWhen hc,
      callees_of_lower ht, hlabel, parts, calleesOf_cons_nil rfl, nodes, Expr.calleesOf_append,
      zero_add, add_zero]
    ac_rfl
  | .ifElse .., _, _, _, _, h => by
    obtain ⟨_, _, c₁, c₂, c₃, hc, ht, he, rfl⟩ := yields_ifElse.1 h
    have hlabel (name : String) : callees [.label name] = 0 := rfl
    rw [callees_append, callees_append, callees_append, callees_cons_none rfl, callees_cons_none rfl,
      callees_append, callees_heading, Expr.callees_of_jumpWhen hc, callees_of_lower ht,
      callees_of_lower he, hlabel, parts, calleesOf_cons_nil rfl, nodes, calleesOf_append,
      Expr.calleesOf_append, Expr.calleesOf_append, zero_add, add_zero]
    ac_rfl
  | .whileDo .., _, _, _, _, h => by
    obtain ⟨c', h', rfl⟩ := yields_whileDo.1 h
    rw [callees_append, callees_heading, callees_of_loop (fun _ _ _ hb => callees_of_lower hb) h', parts,
      calleesOf_cons_nil rfl, nodes, Expr.calleesOf_append, zero_add]
    ac_rfl
  | .forTo line init limit body, _, _, _, _, h => by
    obtain ⟨_, c₁, c₂, summary, hvar, hi, hl, -, rfl⟩ := yields_forTo.1 h
    obtain ⟨x, hx⟩ := Option.isSome_iff_exists.1 hvar
    -- the variable is tested and counted up by code that has no place in the text
    have hpass : ∀ ⦃s s' : State⦄ ⦃c : List Inst⦄,
        (do body.lower comments; init.step comments line).Yields s () s' c →
          callees c = calleesOf body.parts + Expr.calleesOf body.nodes := by
      intro s s' c hbody
      obtain ⟨_, c₃, c₄, hb, hstep, rfl⟩ := yields_pass.1 hbody
      rw [callees_append, callees_append, callees_heading, callees_of_lower hb,
        ForInit.callees_of_step hx hstep, add_zero, add_zero]
    rw [callees_append, callees_append, callees_heading, ForInit.callees_of_lower hx hi,
      callees_of_loop hpass hl, ForInit.calleesOf_test hx, parts, calleesOf_cons_nil rfl, nodes,
      Expr.calleesOf_append, Expr.calleesOf_append, zero_add]
    ac_rfl

theorem callees_of_lowerAll : ∀ {ts : List Stmt} {s s' : State} {u : Unit} {c : List Inst},
    (Stmt.lowerAll comments ts).Yields s u s' c →
      callees c = calleesOf (partsAll ts) + Expr.calleesOf (nodesAll ts)
  | [], _, _, _, _, h => by
    obtain ⟨-, rfl⟩ := yields_lowerAll_nil.1 h
    rfl
  | t :: rest, _, _, _, _, h => by
    obtain ⟨_, c₁, c₂, ht, hrest, rfl⟩ := yields_lowerAll_cons.1 h
    rw [callees_append, callees_of_lower ht, callees_of_lowerAll hrest, partsAll, nodesAll,
      calleesOf_append, Expr.calleesOf_append]
    -- Own calls and those of the expressions are kept apart, so they have to be reordered.
    ac_rfl

end

end Stmt

/-! ## Routines -/

/-- Around the body of a routine there are only moves of parameters and of the result. What is
nested in the routine has functions of its own and no code in this one. -/
theorem Routine.Compiled.callees_eq {r : Routine} {comments : Bool} {f : Function}
    (h : r.Compiled comments f) : Assembly.callees f.body = r.callees := by
  obtain ⟨s, s', c, outer, -, -, -, hbody, hf⟩ := h.body
  have hstoring : Assembly.callees r.storing = 0 := by
    rw [storing, paramStores, ← List.map_uncurry_zip_eq_zipWith]
    exact callees_map_eq_zero fun _ => rfl
  have hloading : Assembly.callees r.loading = 0 := callees_map_eq_zero fun _ => rfl
  rw [hf, callees_append, callees_append, hstoring, hloading, Stmt.callees_of_lower hbody, zero_add,
    add_zero, Routine.callees]

/-- Every call is made, and none is made twice: the functions of a compiled unit are those of the
routines of its program, one for each, and each of them calls what its routine calls. -/
theorem Program.callees_of_compile {p : Program} {options : Options} {compiled : Compiled}
    (h : p.compile options = .ok compiled) :
    List.Forall₂ (fun r f => f.name = r.name ∧ callees f.body = r.callees) p.routines
      compiled.unit.functions :=
  (functions_of_compile h).2.imp fun _ _ hf => ⟨hf.name, hf.callees_eq⟩

/-! ## A program with calls everywhere -/

/-- A function that calls nothing. -/
def twiceFunction : Subprogram :=
  .mk (.function .integer) "twice" [.vars 2 ["a"] .integer] [] []
    (.assign 2 (.var 2 "twice") (.add 2 .plus (.var 2 "a") (.var 2 "a"))) 2

/-- A procedure that writes two numbers. -/
def showProcedure : Subprogram :=
  .mk .procedure "show" [.vars 3 ["a", "b"] .integer] [] [] (.call 3 "write" [.var 3 "a", .var 3 "b"]) 3

/-- A program that calls its function in both bounds of a loop, in a condition with a connective, on both
sides of operations, and among the arguments of other calls. -/
def callingProgram : Program where
  name := "calling"
  args := ["input", "output"]
  declarations := [.vars 1 ["i", "n"] .integer]
  subprograms := [twiceFunction, showProcedure]
  body :=
    let twice (e : Expr) : Expr := .call 6 "twice" [e]
    let i : Expr := .var 6 "i"
    let n : Expr := .var 6 "n"
    .compound 4
      [.call 5 "Read" [i, n],
       .forTo 6 (.assign i (twice n)) (.add 6 .minus (twice (twice n)) (twice (.integer 6 1)))
        (.ifThen 7
          (.logical 7 .or (.relational 7 .lt (twice i) (.integer 7 4))
            (.relational 7 .lt (.integer 7 1) (.mul 7 .star n (.sign 7 (twice (twice i))))))
          (.call 8 "WRITE" [twice i])),
       .call 9 "show" [twice n, .integer 9 1]]
  line := 1

theorem isOk_compile_callingProgram : (callingProgram.compile {}).isOk = true := by
  decide +kernel

/-- The function is called nine times in the code of the program, as often as in its text. -/
theorem callees_of_compile_callingProgram :
    ∃ compiled, callingProgram.compile {} = .ok compiled ∧
      compiled.unit.functions.map (fun f => callees f.body) =
        [{}, {"printf", "printf"},
          {"__isoc99_scanf", "__isoc99_scanf", "printf", "show"} + Multiset.replicate 9 "twice"] := by
  obtain ⟨compiled, hcompile⟩ := exists_of_isOk isOk_compile_callingProgram
  -- The theorem relates the functions to the source; what the source calls is computed.
  have hcallees : compiled.unit.functions.map (fun f => callees f.body) =
      callingProgram.routines.map Routine.callees := by
    rw [← List.forall₂_eq_eq_eq, List.forall₂_map_left_iff, List.forall₂_map_right_iff]
    exact ((Program.callees_of_compile hcompile).imp fun _ _ hf => hf.2).flip
  refine ⟨compiled, hcompile, hcallees.trans ?_⟩
  decide +kernel

end PascalAsm
