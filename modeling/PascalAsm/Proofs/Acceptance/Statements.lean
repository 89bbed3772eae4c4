import PascalAsm.Proofs.Acceptance.Values
import PascalAsm.Proofs.Generator.Statements

/-!
# Which statements code can be made for

Between statements all registers are free. In every such state the code of a condition can be made
exactly if the condition is `Expr.Testable`, and that of a statement exactly if the statement is
`Stmt.Supported`; afterwards all registers are free again.
-/

namespace PascalAsm

open Assembly Lowering Gen State

namespace Lowering

variable {S : List String} {regs free rest : List Reg} {r : Reg} {Q R : Prop}

namespace State

theorem Ready.congr {s s' : State} (h : s.Ready S regs) (hs : s'.scopes = s.scopes)
    (hp : s'.pool = s.pool) : s'.Ready S regs := by
  obtain ⟨free, hperm, h⟩ := h
  exact (h.congr hs hp).ready hperm

end State

namespace Gen

variable {α : Type} {m : Gen α} {I : State → Prop} {J : α → State → Prop}

/-- Whatever the order of the free registers is, there is a first one. -/
theorem Accepts.ready (hne : regs ≠ []) (h : ∀ r rest, (r :: rest).Perm regs →
    Accepts (Within S regs (r :: rest)) m Q J) : Accepts (Ready S regs) m Q J := by
  -- `hne` is what makes the order start with some register.
  have hfree {free : List Reg} (hperm : free.Perm regs) :
      Accepts (Within S regs free) m Q J := by
    obtain ⟨r, rest, rfl⟩ := Stack.exists_top hne hperm
    exact h r rest hperm
  refine ⟨fun hs => ?_, fun hs hm => ?_⟩
  · obtain ⟨free, hperm, hs⟩ := hs
    exact (hfree hperm).yields_iff hs
  · obtain ⟨free, hperm, hs⟩ := hs
    exact (hfree hperm).after hs hm

theorem accepts_comment {wanted : Bool} {line : Line} {summary : String} (hm : Accepts I m Q J) :
    Accepts I (comment wanted line summary >>= fun _ => m) Q J := by
  cases wanted with
  | true => exact accepts_emit.andThen fun _ => hm
  | false => exact hm

theorem accepts_newLabel : Accepts (Ready S regs) newLabel True fun _ => Ready S regs :=
  .always fun s hs => ⟨localLabel s.labels, s.draw 1, [], rfl, hs.congr rfl rfl⟩

/-! ## Simple statements -/

theorem accepts_callLibrary (hregs : regs.Nodup) {symbol : String} {load : List Inst} :
    Accepts (Ready S regs) (callLibrary symbol load) True fun _ => Ready S regs := by
  refine .always fun s hs => ?_
  obtain ⟨claimed, s₁, s', hclaim, hrelease⟩ :=
    hs.exists_claim_release hregs [.rdi, .rsi] (by decide)
  exact ⟨(), s', _, yields_callLibrary.2 ⟨claimed, s₁, hclaim, hrelease, rfl⟩,
    hs.claim_release hclaim hrelease⟩

/-- Where only a variable can stand, it has to be one of those in scope. Both `read` and assignments
ask this of their targets, with errors of their own. -/
theorem accepts_place {place : Expr → Gen Operand}
    (hvar : ∀ line x, place (.var line x) = varOperand x line)
    (hother : ∀ e, e.varName? = none → ∃ error, place e = fail error) {e : Expr}
    (hnames : Apart S e.identifiers) :
    Accepts (Within S regs free) (place e) (e.Names S) fun _ => Within S regs free := by
  -- `hother` covers all that is no variable, and `hvar` the rest.
  cases hx : e.varName? with
  | none =>
    obtain ⟨error, herror⟩ := hother e hx
    rw [herror]
    exact Accepts.congr accepts_fail (by simp [Expr.Names, hx])
  | some x =>
    cases e with
    | var line y =>
      rw [hvar]
      exact Accepts.congr (accepts_varOperand (hnames y List.mem_cons_self))
        (by simp [Expr.Names, Expr.varName?])
    | _ => simp [Expr.varName?] at hx

theorem accepts_assignmentSlot {target : Expr} (hnames : Apart S target.identifiers)
    (line : Line) : Accepts (Within S regs free) (assignmentSlot line target) (target.Names S)
      fun _ => Within S regs free := by
  refine accepts_place (fun _ _ => rfl) (fun e he => ?_) hnames
  cases e with
  | var => simp [Expr.varName?] at he
  | _ => exact ⟨_, rfl⟩

theorem accepts_readTarget {target : Expr} (hnames : Apart S target.identifiers)
    (line : Line) : Accepts (Within S regs free) (readTarget line target) (target.Names S)
      fun _ => Within S regs free := by
  refine accepts_place (fun _ _ => rfl) (fun e he => ?_) hnames
  cases e with
  | var => simp [Expr.varName?] at he
  | _ => exact ⟨_, rfl⟩

theorem accepts_assignValue (hregs : regs.Nodup) (hne : regs ≠ []) {target value : Expr}
    (htarget : Apart S target.identifiers) (hvalue : Apart S value.identifiers) (line : Line) :
    Accepts (Ready S regs) (assignValue line target value)
      (target.Names S ∧ value.Supported S regs.length) fun _ => Ready S regs := by
  refine .ready hne fun r rest hperm => ?_
  have hstack : Stack regs (r :: rest) := .of_perm hregs hperm
  refine (accepts_assignmentSlot htarget line).bind fun slot => ?_
  refine (Expr.accepts_lower hregs hne hperm hvalue).finish_eq ?_
  refine accepts_emit.andThen fun _ => ?_
  exact (accepts_free hstack.mem hstack.not_mem).mono (fun _ hs => hs) fun _ _ hs => hs.ready hperm

theorem accepts_writeReg (hregs : regs.Nodup) (hperm : (r :: rest).Perm regs) :
    Accepts (Within S regs rest) (writeReg r) True fun _ => Ready S regs := by
  have hstack : Stack regs (r :: rest) := .of_perm hregs hperm
  have hfree : Accepts (Within S regs rest) (Gen.free r) True fun _ => Ready S regs :=
    (accepts_free hstack.mem hstack.not_mem).mono (fun _ hs => hs) fun _ _ hs => hs.ready hperm
  exact accepts_emit.andThen fun _ => hfree.andThen fun _ => accepts_callLibrary hregs

theorem accepts_writeAll (hregs : regs.Nodup) (hne : regs ≠ []) : ∀ {es : List Expr},
    Apart S (Expr.identifiersAll es) → Accepts (Ready S regs) (writeAll es)
      (∀ e ∈ es, e.Supported S regs.length) fun _ => Ready S regs
  | [], _ => Accepts.congr (accepts_pure fun _ hs => hs) (iff_of_true trivial (List.forall_mem_nil _))
  | e :: rest, hnames => by
    rw [Expr.identifiersAll] at hnames
    rw [writeAll, List.forall_mem_cons]
    -- Each value finds the pool ready and leaves it ready for the next one.
    refine .ready hne fun r rest' hperm => ?_
    refine (Expr.accepts_lower hregs hne hperm hnames.left).bind_eq ?_
    refine (accepts_writeReg hregs hperm).andThen fun _ => ?_
    exact accepts_writeAll hregs hne hnames.right

theorem accepts_readAll (hregs : regs.Nodup) (hne : regs ≠ []) (line : Line) : ∀ {es : List Expr},
    Apart S (Expr.identifiersAll es) → Accepts (Ready S regs) (readAll line es)
      (∀ e ∈ es, e.Names S) fun _ => Ready S regs
  | [], _ => Accepts.congr (accepts_pure fun _ hs => hs) (iff_of_true trivial (List.forall_mem_nil _))
  | e :: rest, hnames => by
    rw [Expr.identifiersAll] at hnames
    rw [readAll, List.forall_mem_cons]
    refine .ready hne fun r rest' hperm => ?_
    -- Finding the variable changes nothing, so the pool is as ready as before.
    have hslot : Accepts (Within S regs (r :: rest')) (readTarget line e) (e.Names S)
        fun _ => Ready S regs :=
      (accepts_readTarget hnames.left line).mono (fun _ hs => hs) fun _ _ hs => hs.ready hperm
    refine hslot.bind fun slot => ?_
    refine (accepts_callLibrary hregs).andThen fun _ => ?_
    exact accepts_readAll hregs hne line hnames.right

theorem accepts_callProcedure (hregs : regs.Nodup) (hne : regs ≠ []) {args : List Expr}
    (hnames : Apart S (Expr.identifiersAll args)) (line : Line) (callee : String) :
    Accepts (Ready S regs) (callProcedure line callee args)
      (Expr.Callable S regs.length callee args) fun _ => Ready S regs := by
  rw [callProcedure, Expr.Callable]
  rcases Builtin.ofName? callee with _ | _ | _
  · exact accepts_callRoutine hregs fun depth free hperm =>
      Expr.accepts_stageAll hregs hne hperm hnames depth
  · exact accepts_readAll hregs hne line hnames
  · exact accepts_writeAll hregs hne hnames

end Gen

end Lowering

/-! ## Conditions -/

namespace Expr

variable {S : List String} {regs : List Reg}

/-- Comparing two values takes as many registers as computing an operation on them. That is why the
condition is the one of `Expr.Testable`, in which a comparison counts like a sum. -/
theorem accepts_comparison (hregs : regs.Nodup) (hne : regs ≠ []) {left right : Expr}
    (hleft : Apart S left.identifiers) (hright : Apart S right.identifiers) (sense : Bool)
    (goal : String) (line : Line) (op : RelOp) :
    Accepts (Ready S regs) ((relational line op left right).jumpWhen sense goal)
      ((relational line op left right).Testable S regs.length) fun _ => Ready S regs := by
  have hlabel {ws ws' : List Warning} {t u : Tree} (ht : Plan.ofExpr true left = .ready ws t)
      (hu : Plan.ofExpr true right = .ready ws' u) :
      (Tree.joined line (.compare op) t u).label =
        joinRegisters (left.registers true) (right.registers true) := by
    rw [Tree.label_joined, label_of_ready ht, label_of_ready hu]
    rfl
  have htree {ws ws' : List Warning} {t u : Tree} (ht : Plan.ofExpr true left = .ready ws t)
      (hu : Plan.ofExpr true right = .ready ws' u) :
      (Tree.joined line (.compare op) t u).Accepted S regs
        (left.Computable S regs.length ∧ right.Computable S regs.length) := by
    refine (accepted_of_ready hregs hne ht hleft).joined (accepted_of_ready hregs hne hu hright)
      ?_ ?_ line _
    · exact label_of_ready ht ▸ registers_pos ht
    · exact label_of_ready hu ▸ registers_pos hu
  -- warnings come before the code and have no part in what is accepted
  refine .ready hne fun r rest hperm => ⟨fun {s} hs => ?_, fun {s _ s' c} hs h => ?_⟩
  · have hwarned (ws : List Warning) :
        State.Within S regs (r :: rest) { s with warnings := s.warnings ++ ws } := hs.congr rfl rfl
    constructor
    · rintro ⟨_, s', c, h⟩
      obtain ⟨_, t, c', hplan, hcode, -⟩ := yields_jumpWhen_comparison.1 h
      obtain ⟨_, _, tl, tr, ht, hu, rfl, rfl⟩ := Plan.joined_eq_ready_iff.1 hplan
      have hcapacity := Tree.label_le_of_yields hcode
      rw [Pool.capacity, (hwarned _).members, hlabel ht hu] at hcapacity
      refine ⟨?_, hcapacity⟩
      refine ((htree ht hu (.of_perm hregs hperm) (List.cons_ne_nil _ _) ?_).yields_iff
        (hwarned _)).1 ⟨(), s', c', hcode⟩
      rw [hlabel ht hu, hperm.length_eq]
      exact hcapacity
    · rintro ⟨hcomputable, hfew⟩
      obtain ⟨ws, t, ht⟩ := hcomputable.1.exists_ready true
      obtain ⟨ws', u, hu⟩ := hcomputable.2.exists_ready true
      have hroom : (Tree.joined line (.compare op) t u).label ≤ (r :: rest).length := by
        rw [hlabel ht hu, hperm.length_eq]
        exact hfew
      obtain ⟨_, s', c, hcode⟩ := ((htree ht hu (.of_perm hregs hperm) (List.cons_ne_nil _ _)
        hroom).yields_iff (hwarned (ws ++ ws'))).2 hcomputable
      obtain ⟨-, hrestored, -⟩ := (settled_of_ready ht).comparison (settled_of_ready hu) hcode
      exact ⟨(), s', _, yields_jumpWhen_comparison.2 ⟨_, _, c,
        Plan.joined_eq_ready_iff.2 ⟨ws, ws', t, u, ht, hu, rfl, rfl⟩, hcode, hrestored.balance,
        rfl⟩⟩
  · obtain ⟨hadvanced, hrestored, -⟩ := jumpWhen_settled h
    exact (hs.of_grows hadvanced.scopes hrestored.members_eq
      (hrestored.free_eq.trans hs.free)).ready hperm

/-- The code of a condition can be made exactly if the condition is testable. By recursion over the
logical operators; the sense and the label change nothing about it. -/
theorem accepts_jumpWhen (hregs : regs.Nodup) (hne : regs ≠ []) {e : Expr} (sense : Bool)
    (goal : String) (hnames : Apart S e.identifiers) :
    Accepts (Ready S regs) (e.jumpWhen sense goal) (e.Testable S regs.length)
      fun _ => Ready S regs := by
  induction sense, goal, e using jumpWhen.induct with
  | case1 sense goal line op left right =>
    exact accepts_comparison hregs hne hnames.left hnames.right ..
  | case2 sense goal line e ih => exact ih hnames
  | case3 goal line op left right ihl ihr =>
    rw [identifiers] at hnames
    rw [jumpWhen, if_pos rfl, Testable]
    exact (ihl hnames.left).bind fun _ => ihr hnames.right
  | case4 sense goal line op left right hsense ihl ihr =>
    rw [identifiers] at hnames
    rw [jumpWhen, if_neg hsense, Testable]
    refine accepts_newLabel.andThen fun past => ?_
    refine (ihl past hnames.left).bind fun _ => ?_
    exact (ihr hnames.right).finish fun _ => accepts_emit
  | case5 sense goal e hcomparison hnot hlogical =>
    -- nothing but comparisons and what joins them can be tested
    refine Accepts.congr (.never fun _ h => not_yields_jumpWhen hcomparison hnot hlogical h) ?_
    cases e with
    | relational => exact (hcomparison _ _ _ _ rfl).elim
    | not => exact (hnot _ _ rfl).elim
    | logical => exact (hlogical _ _ _ _ rfl).elim
    | _ => exact Iff.rfl

end Expr

/-! ## Statements -/

section

variable {S : List String} {regs : List Reg} {Q : Prop}

/-- A loop is made of a body and a test. Labels are never short, so only these two can fail. -/
theorem Lowering.Gen.accepts_loop (hregs : regs.Nodup) (hne : regs ≠ []) {condition : Expr}
    {body : Gen Unit} (hnames : Apart S condition.identifiers)
    (hbody : Accepts (Ready S regs) body Q fun _ => Ready S regs) :
    Accepts (Ready S regs) (loop condition body) (condition.Testable S regs.length ∧ Q)
      fun _ => Ready S regs := by
  -- The body is lowered before the test, the other way round than in the source.
  refine Accepts.congr ?_ and_comm
  refine accepts_newLabel.andThen fun start => ?_
  refine accepts_newLabel.andThen fun test => ?_
  refine accepts_emit.andThen fun _ => ?_
  refine hbody.bind fun _ => ?_
  refine accepts_emit.andThen fun _ => ?_
  exact Expr.accepts_jumpWhen hregs hne true start hnames

/-- If a variable can be assigned to, then it can be counted up. The sum has a variable and a number
for operands, and needs one register. -/
theorem ForInit.next_supported {k : Nat} (htwo : 2 ≤ k) {init : ForInit} (h : init.var.Names S)
    (line : Line) : (init.next line).Supported S k := by
  obtain ⟨x, hx, hvar⟩ := h
  rw [ForInit.next]
  cases hv : init.var with
  | var varLine y =>
    rw [hv] at hvar
    obtain rfl : y = x := Option.some.inj hvar
    exact ⟨⟨hx, trivial⟩, htwo⟩
  | _ => simp [hv, Expr.varName?] at hvar

theorem ForInit.accepts_step (hregs : regs.Nodup) (htwo : 2 ≤ regs.length) {init : ForInit}
    (hnames : Apart S init.var.identifiers) (comments : Bool) (line : Line) :
    Accepts (Ready S regs) (init.step comments line) (init.var.Names S) fun _ => Ready S regs := by
  have hne : regs ≠ [] := List.ne_nil_of_length_pos (by omega)
  have hnext : Apart S (init.next line).identifiers := by
    rw [ForInit.next, Expr.identifiers, Expr.identifiers, List.append_nil]
    exact hnames
  refine accepts_comment ?_
  exact (accepts_assignValue hregs hne hnames hnext line).congr
    (and_iff_left_of_imp fun h => ForInit.next_supported htwo h line)

/-- Counting needs a variable, also where it starts from the value that the variable has already. -/
theorem ForInit.accepts_counting (hregs : regs.Nodup) (htwo : 2 ≤ regs.length) {init : ForInit}
    {limit : Expr} {body : Gen Unit} (hinit : Apart S init.identifiers)
    (hlimit : Apart S limit.identifiers)
    (hbody : Accepts (Ready S regs) body Q fun _ => Ready S regs) (comments : Bool) (line : Line) :
    Accepts (Ready S regs) (do
        init.lower line
        loop (init.test line limit) do body; init.step comments line)
      (init.Supported S regs.length ∧ (init.test line limit).Testable S regs.length ∧ Q)
      fun _ => Ready S regs := by
  have hne : regs ≠ [] := List.ne_nil_of_length_pos (by omega)
  have hvar : Apart S init.var.identifiers := hinit.mono init.identifiers_var_subset
  have htest : Apart S (init.test line limit).identifiers := fun x hx =>
    (List.mem_append.1 hx).elim (hvar x) (hlimit x)
  have hloop := accepts_loop hregs hne htest
    (hbody.bind fun _ => ForInit.accepts_step hregs htwo hvar comments line)
  -- a loop that starts without an assignment asks for a variable only where it counts up
  cases init with
  | assign var value =>
    have hstart := accepts_assignValue hregs hne hinit.left hinit.right line
    refine (hstart.bind fun _ => hloop).congr ?_
    exact ⟨fun ⟨hinit, htest, hbody, _⟩ => ⟨hinit, htest, hbody⟩,
      fun ⟨hinit, htest, hbody⟩ => ⟨hinit, htest, hbody, hinit.1⟩⟩
  | keep var =>
    have hstart : Accepts (Ready S regs) ((ForInit.keep var).lower line) True
        fun _ => Ready S regs := accepts_pure fun _ hs => hs
    refine (hstart.andThen fun _ => hloop).congr ?_
    exact ⟨fun ⟨htest, hbody, hvar⟩ => ⟨hvar, htest, hbody⟩,
      fun ⟨hvar, htest, hbody⟩ => ⟨htest, hbody, hvar⟩⟩

end

namespace Stmt

variable {S : List String} {regs : List Reg} {comments : Bool}

mutual

/-- **The code of a statement can be made exactly if the statement is supported.** -/
theorem accepts_lower (hregs : regs.Nodup) (htwo : 2 ≤ regs.length) : ∀ {t : Stmt},
    Apart S t.identifiers → Accepts (Ready S regs) (t.lower comments)
      (t.Supported S regs.length) fun _ => Ready S regs
  | .assign line target value, hnames => by
    have hne : regs ≠ [] := List.ne_nil_of_length_pos (by omega)
    rw [Stmt.lower]
    exact accepts_comment (accepts_assignValue hregs hne hnames.left hnames.right line)
  | .call line callee args, hnames => by
    have hne : regs ≠ [] := List.ne_nil_of_length_pos (by omega)
    have hargs : Apart S (Expr.identifiersAll args) :=
      hnames.mono fun _ hx => List.mem_cons_of_mem _ hx
    rw [Stmt.lower]
    exact accepts_comment (accepts_callProcedure hregs hne hargs line callee)
  | .compound line body, hnames => by
    rw [Stmt.lower]
    exact accepts_lowerAll hregs htwo hnames
  | .ifThen line condition thenBranch, hnames => by
    have hne : regs ≠ [] := List.ne_nil_of_length_pos (by omega)
    rw [Stmt.lower]
    refine accepts_comment (accepts_newLabel.andThen fun past => ?_)
    refine (Expr.accepts_jumpWhen hregs hne false past hnames.left).bind fun _ => ?_
    exact (accepts_lower hregs htwo hnames.right).finish fun _ => accepts_emit
  | .ifElse line condition thenBranch elseBranch, hnames => by
    have hne : regs ≠ [] := List.ne_nil_of_length_pos (by omega)
    rw [Stmt.lower]
    refine accepts_comment (accepts_newLabel.andThen fun otherwise => ?_)
    refine (Expr.accepts_jumpWhen hregs hne false otherwise hnames.left).bind fun _ => ?_
    refine (accepts_lower hregs htwo hnames.right.left).bind fun _ => ?_
    refine accepts_newLabel.andThen fun past => accepts_emit.andThen fun _ => ?_
    exact (accepts_lower hregs htwo hnames.right.right).finish fun _ => accepts_emit
  | .whileDo line condition body, hnames => by
    have hne : regs ≠ [] := List.ne_nil_of_length_pos (by omega)
    rw [Stmt.lower]
    exact accepts_comment (accepts_loop hregs hne hnames.left (accepts_lower hregs htwo hnames.right))
  | .forTo line init limit body, hnames => by
    have hcounting := ForInit.accepts_counting hregs htwo hnames.left hnames.right.left
      (accepts_lower hregs htwo hnames.right.right) comments line
    obtain ⟨summary, hsummary⟩ := exists_summary_forTo line init limit body
    rw [Stmt.lower, hsummary]
    refine accepts_comment ?_
    cases hx : init.var.varName? with
    | none =>
      -- the check for a variable only comes before one that would fail later
      have hvar : ¬ init.var.Names S := by simp [Expr.Names, hx]
      refine Accepts.congr (accepts_fail.bind fun _ => hcounting) (iff_of_false (fun h => h.1) ?_)
      rintro ⟨hinit, -⟩
      cases init with
      | assign => exact hvar hinit.1
      | keep => exact hvar hinit
    | some x => exact hcounting

/-- The code of statements one after another can be made exactly if each of them is supported. -/
theorem accepts_lowerAll (hregs : regs.Nodup) (htwo : 2 ≤ regs.length) : ∀ {ts : List Stmt},
    Apart S (Stmt.identifiersAll ts) → Accepts (Ready S regs) (Stmt.lowerAll comments ts)
      (Stmt.SupportedAll S regs.length ts) fun _ => Ready S regs
  | [], _ => by
    rw [Stmt.lowerAll]
    exact accepts_pure fun _ hs => hs
  | t :: rest, hnames => by
    rw [Stmt.lowerAll]
    exact (accepts_lower hregs htwo hnames.left).bind fun _ =>
      accepts_lowerAll hregs htwo hnames.right

end

end Stmt

end PascalAsm
