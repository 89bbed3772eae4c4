import PascalAsm.Proofs.Failures.Values

/-!
# How the code of statements fails

Besides the faults of the values in it, there is one way for a statement to fail that is called a
defect of the generator: an assignment to something that is neither a variable nor an array element,
and a call that reads into such a thing. No source text has them (`Stmt.Misuses`).
-/

namespace PascalAsm

open Assembly Lowering Gen State

/-! ## Lines and misuses -/

/-- The expression is a variable or an array element, so that one could think of assigning to it. -/
def Expr.isPlace : Expr → Bool
  | .var .. | .element .. => true
  | _ => false

theorem Expr.isPlace_of_varName? {e : Expr} (h : ¬ e.varName?.isNone = true) : e.isPlace = true := by
  cases e with
  | var => rfl
  | _ => exact (h rfl).elim

/-- The lines that the nodes at the start of a `for` statement stand on. -/
def ForInit.lines : ForInit → List Line
  | .assign var value => var.lines ++ value.lines
  | .keep var => var.lines

theorem ForInit.lines_var_subset (init : ForInit) : init.var.lines ⊆ init.lines := by
  cases init with
  | assign var value => exact List.subset_append_left ..
  | keep var => exact List.Subset.refl _

namespace Stmt

mutual

/-- The lines that the nodes of a statement stand on. A compound statement adds those of its parts,
and the node of a `for` statement has lines of its own. -/
def lines : Stmt → List Line
  | assign line target value => line :: (target.lines ++ value.lines)
  | call line _ args => line :: Expr.linesAll args
  | compound line body => line :: linesAll body
  | ifThen line condition thenBranch => line :: (condition.lines ++ thenBranch.lines)
  | ifElse line condition thenBranch elseBranch =>
    line :: (condition.lines ++ (thenBranch.lines ++ elseBranch.lines))
  | whileDo line condition body => line :: (condition.lines ++ body.lines)
  | forTo line init limit body => line :: (init.lines ++ (limit.lines ++ body.lines))

/-- The lines that the nodes of some statements stand on. -/
def linesAll : List Stmt → List Line
  | [] => []
  | s :: rest => s.lines ++ linesAll rest

end

mutual

/-- Somewhere in the statement, something that is no place is assigned to or read into, and the fault
is the one that names it. -/
def Misuses (f : Fault) : Stmt → Prop
  | assign _ target _ => target.isPlace = false ∧ f = .internal (.assignmentTarget target.text)
  | call _ callee args => Builtin.ofName? callee = some .read ∧
      ∃ arg ∈ args, arg.isPlace = false ∧ f = .internal (.readTarget arg.text)
  | compound _ body => MisusesAny f body
  | ifThen _ _ thenBranch => thenBranch.Misuses f
  | ifElse _ _ thenBranch elseBranch => thenBranch.Misuses f ∨ elseBranch.Misuses f
  | whileDo _ _ body | forTo _ _ _ body => body.Misuses f

/-- One of the statements does so. A misuse deep inside is therefore one of the whole body. -/
def MisusesAny (f : Fault) : List Stmt → Prop
  | [] => False
  | s :: rest => s.Misuses f ∨ MisusesAny f rest

end

end Stmt

/-- The errors of statements. -/
abbrev StmtBlame (misuses : Fault → Prop) : List Line → Scopes → LoweringError → State → Prop :=
  Blame fun f => f.isOrdinary = true ∨ misuses f

namespace Lowering.Gen

variable {outer : Scopes} {regs free rest : List Reg} {r : Reg} {lines : List Line} {line : Line}
  {E : LoweringError → State → Prop}

/-! ## Simple statements -/

theorem ends_comment {I : State → Prop} {wanted : Bool} {summary : String} :
    Ends I (comment wanted line summary) (fun _ => I) E := by
  cases wanted with
  | true => exact ends_emit
  | false => exact ends_pure fun _ hs => hs

/-- Where all registers are free, there is a first one. Values are computed into it, so `hne` is
what keeps this from being impossible. -/
theorem Ends.rested_cons {α : Type} {m : Gen α} {J : α → State → Prop} (hne : regs ≠ [])
    (h : ∀ r rest, (r :: rest).Perm regs → Ends (Inside outer regs (r :: rest)) m J E) :
    Ends (Rested outer regs) m J E := by
  refine .rested fun free hperm => ?_
  obtain ⟨r, rest, rfl⟩ := Stack.exists_top hne hperm
  exact h r rest hperm

theorem ends_callLibrary (hregs : regs.Nodup) {symbol : String} {load : List Inst} :
    Ends (Rested outer regs) (callLibrary symbol load) (fun _ => Rested outer regs) E := by
  have hwanted : [Reg.rdi, Reg.rsi].Nodup := by decide
  exact (ends_claim hregs hwanted).bind fun _ => ends_emit.bind fun _ => ends_release hregs hwanted

/-- A register that was taken is given back. The registers are all free again, in another order than
before. -/
theorem ends_free_rested (hregs : regs.Nodup) (hperm : (r :: rest).Perm regs) :
    Ends (Inside outer regs rest) (Gen.free r) (fun _ => Rested outer regs) E := by
  have hstack : Stack regs (r :: rest) := .of_perm hregs hperm
  exact (ends_free hstack.mem hstack.not_mem).imp_after fun _ _ hs => hs.rested hperm

/-- Where a value goes is known, or the statement is to blame: a place that has no slot is one thing,
and something that is no place at all is another. -/
theorem ends_assignmentSlot (line : Line) (target : Expr) :
    Ends (Inside outer regs free) (assignmentSlot line target) (fun _ => Inside outer regs free)
      (StmtBlame (fun f => target.isPlace = false ∧ f = .internal (.assignmentTarget target.text))
        (line :: target.lines) outer) := by
  have hline : line ∈ line :: target.lines := List.mem_cons_self
  cases target with
  -- A variable is to blame on its own line, everything else on that of the statement.
  | var varLine x =>
    have hplace : varLine ∈ line :: (Expr.var varLine x).lines :=
      List.mem_cons_of_mem _ (Expr.line_mem_lines _)
    exact (ends_varOperand hplace).blame_mono (fun _ hf => .inl hf) (List.Subset.refl _)
  | element elementLine array index =>
    exact ends_fail fun s hs => ⟨⟨_, .inl rfl, line, hline, rfl⟩, hs.isOpen⟩
  | _ => exact ends_fail fun s hs => ⟨⟨_, .inr ⟨rfl, rfl⟩, line, hline, rfl⟩, hs.isOpen⟩

theorem ends_assignValue (hregs : regs.Nodup) (hne : regs ≠ []) (line : Line) (target value : Expr) :
    Ends (Rested outer regs) (assignValue line target value) (fun _ => Rested outer regs)
      (StmtBlame (fun f => target.isPlace = false ∧ f = .internal (.assignmentTarget target.text))
        (line :: (target.lines ++ value.lines)) outer) := by
  have htarget : line :: target.lines ⊆ line :: (target.lines ++ value.lines) :=
    List.cons_subset_cons line (List.subset_append_left ..)
  have hvalue : value.lines ⊆ line :: (target.lines ++ value.lines) :=
    List.subset_cons_of_subset line (List.subset_append_right ..)
  -- A pool that rests has a register, `hne`; the value is computed into it and it is freed.
  refine .rested_cons hne fun r rest hperm => ?_
  refine ((ends_assignmentSlot line target).blame_mono (fun _ hf => hf) htarget).bind fun slot => ?_
  refine ((value.ends_lower hregs hne hperm).blame_mono (fun _ hf => .inl hf) hvalue).bind_eq ?_
  exact ends_emit.bind fun _ => ends_free_rested hregs hperm

theorem ends_writeAll (hregs : regs.Nodup) (hne : regs ≠ []) (args : List Expr) :
    Ends (Rested outer regs) (writeAll args) (fun _ => Rested outer regs)
      (ValueBlame (Expr.linesAll args) outer) := by
  -- The blame of one value is a blame of the list, by the inclusion of its lines.
  induction args with
  | nil => exact ends_pure fun _ hs => hs
  | cons arg args ih =>
    rw [writeAll, Expr.linesAll]
    refine .rested_cons hne fun r rest hperm => ?_
    refine ((Expr.ends_lower hregs hne hperm arg).blame_mono (fun _ hf => hf)
      (List.subset_append_left ..)).bind_eq ?_
    refine Ends.bind (J := fun _ => Rested outer regs) ?_ fun _ =>
      ih.blame_mono (fun _ hf => hf) (List.subset_append_right ..)
    exact ends_emit.bind fun _ => (ends_free_rested hregs hperm).bind fun _ => ends_callLibrary hregs

theorem ends_readTarget (line : Line) (arg : Expr) :
    Ends (Inside outer regs free) (readTarget line arg) (fun _ => Inside outer regs free)
      (StmtBlame (fun f => arg.isPlace = false ∧ f = .internal (.readTarget arg.text))
        (line :: arg.lines) outer) := by
  have hplace : arg.line ∈ line :: arg.lines := List.mem_cons_of_mem _ arg.line_mem_lines
  cases arg with
  -- A variable that is not found is one cause, and something that is no place another.
  | var varLine x => exact (ends_varOperand hplace).blame_mono (fun _ hf => .inl hf) (List.Subset.refl _)
  | element elementLine array index =>
    exact ends_fail fun s hs => ⟨⟨_, .inl rfl, elementLine, hplace, rfl⟩, hs.isOpen⟩
  | _ =>
    exact ends_fail fun s hs => ⟨⟨_, .inr ⟨rfl, rfl⟩, line, List.mem_cons_self, rfl⟩, hs.isOpen⟩

theorem ends_readAll (hregs : regs.Nodup) (line : Line) (args : List Expr) :
    Ends (Rested outer regs) (readAll line args) (fun _ => Rested outer regs)
      (StmtBlame (fun f => ∃ arg ∈ args, arg.isPlace = false ∧ f = .internal (.readTarget arg.text))
        (line :: Expr.linesAll args) outer) := by
  induction args with
  | nil => exact ends_pure fun _ hs => hs
  | cons arg args ih =>
    have hfirst : line :: arg.lines ⊆ line :: Expr.linesAll (arg :: args) :=
      List.cons_subset_cons line (List.subset_append_left ..)
    have hothers : line :: Expr.linesAll args ⊆ line :: Expr.linesAll (arg :: args) :=
      List.cons_subset_cons line (List.subset_append_right ..)
    rw [readAll]
    -- looking up the place leaves the same registers free
    refine .rested fun free hperm => ?_
    refine ((ends_readTarget line arg).blame_mono ?_ hfirst).bind fun slot => ?_
    · exact fun f hf => hf.imp_right fun hf => ⟨arg, List.mem_cons_self, hf⟩
    refine Ends.bind (J := fun _ => Rested outer regs) ?_ fun _ =>
      ih.blame_mono ?_ hothers
    · exact (ends_callLibrary hregs).imp_start fun _ hs => hs.rested hperm
    · rintro f (hf | ⟨arg', harg', hf⟩)
      · exact .inl hf
      · exact .inr ⟨arg', List.mem_cons_of_mem arg harg', hf⟩

/-- A call of a procedure fails for a fault of the source, or because it reads into no place. -/
theorem ends_callProcedure (hregs : regs.Nodup) (hne : regs ≠ []) (line : Line) (callee : String)
    (args : List Expr) :
    Ends (Rested outer regs) (callProcedure line callee args) (fun _ => Rested outer regs)
      (StmtBlame ((Stmt.call line callee args).Misuses ·) (line :: Expr.linesAll args) outer) := by
  have hargs : Expr.linesAll args ⊆ line :: Expr.linesAll args := List.subset_cons_self ..
  rw [callProcedure]
  -- a routine of the program, reading, writing
  rcases hbuiltin : Builtin.ofName? callee with _ | (_ | _)
  · have hstage : StageBlames regs (line :: Expr.linesAll args) (Expr.stageAll args) :=
      fun outer depth free hperm => (Expr.stageBlames_stageAll hregs hne args hperm).blame_mono
        (fun _ hf => hf) hargs
    exact (ends_callRoutine hregs List.mem_cons_self hstage).blame_mono (fun _ hf => .inl hf)
      (List.Subset.refl _)
  · refine (ends_readAll hregs line args).blame_mono ?_ (List.Subset.refl _)
    exact fun f hf => hf.imp_right fun hf => ⟨hbuiltin, hf⟩
  · exact (ends_writeAll hregs hne args).blame_mono (fun _ hf => .inl hf) hargs

/-! ## Loops -/

/-- A loop fails as its body or its condition does. Both are made inside of it, and its labels can
always be drawn. -/
theorem ends_loop (hregs : regs.Nodup) (hne : regs ≠ []) {condition : Expr} {body : Gen Unit}
    {misuses : Fault → Prop} (hcondition : condition.lines ⊆ lines)
    (hbody : Ends (Rested outer regs) body (fun _ => Rested outer regs)
      (StmtBlame misuses lines outer)) :
    Ends (Rested outer regs) (loop condition body) (fun _ => Rested outer regs)
      (StmtBlame misuses lines outer) :=
  ends_newLabel.bind fun start => ends_newLabel.bind fun _ => ends_emit.bind fun _ =>
    hbody.bind fun _ => ends_emit.bind fun _ =>
      (condition.ends_jumpWhen hregs hne true start).blame_mono (fun _ hf => .inl hf) hcondition

end Lowering.Gen

section

variable {outer : Scopes} {regs : List Reg} {line : Line}

/-- What a `for` statement assigns to is a variable, or the statement is given up before. With
`hvar` no misuse is left among the reasons, so the errors are those of values. -/
theorem ForInit.ends_assignValue (hregs : regs.Nodup) (hne : regs ≠ []) {init : ForInit}
    (hvar : init.var.isPlace = true) (value : Expr) :
    Ends (Rested outer regs) (assignValue line init.var value) (fun _ => Rested outer regs)
      (ValueBlame (line :: (init.var.lines ++ value.lines)) outer) := by
  refine (Gen.ends_assignValue hregs hne line init.var value).blame_mono ?_ (List.Subset.refl _)
  rintro f (hf | ⟨hplace, -⟩)
  · exact hf
  · simp [hvar] at hplace

theorem ForInit.ends_lower (hregs : regs.Nodup) (hne : regs ≠ []) {init : ForInit}
    (hvar : init.var.isPlace = true) :
    Ends (Rested outer regs) (init.lower line) (fun _ => Rested outer regs)
      (ValueBlame (line :: init.lines) outer) := by
  cases init with
  | assign var value => exact ForInit.ends_assignValue hregs hne hvar value
  | keep var => exact ends_pure fun _ hs => hs

theorem ForInit.ends_step (hregs : regs.Nodup) (hne : regs ≠ []) {init : ForInit}
    (hvar : init.var.isPlace = true) (comments : Bool) :
    Ends (Rested outer regs) (init.step comments line) (fun _ => Rested outer regs)
      (ValueBlame (line :: init.lines) outer) := by
  have hlines : line :: (init.var.lines ++ (init.next line).lines) ⊆ line :: init.lines := by
    have hvarLines := init.lines_var_subset
    simp [next, Expr.lines, hvarLines, List.subset_cons_of_subset]
  refine ends_comment.bind fun _ => ?_
  exact (ForInit.ends_assignValue hregs hne hvar _).blame_mono (fun _ hf => hf) hlines

/-! ## Statements -/

mutual

/-- Between statements all registers are free, and a statement fails only for a fault of the source, or
because something in it that is no place is assigned to or read into; either is on a line of the
statement. -/
theorem Stmt.ends_lower (hregs : regs.Nodup) (hne : regs ≠ []) (comments : Bool) : ∀ s : Stmt,
    Ends (Rested outer regs) (s.lower comments) (fun _ => Rested outer regs)
      (StmtBlame (s.Misuses ·) s.lines outer)
  | .assign line target value => by
    rw [Stmt.lower, Stmt.lines]
    exact ends_comment.bind fun _ => ends_assignValue hregs hne line target value
  | .call line callee args => by
    rw [Stmt.lower, Stmt.lines]
    exact ends_comment.bind fun _ => ends_callProcedure hregs hne line callee args
  | .compound line body => by
    rw [Stmt.lower, Stmt.lines]
    exact (Stmt.ends_lowerAll hregs hne comments body).blame_mono (fun _ hf => hf)
      (List.subset_cons_self ..)
  | .ifThen line condition thenBranch => by
    have hcondition := @Expr.ends_jumpWhen outer regs hregs hne condition false
    have hthen := thenBranch.ends_lower hregs hne comments
    rw [Stmt.lower, Stmt.lines]
    refine ends_comment.bind fun _ => ends_newLabel.bind fun past => ?_
    refine ((hcondition past).blame_mono (fun _ hf => .inl hf) ?_).bind fun _ =>
      (hthen.blame_mono (fun _ hf => hf) ?_).bind fun _ => ends_emit
    · exact List.subset_cons_of_subset line (List.subset_append_left ..)
    · exact List.subset_cons_of_subset line (List.subset_append_right ..)
  | .ifElse line condition thenBranch elseBranch => by
    have hcondition := @Expr.ends_jumpWhen outer regs hregs hne condition false
    have hthen := thenBranch.ends_lower hregs hne comments
    have helse := elseBranch.ends_lower hregs hne comments
    have hbranches : thenBranch.lines ++ elseBranch.lines ⊆
        line :: (condition.lines ++ (thenBranch.lines ++ elseBranch.lines)) :=
      List.subset_cons_of_subset line (List.subset_append_right ..)
    rw [Stmt.lower, Stmt.lines]
    refine ends_comment.bind fun _ => ends_newLabel.bind fun otherwise => ?_
    refine ((hcondition otherwise).blame_mono (fun _ hf => .inl hf) ?_).bind fun _ =>
      (hthen.blame_mono (fun _ hf => hf.imp_right .inl) ?_).bind fun _ =>
      ends_newLabel.bind fun past => ends_emit.bind fun _ =>
      (helse.blame_mono (fun _ hf => hf.imp_right .inr) ?_).bind fun _ => ends_emit
    · exact List.subset_cons_of_subset line (List.subset_append_left ..)
    · exact List.Subset.trans (List.subset_append_left ..) hbranches
    · exact List.Subset.trans (List.subset_append_right ..) hbranches
  | .whileDo line condition body => by
    have hbody := body.ends_lower hregs hne comments
    rw [Stmt.lower, Stmt.lines]
    refine ends_comment.bind fun _ => ends_loop hregs hne ?_ (hbody.blame_mono (fun _ hf => hf) ?_)
    · exact List.subset_cons_of_subset line (List.subset_append_left ..)
    · exact List.subset_cons_of_subset line (List.subset_append_right ..)
  | .forTo line init limit body => by
    have hbody := body.ends_lower hregs hne comments
    have hinit : line :: init.lines ⊆ line :: (init.lines ++ (limit.lines ++ body.lines)) :=
      List.cons_subset_cons line (List.subset_append_left ..)
    have hinner : limit.lines ++ body.lines ⊆ line :: (init.lines ++ (limit.lines ++ body.lines)) :=
      List.subset_cons_of_subset line (List.subset_append_right ..)
    have htest : (init.test line limit).lines ⊆
        line :: (init.lines ++ (limit.lines ++ body.lines)) := by
      refine List.cons_subset_cons line (List.append_subset.2 ⟨?_, ?_⟩)
      · exact List.Subset.trans init.lines_var_subset (List.subset_append_left ..)
      · exact List.Subset.trans (List.subset_append_left ..) (List.subset_append_right ..)
    -- the variable is looked at first, so what is assigned to later on is a place
    have hrest (hvar : ¬ init.var.varName?.isNone = true) : Ends (Rested outer regs)
        (init.lower line >>= fun _ => loop (init.test line limit) do
          body.lower comments
          init.step comments line) (fun _ => Rested outer regs)
        (StmtBlame (body.Misuses ·) (line :: (init.lines ++ (limit.lines ++ body.lines))) outer) := by
      have hplace : init.var.isPlace = true := Expr.isPlace_of_varName? hvar
      refine ((ForInit.ends_lower hregs hne hplace).blame_mono (fun _ hf => .inl hf) hinit).bind
        fun _ => ends_loop hregs hne htest ?_
      have hlines := List.Subset.trans (List.subset_append_right limit.lines body.lines) hinner
      refine (hbody.blame_mono (fun _ hf => hf) hlines).bind fun _ => ?_
      exact (ForInit.ends_step hregs hne hplace comments).blame_mono (fun _ hf => .inl hf) hinit
    rw [Stmt.lower, Stmt.lines]
    cases init with
    | assign var value | keep var =>
      refine ends_comment.bind fun _ => .ite (fun _ => ends_fail_bind fun s hs => ?_) hrest
      exact ⟨⟨_, .inl rfl, line, List.mem_cons_self, rfl⟩, hs.isOpen⟩

theorem Stmt.ends_lowerAll (hregs : regs.Nodup) (hne : regs ≠ []) (comments : Bool) :
    ∀ body : List Stmt, Ends (Rested outer regs) (Stmt.lowerAll comments body)
      (fun _ => Rested outer regs) (StmtBlame (Stmt.MisusesAny · body) (Stmt.linesAll body) outer)
  | [] => by
    rw [Stmt.lowerAll]
    exact ends_pure fun _ hs => hs
  | s :: rest => by
    have hfirst := s.ends_lower hregs hne comments
    have hothers := Stmt.ends_lowerAll hregs hne comments rest
    rw [Stmt.lowerAll, Stmt.linesAll]
    -- Both lines and causes of a part are among those of the list.
    refine (hfirst.blame_mono ?_ (List.subset_append_left ..)).bind fun _ =>
      hothers.blame_mono ?_ (List.subset_append_right ..)
    · exact fun f hf => hf.imp_right .inl
    · exact fun f hf => hf.imp_right .inr

end

end

end PascalAsm
