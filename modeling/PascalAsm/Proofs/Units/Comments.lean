import PascalAsm.Proofs.Generator.Erasure
import PascalAsm.Proofs.Generator.Programs

/-!
# Comments do not change code

Whether comments are wanted is asked where a statement begins and where the variable of a loop is
counted up, and the answer is handed down to all statements and routines inside. The generators that
result are compared step by step: without comments, all that is left of the one outcome is the other.
`Program.compile_uncommented` draws the conclusion for whole compilations, failed ones included.
-/

namespace PascalAsm

open Assembly Lowering Gen

/-! ## Statements -/

namespace Lowering.Gen

theorem erases_comment (line : Line) (summary : String) :
    (comment true line summary).Erases (comment false line summary) := fun _ => rfl

theorem blind_assignValue (line : Line) (target value : Expr) :
    (assignValue line target value).Blind := by
  have hslot : (assignmentSlot line target).Blind := by
    cases target with
    | var varLine name => exact blind_varOperand _ _
    | _ => exact blind_fail _
  exact .bind hslot fun _ => .bind value.blind_lower fun _ =>
    .bind (blind_emit (by simp [Inst.isComment])) fun _ => blind_changePool _

theorem blind_writeAll (args : List Expr) : (writeAll args).Blind := by
  induction args with
  | nil => exact blind_pure _
  | cons arg rest ih =>
    have hwrite (r : Reg) : (writeReg r).Blind :=
      .bind (blind_emit (by simp [Inst.isComment])) fun _ => .bind (blind_changePool _) fun _ =>
        blind_callLibrary _ (by simp [Inst.isComment])
    exact .bind arg.blind_lower fun r => .bind (hwrite r) fun _ => ih

theorem blind_readAll (line : Line) (args : List Expr) : (readAll line args).Blind := by
  induction args with
  | nil => exact blind_pure _
  | cons arg rest ih =>
    have htarget : (readTarget line arg).Blind := by
      cases arg with
      | var varLine name => exact blind_varOperand _ _
      | _ => exact blind_fail _
    exact .bind htarget fun slot =>
      .bind (blind_callLibrary _ (by simp [Inst.isComment])) fun _ => ih

theorem blind_callProcedure (line : Line) (callee : String) (args : List Expr) :
    (callProcedure line callee args).Blind := by
  unfold callProcedure
  split
  · exact blind_writeAll args
  · exact blind_readAll line args
  · exact blind_callRoutine (Expr.blind_stageAll args)

/-- A loop makes comments only in its body. Its condition is made in the same way in both, so the
labels are the same as well. -/
theorem Erases.loop {m n : Gen Unit} (h : m.Erases n) (condition : Expr) :
    (Gen.loop condition m).Erases (Gen.loop condition n) :=
  .bind blind_newLabel fun _ => .bind blind_newLabel fun _ =>
    .bind (blind_emit (by simp [Inst.isComment])) fun _ => .bind h fun _ =>
    .bind (blind_emit (by simp [Inst.isComment])) fun _ => condition.blind_jumpWhen _ _

end Lowering.Gen

/-- The step of a `for` statement makes a comment of its own. It is that of the assignment which
counts the variable up. -/
theorem ForInit.erases_step (init : ForInit) (line : Line) :
    (init.step true line).Erases (init.step false line) :=
  .bind (erases_comment _ _) fun _ => blind_assignValue _ _ _

theorem ForInit.blind_lower (init : ForInit) (line : Line) : (init.lower line).Blind := by
  cases init with
  | assign var value => exact blind_assignValue _ _ _
  | keep var => exact blind_pure _

mutual

/-- The code of a statement differs by its comments only. By recursion over the statement; each of
them may begin with a comment. -/
theorem Stmt.erases_lower : (s : Stmt) → (s.lower true).Erases (s.lower false)
  | .assign line target value => by
    rw [Stmt.lower, Stmt.lower]
    exact .bind (erases_comment _ _) fun _ => blind_assignValue _ _ _
  | .call line callee args => by
    rw [Stmt.lower, Stmt.lower]
    exact .bind (erases_comment _ _) fun _ => blind_callProcedure _ _ _
  | .compound line body => by
    rw [Stmt.lower, Stmt.lower]
    exact Stmt.erases_lowerAll body
  | .ifThen line condition thenBranch => by
    have hthen := thenBranch.erases_lower
    rw [Stmt.lower, Stmt.lower]
    exact .bind (erases_comment _ _) fun _ => .bind blind_newLabel fun _ =>
      .bind (condition.blind_jumpWhen _ _) fun _ => .bind hthen fun _ =>
      blind_emit (by simp [Inst.isComment])
  | .ifElse line condition thenBranch elseBranch => by
    have hthen := thenBranch.erases_lower
    have helse := elseBranch.erases_lower
    rw [Stmt.lower, Stmt.lower]
    exact .bind (erases_comment _ _) fun _ => .bind blind_newLabel fun _ =>
      .bind (condition.blind_jumpWhen _ _) fun _ => .bind hthen fun _ =>
      .bind blind_newLabel fun _ => .bind (blind_emit (by simp [Inst.isComment])) fun _ =>
      .bind helse fun _ => blind_emit (by simp [Inst.isComment])
  | .whileDo line condition body => by
    have hbody := body.erases_lower
    rw [Stmt.lower, Stmt.lower]
    exact .bind (erases_comment _ _) fun _ => hbody.loop condition
  -- The step of the loop makes a comment of its own, `erases_step`.
  | .forTo line init limit body => by
    have hbody := body.erases_lower
    have hloop := (hbody.bind fun _ => init.erases_step line).loop (init.test line limit)
    rw [Stmt.lower, Stmt.lower]
    cases init with
    | assign var value | keep var =>
      refine .bind (erases_comment _ _) fun _ => .ite blind_fail_bind ?_
      exact .bind (ForInit.blind_lower _ _) fun _ => hloop

theorem Stmt.erases_lowerAll :
    (body : List Stmt) → (Stmt.lowerAll true body).Erases (Stmt.lowerAll false body)
  | [] => by
    rw [Stmt.lowerAll, Stmt.lowerAll]
    exact blind_pure _
  | s :: rest => by
    rw [Stmt.lowerAll, Stmt.lowerAll]
    exact .bind s.erases_lower fun _ => Stmt.erases_lowerAll rest

end

/-! ## Routines -/

namespace Lowering.Gen

theorem blind_addSlots (region : Region) (names : List String) :
    (addSlots region names).Blind := by
  induction names with
  | nil => exact blind_pure _
  | cons name rest ih =>
    exact .bind (blind_addSlot _ _) fun _ => .bind ih fun _ => blind_pure _

theorem blind_warn (w : Warning) : (warn w).Blind := blind_modify fun _ => rfl

theorem blind_dropArrays (line : Line) (names : List String) : (dropArrays line names).Blind := by
  induction names with
  | nil => exact blind_pure _
  | cons name rest ih =>
    exact .bind (blind_warn _) fun _ => .bind (blind_modify fun _ => rfl) fun _ => ih

theorem blind_bindParams (params : List Declaration) : (bindParams params).Blind := by
  induction params with
  | nil => exact blind_pure _
  | cons d rest ih =>
    cases d with
    | vars line names type =>
      -- With or without a warning for real parameters, the slots are handed out alike.
      have hslots : (addSlots .argument names >>= fun slots =>
          bindParams rest >>= fun more => pure (slots ++ more)).Blind :=
        .bind (blind_addSlots _ _) fun _ => .bind ih fun _ => blind_pure _
      exact .ite (.bind (blind_warn _) fun _ => hslots) hslots
    | arrays => exact blind_fail _

theorem blind_bindLocals (declarations : List Declaration) : (bindLocals declarations).Blind := by
  induction declarations with
  | nil => exact blind_pure _
  | cons d rest ih =>
    cases d with
    | vars line names type =>
      have hslots : (addSlots .local names >>= fun _ => bindLocals rest).Blind :=
        .bind (blind_addSlots _ _) fun _ => ih
      exact .ite (.bind (blind_warn _) fun _ => hslots) hslots
    | arrays => exact .bind (blind_dropArrays _ _) fun _ => ih

end Lowering.Gen

namespace Routine

/-- What is nested in a routine can make comments, and so can its body. The temporaries are the same
in both, so the frames have the same size. -/
theorem erases_lowerBody (r : Routine) {nested nested' : Gen Unit} (h : nested.Erases nested') :
    (r.lowerBody true nested).Erases (r.lowerBody false nested') := by
  -- From the nested routines on; what comes before is blind, but for the order of its parts.
  have hbody (params result : List Slot) :
      (nested >>= fun _ => emit (paramStores 0 params) >>= fun _ => r.body.lower true >>= fun _ =>
        emit (result.map fun slot => .movl slot.operand (.reg Convention.resultReg))).Erases
      (nested' >>= fun _ => emit (paramStores 0 params) >>= fun _ => r.body.lower false >>= fun _ =>
        emit (result.map fun slot => .movl slot.operand (.reg Convention.resultReg))) := by
    refine .bind h fun _ => .bind (blind_emit fun i hi => ?_) fun _ =>
      .bind r.body.erases_lower fun _ => blind_emit fun i hi => ?_
    · rw [paramStores, ← List.map_uncurry_zip_eq_zipWith, List.mem_map] at hi
      obtain ⟨_, -, rfl⟩ := hi
      rfl
    · obtain ⟨_, -, rfl⟩ := List.mem_map.1 hi
      rfl
  rw [lowerBody_eq_stores, lowerBody_eq_stores]
  refine .ite blind_fail_bind ?_
  refine .bind (blind_bindParams _) fun params => .bind (blind_bindLocals _) fun _ => ?_
  exact .ite (.bind (blind_addSlots _ _) fun result => hbody params result) (hbody params [])

/-- The function that a routine becomes differs by its comments only. Finished functions are
compared one by one, and name and size of the frame are equal. -/
theorem erases_lower (r : Routine) {nested nested' : Gen Unit} (h : nested.Erases nested') :
    (r.lower true nested).Erases (r.lower false nested') := by
  have hsize : frameSize.Blind := Erases.get_bind fun _ => .bind (blind_ofExcept _) fun _ =>
    blind_pure _
  have hleave : leaveScope.Blind := Erases.get_bind fun _ => .bind (blind_ofExcept _) fun _ =>
    blind_modify fun _ => rfl
  refine .bind (blind_modify fun _ => rfl) fun _ => ?_
  refine (r.erases_lowerBody h).collect_bind fun body => ?_
  refine .bind hsize.attempt fun size => .bind hleave fun _ => ?_
  -- `collect_bind` hands over the stripped body, or the error, which has no comments.
  cases body with
  | error e => exact fun _ => rfl
  | ok body =>
    have hok (c : List Inst) : (Gen.ofExcept (.ok c) : Gen (List Inst)) = pure c := rfl
    rw [Except.map, hok, hok, pure_bind, pure_bind]
    exact .bind (blind_ofExcept size) fun frameSize => erases_finish ⟨r.name, frameSize, body⟩

end Routine

mutual

theorem Subprogram.erases_lower : (s : Subprogram) → (s.lower true).Erases (s.lower false)
  | .mk _ _ _ _ subprograms _ _ => by
    rw [Subprogram.lower, Subprogram.lower]
    exact Routine.erases_lower _ (Subprogram.erases_lowerAll subprograms)

theorem Subprogram.erases_lowerAll :
    (ss : List Subprogram) → (Subprogram.lowerAll true ss).Erases (Subprogram.lowerAll false ss)
  | [] => by
    rw [Subprogram.lowerAll, Subprogram.lowerAll]
    exact blind_pure _
  | s :: rest => by
    rw [Subprogram.lowerAll, Subprogram.lowerAll]
    exact .bind s.erases_lower fun _ => Subprogram.erases_lowerAll rest

end

theorem Program.erases_lower (p : Program) : (p.lower true).Erases (p.lower false) :=
  Routine.erases_lower _ (Subprogram.erases_lowerAll _)

/-! ## Units -/

namespace Assembly

/-- Opening and closing a frame takes no comments. They are made of instructions that are never
comments, so erasing passes them by. -/
theorem Function.code_uncommented (f : Function) :
    f.uncommented.code = f.code.map Assembly.uncommented := by
  have hprologue (frame : Frame) : Assembly.uncommented frame.prologue = frame.prologue := by
    rw [Frame.prologue]
    split <;> rfl
  have hepilogue (frame : Frame) : Assembly.uncommented frame.epilogue = frame.epilogue := rfl
  -- The frame depends on the name and the size only, and both stay.
  have hmake : Frame.make f.uncommented.name f.uncommented.frameSize =
    Frame.make f.name f.frameSize := rfl
  rw [code, code, hmake]
  cases Frame.make f.name f.frameSize with
  | error e => rfl
  | ok frame => simp [Except.map, uncommented_append, hprologue, hepilogue, Function.uncommented]

/-- Two computations fail alike if their first steps do, and the others whenever the first succeed.
The values may be of different types, since only the failures are compared. -/
theorem map_bind_eq_map_bind {ε α β γ δ : Type} {x : Except ε α} {y : Except ε β}
    {f : α → Except ε γ} {g : β → Except ε δ}
    (h : x.map (fun _ => ()) = y.map fun _ => ())
    (hfg : ∀ a b, (f a).map (fun _ => ()) = (g b).map fun _ => ()) :
    (x >>= f).map (fun _ => ()) = (y >>= g).map fun _ => () := by
  -- If one of the two fails and the other does not, `h` is a contradiction.
  cases x with
  | error e =>
    cases y with
    | error e' => exact congrArg Except.error (Except.error.inj h)
    | ok b => cases h
  | ok a =>
    cases y with
    | error e' => cases h
    | ok b => exact hfg a b

/-- Whether a function has a text, and why it has none, does not depend on its comments. -/
theorem Function.render_uncommented (f : Function) :
    f.uncommented.render.map (fun _ => ()) = f.render.map fun _ => () := by
  rw [render, render, code_uncommented]
  cases f.code <;> rfl

theorem mapM_render_uncommented (fs : List Function) :
    ((fs.map Function.uncommented).mapM Function.render).map (fun _ => ()) =
      (fs.mapM Function.render).map fun _ => () := by
  induction fs with
  | nil => rfl
  | cons f rest ih =>
    rw [List.map_cons, List.mapM_cons, List.mapM_cons]
    exact map_bind_eq_map_bind f.render_uncommented fun _ _ =>
      map_bind_eq_map_bind ih fun _ _ => rfl

/-- Neither does it for a unit. Clashes are found by the names, and frames are refused by their
sizes. -/
theorem Program.render_uncommented (unit : Program) :
    unit.uncommented.render.map (fun _ => ()) = unit.render.map fun _ => () := by
  have hnames : (unit.functions.map Function.uncommented).map (·.name) =
    unit.functions.map (·.name) := by simp [Function.uncommented]
  have hpure (text text' : String) : (pure text : Except EmitError String).map (fun _ => ()) =
    (pure text' : Except EmitError String).map fun _ => () := rfl
  -- Clashes depend on the names, `hnames`; the texts of functions fail alike.
  simp only [render, uncommented, hnames]
  cases firstClash? (unit.functions.map (·.name)) with
  | some name => rfl
  | none =>
    exact map_bind_eq_map_bind (mapM_render_uncommented _) fun _ _ =>
      map_bind_eq_map_bind rfl fun _ _ => hpure _ _

end Assembly

/-- **Comments do not change code.** With comments and without them the outcome of a compilation is
the same: the same error, or the same warnings and the same unit but for the comments in it. -/
theorem Program.compile_uncommented (p : Program) (options : Options) :
    (p.compile { options with comments := true }).map (fun c => (c.unit.uncommented, c.report)) =
      (p.compile { options with comments := false }).map fun c => (c.unit, c.report) := by
  cases hinitial : State.initial options.registers with
  | error e => simp only [compile, hinitial, bind, Except.bind, Except.map]
  | ok start =>
    have hstart : start.uncommented = start := by
      rcases State.initial_eq_ok_iff.1 hinitial with ⟨-, rfl⟩ | ⟨-, rfl⟩ <;> rfl
    have hrun := p.erases_lower start
    rw [hstart] at hrun
    simp only [compile, generate, hinitial, hrun, bind, Except.bind]
    generalize (p.lower true).run start = o
    obtain ⟨result, s, c⟩ := o
    have hdone : s.uncommented.checkDone = s.checkDone := rfl
    have hrender := Assembly.Program.render_uncommented ⟨options.source, p.name, s.finished⟩
    simp only [Outcome.uncommented, hdone]
    cases result with
    | error e => rfl
    | ok _ =>
      cases s.checkDone with
      | error e => rfl
      | ok _ =>
        -- what is left to compare is whether the texts can be made
        have hfinished : s.uncommented.finished = s.finished.map Function.uncommented := rfl
        rw [hfinished]
        rw [Assembly.Program.uncommented] at hrender
        revert hrender
        cases Assembly.Program.render ⟨options.source, p.name, s.finished⟩ with
        | error e =>
          cases Assembly.Program.render _ with
          | error e' =>
            intro h
            obtain rfl : e' = e := Except.error.inj h
            rfl
          | ok text =>
            intro h
            cases h
        | ok text =>
          cases Assembly.Program.render _ with
          | error e =>
            intro h
            cases h
          | ok text' =>
            intro
            rfl

end PascalAsm
