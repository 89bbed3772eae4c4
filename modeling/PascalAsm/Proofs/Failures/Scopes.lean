import PascalAsm.Proofs.Failures.Lookup
import PascalAsm.Proofs.Failures.Recovery
import PascalAsm.Proofs.Units.Sequence

/-!
# Scopes are closed on every path

A routine opens a scope and notes its arrays in a second stack beside it. Anything inside may fail then:
a parameter, a variable that has a slot already, a routine that is nested in it, or an argument of a call
in the middle of its body. On every such path both stacks are cut back together, and the functions that
were finished before are all that is left (`Subprogram.closes_scopes`).

* **`State.Surrounds`** — two states are the same but for the innermost scope, the pool, the labels and
  the warnings. What is inside a body leads from one to the other, whether it succeeds or fails
  (`Gen.Confined`).
* **`State.Underway`** and **`State.Through`** — one routine is open, or it is closed again; and the
  functions of some routines are complete.
-/

namespace PascalAsm

open Assembly Lowering Gen State

namespace Lowering

/-! ## Inside a body -/

/-- The same scopes are open, and all is the same but the innermost scope, the pool, the labels and the
warnings. -/
structure State.Surrounds (t s : State) : Prop where
  openScopes : s.scopes.length = t.scopes.length
  enclosing : s.scopes.tail = t.scopes.tail
  arrays : s.arrays.tail = t.arrays.tail
  callDepth : s.callDepth = t.callDepth
  finished : s.finished = t.finished

namespace State.Surrounds

variable {t s s' : State}

theorem refl (s : State) : s.Surrounds s := ⟨rfl, rfl, rfl, rfl, rfl⟩

theorem trans (h : t.Surrounds s) (h' : s.Surrounds s') : t.Surrounds s' :=
  ⟨h'.openScopes.trans h.openScopes, h'.enclosing.trans h.enclosing, h'.arrays.trans h.arrays,
    h'.callDepth.trans h.callDepth, h'.finished.trans h.finished⟩

/-- Temporaries are in the innermost scope. So what recovers as a value does changes nothing outside
of it. -/
theorem of_follows (h : s.Follows s') : s.Surrounds s' := by
  obtain ⟨scopes, harrays, -, hdepth, hfinished⟩ := h.steady
  refine ⟨?_, ?_, congrArg List.tail harrays, hdepth, hfinished⟩
  all_goals
    rcases scopes.slots with heq | ⟨scope, scope', outer, new, hbefore, hafter, -⟩
  · exact congrArg List.length heq.symm
  · simp [hbefore, hafter]
  · exact congrArg List.tail heq.symm
  · simp [hbefore, hafter]

theorem opened {outer : Scopes} (h : t.Surrounds s) (hopen : t.Opened outer) : s.Opened outer := by
  obtain ⟨scope, hscopes⟩ := hopen
  have hlength := h.openScopes
  have houter := h.enclosing
  rw [hscopes] at hlength houter
  obtain ⟨scope', outer', heq⟩ : ∃ scope' outer', s.scopes = scope' :: outer' :=
    List.exists_cons_of_length_eq_add_one hlength
  refine ⟨scope', ?_⟩
  rw [heq] at houter ⊢
  exact congrArg (scope' :: ·) houter

end State.Surrounds

namespace Gen

variable {α β : Type}

/-- Whether it succeeds or fails, the generator changes nothing outside the innermost scope. This is
weaker than recovering, since it says nothing about the pool. -/
def Confined (m : Gen α) : Prop :=
  ∀ t : State, Ends t.Surrounds m (fun _ => t.Surrounds) (fun _ => t.Surrounds)

theorem Orderly.confined {m : Gen α} (h : m.Orderly) : m.Confined := fun _ =>
  ⟨fun hs hm => hs.trans (.of_follows ((h _).after (.refl _) hm)),
    fun hs hm => hs.trans (.of_follows ((h _).fails (.refl _) hm).1)⟩

namespace Confined

theorem bind {m : Gen α} {f : α → Gen β} (hm : m.Confined) (hf : ∀ a, (f a).Confined) :
    (m >>= f).Confined :=
  fun t => (hm t).bind fun a => hf a t

theorem ite {p : Prop} {_ : Decidable p} {m m' : Gen α} (h : m.Confined) (h' : m'.Confined) :
    (if p then m else m').Confined :=
  fun t => .ite (fun _ => h t) fun _ => h' t

end Confined

theorem confined_pure (a : α) : (pure a : Gen α).Confined := fun _ => ends_pure fun _ hs => hs

theorem confined_emit (code : List Inst) : (emit code).Confined := fun _ => ends_emit

theorem confined_fail (e : LoweringError) : (fail e : Gen α).Confined := fun _ =>
  ends_fail fun _ hs => hs

theorem confined_newLabel : newLabel.Confined := fun _ =>
  .always fun _ hs => ⟨_, _, [], rfl, hs.trans ⟨rfl, rfl, rfl, rfl, rfl⟩⟩

theorem confined_free (r : Reg) : (Gen.free r).Confined := (orderly_free r).confined

/-! ### Statements -/

theorem confined_comment (wanted : Bool) (line : Line) (summary : String) :
    (comment wanted line summary).Confined :=
  .ite (confined_emit _) (confined_pure _)

theorem confined_assignValue (line : Line) (target value : Expr) :
    (assignValue line target value).Confined := by
  have hslot : (assignmentSlot line target).Confined := by
    cases target with
    | var => exact (orderly_varOperand _ _).confined
    | _ => exact confined_fail _
  refine hslot.bind fun _ => (Plan.orderly_lower value.line _).confined.bind fun r => ?_
  exact (confined_emit _).bind fun _ => confined_free r

theorem confined_callLibrary (symbol : String) (load : List Inst) :
    (callLibrary symbol load).Confined :=
  (orderly_claim _).confined.bind fun _ => (confined_emit _).bind fun _ =>
    (orderly_freeAll _).confined

theorem confined_writeAll (es : List Expr) : (writeAll es).Confined := by
  induction es with
  | nil => exact confined_pure ()
  | cons e rest ih =>
    rw [writeAll]
    refine (Plan.orderly_lower e.line _).confined.bind fun r => .bind ?_ fun _ => ih
    exact (confined_emit _).bind fun _ => (confined_free r).bind fun _ => confined_callLibrary _ _

theorem confined_readAll (line : Line) (es : List Expr) : (readAll line es).Confined := by
  induction es with
  | nil => exact confined_pure ()
  | cons e rest ih =>
    have hslot : (readTarget line e).Confined := by
      cases e with
      | var => exact (orderly_varOperand _ _).confined
      | _ => exact confined_fail _
    rw [readAll]
    exact hslot.bind fun _ => (confined_callLibrary _ _).bind fun _ => ih

/-- The arguments of a call may fail anywhere; the call is not counted any more then. That is the
only count that changes while a statement is under way. -/
theorem confined_callProcedure (line : Line) (callee : String) (args : List Expr) :
    (callProcedure line callee args).Confined := by
  rw [callProcedure]
  split
  · exact confined_writeAll args
  · exact confined_readAll line args
  · exact (orderly_callRoutine fun depth => Arg.orderly_stageAll depth 0 _).confined

end Gen

end Lowering

theorem Expr.confined_jumpWhen (e : Expr) (sense : Bool) (goal : String) :
    (e.jumpWhen sense goal).Confined := by
  induction sense, goal, e using jumpWhen.induct with
  | case1 sense goal line op left right =>
    rw [jumpWhen]
    exact (orderly_lowerComparison _).confined.bind fun _ => confined_emit _
  | case2 sense goal line e ih =>
    rw [jumpWhen]
    exact ih
  | case3 goal line op left right ihl ihr =>
    rw [jumpWhen, if_pos rfl]
    exact ihl.bind fun _ => ihr
  -- Drawing a label is confined although it changes the state: labels are not compared.
  | case4 sense goal line op left right hsense ihl ihr =>
    rw [jumpWhen, if_neg hsense]
    exact confined_newLabel.bind fun past => (ihl past).bind fun _ => ihr.bind fun _ =>
      confined_emit _
  | case5 sense goal e hcomparison hnot hlogical =>
    rw [jumpWhen.eq_4 sense goal e hcomparison hnot hlogical]
    exact confined_fail _

theorem Lowering.Gen.confined_loop (condition : Expr) {body : Gen Unit} (hbody : body.Confined) :
    (loop condition body).Confined := by
  refine confined_newLabel.bind fun start => confined_newLabel.bind fun test => ?_
  refine (confined_emit _).bind fun _ => hbody.bind fun _ => (confined_emit _).bind fun _ => ?_
  exact condition.confined_jumpWhen true start

theorem ForInit.confined_lower (line : Line) (init : ForInit) : (init.lower line).Confined := by
  cases init with
  | assign => exact confined_assignValue _ _ _
  | keep => exact confined_pure ()

theorem ForInit.confined_step (init : ForInit) (comments : Bool) (line : Line) :
    (init.step comments line).Confined :=
  (confined_comment _ _ _).bind fun _ => confined_assignValue _ _ _

namespace Stmt

variable {comments : Bool}

mutual

/-- A statement changes nothing outside the scope of its routine. By recursion over the statement;
every part is in the same scope. -/
theorem confined_lower : ∀ t : Stmt, (t.lower comments).Confined
  | .assign line target value => by
    rw [Stmt.lower]
    exact (confined_comment _ _ _).bind fun _ => confined_assignValue line target value
  | .call line callee args => by
    rw [Stmt.lower]
    exact (confined_comment _ _ _).bind fun _ => confined_callProcedure line callee args
  | .compound _ body => by
    rw [Stmt.lower]
    exact confined_lowerAll body
  | .ifThen _ condition thenBranch => by
    rw [Stmt.lower]
    refine (confined_comment _ _ _).bind fun _ => confined_newLabel.bind fun past => ?_
    refine (condition.confined_jumpWhen _ _).bind fun _ => ?_
    exact (confined_lower thenBranch).bind fun _ => confined_emit _
  | .ifElse _ condition thenBranch elseBranch => by
    rw [Stmt.lower]
    refine (confined_comment _ _ _).bind fun _ => confined_newLabel.bind fun otherwise => ?_
    refine (condition.confined_jumpWhen _ _).bind fun _ => (confined_lower thenBranch).bind fun _ => ?_
    refine confined_newLabel.bind fun past => (confined_emit _).bind fun _ => ?_
    exact (confined_lower elseBranch).bind fun _ => confined_emit _
  | .whileDo _ condition body => by
    rw [Stmt.lower]
    exact (confined_comment _ _ _).bind fun _ => confined_loop condition (confined_lower body)
  | .forTo line init limit body => by
    have hloop : (init.lower line >>= fun _ => loop (init.test line limit) (do
        body.lower comments
        init.step comments line)).Confined :=
      (init.confined_lower line).bind fun _ => confined_loop _ <|
        (confined_lower body).bind fun _ => init.confined_step _ _
    obtain ⟨summary, hsummary⟩ := exists_summary_forTo line init limit body
    rw [Stmt.lower, hsummary]
    refine (confined_comment _ _ _).bind fun _ => ?_
    -- the loop stays in its scope, whether or not the check of the variable fails
    cases init.var.varName? with
    | none => exact (confined_fail _).bind fun _ => hloop
    | some => exact hloop

theorem confined_lowerAll : ∀ ts : List Stmt, (Stmt.lowerAll comments ts).Confined
  | [] => by
    rw [Stmt.lowerAll]
    exact confined_pure ()
  | t :: rest => by
    rw [Stmt.lowerAll]
    exact (confined_lower t).bind fun _ => confined_lowerAll rest

end

end Stmt

/-! ## Routines -/

namespace Lowering.State

/-- A routine is open inside a state, and since then slots and arrays were declared and warnings given, and
nothing else. -/
structure Declaring (t s : State) : Prop where
  surrounds : Surrounds { t with scopes := t.scopes.enter, arrays := [] :: t.arrays } s
  pool : s.pool = t.pool
  labels : s.labels = t.labels

/-- A routine is open inside a state, and the functions of some routines were finished since then. -/
structure Underway (comments : Bool) (done : List Routine) (t s : State) : Prop where
  isOpen : s.Opened t.scopes
  arrays : s.arrays.tail = t.arrays
  callDepth : s.callDepth = t.callDepth
  functions : ∃ fs n, s.finished = t.finished ++ fs ∧
    Routine.GeneratedAll t.pool.members comments done t.labels fs n

/-- What was opened is closed again, and the functions of some routines were finished. It holds of a
failure as well, and then the routines are those before it. -/
structure Through (comments : Bool) (done : List Routine) (t s : State) : Prop where
  scopes : s.scopes = t.scopes
  arrays : s.arrays = t.arrays
  callDepth : s.callDepth = t.callDepth
  functions : ∃ fs n, s.finished = t.finished ++ fs ∧
    Routine.GeneratedAll t.pool.members comments done t.labels fs n

variable {comments : Bool} {done rs : List Routine} {t s s' : State}

theorem Declaring.trans (h : t.Declaring s) (h' : s.Surrounds s') (hp : s'.pool = s.pool)
    (hl : s'.labels = s.labels) : t.Declaring s' :=
  ⟨h.surrounds.trans h', hp.trans h.pool, hl.trans h.labels⟩

theorem Declaring.isOpen (h : t.Declaring s) : s.Opened t.scopes :=
  h.surrounds.opened ⟨Scope.empty, rfl⟩

theorem Declaring.underway (h : t.Declaring s) : t.Underway comments [] s where
  isOpen := h.isOpen
  arrays := h.surrounds.arrays
  callDepth := h.surrounds.callDepth
  functions := ⟨[], t.labels, by rw [h.surrounds.finished, List.append_nil], .nil _⟩

/-- What is nested in a routine may finish functions after the declarations. By then the scope of
the routine is open, and it still is afterwards. -/
theorem Declaring.through (h : t.Declaring s) (h' : s.Through comments done s') :
    t.Underway comments done s' where
  isOpen := by
    obtain ⟨scope, hscopes⟩ := h.isOpen
    exact ⟨scope, h'.scopes.trans hscopes⟩
  arrays := (congrArg List.tail h'.arrays).trans h.surrounds.arrays
  callDepth := h'.callDepth.trans h.surrounds.callDepth
  -- Declarations finish nothing, so all that is finished was finished in between, `hall`.
  functions := by
    obtain ⟨fs, n, hfs, hall⟩ := h'.functions
    rw [h.pool, h.labels] at hall
    exact ⟨fs, n, hfs.trans (congrArg (· ++ fs) h.surrounds.finished), hall⟩

theorem Underway.trans (h : t.Underway comments done s) (h' : s.Surrounds s') :
    t.Underway comments done s' where
  isOpen := h'.opened h.isOpen
  arrays := h'.arrays.trans h.arrays
  callDepth := h'.callDepth.trans h.callDepth
  functions := by
    rw [h'.finished]
    exact h.functions

/-- The scope of the routine is closed, and the list of its arrays with it. The stacks are as they
were before the routine, since nothing outside of its scope was changed. -/
theorem Underway.close (h : t.Underway comments done s) :
    t.Through comments done { s with scopes := t.scopes, arrays := s.arrays.tail } :=
  ⟨rfl, h.arrays, h.callDepth, h.functions⟩

/-- Some routines were completed, and it is known how their functions came about. For a success,
these are all routines there are. -/
structure Produced (comments : Bool) (rs : List Routine) (t s : State) : Prop where
  completed : t.Completed comments rs s
  generated : ∃ fs, s.finished = t.finished ++ fs ∧
    Routine.GeneratedAll t.pool.members comments rs t.labels fs s.labels

theorem Produced.through (h : t.Produced comments rs s) : t.Through comments rs s := by
  obtain ⟨fs, hfs, hall⟩ := h.generated
  exact ⟨h.completed.scopes, h.completed.arrays, h.completed.callDepth, fs, s.labels, hfs, hall⟩

/-- After those that were completed, some more functions were finished. The first part was a success
and may be followed by a failure. -/
theorem Produced.append (h : t.Produced comments rs s) (h' : s.Through comments done s') :
    t.Through comments (rs ++ done) s' where
  scopes := h'.scopes.trans h.completed.scopes
  arrays := h'.arrays.trans h.completed.arrays
  callDepth := h'.callDepth.trans h.completed.callDepth
  functions := by
    obtain ⟨fs, hfs, hall⟩ := h.generated
    obtain ⟨gs, n, hgs, hdone⟩ := h'.functions
    -- Both runs are over the same pool: `Completed` keeps its members.
    have hmembers : s.pool.members = t.pool.members := by
      obtain ⟨free, k, -, hpool⟩ := h.completed.pool
      rw [hpool]
      rfl
    rw [hmembers] at hdone
    exact ⟨fs ++ gs, n, by rw [hgs, hfs, List.append_assoc], hall.append hdone⟩

end Lowering.State

namespace Lowering.Gen

variable {α β : Type}

/-- Whether it succeeds or fails, the generator does nothing but declare. Parameters, variables and
arrays are declared in this way, before anything is nested. -/
def Declares (m : Gen α) : Prop :=
  ∀ t : State, Ends t.Declaring m (fun _ => t.Declaring) (fun _ => t.Declaring)

theorem Declares.bind {m : Gen α} {f : α → Gen β} (hm : m.Declares) (hf : ∀ a, (f a).Declares) :
    (m >>= f).Declares :=
  fun t => (hm t).bind fun a => hf a t

theorem declares_pure (a : α) : (pure a : Gen α).Declares := fun _ => ends_pure fun _ hs => hs

theorem declares_warn (w : Warning) : (warn w).Declares := fun _ =>
  ends_modify fun _ hs => hs.trans ⟨rfl, rfl, rfl, rfl, rfl⟩ rfl rfl

theorem declares_array (name : String) : (declareArray name).Declares := fun _ =>
  ends_modify fun s hs => hs.trans ⟨rfl, rfl, by cases s.arrays <;> rfl, rfl, rfl⟩ rfl rfl

theorem declares_addSlot (region : Region) (name : String) : (addSlot region name).Declares := by
  intro t
  constructor
  · intro s slot s' c hs hm
    obtain ⟨S, hadd, rfl, -⟩ := yields_addSlot.1 hm
    obtain ⟨scope, scope', outer, hscopes, rfl, -⟩ := Scopes.add_eq_ok_iff.1 hadd
    exact hs.trans ⟨by simp [hscopes], by simp [hscopes], rfl, rfl, rfl⟩ rfl rfl
  · intro s e s' hs hm
    obtain ⟨_, -, -, rfl⟩ := fails_addSlot.1 hm
    exact hs

theorem declares_addSlots (region : Region) : ∀ names : List String, (addSlots region names).Declares
  | [] => declares_pure []
  | name :: rest => by
    rw [addSlots]
    exact (declares_addSlot region name).bind fun _ =>
      (declares_addSlots region rest).bind fun _ => declares_pure _

theorem declares_dropArrays (line : Line) : ∀ names : List String, (dropArrays line names).Declares
  | [] => declares_pure ()
  | name :: rest => by
    rw [dropArrays]
    exact (declares_warn _).bind fun _ => (declares_array name).bind fun _ =>
      declares_dropArrays line rest

theorem declares_bindParams : ∀ ds : List Declaration, (bindParams ds).Declares
  | [] => declares_pure []
  | .vars line names type :: rest => by
    have hslots : (addSlots .argument names >>= fun slots => bindParams rest >>= fun more =>
        pure (slots ++ more)).Declares :=
      (declares_addSlots _ names).bind fun _ => (declares_bindParams rest).bind fun _ => declares_pure _
    rw [bindParams]
    exact fun t => .ite (fun _ => (declares_warn _).bind (fun _ => hslots) t) fun _ => hslots t
  | .arrays .. :: _ => fun _ => ends_fail fun _ hs => hs

theorem declares_bindLocals : ∀ ds : List Declaration, (bindLocals ds).Declares
  | [] => declares_pure ()
  | .vars line names type :: rest => by
    have hslots : (addSlots .local names >>= fun _ => bindLocals rest).Declares :=
      (declares_addSlots _ names).bind fun _ => declares_bindLocals rest
    rw [bindLocals]
    exact fun t => .ite (fun _ => (declares_warn _).bind (fun _ => hslots) t) fun _ => hslots t
  | .arrays line names .. :: rest => by
    rw [bindLocals]
    exact (declares_dropArrays line names).bind fun _ => declares_bindLocals rest

/-- Where no call is under way and all registers are free, the generator finishes the functions of the
routines, or it fails and has finished those of the first few of them. In both cases it closes what it has
opened. -/
def Finishes (comments : Bool) (rs : List Routine) (m : Gen Unit) : Prop :=
  ∀ t : State, t.callDepth = 0 → t.pool.Idle →
    Ends (· = t) m (fun _ => t.Through comments rs)
      (fun _ s => ∃ done, done <+: rs ∧ t.Through comments done s)

end Lowering.Gen

namespace Routine

variable {r : Routine} {rs : List Routine} {comments : Bool} {nested : Gen Unit} {t : State}

/-- Whatever fails in a routine, its scope is still open, and the functions that are complete are some of
those that are nested in it. -/
theorem ends_lowerBody_underway (hnested : Finishes comments rs nested)
    (hdepth : t.callDepth = 0) (hidle : t.pool.Idle) :
    Ends t.Declaring (r.lowerBody comments nested) (fun _ => t.Underway comments rs)
      (fun _ s => ∃ done, done <+: rs ∧ t.Underway comments done s) := by
  let E : LoweringError → State → Prop := fun _ s => ∃ done, done <+: rs ∧ t.Underway comments done s
  have hdeclared {α : Type} {m : Gen α} (hm : m.Declares) :
      Ends t.Declaring m (fun _ => t.Declaring) E :=
    (hm t).imp_error fun _ _ hs => ⟨[], List.nil_prefix, hs.underway⟩
  have hconfined {α : Type} {m : Gen α} (hm : m.Confined) :
      Ends (t.Underway comments rs) m (fun _ => t.Underway comments rs) E :=
    ⟨fun hs hm' => hs.trans ((hm _).after (.refl _) hm'),
      fun hs hm' => ⟨rs, List.prefix_rfl, hs.trans ((hm _).fails (.refl _) hm')⟩⟩
  have hinner : Ends t.Declaring nested (fun _ => t.Underway comments rs) E := by
    -- the declarations have changed neither the registers nor the number of calls
    have hstart {s : State} (hs : t.Declaring s) : s.callDepth = 0 ∧ s.pool.Idle :=
      ⟨hs.surrounds.callDepth.trans hdepth, hs.pool ▸ hidle⟩
    refine ⟨fun hs hm => ?_, fun hs hm => ?_⟩
    · exact hs.through ((hnested _ (hstart hs).1 (hstart hs).2).after rfl hm)
    · obtain ⟨done, hdone, hthrough⟩ := (hnested _ (hstart hs).1 (hstart hs).2).fails rfl hm
      exact ⟨done, hdone, hs.through hthrough⟩
  by_cases hcount : Convention.maxArguments < r.paramCount
  · rw [lowerBody, if_pos hcount]
    exact ends_fail_bind fun s hs => ⟨[], List.nil_prefix, hs.underway⟩
  · rw [lowerBody_eq hcount]
    refine (hdeclared (declares_bindParams _)).bind fun params => ?_
    refine (hdeclared (declares_bindLocals _)).bind fun _ => ?_
    refine (hdeclared (declares_addSlots _ _)).bind fun result => hinner.bind fun _ => ?_
    refine (hconfined (confined_emit _)).bind fun _ => ?_
    exact (hconfined r.body.confined_lower).bind fun _ => hconfined (confined_emit _)

/-- A routine that fails is closed, and has finished no function of its own. What was nested in it
may be complete by then, and those functions stay. -/
theorem through_of_fails (hnested : Finishes comments rs nested) (hdepth : t.callDepth = 0)
    (hidle : t.pool.Idle) {e : LoweringError} {s : State}
    (h : (r.lower comments nested).Fails t e s) :
    ∃ done, done <+: rs ∧ t.Through comments done s := by
  have hends : Ends (· = t) (r.lower comments nested) (fun _ _ => True)
      (fun _ s => ∃ done, done <+: rs ∧ t.Through comments done s) := by
    rw [lower]
    refine (ends_modify (J := t.Declaring) ?_).bind fun _ => ?_
    · rintro s rfl
      exact ⟨.refl _, rfl, rfl⟩
    refine (ends_lowerBody_underway hnested hdepth hidle).collect.attempt_bind (fun body => ?_)
      fun e => ?_
    · -- a body that was made is not lost any more
      have hopen (s : State) (hs : t.Underway comments rs s) : s.Opened t.scopes := hs.isOpen
      refine (ends_frameSize hopen).attempt_bind (fun size => ?_) fun _ => .absurd fun _ => id
      refine (ends_leaveScope hopen).bind fun _ => ?_
      exact ends_ofExcept_ok.bind_eq (ends_ofExcept_ok.bind_eq (ends_modify fun _ _ => trivial))
    · have hopen (s : State) (hs : ∃ done, done <+: rs ∧ t.Underway comments done s) :
          s.Opened t.scopes := by
        obtain ⟨done, -, hs⟩ := hs
        exact hs.isOpen
      refine (ends_frameSize hopen).attempt_bind (fun size => ?_) fun _ => .absurd fun _ => id
      refine (ends_leaveScope hopen).bind fun _ => ends_fail_bind ?_
      rintro s ⟨u, ⟨done, hdone, hu⟩, rfl⟩
      exact ⟨done, hdone, hu.close⟩
  exact hends.fails rfl h

end Routine

/-! ## Subprograms -/

namespace Subprogram

variable {comments : Bool} {t s : State} {u : Unit} {c : List Inst}

theorem produced_of_lower {p : Subprogram} (hdepth : t.callDepth = 0) (hidle : t.pool.Idle)
    (h : (p.lower comments).Yields t u s c) : t.Produced comments p.routines s :=
  ⟨(completed_of_lower hdepth hidle h).2, generated_of_lower hdepth ⟨hidle, rfl⟩ h⟩

theorem produced_of_lowerAll {ps : List Subprogram} (hdepth : t.callDepth = 0)
    (hidle : t.pool.Idle) (h : (Subprogram.lowerAll comments ps).Yields t u s c) :
    t.Produced comments (Subprogram.routinesAll ps) s :=
  ⟨(completed_of_lowerAll hdepth hidle h).2, generated_of_lowerAll hdepth ⟨hidle, rfl⟩ h⟩

mutual

theorem finishes_lower : ∀ p : Subprogram, Finishes comments p.routines (p.lower comments)
  | .mk _ _ _ _ subprograms _ _ => fun t hdepth hidle => by
    constructor
    · rintro s _ s' c rfl h
      exact (produced_of_lower hdepth hidle h).through
    · rintro s e s' rfl h
      rw [Subprogram.lower] at h
      obtain ⟨done, hdone, hthrough⟩ :=
        Routine.through_of_fails (finishes_lowerAll subprograms) hdepth hidle h
      exact ⟨done, hdone.trans (List.prefix_append ..), hthrough⟩

/-- Of subprograms in order, those before the one that fails are complete. The one that fails leaves
the functions of what was nested in it and complete. -/
theorem finishes_lowerAll : ∀ ps : List Subprogram,
    Finishes comments (Subprogram.routinesAll ps) (Subprogram.lowerAll comments ps)
  | [] => fun t _ _ => by
    rw [Subprogram.lowerAll]
    refine ends_pure ?_
    rintro s rfl
    exact ⟨rfl, rfl, rfl, [], s.labels, (List.append_nil _).symm, .nil _⟩
  | p :: ps => fun t hdepth hidle => by
    constructor
    · rintro s _ s' c rfl h
      exact (produced_of_lowerAll hdepth hidle h).through
    · rintro s e s' rfl h
      rw [Subprogram.lowerAll] at h
      rw [Subprogram.routinesAll]
      -- either the first subprogram fails, or it is complete and one of the others fails
      obtain hfirst | ⟨_, s₁, c₁, hp, hrest⟩ := fails_bind.1 h
      · obtain ⟨done, hdone, hthrough⟩ := (finishes_lower p _ hdepth hidle).fails rfl hfirst
        exact ⟨done, hdone.trans (List.prefix_append ..), hthrough⟩
      · have hproduced := produced_of_lower hdepth hidle hp
        have hdepth₁ : s₁.callDepth = 0 := hproduced.completed.callDepth.trans hdepth
        have hidle₁ : s₁.pool.Idle := hidle.even hproduced.completed.pool
        obtain ⟨done, hdone, hthrough⟩ := (finishes_lowerAll ps _ hdepth₁ hidle₁).fails rfl hrest
        exact ⟨p.routines ++ done, (List.prefix_append_right_inj _).2 hdone,
          hproduced.append hthrough⟩

end

end Subprogram

/-- Declarations begin no call and take no register. So the pool is still the one that
`State.initial` has made. -/
theorem Lowering.State.Reached.idle {s : State} {L : List Declared} (h : Reached s L) :
    s.callDepth = 0 ∧ s.pool.Idle := by
  induction h with
  | start h =>
    obtain ⟨-, rfl⟩ | ⟨-, rfl⟩ := initial_eq_ok_iff.1 h
    · exact ⟨rfl, .inl rfl, .refl _⟩
    · exact ⟨rfl, .inr rfl, .refl _⟩
  | @step s L op _ ih =>
    -- an addition that fails changes nothing at all
    have hsame : (op.carryOut.run s).state.callDepth = s.callDepth ∧
        (op.carryOut.run s).state.pool = s.pool := by
      cases op with
      | enter | array => exact ⟨rfl, rfl⟩
      | leave =>
        rw [ScopeOp.carryOut, state_run_then_pure]
        obtain ⟨scopes⟩ := s
        cases scopes <;> exact ⟨rfl, rfl⟩
      | add region name =>
        rcases hrun : (addSlot region name).run s with ⟨e | slot, s', c⟩
        · obtain ⟨_, -, -, rfl⟩ := fails_addSlot.1 ⟨c, hrun⟩
          rw [ScopeOp.carryOut, run_bind_of_error _ hrun]
          exact ⟨rfl, rfl⟩
        · obtain ⟨S, -, rfl, -⟩ := yields_addSlot.1 hrun
          rw [ScopeOp.carryOut, run_bind_of_ok _ hrun]
          exact ⟨rfl, rfl⟩
    rw [hsame.1, hsame.2]
    exact ih

/-- **Scopes are closed on every path.** Wherever scopes were opened and closed and slots and arrays
declared, a subprogram leaves all of this as it was, whether it can be made or fails anywhere inside: the
open scopes with their slots, the arrays of each of them, and the number of calls under way. The functions
that it leaves behind are complete ones: those of its routines in order, or, if it failed, of the first few
of them. -/
theorem Subprogram.closes_scopes {s : State} {L : List Declared} (h : Reached s L) (p : Subprogram)
    (comments : Bool) :
    let o := (p.lower comments).run s
    o.state.scopes = s.scopes ∧ o.state.arrays = s.arrays ∧ o.state.callDepth = s.callDepth ∧
    ∃ done fs n, done <+: p.routines ∧ (o.result = .ok () → done = p.routines) ∧
      o.state.finished = s.finished ++ fs ∧
      Routine.GeneratedAll s.pool.members comments done s.labels fs n := by
  intro o
  obtain ⟨hdepth, hidle⟩ := h.idle
  -- `finishes_lower` has one half for each outcome.
  rcases ho : o with ⟨_ | _, s', c⟩
  · obtain ⟨done, hdone, hthrough⟩ := (p.finishes_lower s hdepth hidle).fails rfl ⟨c, ho⟩
    obtain ⟨fs, n, hfs, hall⟩ := hthrough.functions
    exact ⟨hthrough.scopes, hthrough.arrays, hthrough.callDepth, done, fs, n, hdone,
      (fun hok => nomatch hok), hfs, hall⟩
  · have hthrough := (p.finishes_lower s hdepth hidle).after rfl ho
    obtain ⟨fs, n, hfs, hall⟩ := hthrough.functions
    exact ⟨hthrough.scopes, hthrough.arrays, hthrough.callDepth, p.routines, fs, n,
      List.prefix_rfl, fun _ => rfl, hfs, hall⟩

/-! ### A procedure that is half done

Of the two subprograms in it, the first one can be made. In the second one an argument of a call fails,
two scopes further in. -/

/-- A procedure with an array of its own and two subprograms: `twice` is complete, and the body of
`broken` has a variable that nobody declares. -/
def halfDone : Subprogram :=
  .mk .procedure "halfDone" [] [.arrays 1 ["table"] .integer 1 9]
    [.mk (.function .integer) "twice" [.vars 1 ["n"] .integer] [] []
        (.assign 1 (.var 1 "twice") (.add 1 .plus (.var 1 "n") (.var 1 "n"))) 1,
      .mk .procedure "broken" [.vars 1 ["y"] .integer] [.vars 1 ["x"] .integer] []
        (.assign 1 (.var 1 "x") Expr.brokenCall) 1]
    (.compound 3 []) 1

/-- Two scopes are open, with a variable in each of them and an array in the inner one. -/
def insideTwo : State where
  scopes := [⟨[⟨"inner", 4, .local⟩]⟩, ⟨[⟨"outer", 4, .local⟩]⟩]
  arrays := [["table"], []]
  pool := .ofRegs [.rdi, .rsi, .rcx]

theorem reached_insideTwo : Reached insideTwo nestedScopes := by
  have hstart : State.initial 3 = .ok { pool := .ofRegs [.rdi, .rsi, .rcx] } := rfl
  exact Reached.start hstart |>.step .enter |>.step (.add .local "outer") |>.step .enter
    |>.step (.add .local "inner") |>.step (.array "table")

theorem closes_scopes_halfDone :
    let o := (halfDone.lower false).run insideTwo
    o.result = .error (.onLine (.undefinedVariable "z") 2) ∧
    o.state.scopes = [⟨[⟨"inner", 4, .local⟩]⟩, ⟨[⟨"outer", 4, .local⟩]⟩] ∧
    o.state.arrays = [["table"], []] ∧
    o.state.finished.map (·.name) = ["twice"] := by
  obtain ⟨hscopes, harrays, -, -⟩ := Subprogram.closes_scopes reached_insideTwo halfDone false
  exact ⟨by cbv, hscopes, harrays, by cbv⟩

end PascalAsm
