import PascalAsm.Proofs.Generator.Values

/-!
# Generation without comments

A comment is code like any other, so whoever appends one could change what follows; and it ends up in
the finished functions, which are part of the state. `Gen.Erases m n` says that nothing of the kind
happens: whatever the state is, `n` generates what `m` does, without the comments in it. The two have
the same result, the same error if they fail, and the same state but for the comments of finished
functions.

`Gen.Blind m` is the case of one generator that makes no comments and does not look at finished
functions either. All code for values is made by such generators.
-/

namespace PascalAsm

open Assembly Lowering Gen

/-! ## Code without comments -/

namespace Assembly

/-- Whether the line is a comment. Directives of frames are none, although they are not instructions
either. -/
def Inst.isComment : Inst → Bool
  | .comment _ => true
  | _ => false

/-- The code without its comments. Two units are the same program for the assembler if they are the
same after this. -/
def uncommented (c : List Inst) : List Inst := c.filter (!·.isComment)

/-- The function without the comments in its body. -/
def Function.uncommented (f : Function) : Function :=
  { f with body := Assembly.uncommented f.body }

/-- The unit without the comments of its functions. -/
def Program.uncommented (unit : Program) : Program :=
  { unit with functions := unit.functions.map Function.uncommented }

theorem uncommented_append (c d : List Inst) :
    uncommented (c ++ d) = uncommented c ++ uncommented d :=
  List.filter_append ..

theorem uncommented_eq_self {c : List Inst} (h : ∀ i ∈ c, i.isComment = false) :
    uncommented c = c :=
  List.filter_eq_self.2 fun i hi => by rw [h i hi, Bool.not_false]

end Assembly

namespace Lowering

/-- The state with finished functions that have no comments. Nothing else in a state can have
comments: code under way is part of the outcome. -/
def State.uncommented (s : State) : State :=
  { s with finished := s.finished.map Function.uncommented }

/-- The outcome without comments. A failing run has an outcome, too, so that what is said covers
failures. -/
def Outcome.uncommented {α : Type} (o : Outcome α) : Outcome α :=
  ⟨o.result, o.state.uncommented, Assembly.uncommented o.code⟩

namespace Gen

variable {α β : Type}

/-- In every state, the second generator does what the first one does, but for the comments. -/
def Erases (m n : Gen α) : Prop := ∀ s, n.run s.uncommented = (m.run s).uncommented

/-- The generator makes no comments and does not depend on those that were made. All generators are,
except for those that contain statements, which write headings. -/
def Blind (m : Gen α) : Prop := m.Erases m

/-! ## Rules -/

section

variable {m n : Gen α} {f g : α → Gen β}

theorem Erases.bind (h : m.Erases n) (hf : ∀ a, (f a).Erases (g a)) :
    (m >>= f).Erases (n >>= g) := by
  intro s
  have hm := h s
  -- If `m` fails then so does `n`, by `hm`; else both go on with the same value.
  rcases hrun : m.run s with ⟨e | a, s', c⟩
  · rw [hrun] at hm
    rw [run_bind_of_error f hrun, run_bind_of_error g hm]
    rfl
  · rw [hrun] at hm
    rw [run_bind_of_ok f hrun, run_bind_of_ok g hm]
    change Outcome.mk ((g a).run s'.uncommented).result _ _ = _
    rw [hf a s']
    simp only [Outcome.uncommented, uncommented_append]

/-- The state may be looked at, but not at the comments in it. `h` has to be shown for the state
with comments on the one side and without them on the other. -/
theorem Erases.get_bind {f g : State → Gen β} (h : ∀ s, (f s).Erases (g s.uncommented)) :
    (get >>= f).Erases (get >>= g) := fun s => h s s

theorem Erases.ite {p : Prop} {_ : Decidable p} {m' n' : Gen α} (h : m.Erases n) (h' : m'.Erases n') :
    (if p then m else m').Erases (if p then n else n') := by
  split
  · exact h
  · exact h'

theorem Erases.onLine (h : m.Erases n) (line : Line) :
    (Gen.onLine line m).Erases (Gen.onLine line n) := by
  intro s
  have hs : n s.uncommented = (m s).uncommented := h s
  simp only [run, Gen.onLine, hs]
  rfl

theorem Erases.buffered (h : m.Erases n) : (Gen.buffered m).Erases (Gen.buffered n) := by
  intro s
  have hs : n s.uncommented = (m s).uncommented := h s
  simp only [run, Gen.buffered, hs]
  rcases m s with ⟨_ | _, _, _⟩ <;> rfl

theorem Erases.attempt (h : m.Erases n) : (Gen.attempt m).Erases (Gen.attempt n) := by
  intro s
  have hs : n s.uncommented = (m s).uncommented := h s
  simp only [run, Gen.attempt, hs]
  rfl

/-- Code that is taken as a value has its comments in the value. This happens once for each routine,
whose code becomes the body of a function. -/
theorem Erases.collect_bind {m n : Gen Unit} {f g : Except LoweringError (List Inst) → Gen β}
    (h : m.Erases n) (hf : ∀ r, (f r).Erases (g (r.map Assembly.uncommented))) :
    (Gen.attempt (collect m) >>= f).Erases (Gen.attempt (collect n) >>= g) := by
  intro s
  have hs : n s.uncommented = (m s).uncommented := h s
  -- The code becomes the result here, so it is the result that has to be stripped.
  have hvalue : (n s.uncommented).result.map (fun _ => (n s.uncommented).code) =
      ((m s).result.map fun _ => (m s).code).map Assembly.uncommented := by
    rw [hs]
    cases hr : (m s).result <;> simp [Outcome.uncommented, hr, Except.map]
  have hn : (Gen.attempt (collect n)).run s.uncommented =
      ⟨.ok (((m s).result.map fun _ => (m s).code).map Assembly.uncommented),
        (m s).state.uncommented, []⟩ := by
    rw [← hvalue]
    simp only [run, Gen.attempt, collect, hs, Outcome.uncommented]
  have hm : (Gen.attempt (collect m)).run s =
      ⟨.ok ((m s).result.map fun _ => (m s).code), (m s).state, []⟩ := rfl
  rw [run_bind_of_ok g hn, run_bind_of_ok f hm, hf]
  rfl

theorem Blind.bind {m : Gen α} {f : α → Gen β} (h : m.Blind) (hf : ∀ a, (f a).Blind) :
    (m >>= f).Blind :=
  Erases.bind h hf

end

/-! ## Steps -/

theorem blind_pure (a : α) : (pure a : Gen α).Blind := fun _ => rfl

theorem blind_fail (e : LoweringError) : (fail e : Gen α).Blind := fun _ => rfl

/-- What would come after a failure plays no part. A guard that refuses is therefore blind whatever
it guards. -/
theorem blind_fail_bind {e : LoweringError} {f : α → Gen β} : ((fail e : Gen α) >>= f).Blind :=
  fun _ => rfl

theorem blind_ofExcept (r : Except LoweringError α) : (ofExcept r).Blind := fun _ => rfl

theorem blind_emit {code : List Inst} (h : ∀ i ∈ code, i.isComment = false) :
    (emit code).Blind := by
  intro s
  simp only [run, emit, Outcome.uncommented, uncommented_eq_self h]

theorem blind_modify {f : State → State} (h : ∀ s, f s.uncommented = (f s).uncommented) :
    (modify f).Blind := by
  intro s
  simp only [run, modify, Outcome.uncommented, h s]
  rfl

theorem blind_onPool (f : Pool → Except PoolError (α × Pool)) : (onPool f).Blind := by
  intro s
  have hpool : s.uncommented.pool = s.pool := rfl
  simp only [run, onPool, hpool]
  rcases f s.pool with _ | ⟨_, _⟩ <;> rfl

theorem blind_changePool (f : Pool → Except PoolError Pool) : (changePool f).Blind :=
  blind_onPool _

theorem blind_askPool (f : Pool → Except PoolError α) : (askPool f).Blind := blind_onPool _

theorem blind_addSlot (region : Region) (name : String) : (addSlot region name).Blind :=
  Erases.get_bind fun _ => .bind (blind_ofExcept _) fun (slot, _) =>
    .bind (blind_modify fun _ => rfl) fun _ => blind_pure slot

theorem blind_varOperand (name : String) (line : Line) : (varOperand name line).Blind :=
  Erases.get_bind fun _ => .bind (blind_ofExcept _) fun _ => blind_pure _

theorem blind_tempOperand (name : String) : (tempOperand name).Blind := by
  refine Erases.get_bind fun s => ?_
  have hscopes : s.uncommented.scopes = s.scopes := rfl
  rw [hscopes]
  split
  · exact blind_pure _
  · exact .bind (blind_addSlot _ _) fun slot => blind_pure _

theorem blind_claim (regs : List Reg) : (claim regs).Blind := by
  induction regs with
  | nil => exact blind_pure _
  | cons r rest ih =>
    refine Erases.get_bind fun s => .ite ?_ ih
    exact .bind (blind_changePool _) fun _ => .bind ih fun _ => blind_pure _

theorem blind_release (regs : List Reg) : (release regs).Blind := by
  rw [release]
  induction regs.reverse with
  | nil => exact blind_pure _
  | cons r rest ih => exact .bind (blind_changePool _) fun _ => ih

theorem blind_newLabel : newLabel.Blind := fun _ => rfl

theorem blind_warnAll (ws : List Warning) : (warnAll ws).Blind := blind_modify fun _ => rfl

/-- A function keeps its comments when it is finished, and the state keeps the function. It is the
one step by which comments get from the code into the state. -/
theorem erases_finish (f : Function) : (finish f).Erases (finish f.uncommented) := by
  intro s
  simp only [run, finish, Gen.modify, State.uncommented, Outcome.uncommented, List.map_append]
  rfl

/-! ## Calls -/

theorem blind_callRoutine {callee : String} {count : Nat} {line : Line}
    {stage : Nat → Gen (List Operand)} (h : ∀ depth, (stage depth).Blind) :
    (callRoutine callee count line stage).Blind := by
  unfold callRoutine
  refine Erases.ite blind_fail_bind (Erases.get_bind fun s => ?_)
  refine .bind (blind_modify fun _ => rfl) fun _ => .bind (h _).attempt fun staged => ?_
  refine .bind (blind_modify fun _ => rfl) fun _ => .bind (blind_ofExcept _) fun operands => ?_
  refine .bind (blind_claim _) fun claimed => .bind (blind_emit fun i hi => ?_) fun _ => ?_
  -- Loading an argument is a `movl`, which is no comment.
  · rw [← List.map_uncurry_zip_eq_zipWith, List.mem_map] at hi
    obtain ⟨_, -, rfl⟩ := hi
    rfl
  · exact .bind (blind_emit (by simp [clear, Inst.isComment])) fun _ => blind_release _

theorem blind_saveAll (depth : Nat) (regs : List Reg) : (saveAll depth regs).Blind := by
  induction regs with
  | nil => exact blind_pure _
  | cons r rest ih =>
    refine .bind (blind_tempOperand _) fun slot => .bind (blind_emit ?_) fun _ => ?_
    · simp [Inst.isComment]
    · exact .bind ih fun _ => blind_pure _

theorem blind_callValue {callee : String} {count : Nat} {line : Line} {dest : Reg}
    {stage : Nat → Gen (List Operand)} (h : ∀ depth, (stage depth).Blind) :
    (callValue callee count line dest stage).Blind := by
  unfold callValue
  refine Erases.ite blind_fail_bind (Erases.get_bind fun s => ?_)
  refine .bind (blind_saveAll _ _) fun saved => Erases.get_bind fun s' => ?_
  refine .bind (blind_modify fun _ => rfl) fun _ => ?_
  refine .bind (blind_callRoutine h).attempt fun called => ?_
  refine .bind (blind_modify fun _ => rfl) fun _ => .bind (blind_ofExcept _) fun _ => ?_
  refine .bind (blind_emit fun i hi => ?_) fun _ => blind_emit (by simp [Inst.isComment])
  obtain ⟨_, -, rfl⟩ := List.mem_map.1 hi
  rfl

theorem blind_callLibrary (symbol : String) {load : List Inst}
    (h : ∀ i ∈ load, i.isComment = false) : (callLibrary symbol load).Blind := by
  refine .bind (blind_claim _) fun _ => .bind (blind_emit fun i hi => ?_) fun _ =>
    blind_release _
  rcases List.mem_append.1 hi with hi | hi
  · exact h i hi
  · rw [List.mem_cons, List.mem_singleton] at hi
    rcases hi with rfl | rfl <;> rfl

/-! ## Values -/

theorem blind_requireRegs (label : Nat) (line : Line) : (requireRegs label line).Blind :=
  Erases.get_bind fun _ => .ite (blind_fail _) (blind_pure _)

theorem blind_leafOperand (line : Line) (leaf : Leaf) : (leafOperand line leaf).Blind := by
  cases leaf with
  | var name => exact blind_varOperand name line
  | int value => exact blind_pure _

theorem blind_combine (op : BinOp) (src : Operand) (dest : Reg) : (combine op src dest).Blind := by
  have hdivide (result : Reg) : (divide result src dest).Blind := by
    have hdivide (divisor : Operand) : (emit (divideCode result divisor dest)).Blind :=
      blind_emit (by simp [divideCode, Inst.isComment])
    unfold divide
    refine Erases.ite ?_ (hdivide src)
    refine .bind (blind_tempOperand _) fun slot => .bind (blind_emit ?_) fun _ => hdivide slot
    simp [Inst.isComment]
  -- A division may store its divisor first; both forms are in `hdivide`.
  cases op with
  | add | sub | mul | compare => exact blind_emit (by simp [Inst.isComment])
  | div | mod => exact hdivide _

theorem Blind.balanced {m : Gen Unit} (h : m.Blind) : (Gen.balanced m).Blind :=
  Erases.get_bind fun _ => .bind h fun _ => .bind (blind_askPool _) fun _ => blind_pure _

theorem Blind.compute {m : Gen Unit} (h : m.Blind) (line : Line) : (Gen.compute line m).Blind := by
  refine Erases.buffered (Erases.onLine ?_ line)
  exact .bind h.balanced fun _ => .bind (blind_onPool _) fun _ =>
    .bind (blind_askPool _) fun _ => blind_pure _

theorem Blind.setFlags {m : Gen Unit} (h : m.Blind) (line : Line) : (Gen.setFlags line m).Blind :=
  Erases.buffered (Erases.onLine (.bind h.balanced fun _ => blind_pure _) line)

end Gen

open Gen

mutual

theorem Tree.blind_lower : (t : Tree) → t.lower.Blind
  | .leaf label line leaf => by
    rw [Tree.lower]
    exact .bind (blind_requireRegs _ _) fun _ => .bind (blind_askPool _) fun _ =>
      .bind (blind_leafOperand _ _) fun _ => blind_emit (by simp [Inst.isComment])
  | .call label line callee args => by
    rw [Tree.lower]
    exact .bind (blind_requireRegs _ _) fun _ => .bind (blind_askPool _) fun _ =>
      blind_callValue fun depth => Arg.blind_stageAll depth 0 args
  | .negate label line child => by
    rw [Tree.lower]
    exact .bind (blind_requireRegs _ _) fun _ => .bind child.blind_lower fun _ =>
      .bind (blind_askPool _) fun _ => blind_emit (by simp [Inst.isComment])
  -- `Tree.lower_binary` gives the order of the sides; blindness does not depend on it.
  | .binary label line op left right => by
    have hleft := left.blind_lower
    have hright := right.blind_lower
    rw [Tree.lower_binary]
    refine .bind (blind_requireRegs _ _) fun _ => ?_
    split
    · exact .bind hleft fun _ => .bind (blind_leafOperand _ _) fun _ =>
        .bind (blind_askPool _) fun _ => blind_combine _ _ _
    · refine Erases.ite ?_ ?_
      · exact .bind (blind_changePool _) fun _ => .bind hright fun _ =>
          .bind (blind_onPool _) fun _ => .bind hleft fun _ => .bind (blind_askPool _) fun _ =>
          .bind (blind_combine _ _ _) fun _ => .bind (blind_changePool _) fun _ =>
          blind_changePool _
      · exact .bind hleft fun _ => .bind (blind_onPool _) fun _ => .bind hright fun _ =>
          .bind (blind_askPool _) fun _ => .bind (blind_combine _ _ _) fun _ =>
          blind_changePool _

theorem Plan.blind_lower (line : Line) : (plan : Plan) → (plan.lower line).Blind
  | .ready warnings tree => by
    rw [Plan.lower]
    exact .bind (blind_warnAll _) fun _ => tree.blind_lower.compute line
  | .rejected warnings construct place => by
    rw [Plan.lower]
    exact .bind (blind_warnAll _) fun _ => blind_fail _

theorem Arg.blind_stage (depth index : Nat) : (arg : Arg) → (arg.stage depth index).Blind
  | .var line name => by
    rw [Arg.stage]
    exact blind_varOperand _ _
  | .int value => by
    rw [Arg.stage]
    exact blind_pure _
  | .element line array => by
    rw [Arg.stage]
    exact blind_fail _
  | .computed line plan => by
    rw [Arg.stage]
    exact .bind (plan.blind_lower line) fun _ => .bind (blind_tempOperand _) fun _ =>
      .bind (blind_emit (by simp [Inst.isComment])) fun _ =>
      .bind (blind_changePool _) fun _ => blind_pure _

theorem Arg.blind_stageAll (depth index : Nat) :
    (args : List Arg) → (Arg.stageAll depth index args).Blind
  | [] => by
    rw [Arg.stageAll]
    exact blind_pure _
  | arg :: rest => by
    rw [Arg.stageAll]
    exact .bind (arg.blind_stage depth index) fun _ =>
      .bind (Arg.blind_stageAll depth (index + 1) rest) fun _ => blind_pure _

end

theorem Plan.blind_lowerFlags (line : Line) (plan : Plan) : (plan.lowerFlags line).Blind := by
  have htree : plan.tree.Blind := by
    cases plan with
    | ready warnings tree => exact .bind (blind_warnAll _) fun _ => blind_pure _
    | rejected warnings construct place => exact .bind (blind_warnAll _) fun _ => blind_fail _
  exact .bind htree fun tree => tree.blind_lower.setFlags line

end Lowering

namespace Expr

/-- The code of a value has no comments. Only statements have headings. -/
theorem blind_lower (e : Expr) : e.lower.Blind := Plan.blind_lower _ _

theorem blind_lowerComparison (e : Expr) : e.lowerComparison.Blind := by
  rw [lowerComparison_eq]
  exact .bind (blind_ofExcept _) fun (_, plan) => .bind (plan.blind_lowerFlags _) fun _ => blind_pure _

theorem blind_stageAll (args : List Expr) (depth : Nat) : (stageAll args depth).Blind :=
  Arg.blind_stageAll _ _ _

/-- Neither has that of a condition. By recursion over the condition, with the labels that it draws
the same on both sides. -/
theorem blind_jumpWhen : (e : Expr) → ∀ (sense : Bool) (goal : String), (e.jumpWhen sense goal).Blind
  | .relational .., sense, goal => by
    rw [jumpWhen]
    exact .bind (blind_lowerComparison _) fun _ => blind_emit (by simp [Inst.isComment])
  | .not _ e, sense, goal => by
    rw [jumpWhen]
    exact e.blind_jumpWhen _ _
  | .logical _ op left right, sense, goal => by
    rw [jumpWhen]
    refine Erases.ite ?_ ?_
    · exact .bind (left.blind_jumpWhen _ _) fun _ => right.blind_jumpWhen _ _
    · exact .bind blind_newLabel fun past => .bind (left.blind_jumpWhen _ _) fun _ =>
        .bind (right.blind_jumpWhen _ _) fun _ => blind_emit (by simp [Inst.isComment])
  -- All others are refused as conditions.
  | .var .., _, _ | .integer .., _, _ | .real .., _, _ | .call .., _, _ | .sign .., _, _
  | .add .., _, _ | .mul .., _, _ | .element .., _, _ => by
    rw [jumpWhen] <;> first | exact blind_fail _ | simp

end Expr

end PascalAsm
