import PascalAsm.Proofs.Generator.Trees
import PascalAsm.Proofs.Meaning.Identifiers
import PascalAsm.Proofs.Units.Text

/-!
# What code quotes from a program

Code takes two kinds of text over from a program: the names of routines that are called, and the
summaries of statements that stand in comments. Labels and the symbols of the runtime library are made
up by the generator, and slots have no names in code.

If every name in a program takes one line then so does every text that its code quotes. This is shown
for the code of any generator that is put together from some basic ones, in whatever state it is run.
-/

namespace PascalAsm

open Assembly Lowering Gen

/-! ## The text of a program -/

theorem Decimal.isSymbol_plain (d : Decimal) : IsSymbol (d.plain "") := by
  have hdigits (l : List Char) (hl : l ⊆ d.digits) : IsSymbol (String.ofList l) := by
    intro c hc
    rw [String.toList_ofList] at hc
    exact isSymbolChar_of_mem_toDigits (hl hc)
  have hzeros (n : Nat) : IsSymbol (zeros n) := by
    intro c hc
    rw [zeros, String.toList_ofList] at hc
    rw [List.eq_of_mem_replicate hc]
    decide
  have hall := hdigits _ (List.Subset.refl _)
  rw [plain]
  -- Three positions of the point: behind all digits, among them, and before them.
  split
  · exact isSymbol_append (isSymbol_append hall (hzeros _)) (by decide)
  · split
    · exact isSymbol_append (isSymbol_append (hdigits _ (List.take_subset _ _)) (by decide))
        (hdigits _ (List.drop_subset _ _))
    · exact isSymbol_append (isSymbol_append (by decide) (hzeros _)) hall

theorem Single.oneLine_text (x : Single) : OneLine x.text := by
  have hsign (negative : Bool) : OneLine (signText negative) := by cases negative <;> decide
  unfold text
  split
  · decide
  · exact oneLine_append.2 ⟨hsign _, by decide⟩
  · refine oneLine_append.2 ⟨hsign _, ?_⟩
    split
    · decide
    · exact (Decimal.isSymbol_plain _).oneLine

@[simp] theorem RelOp.oneLine_text (op : RelOp) : OneLine op.text := by cases op <;> decide

@[simp] theorem AddOp.oneLine_text (op : AddOp) : OneLine op.text := by cases op <;> decide

@[simp] theorem MulOp.oneLine_text (op : MulOp) : OneLine op.text := by cases op <;> decide

@[simp] theorem LogicalOp.oneLine_text (op : LogicalOp) : OneLine op.text := by cases op <;> decide

/-- Texts in a row are one line if they and what separates them are. The arguments of a call are put
together in this way. -/
theorem oneLine_intercalate {sep : String} (hsep : OneLine sep) {texts : List String}
    (h : ∀ t ∈ texts, OneLine t) : OneLine (sep.intercalate texts) := by
  -- One text has no separator, and two or more have one behind the first.
  induction texts with
  | nil =>
    show OneLine ""
    decide
  | cons t rest ih =>
    obtain ⟨ht, hrest⟩ := List.forall_mem_cons.1 h
    cases rest with
    | nil =>
      rw [String.intercalate_singleton]
      exact ht
    | cons u rest =>
      rw [String.intercalate_cons_cons]
      exact oneLine_append.2 ⟨oneLine_append.2 ⟨ht, hsep⟩, ih hrest⟩

namespace Expr

mutual

/-- An expression whose names take one line takes one line itself. By recursion over the expression;
numbers and operators take one line whatever they are. -/
theorem oneLine_text : ∀ {e : Expr}, (∀ x ∈ e.identifiers, OneLine x) → OneLine e.text
  | .relational _ _ left right, h | .logical _ _ left right, h | .add _ _ left right, h
  | .mul _ _ left right, h => by
    rw [identifiers, List.forall_mem_append] at h
    simp +decide [text, oneLine_text h.1, oneLine_text h.2]
  | .not _ e, h | .sign _ e, h => by
    rw [identifiers] at h
    simp +decide [text, oneLine_text h]
  | .var _ name, h => h name List.mem_cons_self
  | .element _ array index, h => by
    rw [identifiers, List.forall_mem_cons] at h
    simp +decide [text, h.1, oneLine_text h.2]
  -- The arguments are separated by commas: `oneLine_intercalate`.
  | .call _ callee args, h => by
    rw [identifiers, List.forall_mem_cons] at h
    have hargs : OneLine (", ".intercalate (texts args)) :=
      oneLine_intercalate (by decide) (oneLine_texts h.2)
    simp +decide [text, h.1, hargs]
  | .integer _ value, _ => by
    rw [text]
    exact oneLine_toString _
  | .real _ value, _ => by
    rw [text]
    exact value.oneLine_text

theorem oneLine_texts : ∀ {es : List Expr}, (∀ x ∈ identifiersAll es, OneLine x) →
    ∀ t ∈ texts es, OneLine t
  | [], _ => by simp [texts]
  | e :: rest, h => by
    rw [identifiersAll, List.forall_mem_append] at h
    rw [texts, List.forall_mem_cons]
    exact ⟨oneLine_text h.1, oneLine_texts h.2⟩

end

end Expr

namespace Stmt

theorem oneLine_assignText {target value : Expr} (ht : ∀ x ∈ target.identifiers, OneLine x)
    (hv : ∀ x ∈ value.identifiers, OneLine x) : OneLine (assignText target value) := by
  simp +decide [assignText, Expr.oneLine_text ht, Expr.oneLine_text hv]

theorem oneLine_summary {t : Stmt} (h : ∀ x ∈ t.identifiers, OneLine x) :
    ∀ summary ∈ t.summary?, OneLine summary := by
  intro summary hsummary
  -- a summary is made of names and of words that are fixed
  cases t with
  | assign line target value =>
    rw [identifiers, List.forall_mem_append] at h
    obtain rfl := Option.some.inj hsummary
    exact oneLine_assignText h.1 h.2
  | call line callee args =>
    rw [identifiers, List.forall_mem_cons] at h
    obtain rfl := Option.some.inj hsummary
    have hargs : OneLine (", ".intercalate (args.map Expr.text)) := by
      rw [← Expr.texts_eq_map]
      exact oneLine_intercalate (by decide) (Expr.oneLine_texts h.2)
    simp +decide [Expr.callText, h.1, hargs]
  | compound => cases hsummary
  | ifThen line condition | ifElse line condition | whileDo line condition =>
    rw [identifiers, List.forall_mem_append] at h
    obtain rfl := Option.some.inj hsummary
    simp +decide [Expr.oneLine_text h.1]
  | forTo line init limit body =>
    rw [identifiers, List.forall_mem_append, List.forall_mem_append] at h
    obtain ⟨hinit, hlimit, -⟩ := h
    cases init with
    | assign var value =>
      rw [ForInit.identifiers, List.forall_mem_append] at hinit
      obtain rfl := Option.some.inj hsummary
      simp +decide [Expr.oneLine_text hinit.1, Expr.oneLine_text hinit.2, Expr.oneLine_text hlimit]
    | keep var =>
      rw [ForInit.identifiers] at hinit
      obtain rfl := Option.some.inj hsummary
      simp +decide [Expr.oneLine_text hinit, Expr.oneLine_text hlimit]

end Stmt

/-! ## Generators

`Gen.Tidy` asks for nothing but the code, and for that of every state, so that what a generator depends on
need not be followed: pools, scopes and labels play no part. -/

namespace Assembly

/-- The texts that an instruction takes over from the program. They are names that are called and
texts of comments; labels and format strings are those of the generator. -/
def Inst.quoted : Inst → List String
  | .call name => [name]
  | .comment line => [line]
  | _ => []

/-- Each text that the instruction takes over from the program takes one line. An instruction that
takes over nothing is tidy. -/
def Inst.Tidy (i : Inst) : Prop := ∀ w ∈ i.quoted, OneLine w

theorem Inst.Tidy.unquoted {i : Inst} (h : i.quoted = []) : i.Tidy := by
  simp [Tidy, h]

end Assembly

namespace Lowering.Gen

variable {α β : Type}

/-- In whatever state the generator is run, it appends tidy code only. Failures are included, since
their code may have been made already. -/
def Tidy (m : Gen α) : Prop := ∀ s, ∀ i ∈ (m.run s).code, i.Tidy

/-! ### Rules -/

section

variable {m : Gen α} {f : α → Gen β}

theorem Tidy.bind (h : m.Tidy) (hf : ∀ a, (f a).Tidy) : (m >>= f).Tidy := by
  intro s i hi
  have hm := h s
  rcases hrun : m.run s with ⟨e | a, s', c⟩
  · rw [run_bind_of_error f hrun] at hi
    rw [hrun] at hm
    exact hm i hi
  · rw [run_bind_of_ok f hrun, List.mem_append] at hi
    rw [hrun] at hm
    exact hi.elim (hm i) (hf a s' i)

theorem Tidy.ite {p : Prop} {_ : Decidable p} {m' : Gen α} (h : m.Tidy) (h' : m'.Tidy) :
    (if p then m else m').Tidy := by
  split
  · exact h
  · exact h'

theorem Tidy.onLine (h : m.Tidy) (line : Line) : (Gen.onLine line m).Tidy := h

theorem Tidy.attempt (h : m.Tidy) : (Gen.attempt m).Tidy := h

/-- What is withheld from the code does not matter. A failing run leaves no code, and a successful
one leaves that of `m`. -/
theorem Tidy.buffered (h : m.Tidy) : (Gen.buffered m).Tidy := by
  intro s i hi
  have hm := h s
  unfold run at hm
  unfold run Gen.buffered at hi
  split at hi
  next hrun =>
    rw [hrun] at hm
    exact hm i hi
  next => cases hi

/-- A generator without code. What looks up a slot or takes a register is of this kind. -/
theorem tidy_silent (h : ∀ s, (m.run s).code = []) : m.Tidy := by
  intro s i hi
  rw [h s] at hi
  cases hi

end

/-! ### Steps -/

theorem tidy_pure (a : α) : (pure a : Gen α).Tidy := tidy_silent fun _ => rfl

theorem tidy_fail (e : LoweringError) : (fail e : Gen α).Tidy := tidy_silent fun _ => rfl

/-- What would come after a failure makes no code. It closes the cases in which a construct is not
supported. -/
theorem tidy_fail_bind {e : LoweringError} {f : α → Gen β} : ((fail e : Gen α) >>= f).Tidy :=
  tidy_silent fun _ => rfl

theorem tidy_ofExcept (r : Except LoweringError α) : (ofExcept r).Tidy := tidy_silent fun _ => rfl

/-- A computation that gives a value goes on with that value only. So what follows has to be tidy
for the value that it has, and for no other. -/
theorem tidy_ofExcept_bind {r : Except LoweringError α} {f : α → Gen β}
    (h : ∀ a, r = .ok a → (f a).Tidy) : (ofExcept r >>= f).Tidy := by
  cases r with
  | error e => exact tidy_silent fun _ => rfl
  | ok a => exact h a rfl

theorem tidy_get : get.Tidy := tidy_silent fun _ => rfl

theorem tidy_modify (f : State → State) : (modify f).Tidy := tidy_silent fun _ => rfl

theorem tidy_onPool (f : Pool → Except PoolError (α × Pool)) : (onPool f).Tidy :=
  tidy_silent fun s => by
    unfold run onPool
    split <;> rfl

theorem tidy_newLabel : newLabel.Tidy := tidy_silent fun _ => rfl

theorem tidy_emit {code : List Inst} (h : ∀ i ∈ code, i.Tidy) : (emit code).Tidy := fun _ => h

theorem tidy_varOperand (name : String) (line : Line) : (varOperand name line).Tidy :=
  .bind tidy_get fun _ => .bind (tidy_ofExcept _) fun _ => tidy_pure _

theorem tidy_tempOperand (name : String) : (tempOperand name).Tidy := by
  have hadd : (addSlot .temporary name).Tidy :=
    .bind tidy_get fun _ => .bind (tidy_ofExcept _) fun _ => .bind (tidy_modify _) fun _ =>
      tidy_pure _
  refine .bind tidy_get fun s => ?_
  split
  · exact tidy_pure _
  · exact .bind hadd fun _ => tidy_pure _

theorem tidy_claim (regs : List Reg) : (claim regs).Tidy := by
  induction regs with
  | nil => exact tidy_pure _
  | cons r rest ih =>
    refine .bind tidy_get fun s => .ite ?_ ih
    exact .bind (tidy_onPool _) fun _ => .bind ih fun _ => tidy_pure _

theorem tidy_release (regs : List Reg) : (release regs).Tidy := by
  unfold release
  induction regs.reverse with
  | nil => exact tidy_pure _
  | cons r rest ih => exact .bind (tidy_onPool _) fun _ => ih

/-! ### Calls -/

theorem tidy_emit_unquoted {code : List Inst} (h : ∀ i ∈ code, i.quoted = []) :
    (emit code).Tidy :=
  tidy_emit fun i hi => .unquoted (h i hi)

theorem tidy_callRoutine {callee : String} {count : Nat} {line : Line}
    {stage : Nat → Gen (List Operand)} (hcallee : OneLine callee) (h : ∀ depth, (stage depth).Tidy) :
    (callRoutine callee count line stage).Tidy := by
  have hcall : (emit [clear Convention.vectorCountReg, .call callee]).Tidy := by
    refine tidy_emit fun i hi => ?_
    rcases List.mem_cons.1 hi with rfl | hi
    · exact .unquoted rfl
    · rw [List.mem_singleton.1 hi]
      simpa [Inst.Tidy, Inst.quoted]
  -- loading an argument quotes nothing
  have hload (operands : List Operand) (regs : List Reg) :
      (emit (operands.zipWith (fun src r => .movl src (.reg r)) regs)).Tidy := by
    refine tidy_emit_unquoted fun i hi => ?_
    rw [← List.map_uncurry_zip_eq_zipWith, List.mem_map] at hi
    obtain ⟨_, -, rfl⟩ := hi
    rfl
  unfold callRoutine
  refine .ite tidy_fail_bind (.bind tidy_get fun s => .bind (tidy_modify _) fun _ => ?_)
  exact .bind (h _).attempt fun staged => .bind (tidy_modify _) fun _ =>
    .bind (tidy_ofExcept _) fun operands => .bind (tidy_claim _) fun claimed =>
    .bind (hload _ _) fun _ => .bind hcall fun _ => tidy_release _

theorem tidy_saveAll (depth : Nat) (regs : List Reg) : (saveAll depth regs).Tidy := by
  induction regs with
  | nil => exact tidy_pure _
  | cons r rest ih =>
    refine .bind (tidy_tempOperand _) fun slot => .bind (tidy_emit_unquoted ?_) fun _ =>
      .bind ih fun _ => tidy_pure _
    simp [Inst.quoted]

theorem tidy_callValue {callee : String} {count : Nat} {line : Line} {dest : Reg}
    {stage : Nat → Gen (List Operand)} (hcallee : OneLine callee) (h : ∀ depth, (stage depth).Tidy) :
    (callValue callee count line dest stage).Tidy := by
  have hresult : (emit [.movl (.reg Convention.resultReg) (.reg dest)]).Tidy :=
    tidy_emit_unquoted (by simp [Inst.quoted])
  unfold callValue
  refine .ite tidy_fail_bind (.bind tidy_get fun s => .bind (tidy_saveAll _ _) fun saved => ?_)
  refine .bind tidy_get fun s' => .bind (tidy_modify _) fun _ => ?_
  refine .bind (tidy_callRoutine hcallee h).attempt fun called => .bind (tidy_modify _) fun _ => ?_
  -- Loading registers again writes nothing that is quoted from the source.
  refine .bind (tidy_ofExcept _) fun _ => .bind (tidy_emit_unquoted fun i hi => ?_) fun _ => hresult
  obtain ⟨_, -, rfl⟩ := List.mem_map.1 hi
  rfl

theorem tidy_callLibrary {symbol : String} {load : List Inst} (hsymbol : OneLine symbol)
    (h : ∀ i ∈ load, i.quoted = []) : (callLibrary symbol load).Tidy := by
  refine .bind (tidy_claim _) fun _ => .bind (tidy_emit fun i hi => ?_) fun _ => tidy_release _
  rw [List.mem_append, List.mem_cons, List.mem_singleton] at hi
  rcases hi with hi | rfl | rfl
  · exact .unquoted (h i hi)
  · exact .unquoted rfl
  · simpa [Inst.Tidy, Inst.quoted]

/-! ### Values -/

theorem tidy_requireRegs (label : Nat) (line : Line) : (requireRegs label line).Tidy :=
  .bind tidy_get fun _ => .ite (tidy_fail _) (tidy_pure _)

theorem tidy_leafOperand (line : Line) (leaf : Leaf) : (leafOperand line leaf).Tidy := by
  cases leaf with
  | var name => exact tidy_varOperand name line
  | int value => exact tidy_pure _

theorem tidy_combine (op : BinOp) (src : Operand) (dest : Reg) : (combine op src dest).Tidy := by
  have hdivide (result : Reg) : (divide result src dest).Tidy := by
    have hcode (divisor : Operand) : (emit (divideCode result divisor dest)).Tidy :=
      tidy_emit_unquoted (by simp [divideCode, Inst.quoted])
    unfold divide
    refine .ite ?_ (hcode src)
    exact .bind (tidy_tempOperand _) fun slot =>
      .bind (tidy_emit_unquoted (by simp [Inst.quoted])) fun _ => hcode slot
  -- A division may store its divisor first; no form of it quotes the source.
  cases op with
  | add | sub | mul | compare => exact tidy_emit_unquoted (by simp [Inst.quoted])
  | div | mod => exact hdivide _

theorem Tidy.balanced {m : Gen Unit} (h : m.Tidy) : (Gen.balanced m).Tidy :=
  .bind tidy_get fun _ => .bind h fun _ => .bind (tidy_onPool _) fun _ => tidy_pure _

theorem Tidy.compute {m : Gen Unit} (h : m.Tidy) (line : Line) : (Gen.compute line m).Tidy := by
  refine Tidy.buffered (Tidy.onLine ?_ line)
  exact .bind h.balanced fun _ => .bind (tidy_onPool _) fun _ => .bind (tidy_onPool _) fun _ =>
    tidy_pure _

theorem Tidy.setFlags {m : Gen Unit} (h : m.Tidy) (line : Line) : (Gen.setFlags line m).Tidy :=
  Tidy.buffered (Tidy.onLine (.bind h.balanced fun _ => tidy_pure _) line)

end Lowering.Gen

/-! ## Expressions -/

namespace Lowering.Tree

variable {label : Nat} {line : Line} {op : BinOp} {left right t : Tree}

theorem tidy_leaf (leaf : Leaf) : (Tree.leaf label line leaf).lower.Tidy := by
  unfold lower
  exact .bind (tidy_requireRegs _ _) fun _ => .bind (tidy_onPool _) fun _ =>
    .bind (tidy_leafOperand _ _) fun _ => tidy_emit_unquoted (by simp [Inst.quoted])

theorem tidy_negated (h : t.lower.Tidy) : (t.negated line).lower.Tidy := by
  unfold negated lower
  exact .bind (tidy_requireRegs _ _) fun _ => .bind h fun _ => .bind (tidy_onPool _) fun _ =>
    tidy_emit_unquoted (by simp [Inst.quoted])

theorem tidy_joined (hleft : left.lower.Tidy) (hright : right.lower.Tidy) :
    (Tree.joined line op left right).lower.Tidy := by
  rw [joined, lower_binary]
  refine .bind (tidy_requireRegs _ _) fun _ => ?_
  -- In the order of `lower_binary`; only the two sides quote anything.
  split
  · exact .bind hleft fun _ => .bind (tidy_leafOperand _ _) fun _ => .bind (tidy_onPool _) fun _ =>
      tidy_combine _ _ _
  · refine .ite ?_ ?_
    · exact .bind (tidy_onPool _) fun _ => .bind hright fun _ => .bind (tidy_onPool _) fun _ =>
        .bind hleft fun _ => .bind (tidy_onPool _) fun _ => .bind (tidy_combine _ _ _) fun _ =>
        .bind (tidy_onPool _) fun _ => tidy_onPool _
    · exact .bind hleft fun _ => .bind (tidy_onPool _) fun _ => .bind hright fun _ =>
        .bind (tidy_onPool _) fun _ => .bind (tidy_combine _ _ _) fun _ => tidy_onPool _

end Lowering.Tree

namespace Lowering

theorem Plan.tidy_lower {plan : Plan} {line : Line}
    (h : ∀ {ws t}, plan = .ready ws t → t.lower.Tidy) : (plan.lower line).Tidy := by
  cases plan with
  | ready ws t =>
    unfold lower
    exact .bind (tidy_modify _) fun _ => (h rfl).compute line
  | rejected ws construct place =>
    unfold lower
    exact .bind (tidy_modify _) fun _ => tidy_fail _

theorem Plan.tidy_lowerFlags {plan : Plan} {line : Line}
    (h : ∀ {ws t}, plan = .ready ws t → t.lower.Tidy) : (plan.lowerFlags line).Tidy := by
  cases plan with
  | ready ws t =>
    show ((warnAll ws >>= fun _ => pure t) >>= fun t => setFlags line t.lower).Tidy
    rw [bind_assoc]
    refine .bind (tidy_modify _) fun _ => ?_
    rw [pure_bind]
    exact (h rfl).setFlags line
  -- After its warnings a plan that was given up fails, without code.
  | rejected ws construct place =>
    show ((warnAll ws >>= fun _ => fail _) >>= fun t => setFlags line t.lower).Tidy
    rw [bind_assoc]
    exact .bind (tidy_modify _) fun _ => tidy_silent fun _ => rfl

theorem Arg.tidy_stage {e : Expr} {depth index : Nat}
    (h : ∀ {ws t}, Plan.ofExpr false e = .ready ws t → t.lower.Tidy) :
    ((Arg.ofPlan e (Plan.ofExpr false e)).stage depth index).Tidy := by
  -- all but three forms of an argument are computed
  have hcomputed (line : Line) : ((Arg.computed line (Plan.ofExpr false e)).stage depth index).Tidy := by
    unfold stage
    exact .bind (Plan.tidy_lower h) fun _ => .bind (tidy_tempOperand _) fun _ =>
      .bind (tidy_emit_unquoted (by simp [Inst.quoted])) fun _ => .bind (tidy_onPool _) fun _ =>
      tidy_pure _
  cases e with
  | var line name =>
    unfold ofPlan stage
    exact tidy_varOperand _ _
  | integer line value =>
    unfold ofPlan stage
    exact tidy_pure _
  | element line array index =>
    unfold ofPlan stage
    exact tidy_fail _
  | _ => exact hcomputed _

theorem Arg.tidy_stageAll {es : List Expr} {depth index : Nat}
    (h : ∀ e ∈ es, ∀ {ws t}, Plan.ofExpr false e = .ready ws t → t.lower.Tidy) :
    (Arg.stageAll depth index (Arg.ofExprs es)).Tidy := by
  induction es generalizing index with
  | nil =>
    unfold ofExprs stageAll
    exact tidy_pure _
  | cons e es ih =>
    unfold ofExprs stageAll
    -- The index only changes the name of a temporary.
    have hothers : (stageAll depth (index + 1) (ofExprs es)).Tidy :=
      ih fun e' he => h e' (List.mem_cons_of_mem e he)
    exact .bind (tidy_stage (h e List.mem_cons_self)) fun _ => .bind hothers fun _ => tidy_pure _

end Lowering

namespace Expr

/-- The tree of an expression is tidy, if every name in the expression takes one line. By induction
on the expression; calls take over the name of the routine. -/
theorem tidy_of_ready {e : Expr} {operand : Bool} {ws : List Warning} {t : Tree}
    (h : Plan.ofExpr operand e = .ready ws t) :
    (∀ x ∈ e.identifiers, OneLine x) → t.lower.Tidy := by
  refine tree_induction
    (motive := fun _ e t => (∀ x ∈ e.identifiers, OneLine x) → t.lower.Tidy)
    ?var ?integer ?real ?call ?sign ?add ?mul e h
  case var | integer | real =>
    intros
    exact Tree.tidy_leaf _
  case call =>
    -- the only node with a text of its own
    intro operand line callee args ih hnames
    rw [identifiers, List.forall_mem_cons] at hnames
    unfold Tree.lower
    refine .bind (tidy_requireRegs _ _) fun _ => .bind (tidy_onPool _) fun dest =>
      tidy_callValue hnames.1 fun depth => Arg.tidy_stageAll fun e he _ _ h => ?_
    exact ih e he h fun x hx => hnames.2 x (identifiers_subset_of_mem he hx)
  case sign =>
    intro _ line _ _ ih hnames
    exact Tree.tidy_negated (ih hnames)
  case add | mul =>
    intro _ line op left right _ _ hl hr hnames
    rw [identifiers, List.forall_mem_append] at hnames
    exact Tree.tidy_joined (hl hnames.1) (hr hnames.2)

variable {e : Expr}

theorem tidy_lower (h : ∀ x ∈ e.identifiers, OneLine x) : e.lower.Tidy :=
  Plan.tidy_lower fun hready => tidy_of_ready hready h

theorem tidy_stageAll {args : List Expr} (h : ∀ x ∈ identifiersAll args, OneLine x) (depth : Nat) :
    (stageAll args depth).Tidy :=
  Arg.tidy_stageAll fun _ he _ _ hready =>
    tidy_of_ready hready fun x hx => h x (identifiers_subset_of_mem he hx)

/-- The code of a condition is tidy, if every name in it takes one line. By recursion over the
logical operators, which take over nothing. -/
theorem tidy_jumpWhen : ∀ {e : Expr} {sense : Bool} {goal : String},
    (∀ x ∈ e.identifiers, OneLine x) → (e.jumpWhen sense goal).Tidy
  | .relational line op left right, sense, goal, h => by
    rw [identifiers, List.forall_mem_append] at h
    have hflags : ((Plan.ofComparison line op left right).lowerFlags line).Tidy :=
      Plan.tidy_lowerFlags fun hready => by
        obtain ⟨_, _, t, u, hl, hr, -, rfl⟩ := Plan.joined_eq_ready_iff.1 hready
        exact Tree.tidy_joined (tidy_of_ready hl h.1) (tidy_of_ready hr h.2)
    -- `lowerComparison_eq` removes the question which relation the tree tests.
    have hcompare : (Expr.relational line op left right).lowerComparison.Tidy := by
      rw [lowerComparison_eq]
      refine tidy_ofExcept_bind fun found hplan => .bind ?_ fun _ => tidy_pure _
      obtain rfl := Except.ok.inj hplan
      exact hflags
    unfold jumpWhen
    exact .bind hcompare fun _ => tidy_emit_unquoted (by simp [Inst.quoted])
  | .not _ e, sense, goal, h => by
    unfold jumpWhen
    exact tidy_jumpWhen h
  | .logical _ op left right, sense, goal, h => by
    rw [identifiers, List.forall_mem_append] at h
    have hleft {sense : Bool} {goal : String} : (left.jumpWhen sense goal).Tidy := tidy_jumpWhen h.1
    have hright {sense : Bool} {goal : String} : (right.jumpWhen sense goal).Tidy :=
      tidy_jumpWhen h.2
    unfold jumpWhen
    refine .ite (.bind hleft fun _ => hright) ?_
    exact .bind tidy_newLabel fun past => .bind hleft fun _ => .bind hright fun _ =>
      tidy_emit_unquoted (by simp [Inst.quoted])
  | .var .., _, _, _ | .integer .., _, _, _ | .real .., _, _, _ | .call .., _, _, _
  | .sign .., _, _, _ | .add .., _, _, _ | .mul .., _, _, _ | .element .., _, _, _ => by
    rw [jumpWhen] <;> first | exact tidy_fail _ | simp

end Expr

/-! ## Statements -/

namespace Lowering.Gen

theorem tidy_comment {wanted : Bool} {line : Line} {summary : String} (h : OneLine summary) :
    (comment wanted line summary).Tidy := by
  refine .ite (tidy_emit fun i hi => ?_) (tidy_pure _)
  rw [List.mem_singleton.1 hi]
  simp +decide [Inst.Tidy, Inst.quoted, h]

theorem tidy_assignValue {line : Line} {target value : Expr}
    (h : ∀ x ∈ value.identifiers, OneLine x) : (assignValue line target value).Tidy := by
  have hslot : (assignmentSlot line target).Tidy := by
    cases target with
    | var varLine name => exact tidy_varOperand _ _
    | _ => exact tidy_fail _
  exact .bind hslot fun _ => .bind (Expr.tidy_lower h) fun _ =>
    .bind (tidy_emit_unquoted (by simp [Inst.quoted])) fun _ => tidy_onPool _

theorem tidy_writeAll {args : List Expr} (h : ∀ x ∈ Expr.identifiersAll args, OneLine x) :
    (writeAll args).Tidy := by
  induction args with
  | nil => exact tidy_pure _
  | cons arg rest ih =>
    rw [Expr.identifiersAll, List.forall_mem_append] at h
    have hwrite (r : Reg) : (writeReg r).Tidy :=
      .bind (tidy_emit_unquoted (by simp [Inst.quoted])) fun _ => .bind (tidy_onPool _) fun _ =>
        tidy_callLibrary (by decide) (by simp [Inst.quoted])
    exact .bind (Expr.tidy_lower h.1) fun r => .bind (hwrite r) fun _ => ih h.2

theorem tidy_readAll (line : Line) (args : List Expr) : (readAll line args).Tidy := by
  induction args with
  | nil => exact tidy_pure _
  | cons arg rest ih =>
    -- Whatever is no variable is refused, and makes no code.
    have htarget : (readTarget line arg).Tidy := by
      cases arg with
      | var varLine name => exact tidy_varOperand _ _
      | _ => exact tidy_fail _
    have hread (slot : Operand) : (readSlot slot).Tidy :=
      tidy_callLibrary (by decide) (by simp [Inst.quoted])
    exact .bind htarget fun slot => .bind (hread slot) fun _ => ih

theorem tidy_callProcedure {line : Line} {callee : String} {args : List Expr}
    (hcallee : OneLine callee) (h : ∀ x ∈ Expr.identifiersAll args, OneLine x) :
    (callProcedure line callee args).Tidy := by
  unfold callProcedure
  split
  · exact tidy_writeAll h
  · exact tidy_readAll line args
  · exact tidy_callRoutine hcallee (Expr.tidy_stageAll h)

theorem Tidy.loop {condition : Expr} {body : Gen Unit} (hbody : body.Tidy)
    (h : ∀ x ∈ condition.identifiers, OneLine x) : (Gen.loop condition body).Tidy :=
  .bind tidy_newLabel fun _ => .bind tidy_newLabel fun _ =>
    .bind (tidy_emit_unquoted (by simp [Inst.quoted])) fun _ => .bind hbody fun _ =>
    .bind (tidy_emit_unquoted (by simp [Inst.quoted])) fun _ => Expr.tidy_jumpWhen h

end Lowering.Gen

namespace ForInit

variable {init : ForInit}

theorem tidy_lower {line : Line} (h : ∀ x ∈ init.identifiers, OneLine x) :
    (init.lower line).Tidy := by
  cases init with
  | assign var value =>
    rw [identifiers, List.forall_mem_append] at h
    exact tidy_assignValue h.2
  | keep var => exact tidy_pure _

theorem tidy_step {comments : Bool} {line : Line} (h : ∀ x ∈ init.identifiers, OneLine x) :
    (init.step comments line).Tidy := by
  have hvar : ∀ x ∈ init.var.identifiers, OneLine x := fun x hx =>
    h x (init.identifiers_var_subset hx)
  have hnext : ∀ x ∈ (init.next line).identifiers, OneLine x := by
    simpa [next, Expr.identifiers] using hvar
  exact .bind (tidy_comment (Stmt.oneLine_assignText hvar hnext)) fun _ => tidy_assignValue hnext

end ForInit

namespace Stmt

variable {comments : Bool}

mutual

/-- The code of a statement is tidy, if every name in it takes one line. By recursion over the
statement; its comment quotes the statement itself. -/
theorem tidy_lower : ∀ {t : Stmt}, (∀ x ∈ t.identifiers, OneLine x) → (t.lower comments).Tidy
  | .assign line target value, h => by
    have hcomment := oneLine_summary h
    rw [identifiers, List.forall_mem_append] at h
    unfold lower
    exact .bind (tidy_comment (hcomment _ rfl)) fun _ => tidy_assignValue h.2
  | .call line callee args, h => by
    have hcomment := oneLine_summary h
    rw [identifiers, List.forall_mem_cons] at h
    unfold lower
    exact .bind (tidy_comment (hcomment _ rfl)) fun _ => tidy_callProcedure h.1 h.2
  | .compound line body, h => by
    rw [identifiers] at h
    unfold lower
    exact tidy_lowerAll h
  | .ifThen line condition thenBranch, h => by
    have hcomment := oneLine_summary h
    rw [identifiers, List.forall_mem_append] at h
    unfold lower
    exact .bind (tidy_comment (hcomment _ rfl)) fun _ => .bind tidy_newLabel fun _ =>
      .bind (Expr.tidy_jumpWhen h.1) fun _ => .bind (tidy_lower h.2) fun _ =>
      tidy_emit_unquoted (by simp [Inst.quoted])
  | .ifElse line condition thenBranch elseBranch, h => by
    have hcomment := oneLine_summary h
    rw [identifiers, List.forall_mem_append, List.forall_mem_append] at h
    obtain ⟨hcondition, hthen, helse⟩ := h
    unfold lower
    exact .bind (tidy_comment (hcomment _ rfl)) fun _ => .bind tidy_newLabel fun _ =>
      .bind (Expr.tidy_jumpWhen hcondition) fun _ => .bind (tidy_lower hthen) fun _ =>
      .bind tidy_newLabel fun _ => .bind (tidy_emit_unquoted (by simp [Inst.quoted])) fun _ =>
      .bind (tidy_lower helse) fun _ => tidy_emit_unquoted (by simp [Inst.quoted])
  | .whileDo line condition body, h => by
    have hcomment := oneLine_summary h
    rw [identifiers, List.forall_mem_append] at h
    unfold lower
    exact .bind (tidy_comment (hcomment _ rfl)) fun _ => (tidy_lower h.2).loop h.1
  | .forTo line init limit body, h => by
    have hcomment := oneLine_summary h
    rw [identifiers, List.forall_mem_append, List.forall_mem_append] at h
    obtain ⟨hinit, hlimit, hbody⟩ := h
    -- the test compares the variable with the limit, and the step counts the variable
    have htest : ∀ x ∈ (init.test line limit).identifiers, OneLine x := by
      rw [ForInit.test, Expr.identifiers, List.forall_mem_append]
      exact ⟨fun x hx => hinit x (init.identifiers_var_subset hx), hlimit⟩
    have hpass : (do body.lower comments; init.step comments line : Gen Unit).Tidy :=
      .bind (tidy_lower hbody) fun _ => ForInit.tidy_step hinit
    have hloop := hpass.loop htest
    unfold lower
    cases init with
    | assign var value | keep var =>
      refine .bind (tidy_comment (hcomment _ rfl)) fun _ => .ite tidy_fail_bind ?_
      exact .bind (ForInit.tidy_lower hinit) fun _ => hloop

/-- The code of statements one after another is tidy. By recursion over them, together with
`tidy_lower`. -/
theorem tidy_lowerAll : ∀ {ts : List Stmt}, (∀ x ∈ identifiersAll ts, OneLine x) →
    (Stmt.lowerAll comments ts).Tidy
  | [], _ => by
    unfold Stmt.lowerAll
    exact tidy_pure _
  | t :: rest, h => by
    rw [identifiersAll, List.forall_mem_append] at h
    unfold Stmt.lowerAll
    exact .bind (tidy_lower h.1) fun _ => tidy_lowerAll h.2

end

end Stmt

end PascalAsm
