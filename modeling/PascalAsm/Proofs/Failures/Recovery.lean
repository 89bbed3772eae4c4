import Mathlib
import PascalAsm.Proofs.Correctness.Expressions
import PascalAsm.Proofs.Failures.Values

/-!
# What is left of an expression that fails

The code of an expression can fail anywhere: while registers are in use, and in the middle of the
arguments of a call that stands among the arguments of another call, for which the pool was parked.
Whoever made the expression gets a state back that is in order all the same.

* **`State.Follows`** — nothing but the pool, the warnings and the temporaries has changed, and the
  pool is no worse than it was.
* **`Gen.Orderly`** — a generator leaves such a state behind, whether it succeeds or fails. This says
  nothing of the state that it starts in, so it is true inside a parked pool as well.
* **`Outcome.Recovers`** — what an expression that failed leaves to its surroundings.
-/

namespace PascalAsm

open Assembly Lowering Gen State

namespace Lowering

/-! ## States in order -/

/-- No register is free twice, and only members are free. Every pool that compiling starts from is
like that, and generators keep it so even when they fail. -/
structure Pool.Tidy (p : Pool) : Prop where
  nodup : p.free.Nodup
  subset : p.free ⊆ p.members

/-- Nothing has changed but the pool, the warnings and the temporaries, and the pool has its members
and is still in order if it was. -/
structure State.Follows (s s' : State) : Prop where
  steady : Steady (fun _ => True) s s'
  members : s'.pool.members = s.pool.members
  tidy : s.pool.Tidy → s'.pool.Tidy

namespace State.Follows

variable {s s₁ s' : State} {p : Pool}

theorem refl (s : State) : s.Follows s := ⟨.refl s, rfl, id⟩

theorem trans (h : s.Follows s₁) (h' : s₁.Follows s') : s.Follows s' :=
  ⟨h.steady.trans h'.steady, h'.members.trans h.members, h'.tidy ∘ h.tidy⟩

theorem withPool (h : s.Follows s') (hmembers : p.members = s'.pool.members)
    (htidy : s'.pool.Tidy → p.Tidy) : s.Follows (s'.withPool p) :=
  h.trans ⟨.withPool s' p, hmembers, htidy⟩

theorem capacity (h : s.Follows s') : s'.pool.capacity = s.pool.capacity :=
  congrArg List.length h.members

/-- While the arguments of a call are staged, one call more is counted. Its depth gives the
temporaries their names, so these are other ones than those of the call outside. -/
theorem enterCall (h : s.Follows s') :
    Follows { s with callDepth := s.callDepth + 1 } { s' with callDepth := s'.callDepth + 1 } :=
  ⟨⟨h.steady.scopes, h.steady.arrays, h.steady.labels, congrArg (· + 1) h.steady.callDepth,
    h.steady.finished⟩, h.members, h.tidy⟩

theorem leaveCall (h : Follows { s with callDepth := s.callDepth + 1 } s') :
    s.Follows { s' with callDepth := s'.callDepth - 1 } :=
  ⟨⟨h.steady.scopes, h.steady.arrays, h.steady.labels, congrArg (· - 1) h.steady.callDepth,
    h.steady.finished⟩, h.members, h.tidy⟩

/-- Putting the free registers back after the pool was parked makes up for whatever has happened to
them meanwhile. -/
theorem restore (h : Follows (s.withPool s.pool.reset) s') :
    s.Follows (s'.withPool (s'.pool.restore s.pool.free)) := by
  have hmembers : s'.pool.members = s.pool.members := h.members
  refine ⟨((Steady.withPool s _).trans h.steady).trans (.withPool s' _), hmembers, fun htidy => ?_⟩
  exact ⟨htidy.nodup, fun r hr => hmembers ▸ htidy.subset hr⟩

end State.Follows

/-- An expression is found too complex only where it needs more registers than there are. All other
errors are warranted, whatever the pool is like. -/
def LoweringError.Warranted (capacity : Nat) (e : LoweringError) : Prop :=
  ∀ label available line, e = .fault (.expressionTooComplex label available) line → capacity < label

namespace LoweringError.Warranted

variable {capacity : Nat} {e : LoweringError}

theorem withLine (h : e.Warranted capacity) (line : Line) : (e.withLine line).Warranted capacity := by
  rintro label available known he
  rcases e with ⟨f, _ | line'⟩ | _ | _ | _
  · obtain ⟨rfl, -⟩ := LoweringError.fault.inj he
    exact h label available none rfl
  · exact h label available known he
  all_goals cases he

theorem ofPool (refusal : PoolError) : (LoweringError.ofPool refusal).Warranted capacity := by
  rintro label available line he
  cases refusal <;> cases he

end LoweringError.Warranted

/-! ## Generators -/

namespace Gen

variable {α β : Type}

/-- An error for which there is a reason, in a state that is in order. Of the scopes it says that
temporaries may have been laid out, and nothing else. -/
def Recovered (t : State) (e : LoweringError) (s : State) : Prop :=
  t.Follows s ∧ e.Warranted t.pool.capacity

/-- Whether it succeeds or fails, the generator leaves a state in order. That is stated for every
start, so the start can be an untidy one too. -/
def Orderly (m : Gen α) : Prop :=
  ∀ t : State, Ends t.Follows m (fun _ => t.Follows) (Recovered t)

/-- Success or failure, the state that is left follows the one at the beginning. This is what is
used of a part once it is known to be orderly. -/
theorem Orderly.follows {m : Gen α} (h : m.Orderly) (s : State) : s.Follows (m.run s).state := by
  rcases hrun : m.run s with ⟨e | a, s', c⟩
  · exact ((h s).fails (.refl s) ⟨c, hrun⟩).1
  · exact (h s).after (.refl s) hrun

theorem Orderly.bind {m : Gen α} {f : α → Gen β} (hm : m.Orderly) (hf : ∀ a, (f a).Orderly) :
    (m >>= f).Orderly :=
  fun t => (hm t).bind fun a => hf a t

theorem Orderly.look {f : State → Gen β} (h : ∀ s, (f s).Orderly) : (get >>= f).Orderly :=
  fun t => .look fun s _ => h s t

theorem Orderly.ite {p : Prop} {_ : Decidable p} {m m' : Gen α} (h : m.Orderly) (h' : m'.Orderly) :
    (if p then m else m').Orderly :=
  fun t => .ite (fun _ => h t) fun _ => h' t

/-- A line that is added to an error is no new reason. If the error had no line, it is the same
fault with one. -/
theorem Orderly.located {m : Gen α} (h : m.Orderly) (line : Line) :
    (buffered (onLine line m)).Orderly :=
  fun t => .buffered (.onLine (h t) fun _ _ he => ⟨he.1, he.2.withLine line⟩)

theorem orderly_pure (a : α) : (pure a : Gen α).Orderly := fun _ => ends_pure fun _ hs => hs

theorem orderly_emit (code : List Inst) : (emit code).Orderly := fun _ => ends_emit

theorem orderly_ofExcept {r : Except LoweringError α}
    (h : ∀ e, r = .error e → ∀ capacity, e.Warranted capacity) : (ofExcept r).Orderly :=
  fun _ => ends_ofExcept (fun _ _ _ hs => hs) fun e he _ hs => ⟨hs, h e he _⟩

theorem orderly_unsupported (construct : Construct) (line : Line) :
    (fail (.unsupported construct line) : Gen α).Orderly :=
  fun _ => ends_fail fun _ hs => ⟨hs, fun _ _ _ he => by cases he⟩

theorem orderly_warnAll (ws : List Warning) : (warnAll ws).Orderly := fun _ =>
  ends_modify fun s hs => hs.trans ⟨⟨.refl s.scopes, rfl, rfl, rfl, rfl⟩, rfl, id⟩

/-! ### Registers -/

/-- An operation of the pool is in order if its successes are. Its failures leave the state as it
is, by `fails_onPool`. -/
theorem orderly_onPool {f : Pool → Except PoolError (α × Pool)}
    (h : ∀ {s a s' c}, (onPool f).Yields s a s' c → s.Follows s') : (onPool f).Orderly := by
  intro t
  constructor
  · intro s a s' c hs hm
    exact hs.trans (h hm)
  · intro s e s' hs hm
    obtain ⟨⟨refusal, -, rfl⟩, rfl⟩ := fails_onPool.1 hm
    exact ⟨hs, .ofPool refusal⟩

theorem orderly_changePool {f : Pool → Except PoolError Pool}
    (h : ∀ {s u s' c}, (changePool f).Yields s u s' c → s.Follows s') : (changePool f).Orderly :=
  orderly_onPool h

theorem orderly_askPool (f : Pool → Except PoolError α) : (askPool f).Orderly :=
  orderly_onPool fun {s _ _ _} hm => by
    obtain ⟨-, rfl, -⟩ := yields_askPool.1 hm
    exact .refl _

theorem orderly_allocate : allocate.Orderly :=
  orderly_onPool fun {s _ _ _} hm => by
    obtain ⟨rest, hfree, rfl, -⟩ := yields_allocate.1 hm
    refine (Follows.refl s).withPool rfl fun htidy => ?_
    rcases htidy with ⟨hnodup, hsubset⟩
    rw [hfree] at hnodup hsubset
    exact ⟨hnodup.of_cons, fun q hq => hsubset (List.mem_cons_of_mem _ hq)⟩

theorem orderly_take (r : Reg) : (changePool (·.take r)).Orderly :=
  orderly_changePool fun {s _ _ _} hm => by
    obtain ⟨q, htake, rfl, -⟩ := yields_changePool.1 hm
    obtain ⟨-, -, rfl⟩ := take_eq_ok_iff.1 htake
    refine (Follows.refl s).withPool rfl fun htidy => ?_
    exact ⟨htidy.nodup.erase r, fun q hq => htidy.subset (List.mem_of_mem_erase hq)⟩

/-- A register is put back only if it is a member and is not free. So no register is free twice
afterwards, unless it was before. -/
theorem orderly_free (r : Reg) : (Gen.free r).Orderly :=
  orderly_changePool fun {s u s' c} hm => by
    change (Gen.free r).Yields s u s' c at hm
    obtain ⟨hmember, hbusy, rfl, -⟩ := yields_free.1 hm
    refine (Follows.refl s).withPool rfl fun htidy => ?_
    exact ⟨List.nodup_cons.2 ⟨hbusy, htidy.nodup⟩, List.cons_subset.2 ⟨hmember, htidy.subset⟩⟩

theorem orderly_swapTop : swapTop.Orderly :=
  orderly_changePool fun {s u s' c} hm => by
    change swapTop.Yields s u s' c at hm
    obtain ⟨a, b, rest, hfree, rfl, -⟩ := yields_swapTop.1 hm
    refine (Follows.refl s).withPool rfl fun htidy => ?_
    have hswap : (b :: a :: rest).Perm s.pool.free := hfree ▸ .swap ..
    exact ⟨hswap.nodup_iff.2 htidy.nodup, fun q hq => htidy.subset (hswap.subset hq)⟩

theorem Orderly.balanced {m : Gen Unit} (h : m.Orderly) : (balanced m).Orderly :=
  .look fun _ => h.bind fun _ => (orderly_askPool _).bind fun _ => orderly_pure _

theorem orderly_claim : ∀ regs : List Reg, (claim regs).Orderly
  | [] => orderly_pure []
  | r :: rest => by
    rw [claim]
    refine .look fun s => .ite ?_ (orderly_claim rest)
    exact (orderly_take r).bind fun _ => (orderly_claim rest).bind fun _ => orderly_pure _

theorem orderly_freeAll : ∀ regs : List Reg, (release.freeAll regs).Orderly
  | [] => orderly_pure ()
  | r :: rest => (orderly_free r).bind fun _ => orderly_freeAll rest

theorem orderly_requireRegs (label : Nat) (line : Line) : (requireRegs label line).Orderly := by
  intro t
  refine .look fun s hs => .ite (fun hlt => ?_) fun _ => ends_pure fun _ hs => hs
  refine ends_fail fun s' hs' => ⟨hs', fun _ _ _ he => ?_⟩
  -- the members of the pool are those of the start
  cases he
  exact hs.capacity ▸ hlt

/-! ### Operands -/

theorem orderly_varOperand (x : String) (line : Line) : (varOperand x line).Orderly := by
  refine .look fun s => (orderly_ofExcept fun e he capacity => ?_).bind fun slot => orderly_pure _
  rintro label available place rfl
  rw [State.lookup] at he
  split at he
  · cases he
  · split at he
    · cases he
    · split at he <;> cases he

theorem orderly_leafOperand (line : Line) (leaf : Leaf) : (leafOperand line leaf).Orderly := by
  cases leaf with
  | var x => exact orderly_varOperand x line
  | int value => exact orderly_pure _

/-- Without a scope there is no place for a temporary, and nothing is done. That is the only way in
which it can fail, as `exists_tempOperand` shows. -/
theorem orderly_tempOperand (x : String) : (tempOperand x).Orderly := by
  intro t
  constructor
  · intro s op s' c hs hm
    obtain ⟨hsteady, hpool⟩ := tempOperand_steady (P := fun _ => True) trivial hm
    exact hs.trans ⟨hsteady, hpool ▸ rfl, hpool ▸ id⟩
  · intro s e s' hs hm
    obtain ⟨_, hget⟩ | ⟨u, s₁, c, hget, hrest⟩ := fails_bind.1 hm
    · cases hget
    obtain ⟨rfl, rfl, -⟩ := yields_get.1 hget
    -- A temporary that is found cannot fail; adding one is refused before anything changes.
    split at hrest
    · obtain ⟨_, hpure⟩ := hrest
      cases hpure
    · obtain hadd | ⟨_, _, _, -, _, hpure⟩ := fails_bind.1 hrest
      · obtain ⟨refusal, -, rfl, rfl⟩ := fails_addSlot.1 hadd
        exact ⟨hs, fun _ _ _ he => by cases he⟩
      · cases hpure

theorem orderly_combine (op : BinOp) (src : Operand) (dest : Reg) : (combine op src dest).Orderly := by
  have hdivide (result : Reg) : (divide result src dest).Orderly := by
    rw [divide]
    refine .ite ?_ ?_
    · exact (orderly_tempOperand _).bind fun _ => (orderly_emit _).bind fun _ =>
        (orderly_pure _).bind fun _ => orderly_emit _
    · exact (orderly_pure _).bind fun _ => orderly_emit _
  cases op with
  | add | sub | mul | compare => exact orderly_emit _
  | div | mod => exact hdivide _

/-! ### Calls -/

theorem orderly_saveAll (depth : Nat) : ∀ held : List Reg, (saveAll depth held).Orderly
  | [] => orderly_pure []
  | r :: held => by
    rw [saveAll]
    exact (orderly_tempOperand _).bind fun _ => (orderly_emit _).bind fun _ =>
      (orderly_saveAll depth held).bind fun _ => orderly_pure _

section

variable {callee : String} {count : Nat} {line : Line} {dest : Reg} {stage : Nat → Gen (List Operand)}

/-- Once the arguments are staged, or have failed to be, the call is not counted any more. -/
theorem orderly_callRoutine (hstage : ∀ depth, (stage depth).Orderly) :
    (callRoutine callee count line stage).Orderly := by
  intro t
  unfold callRoutine
  refine .ite (fun _ => ends_fail_bind fun s hs => ⟨hs, fun _ _ _ he => by cases he⟩) fun _ => ?_
  -- The count of calls is put up, and put down again on both ways out of the arguments.
  refine .look fun s _ => (ends_modify fun u hu => hu.enterCall).bind fun _ => ?_
  refine (hstage s.callDepth _).attempt_bind (fun operands => ?_) fun e => ?_
  · refine (ends_modify fun u hu => hu.leaveCall).bind fun _ => ends_ofExcept_ok.bind_eq ?_
    refine (orderly_claim _ t).bind fun claimed => ?_
    exact ends_emit.bind fun _ => ends_emit.bind fun _ => orderly_freeAll _ t
  · refine (ends_modify (J := Recovered t e) fun u hu => ?_).bind fun _ => ends_fail_bind fun _ => id
    exact ⟨hu.1.leaveCall, hu.2⟩

/-- Whatever the call has done to the pool, the registers that were free are put back. -/
theorem orderly_callValue (hstage : ∀ depth, (stage depth).Orderly) :
    (callValue callee count line dest stage).Orderly := by
  intro t
  unfold callValue
  refine .ite (fun _ => ends_fail_bind fun s hs => ⟨hs, fun _ _ _ he => by cases he⟩) fun _ => ?_
  refine .look fun s _ => (orderly_saveAll _ _ t).bind fun saved => .get_bind fun u hu => ?_
  -- the pool is parked, and from here on the state follows the one in which it is
  have hpark : ∀ s, t.Follows s ∧ s = u → (u.withPool u.pool.reset).Follows (s.withPool s.pool.reset) := by
    rintro s ⟨-, rfl⟩
    exact .refl _
  refine (ends_modify hpark).bind fun _ => ?_
  refine (orderly_callRoutine hstage _).attempt_bind (fun _ => ?_) fun e => ?_
  · refine (ends_modify fun v hv => hu.trans hv.restore).bind fun _ => ends_ofExcept_ok.bind_eq ?_
    exact ends_emit.bind fun _ => ends_emit
  · refine (ends_modify (J := Recovered t e) fun v hv => ?_).bind fun _ => ends_fail_bind fun _ => id
    exact ⟨hu.trans hv.1.restore, hu.capacity ▸ hv.2⟩

end

end Gen

/-! ## Trees -/

mutual

theorem Tree.orderly_lower : (t : Tree) → t.lower.Orderly
  | .leaf label line leaf => by
    rw [Tree.lower]
    refine (orderly_requireRegs label line).bind fun _ => (orderly_askPool _).bind fun dest => ?_
    exact (orderly_leafOperand line leaf).bind fun _ => orderly_emit _
  | .call label line callee args => by
    rw [Tree.lower]
    refine (orderly_requireRegs label line).bind fun _ => (orderly_askPool _).bind fun dest => ?_
    exact orderly_callValue fun depth => Arg.orderly_stageAll depth 0 args
  | .negate label line child => by
    rw [Tree.lower]
    refine (orderly_requireRegs label line).bind fun _ => child.orderly_lower.bind fun _ => ?_
    exact (orderly_askPool _).bind fun _ => orderly_emit _
  | .binary label line op left right => by
    have hleft := left.orderly_lower
    have hright := right.orderly_lower
    rw [Tree.lower_binary]
    refine (orderly_requireRegs label line).bind fun _ => ?_
    split
    · -- the right side is an operand of the combining instruction
      refine hleft.bind fun _ => (orderly_leafOperand _ _).bind fun _ => ?_
      exact (orderly_askPool _).bind fun _ => orderly_combine _ _ _
    · refine .ite ?_ ?_
      · -- the right side comes first
        refine orderly_swapTop.bind fun _ => hright.bind fun _ => orderly_allocate.bind fun held => ?_
        refine hleft.bind fun _ => (orderly_askPool _).bind fun _ => ?_
        refine (orderly_combine _ _ _).bind fun _ => (orderly_free held).bind fun _ => ?_
        exact orderly_swapTop
      · refine hleft.bind fun _ => orderly_allocate.bind fun held => hright.bind fun _ => ?_
        refine (orderly_askPool _).bind fun _ => (orderly_combine _ _ _).bind fun _ => ?_
        exact orderly_free held

theorem Plan.orderly_lower (line : Line) : (plan : Plan) → (plan.lower line).Orderly
  | .ready ws tree => by
    rw [Plan.lower]
    refine (orderly_warnAll ws).bind fun _ => Orderly.located ?_ line
    refine tree.orderly_lower.balanced.bind fun since => orderly_allocate.bind fun r => ?_
    exact (orderly_askPool _).bind fun _ => orderly_pure r
  | .rejected ws construct place => by
    rw [Plan.lower]
    exact (orderly_warnAll ws).bind fun _ => orderly_unsupported construct place

theorem Arg.orderly_stage (depth index : Nat) : (arg : Arg) → (arg.stage depth index).Orderly
  | .var line name => by
    rw [Arg.stage]
    exact orderly_varOperand name line
  | .int value => by
    rw [Arg.stage]
    exact orderly_pure _
  | .element line array => by
    rw [Arg.stage]
    exact orderly_unsupported _ line
  -- The only argument that takes a register gives it back at once.
  | .computed line plan => by
    rw [Arg.stage]
    refine (plan.orderly_lower line).bind fun r => (orderly_tempOperand _).bind fun slot => ?_
    exact (orderly_emit _).bind fun _ => (orderly_free r).bind fun _ => orderly_pure _

theorem Arg.orderly_stageAll (depth index : Nat) :
    (args : List Arg) → (Arg.stageAll depth index args).Orderly
  | [] => by
    rw [Arg.stageAll]
    exact orderly_pure _
  | arg :: rest => by
    rw [Arg.stageAll]
    exact (arg.orderly_stage depth index).bind fun _ =>
      (Arg.orderly_stageAll depth (index + 1) rest).bind fun _ => orderly_pure _

end

theorem Plan.orderly_tree (plan : Plan) : plan.tree.Orderly := by
  cases plan with
  | ready ws tree => exact (orderly_warnAll ws).bind fun _ => orderly_pure _
  | rejected ws construct place =>
    exact (orderly_warnAll ws).bind fun _ => orderly_unsupported construct place

theorem Plan.orderly_lowerFlags (line : Line) (plan : Plan) : (plan.lowerFlags line).Orderly :=
  plan.orderly_tree.bind fun tree =>
    .located (tree.orderly_lower.balanced.bind fun _ => orderly_pure _) line

/-! ## What needs too many registers -/

/-- What needs more registers than the pool has is not begun. So the state after the failure is that
before, and the error has both numbers. -/
theorem Tree.run_lower_of_lt {s : State} (t : Tree) (h : s.pool.capacity < t.label) :
    t.lower.run s =
      ⟨.error (.onLine (.expressionTooComplex t.label s.pool.capacity) t.line), s, []⟩ := by
  have hrequire : (requireRegs t.label t.line).run s =
      ⟨.error (.onLine (.expressionTooComplex t.label s.pool.capacity) t.line), s, []⟩ := by
    rw [requireRegs, run_bind_of_ok _ (show get.run s = ⟨.ok s, s, []⟩ from rfl), if_pos h]
    rfl
  cases t with
  | leaf | call | negate | binary => exact Tree.lower.eq_def _ ▸ run_bind_of_error _ hrequire

namespace Gen

theorem run_balanced_of_error {m : Gen Unit} {s s' : State} {e : LoweringError} {c : List Inst}
    (h : m.run s = ⟨.error e, s', c⟩) : (balanced m).run s = ⟨.error e, s', c⟩ := by
  rw [balanced, run_bind_of_ok _ (show get.run s = ⟨.ok s, s, []⟩ from rfl), run_bind_of_error _ h]
  rfl

/-- An error that has its line is passed on, and the code is not. It is the fault that counts: a
line in the error is kept. -/
theorem run_located_of_error {α : Type} {m : Gen α} {s s' : State} {f : Fault} {place : Line}
    {c : List Inst} (h : m.run s = ⟨.error (.onLine f place), s', c⟩) (line : Line) :
    (buffered (onLine line m)).run s = ⟨.error (.onLine f place), s', []⟩ := by
  rw [run] at h ⊢
  simp only [buffered, onLine, h]
  rfl

end Gen

section

variable {s : State} {t : Tree}

/-- Before that, only the warnings are given. They are given when the tree is made, which is before
any register is asked for. -/
theorem Plan.run_lower_of_lt (h : s.pool.capacity < t.label) (ws : List Warning) (line : Line) :
    ((Plan.ready ws t).lower line).run s =
      ⟨.error (.onLine (.expressionTooComplex t.label s.pool.capacity) t.line),
        { s with warnings := s.warnings ++ ws }, []⟩ := by
  have hwarn : (warnAll ws).run s = ⟨.ok (), { s with warnings := s.warnings ++ ws }, []⟩ := rfl
  have htree := t.run_lower_of_lt (s := { s with warnings := s.warnings ++ ws }) h
  rw [Plan.lower, run_bind_of_ok _ hwarn, compute,
    run_located_of_error (run_bind_of_error _ (run_balanced_of_error htree))]
  rfl

theorem Plan.run_lowerFlags_of_lt (h : s.pool.capacity < t.label) (ws : List Warning) (line : Line) :
    ((Plan.ready ws t).lowerFlags line).run s =
      ⟨.error (.onLine (.expressionTooComplex t.label s.pool.capacity) t.line),
        { s with warnings := s.warnings ++ ws }, []⟩ := by
  have hplan : (Plan.ready ws t).tree.run s =
      ⟨.ok t, { s with warnings := s.warnings ++ ws }, []⟩ := rfl
  have htree := t.run_lower_of_lt (s := { s with warnings := s.warnings ++ ws }) h
  rw [Plan.lowerFlags, run_bind_of_ok _ hplan, setFlags,
    run_located_of_error (run_bind_of_error _ (run_balanced_of_error htree))]
  rfl

end

/-! ## Code -/

namespace Gen

variable {α β : Type}

/-- No code is left behind by a failure. Values are made inside of `buffered`, which throws the code
of a failing run away. -/
def Withholds (m : Gen α) : Prop := ∀ ⦃s e s' c⦄, m.run s = ⟨.error e, s', c⟩ → c = []

theorem withholds_buffered (m : Gen α) : (buffered m).Withholds := by
  intro s e s' c h
  simp only [run, buffered] at h
  split at h
  · cases h
  · exact (Outcome.mk.inj h).2.2.symm

theorem withholds_ofExcept (r : Except LoweringError α) : (ofExcept r).Withholds := by
  intro s e s' c h
  exact (Outcome.mk.inj h).2.2.symm

namespace Withholds

/-- What comes first has to be without code even if it succeeds. A check that adds no code may
therefore come before what withholds its code. -/
theorem after {m : Gen α} {f : α → Gen β} (hm : ∀ s, (m.run s).code = [])
    (hf : ∀ a, (f a).Withholds) : (m >>= f).Withholds := by
  intro s e s' c h
  -- Whether or not `m` succeeds its code is empty, so that all code is that of `f`.
  have hcode := hm s
  rcases hrun : m.run s with ⟨e' | a, s₁, c₁⟩
  · rw [hrun] at hcode
    rw [run_bind_of_error f hrun] at h
    exact (Outcome.mk.inj h).2.2 ▸ hcode
  · rw [hrun] at hcode
    rw [run_bind_of_ok f hrun] at h
    obtain ⟨hresult, -, rfl⟩ := Outcome.mk.inj h
    have hrest : ((f a).run s₁).code = [] := hf a (by rw [← hresult])
    rw [show c₁ = [] from hcode, hrest, List.nil_append]

theorem map {m : Gen α} (hm : m.Withholds) (g : α → β) :
    (m >>= fun a => pure (g a)).Withholds := by
  intro s e s' c h
  rcases hrun : m.run s with ⟨e' | a, s₁, c₁⟩
  · rw [run_bind_of_error _ hrun] at h
    exact (Outcome.mk.inj h).2.2 ▸ hm hrun
  · rw [run_bind_of_ok _ hrun] at h
    cases h

end Withholds

theorem withholds_pure (a : α) : (pure a : Gen α).Withholds := nofun

theorem withholds_onPool (f : Pool → Except PoolError (α × Pool)) : (onPool f).Withholds := by
  intro s e s' c h
  simp only [run, onPool] at h
  split at h <;> cases h
  rfl

theorem withholds_varOperand (name : String) (line : Line) : (varOperand name line).Withholds :=
  .after (fun _ => rfl) fun _ => .map (withholds_ofExcept _) _

theorem withholds_tempOperand (name : String) : (tempOperand name).Withholds := by
  refine .after (fun _ => rfl) fun t => ?_
  split
  · exact withholds_pure _
  · refine .map (.after (fun _ => rfl) fun _ => .after (fun _ => rfl) fun _ => ?_) _
    exact .after (fun _ => rfl) fun _ => withholds_pure _

end Gen

theorem Plan.withholds_lower (plan : Plan) (line : Line) : (plan.lower line).Withholds := by
  cases plan with
  | ready ws t =>
    rw [Plan.lower]
    exact .after (fun _ => rfl) fun _ => withholds_buffered _
  | rejected ws construct place =>
    rw [Plan.lower]
    exact .after (fun _ => rfl) fun _ => withholds_ofExcept _

theorem Plan.withholds_lowerFlags (plan : Plan) (line : Line) : (plan.lowerFlags line).Withholds := by
  refine .after (fun s => ?_) fun t => withholds_buffered _
  cases plan with
  | ready | rejected => rfl

/-! ## Outcomes -/

/-- What was made in a state leaves no code, the depth of calls, the counter of labels and the number of
open scopes as they were, and all of the scopes but that the innermost one may have some temporaries
more; and the pool has its members and is in order. -/
structure Outcome.Recovers {α : Type} (s : State) (o : Outcome α) : Prop where
  code : o.code = []
  callDepth : o.state.callDepth = s.callDepth
  labels : o.state.labels = s.labels
  openScopes : o.state.scopes.length = s.scopes.length
  enclosing : o.state.scopes.tail = s.scopes.tail
  innermost : ∀ scope ∈ s.scopes.head?, ∃ new, (∀ slot ∈ new, slot.region = .temporary) ∧
    o.state.scopes.head? = some ⟨scope.slots ++ new⟩
  members : o.state.pool.members = s.pool.members
  tidy : o.state.pool.Tidy

/-- A generator that is orderly and withholds its code recovers from every failure. -/
theorem Gen.Orderly.recovers {α : Type} {m : Gen α} {s : State} {e : LoweringError}
    (horderly : m.Orderly) (hwithholds : m.Withholds) (htidy : s.pool.Tidy)
    (hfails : (m.run s).result = .error e) :
    (m.run s).Recovers s ∧ e.Warranted s.pool.capacity := by
  rcases hrun : m.run s with ⟨r, s', c⟩
  obtain rfl : r = .error e := by rw [hrun] at hfails; exact hfails
  obtain ⟨hs, he⟩ := (horderly s).fails (.refl s) ⟨c, hrun⟩
  obtain ⟨scopes, harrays, hlabels, hdepth, hfinished⟩ := hs.steady
  refine ⟨⟨hwithholds hrun, hdepth, hlabels, ?_, ?_, ?_, hs.members, hs.tidy htidy⟩, he⟩
  -- the scopes are the same, or the innermost one has new slots
  all_goals
    rcases scopes.slots with heq | ⟨scope, scope', outer, new, hbefore, hafter, hnew, hregion⟩
  · exact congrArg List.length heq.symm
  · simp [hbefore, hafter]
  · exact congrArg List.tail heq.symm
  · simp [hbefore, hafter]
  · intro scope hscope
    exact ⟨[], by simp, by simpa [← heq] using hscope⟩
  · intro first hfirst
    obtain rfl : scope = first := by simpa [hbefore] using hfirst
    exact ⟨new, fun slot hslot => (hregion slot hslot).2, by simp [hafter, ← hnew]⟩

theorem Plan.warranted_of_ofCondition {e : Expr} {err : LoweringError}
    (h : Plan.ofCondition e = .error err) (capacity : Nat) : err.Warranted capacity := by
  rintro label available line rfl
  cases e with
  | relational => cases h
  | _ => cases h

end Lowering

/-! ## Expressions -/

namespace Expr

theorem orderly_lowerComparison (e : Expr) : e.lowerComparison.Orderly := by
  rw [lowerComparison_eq]
  exact (orderly_ofExcept fun _ he => Plan.warranted_of_ofCondition he).bind fun (_, plan) =>
    (plan.orderly_lowerFlags e.line).bind fun _ => orderly_pure _

theorem withholds_lowerComparison (e : Expr) : e.lowerComparison.Withholds := by
  rw [lowerComparison_eq]
  exact .after (fun _ => rfl) fun (_, plan) => (plan.withholds_lowerFlags e.line).map _

theorem run_lowerComparison_of_lt {e : Expr} {s : State} {op : RelOp} {ws : List Warning} {t : Tree}
    (hplan : Plan.ofCondition e = .ok (op, .ready ws t)) (h : s.pool.capacity < t.label) :
    e.lowerComparison.run s =
      ⟨.error (.onLine (.expressionTooComplex t.label s.pool.capacity) t.line),
        { s with warnings := s.warnings ++ ws }, []⟩ := by
  have hlower := run_bind_of_error (fun _ => pure op) (Plan.run_lowerFlags_of_lt h ws e.line)
  rw [lowerComparison_eq, hplan]
  exact hlower

/-- **An expression that fails leaves everything in order.** Whatever it is and however deep inside it
the failure comes up, no code is left behind, and of the state only the temporaries and the order of
the free registers can be different. If the failure is that the expression itself needs more registers
than there are, the scopes and the pool are the same altogether. All of this holds of the value of an
expression and of a comparison alike. -/
theorem recovers_of_fails {s : State} (htidy : s.pool.Tidy) (e : Expr) :
    (∀ err, (e.lower.run s).result = .error err → (e.lower.run s).Recovers s ∧
      ∀ ws t available line, Plan.ofExpr false e = .ready ws t →
        err = .fault (.expressionTooComplex t.label available) line →
          (e.lower.run s).state.pool = s.pool ∧ (e.lower.run s).state.scopes = s.scopes) ∧
    ∀ err, (e.lowerComparison.run s).result = .error err → (e.lowerComparison.run s).Recovers s ∧
      ∀ op ws t available line, Plan.ofCondition e = .ok (op, .ready ws t) →
        err = .fault (.expressionTooComplex t.label available) line →
          (e.lowerComparison.run s).state.pool = s.pool ∧
            (e.lowerComparison.run s).state.scopes = s.scopes := by
  constructor
  · intro err hfails
    obtain ⟨hrecovers, hwarranted⟩ :=
      (Plan.orderly_lower e.line _).recovers (Plan.withholds_lower _ e.line) htidy hfails
    refine ⟨hrecovers, fun ws t available line hplan herr => ?_⟩
    -- whatever node was found too complex, the root has the same label and was looked at first
    have hlt : s.pool.capacity < t.label := hwarranted _ _ _ herr
    rw [lower, hplan, Plan.run_lower_of_lt hlt]
    exact ⟨rfl, rfl⟩
  · intro err hfails
    obtain ⟨hrecovers, hwarranted⟩ :=
      e.orderly_lowerComparison.recovers e.withholds_lowerComparison htidy hfails
    refine ⟨hrecovers, fun op ws t available line hplan herr => ?_⟩
    have hlt : s.pool.capacity < t.label := hwarranted _ _ _ herr
    rw [run_lowerComparison_of_lt hplan hlt]
    exact ⟨rfl, rfl⟩

/-! ### A failure among the arguments of a call

In `x + sqr(y + 1, y + z)` there is no variable `z`. That comes up while the second argument is made:
the pool is parked, the value of `x` and a register from further out are kept in temporaries, and so is
the first argument. -/

/-- `x + sqr(y + 1, y + z)`, in which `z` stands on the second line and has no variable. -/
def brokenCall : Expr :=
  .add 1 .plus (.var 1 "x") (.call 1 "sqr"
    [.add 1 .plus (.var 1 "y") (.integer 1 1), .add 1 .plus (.var 1 "y") (.var 2 "z")])

/-- A comparison of two sums that need three registers each. -/
def wideComparison : Expr :=
  let sum : Expr := .add 3 .plus (.var 3 "x") (.var 3 "y")
  let sums : Expr := .add 3 .plus sum sum
  .relational 3 .lt sums sums

/-- The temporaries stay, and of the registers only those that were taken for `x` are missing. A
comparison that needs four registers leaves nothing at all. -/
theorem recovers_brokenCall :
    (brokenCall.lower.run midway).result = .error (.onLine (.undefinedVariable "z") 2) ∧
    (brokenCall.lower.run midway).Recovers midway ∧
    (brokenCall.lower.run midway).state.pool.free = [.rcx] ∧
    (brokenCall.lower.run midway).state.scopes.map (·.slots.map (·.name)) =
      [["x", "y", "$save0_rdi", "$save0_rsi", "$arg0_0"]] ∧
    (wideComparison.lowerComparison.run midway).result =
      .error (.onLine (.expressionTooComplex 4 3) 3) ∧
    (wideComparison.lowerComparison.run midway).state.pool = midway.pool ∧
    (wideComparison.lowerComparison.run midway).state.scopes = midway.scopes := by
  have htidy : midway.pool.Tidy := ⟨by decide, by decide⟩
  have hbroken : (brokenCall.lower.run midway).result =
      .error (.onLine (.undefinedVariable "z") 2) := by cbv
  have hwide : (wideComparison.lowerComparison.run midway).result =
      .error (.onLine (.expressionTooComplex 4 3) 3) := by cbv
  -- The theorem says what is left; that the run fails as it does is computed.
  obtain ⟨hrecovers, -⟩ := (recovers_of_fails htidy brokenCall).1 _ hbroken
  obtain ⟨-, hsame⟩ := (recovers_of_fails htidy wideComparison).2 _ hwide
  exact ⟨hbroken, hrecovers, by cbv, by cbv, hwide, hsame _ _ _ _ _ rfl rfl⟩

end Expr

end PascalAsm
