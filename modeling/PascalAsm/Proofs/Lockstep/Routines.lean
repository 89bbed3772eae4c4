import PascalAsm.Proofs.Generator.Routines
import PascalAsm.Proofs.Lockstep.Values

/-!
# Statements and routines in lockstep

Statements are made twice alike, and so are the functions of a routine and of everything nested in
it. A routine opens a scope of its own and closes it again; between the two, the generations have one
scope more in common, and nothing of what lies around it is ever looked at. That is why
`Subprogram.repeats_lower` asks for no common scope at all.
-/

namespace PascalAsm

open Assembly Lowering Gen State

variable {o : Pairing} {k : Nat} {comments : Bool}

/-! ## Statements -/

namespace Lowering.Gen

theorem repeats_comment (line : Line) (summary : String) :
    (comment comments line summary).Repeats o k :=
  Mirrors.ite (repeats_emit (by simp [Inst.isStraight])) (repeats_pure _)

theorem repeats_assignValue (line : Line) (target value : Expr) :
    (assignValue line target value).Repeats o (k + 1) := by
  have hslot : (assignmentSlot line target).Repeats o (k + 1) := by
    cases target with
    | var varLine name => exact repeats_varOperand _ _
    | _ => exact mirrors_fail
  refine hslot.andThen fun slot => value.repeats_lower.andThen fun r => ?_
  exact (repeats_emit (by simp [Inst.isStraight])).andThen fun _ => repeats_free r

/-- The runtime library takes two arguments. Claiming and releasing them is the same in both pools,
because it concerns only their common members. -/
theorem repeats_callLibrary (symbol : String) {load : List Inst} (hload : Straight load) :
    (callLibrary symbol load).Repeats o k := by
  intro s t s' u c hst hm
  obtain ⟨claimed, s₁, hclaim, hrelease, rfl⟩ := yields_callLibrary.1 hm
  obtain ⟨claimed', t₁, t', hclaim', hrelease', hst'⟩ := hst.claim_release (n := 2) hclaim hrelease
  have hcode : Straight (load ++ [clear Convention.vectorCountReg, .call symbol]) := by
    simp [hload, clear, Inst.isStraight]
  exact ⟨(), t', _, yields_callLibrary.2 ⟨claimed', t₁, hclaim', hrelease', rfl⟩, rfl, hst',
    hcode.renumbered⟩

theorem repeats_writeAll (args : List Expr) : (writeAll args).Repeats o (k + 1) := by
  induction args with
  | nil => exact repeats_pure _
  | cons arg rest ih =>
    have hwrite (r : Reg) : (writeReg r).Repeats o (k + 1) := by
      refine (repeats_emit (by simp [Inst.isStraight])).andThen fun _ => ?_
      exact (repeats_free r).andThen fun _ => repeats_callLibrary _ (by simp [Inst.isStraight])
    exact arg.repeats_lower.andThen fun r => (hwrite r).andThen fun _ => ih

theorem repeats_readAll (line : Line) (args : List Expr) :
    (readAll line args).Repeats o (k + 1) := by
  induction args with
  | nil => exact repeats_pure _
  | cons arg rest ih =>
    -- What is no variable is refused, and refusals need no second run.
    have htarget : (readTarget line arg).Repeats o (k + 1) := by
      cases arg with
      | var varLine name => exact repeats_varOperand _ _
      | _ => exact mirrors_fail
    refine htarget.andThen fun slot => ?_
    exact (repeats_callLibrary _ (by simp [Inst.isStraight])).andThen fun _ => ih

theorem repeats_callProcedure (line : Line) (callee : String) (args : List Expr) :
    (callProcedure line callee args).Repeats o (k + 1) := by
  unfold callProcedure
  split
  · exact repeats_writeAll args
  · exact repeats_readAll line args
  · exact repeats_callRoutine (Expr.repeats_stageAll args)

/-- A loop draws two labels, one for its start and one for its test. The two labels of the one are
related to those of the other, and handed on to the body and the test. -/
theorem repeats_loop {body : Gen Unit} (h : body.Repeats o (k + 1)) (condition : Expr) :
    (loop condition body).Repeats o (k + 1) := by
  refine mirrors_newLabel.bind fun start start' hstart => ?_
  refine mirrors_newLabel.bind fun test test' htest => ?_
  refine (mirrors_emit (.cons (.jmp htest) (.cons (.label hstart) .nil))).andThen fun _ => ?_
  refine h.andThen fun _ => (mirrors_emit (.cons (.label htest) .nil)).andThen fun _ => ?_
  exact Expr.mirrors_jumpWhen hstart

end Lowering.Gen

theorem ForInit.repeats_lower (init : ForInit) (line : Line) :
    (init.lower line).Repeats o (k + 1) := by
  cases init with
  | assign var value => exact repeats_assignValue _ _ _
  | keep var => exact repeats_pure _

theorem ForInit.repeats_step (init : ForInit) (line : Line) :
    (init.step comments line).Repeats o (k + 1) :=
  (repeats_comment _ _).andThen fun _ => repeats_assignValue _ _ _

mutual

/-- The code of a statement is made twice alike. By recursion over the statement; what it is made of
are generators that repeat, bound one after another. -/
theorem Stmt.repeats_lower : (s : Stmt) → (s.lower comments).Repeats o (k + 1)
  | .assign line target value => by
    rw [Stmt.lower]
    exact (repeats_comment _ _).andThen fun _ => repeats_assignValue _ _ _
  | .call line callee args => by
    rw [Stmt.lower]
    exact (repeats_comment _ _).andThen fun _ => repeats_callProcedure _ _ _
  | .compound line body => by
    rw [Stmt.lower]
    exact Stmt.repeats_lowerAll body
  | .ifThen line condition thenBranch => by
    have hthen : (thenBranch.lower comments).Repeats o (k + 1) := thenBranch.repeats_lower
    rw [Stmt.lower]
    refine (repeats_comment _ _).andThen fun _ => mirrors_newLabel.bind fun past past' hpast => ?_
    refine (Expr.mirrors_jumpWhen hpast).andThen fun _ => hthen.andThen fun _ => ?_
    exact mirrors_emit (.cons (.label hpast) .nil)
  | .ifElse line condition thenBranch elseBranch => by
    have hthen : (thenBranch.lower comments).Repeats o (k + 1) := thenBranch.repeats_lower
    have helse : (elseBranch.lower comments).Repeats o (k + 1) := elseBranch.repeats_lower
    rw [Stmt.lower]
    refine (repeats_comment _ _).andThen fun _ => mirrors_newLabel.bind fun other other' hother => ?_
    refine (Expr.mirrors_jumpWhen hother).andThen fun _ => hthen.andThen fun _ => ?_
    -- the label past the second branch is drawn only now
    refine mirrors_newLabel.bind fun past past' hpast => ?_
    refine (mirrors_emit (.cons (.jmp hpast) (.cons (.label hother) .nil))).andThen fun _ => ?_
    exact helse.andThen fun _ => mirrors_emit (.cons (.label hpast) .nil)
  | .whileDo line condition body => by
    have hbody : (body.lower comments).Repeats o (k + 1) := body.repeats_lower
    rw [Stmt.lower]
    exact (repeats_comment _ _).andThen fun _ => repeats_loop hbody condition
  | .forTo line init limit body => by
    have hbody : (body.lower comments).Repeats o (k + 1) := body.repeats_lower
    have hpass : (body.lower comments >>= fun _ => init.step comments line).Repeats o (k + 1) :=
      hbody.andThen fun _ => init.repeats_step line
    have hloop := repeats_loop hpass (init.test line limit)
    rw [Stmt.lower]
    cases init with
    | assign var value | keep var =>
      refine (repeats_comment _ _).andThen fun _ => Mirrors.ite mirrors_fail_bind ?_
      exact (ForInit.repeats_lower _ _).andThen fun _ => hloop

theorem Stmt.repeats_lowerAll : (body : List Stmt) → (Stmt.lowerAll comments body).Repeats o (k + 1)
  | [] => by
    rw [Stmt.lowerAll]
    exact repeats_pure _
  | s :: rest => by
    rw [Stmt.lowerAll]
    exact s.repeats_lower.andThen fun _ => Stmt.repeats_lowerAll rest

end

/-! ## Routines -/

namespace Lowering.State.Lockstep

variable {s t : State}

/-- When a routine is entered, its scope is one more that both generations have. That makes `k + 1`
of them, with which the body is then generated. -/
theorem entered (h : s.Lockstep o k t) (r : Routine) :
    (r.entered s).Lockstep o (k + 1) (r.entered t) := by
  obtain ⟨inner, hlength, hs, ht⟩ := h.scopes
  obtain ⟨ws, hws, hws'⟩ := h.warnings
  -- Opening the scope gives both the same warnings, behind those they have already.
  let declared := paramWarnings r.params ++ localWarnings r.declarations
  refine { h with scopes := ⟨r.entry :: inner, ?_, ?_, ?_⟩, warnings := ⟨ws ++ declared, ?_, ?_⟩ }
  · rw [List.length_cons, hlength]
  · exact congrArg (r.entry :: ·) hs
  · exact congrArg (r.entry :: ·) ht
  · rw [← List.append_assoc, ← hws]
    rfl
  · rw [← List.append_assoc, ← hws']
    rfl

/-- When it is completed, the scope is closed and the function is there. What lies around the scope
may be different in the two, `outer` and `outer'`. -/
theorem completed (h : s.Lockstep o (k + 1) t) {r : Routine} {scope : Scope} {outer : Scopes}
    {body body' : List Inst} (hscopes : s.scopes = scope :: outer)
    (hbody : Renumbered o.distance body body') : ∃ outer', t.scopes = scope :: outer' ∧
      (r.completed scope outer body s).Lockstep o k (r.completed scope outer' body' t) := by
  obtain ⟨inner, hlength, hs, ht⟩ := h.scopes
  -- The scope that is closed is common to both, and gives both functions the same frame.
  obtain ⟨scope', rest, rfl⟩ := List.exists_cons_of_length_eq_add_one hlength
  rw [hs, List.cons_append] at hscopes
  obtain ⟨rfl, rfl⟩ := List.cons.inj hscopes
  obtain ⟨fs, gs, hfs, hgs, hall⟩ := h.finished
  refine ⟨rest ++ o.second.scopes, ht, ?_⟩
  refine { h with scopes := ⟨rest, Nat.succ.inj hlength, rfl, rfl⟩, finished := ?_ }
  refine ⟨fs ++ [⟨r.name, scope'.frameSize, body⟩], gs ++ [⟨r.name, scope'.frameSize, body'⟩], ?_, ?_, ?_⟩
  · rw [← List.append_assoc, ← hfs]
    rfl
  · rw [← List.append_assoc, ← hgs]
    rfl
  · exact List.rel_append hall (.cons ⟨rfl, rfl, hbody⟩ .nil)

end Lowering.State.Lockstep

theorem Routine.repeats_lower (r : Routine) {nested : Gen Unit} (h : nested.Repeats o (k + 1)) :
    (r.lower comments nested).Repeats o k := by
  intro s t s' u c hst hm
  obtain ⟨hsized, s₁, s₂, c₁, c₂, scope, outer, hnested, hbody, hscopes, rfl, rfl⟩ :=
    Routine.yields_lower.1 hm
  -- What is nested is done from the entered states, the body from where that leads.
  obtain ⟨_, t₁, d₁, hnested', -, hst₁, hd₁⟩ := h (hst.entered r) hnested
  obtain ⟨_, t₂, d₂, hbody', -, hst₂, hd₂⟩ := r.body.repeats_lower hst₁ hbody
  obtain ⟨outer', hscopes', hst'⟩ := hst₂.completed (r := r) hscopes
    (List.rel_append hd₁ (List.rel_append r.straight_storing.renumbered
      (List.rel_append hd₂ r.straight_loading.renumbered)))
  exact ⟨(), _, [], Routine.yields_lower.2 ⟨hsized, t₁, t₂, d₁, d₂, scope, outer', hnested', hbody',
    hscopes', rfl, rfl⟩, rfl, hst', .nil⟩

mutual

/-- A subprogram is generated twice alike, whatever it is nested in. By recursion over the nested
subprograms, each of which opens a scope of its own. -/
theorem Subprogram.repeats_lower {k : Nat} : (p : Subprogram) → (p.lower comments).Repeats o k
  | .mk _ _ _ _ subprograms _ _ => by
    rw [Subprogram.lower]
    exact Routine.repeats_lower _ (Subprogram.repeats_lowerAll subprograms)

theorem Subprogram.repeats_lowerAll {k : Nat} :
    (ps : List Subprogram) → (Subprogram.lowerAll comments ps).Repeats o k
  | [] => by
    rw [Subprogram.lowerAll]
    exact repeats_pure _
  | p :: rest => by
    rw [Subprogram.lowerAll]
    exact p.repeats_lower.andThen fun _ => Subprogram.repeats_lowerAll rest

end

theorem Program.repeats_lower (p : Program) : (p.lower comments).Repeats o k :=
  Routine.repeats_lower _ (Subprogram.repeats_lowerAll _)

end PascalAsm
