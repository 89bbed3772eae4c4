import Mathlib
import PascalAsm.Proofs.Generator.Statements

/-!
# Statements give everything back

Between two statements every register is free and the first member of the pool is on top. That is so
because each statement leaves the pool in the order in which it found it (`Stmt.lower_restored`), and
so the code of a statement does not depend on the registers of the statements before it.

A value is taken and given back at the top of the stack, which cannot change the order. The registers
of a call are taken by name, from wherever they stand, and put back on top. This restores the order only
because they come first in it: the members of a pool that pass arguments are, for any number of
arguments, the first ones (`Pool.Fresh.claimed_first`). From another order it would not.
-/

namespace PascalAsm

open Assembly Lowering Gen State

namespace Lowering

/-- The pool of two or of three registers, with all of them free and in their first order. -/
structure Pool.Fresh (p : Pool) : Prop where
  members : p.members = [.rdi, .rsi] ∨ p.members = [.rdi, .rsi, .rcx]
  free : p.free = p.members

namespace Pool.Fresh

variable {p q : Pool}

theorem idle (h : p.Fresh) : p.Idle := ⟨h.members, .of_eq h.free⟩

theorem restored (h : p.Fresh) (hq : p.Restored q) : q.Fresh := by
  refine ⟨hq.members_eq ▸ h.members, ?_⟩
  rw [hq.free_eq, hq.members_eq, h.free]

/-- The registers of arguments that belong to the pool are the first ones of it. That is why
claiming them for a call and releasing them again leaves the order alone. -/
theorem claimed_first (h : p.Fresh) (n : Nat) :
    (Convention.argumentRegs.take n).filter (· ∈ p.members) <+: p.members := by
  have hfew : ∀ k ≤ 4, (Convention.argumentRegs.take k).filter (· ∈ p.members) <+: p.members := by
    rcases h.members with hm | hm <;> rw [hm] <;> decide
  rcases Nat.le_total n 4 with hle | hle
  · exact hfew n hle
  · -- no more than four arguments travel in registers
    have hsame : Convention.argumentRegs.take n = Convention.argumentRegs.take 4 := by
      rw [List.take_of_length_le (show Convention.argumentRegs.length ≤ n from hle)]
      rfl
    rw [hsame]
    exact hfew 4 (Nat.le_refl 4)

end Pool.Fresh

/-! ## Calls -/

section

variable {s s' : State} {u : Unit} {c : List Inst}

/-- Registers that are the first ones of the pool are the first ones again when they are put back. -/
theorem claim_release_restored (hfresh : s.pool.Fresh) {regs claimed : List Reg} {s₁ : State}
    {c₁ c₂ : List Inst} (hfirst : regs.filter (· ∈ s.pool.members) <+: s.pool.members)
    (hc : (claim regs).Yields s claimed s₁ c₁) (hr : (release claimed).Yields s₁ u s' c₂) :
    s.pool.Restored s'.pool := by
  have hnodup : s.pool.free.Nodup := hfresh.idle.sound.nodup
  have hleft := free_of_claim hnodup hc
  obtain ⟨-, rfl, free, -, rfl⟩ := claim_spec hc
  obtain ⟨-, rfl⟩ := release_spec hr
  obtain ⟨rest, hrest⟩ := hfirst
  generalize regs.filter (· ∈ s.pool.members) = claimed at hrest hleft
  have horder : claimed ++ rest = s.pool.free := hrest.trans hfresh.free.symm
  -- what is left in the stack is what stands behind the claimed registers
  have hfree : free = rest := by
    rw [← horder] at hleft hnodup
    rw [pool_withPool, Pool.free_moved, List.filter_append] at hleft
    have hnone : claimed.filter (· ∉ claimed) = [] :=
      List.filter_eq_nil_iff.2 fun r hr => by simpa using hr
    have hall : rest.filter (· ∉ claimed) = rest :=
      List.filter_eq_self.2 fun r hr => by
        simpa using fun hclaimed => List.disjoint_of_nodup_append hnodup hclaimed hr
    rwa [hnone, hall, List.nil_append] at hleft
  refine ⟨claimed.length, ?_⟩
  rw [pool_withPool, pool_withPool, Pool.moved_moved, Pool.free_moved, hfree, horder, Nat.zero_add,
    Nat.add_zero]

theorem callLibrary_restored (hfresh : s.pool.Fresh) {symbol : String} {load : List Inst}
    (h : (callLibrary symbol load).Yields s u s' c) : s.pool.Restored s'.pool := by
  obtain ⟨claimed, s₁, hc, hr, -⟩ := yields_callLibrary.1 h
  exact claim_release_restored hfresh (hfresh.claimed_first 2) hc hr

theorem callRoutine_restored (hfresh : s.pool.Fresh) {callee : String} {count : Nat} {line : Line}
    {stage : Nat → Gen (List Operand)} (hstage : StageSettled stage)
    (h : (callRoutine callee count line stage).Yields s u s' c) : s.pool.Restored s'.pool := by
  obtain ⟨-, operands, s₁, s₂, c₁, claimed, hs, hc, hr, -⟩ := yields_callRoutine.1 h
  obtain ⟨-, hstaged, -⟩ := hstage s.callDepth rfl hs
  have hfresh₁ : s₁.pool.Fresh := hfresh.restored hstaged
  have hcalled : s₁.pool.Restored s'.pool :=
    claim_release_restored (s := { s₁ with callDepth := s₁.callDepth - 1 }) hfresh₁
      (hfresh₁.claimed_first _) hc hr
  exact hstaged.trans hcalled

/-! ## Statements -/

theorem assignValue_restored {line : Line} {target value : Expr}
    (h : (assignValue line target value).Yields s u s' c) : s.pool.Restored s'.pool := by
  obtain ⟨x, slot, r, s₁, c₁, -, -, hr, hf, -⟩ := yields_assignValue.1 h
  exact free_restored (Expr.lower_steady hr).2.1 hf

theorem writeAll_restored : ∀ {es : List Expr} {s s' : State} {c : List Inst}, s.pool.Fresh →
    (writeAll es).Yields s u s' c → s.pool.Restored s'.pool
  | [], _, _, _, _, h => by
    obtain ⟨rfl, -⟩ := yields_writeAll_nil.1 h
    exact .refl _
  | e :: rest, s, _, _, hfresh, h => by
    obtain ⟨r, s₁, s₂, c₁, c₂, c₃, hr, hw, hrest, -⟩ := yields_writeAll_cons.1 h
    obtain ⟨s₃, c', hf, hl, -⟩ := yields_writeReg.1 hw
    -- the register is free again before the registers of the call are taken
    have hvalue : s.pool.Restored s₃.pool := free_restored (Expr.lower_steady hr).2.1 hf
    have hfresh₃ := hfresh.restored hvalue
    have hwritten := callLibrary_restored hfresh₃ hl
    exact (hvalue.trans hwritten).trans (writeAll_restored (hfresh₃.restored hwritten) hrest)

theorem readAll_restored {line : Line} : ∀ {es : List Expr} {s s' : State} {c : List Inst},
    s.pool.Fresh → (readAll line es).Yields s u s' c → s.pool.Restored s'.pool
  | [], _, _, _, _, h => by
    obtain ⟨rfl, -⟩ := yields_readAll_nil.1 h
    exact .refl _
  | e :: rest, _, _, _, hfresh, h => by
    obtain ⟨x, slot, s₁, c₁, c₂, -, -, hr, hrest, -⟩ := yields_readAll_cons.1 h
    have hread := callLibrary_restored hfresh hr
    exact hread.trans (readAll_restored (hfresh.restored hread) hrest)

theorem callProcedure_restored (hfresh : s.pool.Fresh) {line : Line} {callee : String}
    {args : List Expr} (h : (callProcedure line callee args).Yields s u s' c) :
    s.pool.Restored s'.pool := by
  rw [callProcedure] at h
  split at h
  · exact writeAll_restored hfresh h
  · exact readAll_restored hfresh h
  · exact callRoutine_restored hfresh (Expr.stageAll_settled args) h

/-- A condition takes no register by name, so that nothing has to be known of the order. -/
theorem jumpWhen_restored {e : Expr} {sense : Bool} {goal : String}
    (h : (e.jumpWhen sense goal).Yields s u s' c) : s.pool.Restored s'.pool :=
  (Expr.jumpWhen_settled h).2.1

theorem loop_restored (hfresh : s.pool.Fresh) {condition : Expr} {body : Gen Unit}
    (hbody : ∀ {s s' : State} {c : List Inst}, s.pool.Fresh → body.Yields s () s' c →
      s.pool.Restored s'.pool)
    (h : (loop condition body).Yields s u s' c) : s.pool.Restored s'.pool := by
  obtain ⟨s₁, c₁, c₂, hb, hc, -⟩ := yields_loop.1 h
  have hpass : s.pool.Restored s₁.pool := hbody (s := s.draw 2) hfresh hb
  exact hpass.trans (jumpWhen_restored hc)

theorem initial_restored {line : Line} {init : ForInit} (h : (init.lower line).Yields s u s' c) :
    s.pool.Restored s'.pool := by
  cases init with
  | assign => exact assignValue_restored h
  | keep =>
    obtain ⟨rfl, -⟩ := Stmt.yields_keep.1 h
    exact .refl _

end

end Lowering

namespace Stmt

variable {comments : Bool}

mutual

/-- A statement leaves the pool in the order in which it found it. -/
theorem lower_restored : ∀ {t : Stmt} {s s' : State} {u : Unit} {c : List Inst}, s.pool.Fresh →
    (t.lower comments).Yields s u s' c → s.pool.Restored s'.pool
  | .assign .., _, _, _, _, _, h => by
    obtain ⟨c', h', -⟩ := yields_assign.1 h
    exact assignValue_restored h'
  | .call .., _, _, _, _, hfresh, h => by
    obtain ⟨c', h', -⟩ := yields_call.1 h
    exact callProcedure_restored hfresh h'
  | .compound .., _, _, _, _, hfresh, h => lowerAll_restored hfresh (yields_compound.1 h)
  | .ifThen .., s, _, _, _, hfresh, h => by
    obtain ⟨s₁, c₁, c₂, hc, ht, -⟩ := yields_ifThen.1 h
    have htest := jumpWhen_restored hc
    exact htest.trans (lower_restored (hfresh.restored htest) ht)
  -- Each part starts where the one before left the pool, which is as it was.
  | .ifElse .., s, _, _, _, hfresh, h => by
    obtain ⟨s₁, s₂, c₁, c₂, c₃, hc, ht, he, -⟩ := yields_ifElse.1 h
    have htest := jumpWhen_restored hc
    have hthen := htest.trans (lower_restored (hfresh.restored htest) ht)
    have helse : s₂.pool.Restored _ := lower_restored (s := s₂.draw 1) (hfresh.restored hthen) he
    exact hthen.trans helse
  | .whileDo .., _, _, _, _, hfresh, h => by
    obtain ⟨c', h', -⟩ := yields_whileDo.1 h
    exact loop_restored hfresh lower_restored h'
  -- A pass is the body and then the step, both of which put the pool back.
  | .forTo .., _, _, _, _, hfresh, h => by
    obtain ⟨s₁, c₁, c₂, summary, -, hi, hl, -, -⟩ := yields_forTo.1 h
    have hinit := initial_restored hi
    refine hinit.trans (loop_restored (hfresh.restored hinit) (fun {s s' c} hfresh hpass => ?_) hl)
    obtain ⟨s₂, c₃, c₄, hb, hstep, -⟩ := yields_pass.1 hpass
    exact (lower_restored hfresh hb).trans (assignValue_restored hstep)

theorem lowerAll_restored : ∀ {ts : List Stmt} {s s' : State} {u : Unit} {c : List Inst},
    s.pool.Fresh → (Stmt.lowerAll comments ts).Yields s u s' c → s.pool.Restored s'.pool
  | [], _, _, _, _, _, h => by
    obtain ⟨rfl, -⟩ := yields_lowerAll_nil.1 h
    exact .refl _
  | t :: rest, _, _, _, _, hfresh, h => by
    obtain ⟨s₁, c₁, c₂, ht, hrest, -⟩ := yields_lowerAll_cons.1 h
    have hfirst := lower_restored hfresh ht
    exact hfirst.trans (lowerAll_restored (hfresh.restored hfirst) hrest)

end

/-- **A statement gives everything back.** Let a scope be open and let the pool be full and in its first
order. If the code of a statement can be made, then afterwards the pool is full and in the same order, and
exactly as many registers were taken as were given back; no call is counted more or less; the scopes around
the innermost one are as they were, and so are the slots of the innermost one, behind which there are only
new temporaries. Code that was there before stays in front of that of the statement. -/
theorem lower_resumes {t : Stmt} {s s' : State} {scope : Scope} {outer : Scopes} {u : Unit}
    {c : List Inst} (hfresh : s.pool.Fresh) (hscopes : s.scopes = scope :: outer)
    (h : (t.lower comments).Yields s u s' c) :
    s'.pool.Fresh ∧
    (∃ n, s'.pool =
      { s.pool with allocations := s.pool.allocations + n, frees := s.pool.frees + n }) ∧
    s'.callDepth = s.callDepth ∧
    (∃ new, (∀ slot ∈ new, slot.region = .temporary) ∧
      s'.scopes = ⟨scope.slots ++ new⟩ :: outer) ∧
    s'.arrays = s.arrays ∧ s'.finished = s.finished ∧
    ∀ before, (emit before >>= fun _ => t.lower comments).Yields s u s' (before ++ c) := by
  have hrestored := lower_restored hfresh h
  obtain ⟨hgrows, harrays, -, hdepth, hfinished⟩ := (lower_made h).advanced
  refine ⟨hfresh.restored hrestored, ?counts, hdepth, ?scopes, harrays, hfinished, fun before =>
    yields_emit_bind.2 ⟨c, h, rfl⟩⟩
  case counts =>
    obtain ⟨n, hn⟩ := hrestored
    exact ⟨n, hn⟩
  -- `hgrows` is about any scopes; `hscopes` says which one is the innermost.
  case scopes =>
    rcases hgrows.slots with heq | ⟨first, last, others, new, hbefore, hafter, hnew, hregion⟩
    · exact ⟨[], by simp, by rw [← heq, hscopes, List.append_nil]⟩
    · obtain ⟨rfl, rfl⟩ := List.cons.inj (hbefore.symm.trans hscopes)
      exact ⟨new, fun slot hslot => (hregion slot hslot).2, by rw [hafter, ← hnew]⟩

/-! ### A procedure with four arguments

The call takes all three registers of the pool by name. One of the arguments is itself a call, which parks
the pool meanwhile, and two need temporaries. -/

/-- The body of a routine with an argument and a local, inside another one. -/
def nestedBody : State where
  scopes := [⟨[⟨"x", 4, .argument⟩, ⟨"y", 8, .local⟩]⟩, .empty]
  arrays := [[], []]
  pool := .ofRegs [.rdi, .rsi, .rcx]

/-- A loop around a call with four arguments, of which one has a call in it and one is computed. -/
def fourArguments : Stmt :=
  .whileDo 1 (.relational 1 .lt (.var 1 "x") (.integer 1 9))
    (.call 2 "show" [.var 2 "x", .call 2 "sqr" [.sign 2 (.var 2 "y")], .integer 2 7,
      .mul 2 .star (.var 2 "x") (.var 2 "y")])

/-- What its code is made to be. -/
def fourArgumentsOutcome : Outcome Unit := (fourArguments.lower true).run nestedBody

theorem lower_resumes_fourArguments :
    fourArgumentsOutcome.result = .ok () ∧
    fourArgumentsOutcome.state.pool.free = [.rdi, .rsi, .rcx] ∧
    fourArgumentsOutcome.state.pool.allocations = fourArgumentsOutcome.state.pool.frees ∧
    ∃ new, fourArgumentsOutcome.state.scopes =
      [⟨[⟨"x", 4, .argument⟩, ⟨"y", 8, .local⟩] ++ new⟩, .empty] := by
  have hfresh : nestedBody.pool.Fresh := ⟨.inr rfl, rfl⟩
  -- That the code can be made is computed, and the rest is the theorem.
  have hyields : (fourArguments.lower true).Yields nestedBody () fourArgumentsOutcome.state
      fourArgumentsOutcome.code := by
    rw [yields_iff]
    cbv
  obtain ⟨-, ⟨n, hpool⟩, -, ⟨new, -, hscopes⟩, -⟩ := lower_resumes hfresh rfl hyields
  refine ⟨congrArg Outcome.result hyields, ?_, ?_, new, hscopes⟩
  · rw [hpool]
    rfl
  · rw [hpool]
    rfl

end Stmt

end PascalAsm
