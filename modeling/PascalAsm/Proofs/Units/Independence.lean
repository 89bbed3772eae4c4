import PascalAsm.Proofs.Correctness.Programs
import PascalAsm.Proofs.Lockstep.Routines

/-!
# What code does not depend on

The code of a subprogram does not depend on what it is nested in: `Subprogram.lower_isolated`. Wherever
it is generated, it becomes the same functions, with its labels numbered on from those that were drawn
before.

Neither does the code of a program depend on a register that it could do without:
`Program.compile_larger_pool`.

Both are lockstep from a start that is chosen for the purpose.
-/

namespace PascalAsm

open Assembly Lowering Gen State

/-! ## What a subprogram is nested in -/

/-- Nothing is under way: all registers of a pool of some size are free, in their first order, and no
call is being made. -/
structure Lowering.State.Unoccupied (registers : Nat) (s : State) : Prop where
  size : ∃ p, Pool.ofSize registers = .ok p ∧ s.pool.members = p.members
  free : s.pool.free = s.pool.members
  callDepth : s.callDepth = 0

namespace Lowering.State.Unoccupied

variable {registers : Nat} {s t : State}

theorem members_cases (h : s.Unoccupied registers) :
    s.pool.members = [.rdi, .rsi] ∨ s.pool.members = [.rdi, .rsi, .rcx] := by
  obtain ⟨p, hp, hmembers⟩ := h.size
  rw [hmembers]
  obtain ⟨-, rfl⟩ | ⟨-, rfl⟩ := Pool.ofSize_eq_ok_iff.1 hp
  · exact .inl rfl
  · exact .inr rfl

theorem idle (h : s.Unoccupied registers) : s.pool.Idle :=
  ⟨h.members_cases, h.free ▸ .refl _⟩

theorem members_eq (hs : s.Unoccupied registers) (ht : t.Unoccupied registers) :
    t.pool.members = s.pool.members := by
  obtain ⟨p, hp, hs⟩ := hs.size
  obtain ⟨q, hq, ht⟩ := ht.size
  obtain rfl : p = q := Except.ok.inj (hp.symm.trans hq)
  rw [hs, ht]

end Lowering.State.Unoccupied

/-- **A subprogram is compiled in isolation.** Generated in two states in which nothing is under way,
whatever scopes and arrays are around it there, it gives the same warnings, draws equally many labels,
and becomes the same functions, but for the distance between the labels of the two states. If it
succeeds in the one state it succeeds in the other. -/
theorem Subprogram.lower_isolated {p : Subprogram} {comments : Bool} {registers : Nat}
    {s t s' : State} {c : List Inst} (hs : s.Unoccupied registers) (ht : t.Unoccupied registers)
    (h : (p.lower comments).Yields s () s' c) :
    ∃ t' fs gs ws n, (p.lower comments).Yields t () t' c ∧
      s'.finished = s.finished ++ fs ∧ t'.finished = t.finished ++ gs ∧
      List.Forall₂ (Function.Renumbered ((t.labels : Int) - s.labels)) fs gs ∧
      s'.warnings = s.warnings ++ ws ∧ t'.warnings = t.warnings ++ ws ∧
      s'.labels = s.labels + n ∧ t'.labels = t.labels + n := by
  let o : Pairing :=
    { first := s
      second := t
      own := s.pool.members
      extra := []
      registers := .inl ⟨rfl, hs.members_cases⟩ }
  -- at rest the two pools are the same, since there is only one of each size
  have hpool : s.pool.Paired o t.pool := by
    refine ⟨rfl, ?_, ?_, hs.idle.sound.nodup, hs.idle.sound.subset⟩
    · rw [hs.members_eq ht]
      exact (List.append_nil _).symm
    · rw [ht.free, hs.free, hs.members_eq ht]
      exact (List.append_nil _).symm
  have hstart : s.Lockstep o 0 t := .start hpool (ht.callDepth.trans hs.callDepth.symm)
  obtain ⟨_, t', d, hlower, -, hst', hd⟩ := p.repeats_lower hstart h
  obtain ⟨rfl, hcompleted⟩ := Subprogram.completed_of_lower hs.callDepth hs.idle h
  obtain rfl := List.forall₂_nil_left_iff.1 hd
  obtain ⟨fs, gs, hfs, hgs, hall⟩ := hst'.finished
  obtain ⟨ws, hws, hws'⟩ := hst'.warnings
  refine ⟨t', fs, gs, ws, s'.labels - s.labels, hlower, hfs, hgs, hall, hws, hws', ?_, ?_⟩
  · have hle := hcompleted.labels
    omega
  -- the labels of the two states keep their distance
  · have hle := hcompleted.labels
    have hlabels : (t'.labels : Int) = s'.labels + (t.labels - s.labels) := hst'.labels
    omega

/-- A state deep inside something else: around the present place there are a variable `n` and an array
`sum`, registers were taken and given back, and seven labels were drawn. -/
def elsewhere : State where
  scopes := [⟨[⟨"n", 4, .local⟩]⟩, .empty]
  arrays := [["sum"], []]
  pool := { Pool.ofRegs [.rdi, .rsi, .rcx] with allocations := 5, frees := 5 }
  labels := 7
  warnings := [⟨.arrayDropped "sum", 3⟩]

/-- What the function of sums is made to be at the start. It is evaluated, so that the example can
name the code. -/
def sumFunctionOutcome : Outcome Unit := (sumFunction.lower false).run sumStart

/-- The function of sums becomes the same there as at the start, with two labels numbered from seven. -/
theorem lower_isolated_sumFunction : sumStart.Unoccupied 3 ∧ elsewhere.Unoccupied 3 ∧
    (sumFunction.lower false).Yields sumStart () sumFunctionOutcome.state sumFunctionOutcome.code ∧
    ∃ t' fs gs ws n, (sumFunction.lower false).Yields elsewhere () t' sumFunctionOutcome.code ∧
      sumFunctionOutcome.state.finished = sumStart.finished ++ fs ∧
      t'.finished = elsewhere.finished ++ gs ∧
      List.Forall₂ (Function.Renumbered ((elsewhere.labels : Int) - sumStart.labels)) fs gs ∧
      sumFunctionOutcome.state.warnings = sumStart.warnings ++ ws ∧
      t'.warnings = elsewhere.warnings ++ ws ∧
      sumFunctionOutcome.state.labels = sumStart.labels + n ∧ t'.labels = elsewhere.labels + n := by
  -- Both states are unoccupied; they differ in scopes, labels, functions and warnings.
  have hstart : sumStart.Unoccupied 3 := ⟨⟨_, rfl, rfl⟩, rfl, rfl⟩
  have helsewhere : elsewhere.Unoccupied 3 := ⟨⟨_, rfl, rfl⟩, rfl, rfl⟩
  have hlower : (sumFunction.lower false).Yields sumStart () sumFunctionOutcome.state
      sumFunctionOutcome.code := by
    rw [yields_iff]
    cbv
  exact ⟨hstart, helsewhere, hlower, Subprogram.lower_isolated hstart helsewhere hlower⟩

/-! ## A register too many -/

/-- **A larger pool never changes accepted code.** A program that is compiled with two registers is
compiled with three, and to the same: the same functions with the same frames, the same text, and the
same warnings. -/
theorem Program.compile_larger_pool {p : Program} {options : Options} {compiled : Compiled}
    (h : p.compile { options with registers := 2 } = .ok compiled) :
    p.compile { options with registers := 3 } = .ok compiled := by
  obtain ⟨s, s', c, hs, hlower, -, hunit, htext, hreport⟩ := compile_eq_ok_iff.1 h
  obtain rfl : _ = s := Except.ok.inj hs
  let o : Pairing :=
    { first := { pool := .ofRegs [.rdi, .rsi] }
      second := { pool := .ofRegs [.rdi, .rsi, .rcx] }
      own := [.rdi, .rsi]
      extra := [.rcx]
      registers := .inr ⟨rfl, rfl⟩ }
  have hstart : o.first.Lockstep o 0 o.second :=
    .start ⟨rfl, rfl, rfl, by decide, List.Subset.refl _⟩ rfl
  obtain ⟨_, t', d, hlower', -, hst', -⟩ := p.repeats_lower hstart hlower
  obtain ⟨fs, gs, hfs, hgs, hall⟩ := hst'.finished
  obtain ⟨ws, hws, hws'⟩ := hst'.warnings
  -- both generations number their labels from zero, so nothing is renumbered
  have hsame : gs = fs :=
    (List.forall₂_eq_eq_eq ▸ hall.imp fun _ _ hf => hf.eq.symm : fs = gs).symm
  have hfinished : t'.finished = s'.finished := by
    rw [hgs, hsame, hfs]
  have hwarnings : t'.warnings = s'.warnings := by
    rw [hws', hws]
  have hinitial : State.initial 3 = .ok o.second := rfl
  refine compile_eq_ok_iff.2 ⟨o.second, t', d, hinitial, hlower', ?_, ?_, htext, ?_⟩
  · exact (completed_of_initial hinitial hlower').2
  · rw [hunit, hfinished]
  · rw [hreport, State.report, State.report, hwarnings]

/-- A program with a call of four arguments inside an expression: the fourth one travels in the register
that a pool of two does not have. -/
def weighingProgram : Program where
  name := "weighing"
  args := ["output"]
  declarations := [.vars 1 ["x"] .integer]
  subprograms :=
    [.mk (.function .integer) "weigh" [.vars 2 ["a", "b", "c", "d"] .integer] [] []
      (.assign 3 (.var 3 "weigh") (.add 3 .plus (.add 3 .minus
        (.mul 3 .star (.var 3 "a") (.var 3 "b")) (.var 3 "c")) (.var 3 "d"))) 2]
  body := .compound 4
    [.assign 5 (.var 5 "x") (.integer 5 7),
     .call 6 "write" [.add 6 .plus (.var 6 "x") (.call 6 "weigh"
      [.var 6 "x", .add 6 .plus (.var 6 "x") (.integer 6 1), .integer 6 2, .var 6 "x"])]]
  line := 1

/-- It is compiled with either pool, and to the same. -/
theorem compile_larger_pool_weighing : ∃ compiled,
    weighingProgram.compile { registers := 2 } = .ok compiled ∧
      weighingProgram.compile { registers := 3 } = .ok compiled := by
  let o := (weighingProgram.lower false).run { pool := .ofRegs [.rdi, .rsi] }
  have hlower : (weighingProgram.lower false).Yields { pool := .ofRegs [.rdi, .rsi] } () o.state
      o.code := by
    rw [yields_iff]
    cbv
  -- With two registers it is computed that the code can be made, with three it is the theorem.
  obtain ⟨compiled, hcompile⟩ : ∃ compiled,
      weighingProgram.compile { registers := 2 } = .ok compiled :=
    Program.exists_compile_iff.2 ⟨by decide, by decide, _, o.state, o.code, rfl, hlower⟩
  exact ⟨compiled, hcompile, @Program.compile_larger_pool weighingProgram {} compiled hcompile⟩

end PascalAsm
