import Mathlib
import PascalAsm.Proofs.Acceptance.Statements
import PascalAsm.Proofs.Generator.Programs

/-!
# Which programs are compiled

A program is compiled exactly if it is `Program.Supported`: `Program.exists_compile_iff_supported`.
That can be read off the program, so neither the frames nor the registers ever refuse a program that
looks right, and nothing that looks wrong is let through.

A syntax tree may use a name that begins with a dollar sign, as no source text can. Such a name may
be the name of a temporary, and then it is taken for a variable where the temporary was laid out
before (`compiled_borrowing`).
-/

namespace PascalAsm

open Assembly Lowering Gen State

/-! ## Routines -/

namespace Lowering.State

/-- No call is under way, and all registers of the pool are free. Routines start and end with such
states, whatever is in the enclosing scopes. -/
structure Quiet (regs : List Reg) (s : State) : Prop where
  callDepth : s.callDepth = 0
  idle : s.pool.Idle
  members : s.pool.members = regs

theorem Quiet.completed {regs : List Reg} {comments : Bool} {rs : List Routine} {s s' : State}
    (hs : s.Quiet regs) (h : s.Completed comments rs s') : s'.Quiet regs where
  callDepth := h.callDepth.trans hs.callDepth
  idle := hs.idle.even h.pool
  members := by
    obtain ⟨free, n, -, hpool⟩ := h.pool
    rw [hpool]
    exact hs.members

end Lowering.State

namespace Routine

variable {r : Routine} {regs : List Reg} {comments : Bool} {nested : Gen Unit} {Q : Prop}

theorem names_entry (r : Routine) : r.entry.slots.map (·.name) = r.varNames := by
  rw [entry, Scope.names_laidOut, Scope.names_laidOut]
  rfl

/-- A body is made with the variables of the routine in scope, and nothing else. It is the point at
which what is shown of statements applies to a routine. -/
theorem ready_of_entry {s : State} {outer : Scopes} (hs : s.Quiet regs)
    (hscopes : s.scopes = r.entry :: outer) : s.Ready r.varNames regs := by
  refine ⟨s.pool.free, hs.members ▸ hs.idle.perm, ?_⟩
  rw [← names_entry, ← hs.members]
  exact within_names hscopes

/-- A routine can be completed exactly if it is supported, and so is what is nested in it. -/
theorem accepts_lower {rs : List Routine} (hregs : regs.Nodup) (htwo : 2 ≤ regs.length)
    (hcompleted : ∀ {s s' : State} {c : List Inst}, s.callDepth = 0 → s.pool.Idle →
      nested.Yields s () s' c → c = [] ∧ s.Completed comments rs s')
    (hnested : Accepts (Quiet regs) nested Q fun _ => Quiet regs)
    (hnames : Apart r.varNames r.body.identifiers) :
    Accepts (Quiet regs) (r.lower comments nested) (Q ∧ r.Supported regs.length)
      fun _ => Quiet regs := by
  have hbody : Accepts (Ready r.varNames regs) (r.body.lower comments)
      (r.body.Supported r.varNames regs.length) fun _ => Ready r.varNames regs :=
    Stmt.accepts_lower hregs htwo hnames
  have hentered {s : State} (hs : s.Quiet regs) : (r.entered s).Quiet regs :=
    ⟨hs.callDepth, hs.idle, hs.members⟩
  -- what is nested in the routine leaves its scope as it was
  have hready {s s₁ : State} {c : List Inst} (hs : s.Quiet regs)
      (h : nested.Yields (r.entered s) () s₁ c) : s₁.Ready r.varNames regs := by
    obtain ⟨-, hdone⟩ := hcompleted (hentered hs).callDepth (hentered hs).idle h
    exact ready_of_entry ((hentered hs).completed hdone) hdone.scopes
  refine ⟨fun {s} hs => ?_, fun {s _ s' c} hs h => ?_⟩
  · constructor
    · rintro ⟨_, s', c, h⟩
      obtain ⟨hsized, s₁, s₂, c₁, c₂, -, -, hn, hb, -⟩ := yields_lower.1 h
      have hQ := (hnested.yields_iff (hentered hs)).1 ⟨(), s₁, c₁, hn⟩
      exact ⟨hQ, hsized, (hbody.yields_iff (hready hs hn)).1 ⟨(), s₂, c₂, hb⟩⟩
    · rintro ⟨hQ, hsized, hsupported⟩
      obtain ⟨_, s₁, c₁, hn⟩ := (hnested.yields_iff (hentered hs)).2 hQ
      obtain ⟨_, s₂, c₂, hb⟩ := (hbody.yields_iff (hready hs hn)).2 hsupported
      obtain ⟨_, -, hs₂⟩ := hbody.after (hready hs hn) hb
      obtain ⟨scope, outer, hscopes⟩ := List.exists_cons_of_ne_nil hs₂.isOpen
      exact ⟨(), _, _, yields_lower.2
        ⟨hsized, s₁, s₂, c₁, c₂, scope, outer, hn, hb, hscopes, rfl, rfl⟩⟩
  · obtain ⟨-, hdone⟩ := completed_of_lower hcompleted hs.callDepth hs.idle h
    exact hs.completed hdone

end Routine

/-! ## Programs -/

section

variable {regs : List Reg} {comments : Bool}

mutual

/-- A subprogram can be completed exactly if it is supported, and so is what is nested in it. -/
theorem Subprogram.accepts_lower (hregs : regs.Nodup) (htwo : 2 ≤ regs.length) :
    ∀ {p : Subprogram}, (∀ r ∈ p.routines, Apart r.varNames r.body.identifiers) →
      Accepts (Quiet regs) (p.lower comments) (∀ r ∈ p.routines, r.Supported regs.length)
        fun _ => Quiet regs
  | .mk _ _ _ _ subprograms _ _, hnames => by
    rw [Subprogram.routines] at hnames ⊢
    rw [List.forall_mem_append, List.forall_mem_singleton] at hnames ⊢
    rw [Subprogram.lower]
    exact Routine.accepts_lower hregs htwo Subprogram.completed_of_lowerAll
      (Subprogram.accepts_lowerAll hregs htwo hnames.1) hnames.2

theorem Subprogram.accepts_lowerAll (hregs : regs.Nodup) (htwo : 2 ≤ regs.length) :
    ∀ {ps : List Subprogram},
      (∀ r ∈ Subprogram.routinesAll ps, Apart r.varNames r.body.identifiers) →
      Accepts (Quiet regs) (Subprogram.lowerAll comments ps)
        (∀ r ∈ Subprogram.routinesAll ps, r.Supported regs.length) fun _ => Quiet regs
  | [], _ => by
    rw [Subprogram.lowerAll]
    exact Accepts.congr (accepts_pure fun _ hs => hs) (iff_of_true trivial (List.forall_mem_nil _))
  | p :: rest, hnames => by
    rw [Subprogram.routinesAll, List.forall_mem_append] at hnames ⊢
    rw [Subprogram.lowerAll]
    -- Quiet before and quiet after, so that the conditions do not depend on the order.
    exact (Subprogram.accepts_lower hregs htwo hnames.1).bind fun _ =>
      Subprogram.accepts_lowerAll hregs htwo hnames.2

end

theorem Program.accepts_lower (hregs : regs.Nodup) (htwo : 2 ≤ regs.length) {p : Program}
    (hnames : ∀ r ∈ p.routines, Apart r.varNames r.body.identifiers) :
    Accepts (Quiet regs) (p.lower comments) (∀ r ∈ p.routines, r.Supported regs.length)
      fun _ => Quiet regs := by
  rw [Program.routines, List.forall_mem_append, List.forall_mem_singleton] at hnames ⊢
  exact Routine.accepts_lower hregs htwo Subprogram.completed_of_lowerAll
    (Subprogram.accepts_lowerAll hregs htwo hnames.1) hnames.2

end

namespace Program

variable {p : Program} {options : Options}

/-- The pools that there are hold two registers or three. With any other number of registers there
is no state to start from. -/
theorem exists_initial_lower_iff (hnames : ∀ r ∈ p.routines, Apart r.varNames r.body.identifiers)
    {registers : Nat} {comments : Bool} :
    (∃ s s' c, State.initial registers = .ok s ∧ (p.lower comments).Yields s () s' c) ↔
      (registers = 2 ∨ registers = 3) ∧ ∀ r ∈ p.routines, r.Supported registers := by
  -- the two pools differ only in the third register, so they are looked at together
  have hpool {regs : List Reg} (hregs : regs = [.rdi, .rsi] ∨ regs = [.rdi, .rsi, .rcx]) :
      (∃ u s' c, (p.lower comments).Yields { pool := .ofRegs regs } u s' c) ↔
        ∀ r ∈ p.routines, r.Supported regs.length := by
    have hnodup : regs.Nodup := by rcases hregs with rfl | rfl <;> decide
    have htwo : 2 ≤ regs.length := by rcases hregs with rfl | rfl <;> decide
    have hquiet : ({ pool := .ofRegs regs } : State).Quiet regs := ⟨rfl, ⟨hregs, .refl _⟩, rfl⟩
    exact (Program.accepts_lower hnodup htwo hnames).yields_iff hquiet
  have htwo := hpool (.inl rfl)
  have hthree := hpool (.inr rfl)
  constructor
  · rintro ⟨s, s', c, hs, h⟩
    rcases State.initial_eq_ok_iff.1 hs with ⟨rfl, rfl⟩ | ⟨rfl, rfl⟩
    · exact ⟨.inl rfl, htwo.1 ⟨(), s', c, h⟩⟩
    · exact ⟨.inr rfl, hthree.1 ⟨(), s', c, h⟩⟩
  · rintro ⟨rfl | rfl, hsupported⟩
    · obtain ⟨_, s', c, h⟩ := htwo.2 hsupported
      exact ⟨_, s', c, State.initial_eq_ok_iff.2 (.inl ⟨rfl, rfl⟩), h⟩
    · obtain ⟨_, s', c, h⟩ := hthree.2 hsupported
      exact ⟨_, s', c, State.initial_eq_ok_iff.2 (.inr ⟨rfl, rfl⟩), h⟩

/-- **A program is compiled exactly if it is supported**, unless some routine uses the name of a
temporary that it does not declare. -/
theorem exists_compile_iff_supported
    (hnames : ∀ r ∈ p.routines, Apart r.varNames r.body.identifiers) :
    (∃ compiled, p.compile options = .ok compiled) ↔ p.Supported options.registers := by
  rw [exists_compile_iff, exists_initial_lower_iff hnames]
  constructor
  · rintro ⟨hmain, hnodup, hregisters, hroutines⟩
    exact ⟨hregisters, hmain, hnodup, hroutines⟩
  · rintro ⟨hregisters, hmain, hnodup, hroutines⟩
    exact ⟨hmain, hnodup, hregisters, hroutines⟩

end Program

/-! ### Too few registers -/

/-- A program with a sum that takes three registers. -/
def foursomeProgram : Program where
  name := "foursome"
  args := ["output"]
  declarations := [.vars 1 ["a", "b", "c", "d"] .integer]
  subprograms := []
  body := .assign 2 (.var 2 "a") (.add 2 .plus (.add 2 .plus (.var 2 "a") (.var 2 "b"))
    (.add 2 .plus (.var 2 "c") (.var 2 "d")))
  line := 1

theorem apart_foursome :
    ∀ r ∈ foursomeProgram.routines, Apart r.varNames r.body.identifiers := by
  intro r hr
  obtain rfl := List.mem_singleton.1 hr
  exact .of_not_dollar (by decide)

/-- The program is compiled with three registers, and is not with two. -/
theorem compiled_foursome :
    (∃ compiled, foursomeProgram.compile { registers := 3 } = .ok compiled) ∧
      ¬ ∃ compiled, foursomeProgram.compile { registers := 2 } = .ok compiled :=
  ⟨(Program.exists_compile_iff_supported apart_foursome).2 (by decide),
    mt (Program.exists_compile_iff_supported apart_foursome).1 (by decide)⟩

/-! ### A borrowed name -/

/-- A program that divides by a constant and then uses the temporary which keeps it. -/
def borrowingProgram : Program where
  name := "borrowing"
  args := ["output"]
  declarations := [.vars 1 ["x"] .integer]
  subprograms := []
  body := .compound 2
    [.assign 2 (.var 2 "x") (.mul 2 .div (.integer 2 10) (.integer 2 2)),
     .assign 3 (.var 3 "x") (.var 3 "$div_const")]
  line := 1

/-- What its code is made to be. -/
def borrowingOutcome : Outcome Unit :=
  (borrowingProgram.lower false).run { pool := .ofRegs [.rdi, .rsi, .rcx] }

theorem yields_borrowing : (borrowingProgram.lower false).Yields
    { pool := .ofRegs [.rdi, .rsi, .rcx] } () borrowingOutcome.state borrowingOutcome.code := by
  rw [yields_iff]
  cbv

/-- The program is compiled, although it uses a variable that it does not declare. -/
theorem compiled_borrowing : (∃ compiled, borrowingProgram.compile {} = .ok compiled) ∧
    ¬ borrowingProgram.Supported 3 :=
  ⟨Program.exists_compile_iff.2
    ⟨by decide, by decide, _, borrowingOutcome.state, borrowingOutcome.code, rfl, yields_borrowing⟩,
    by decide⟩

end PascalAsm
