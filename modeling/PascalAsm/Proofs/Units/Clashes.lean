import Mathlib
import PascalAsm.Proofs.Generator.Programs

/-!
# One function for each routine, and one symbol for each function

A unit gets one function for each routine of its program, in the order in which the routines come to
their end: what is nested in a routine before the routine itself, and the program last. All these
functions share one space of names, so it is only then that a clash can be seen.

* **`IsFirstClash`** — the first name of a list that is `main`, or that stands further to the front as
  well. `firstClash?` finds it.
* `Program.render_eq_error_iff` — with which error a unit cannot be written: for its first clash, and
  only if there is none, for its first frame that would leave the stack misaligned.
* `Program.functions_of_generate` — all this for a program whose routines are complete.
-/

namespace PascalAsm

open Assembly Lowering Gen State

namespace Assembly

/-! ## Clashes -/

/-- The name is `main` or stands further to the front as well, and no name before it is like that. -/
def IsFirstClash (names : List String) (name : String) : Prop :=
  ∃ front back, names = front ++ name :: back ∧ (name = "main" ∨ name ∈ front) ∧
    "main" ∉ front ∧ front.Nodup

/-- What was seen before counts as if it stood in front. Induction on the names, with what was seen
left open. -/
theorem clashAfter?_eq_some_iff {seen names : List String} {name : String} :
    clashAfter? seen names = some name ↔ ∃ front back, names = front ++ name :: back ∧
      (name = "main" ∨ name ∈ front ∨ name ∈ seen) ∧ clashAfter? seen front = none := by
  induction names generalizing seen with
  | nil => simp [clashAfter?]
  | cons first rest ih =>
    rw [clashAfter?]
    -- either the first name clashes, or it is one more that was seen
    by_cases hfirst : first = "main" ∨ first ∈ seen
    · rw [if_pos hfirst, Option.some.injEq]
      constructor
      · rintro rfl
        exact ⟨[], rest, rfl, hfirst.imp_right .inr, rfl⟩
      · rintro ⟨front, back, hnames, -, hnone⟩
        cases front with
        | nil => exact (List.cons.inj hnames).1
        | cons x front =>
          obtain ⟨rfl, -⟩ := List.cons.inj hnames
          rw [clashAfter?, if_pos hfirst] at hnone
          cases hnone
    · rw [if_neg hfirst, ih]
      constructor
      · rintro ⟨front, back, rfl, hclash, hnone⟩
        refine ⟨first :: front, back, rfl, ?_, by rwa [clashAfter?, if_neg hfirst]⟩
        simp only [List.mem_cons] at hclash ⊢
        tauto
      · rintro ⟨front, back, hnames, hclash, hnone⟩
        cases front with
        | nil =>
          obtain ⟨rfl, -⟩ := List.cons.inj hnames
          exact (hfirst (by simpa using hclash)).elim
        | cons x front =>
          obtain ⟨rfl, rfl⟩ := List.cons.inj hnames
          rw [clashAfter?, if_neg hfirst] at hnone
          refine ⟨front, back, rfl, ?_, hnone⟩
          simp only [List.mem_cons] at hclash ⊢
          tauto

/-- What is found is the first clash. It is the first name in the list that is `main` or was there
before, and all names before it are without a clash. -/
theorem firstClash?_eq_some_iff {names : List String} {name : String} :
    firstClash? names = some name ↔ IsFirstClash names name := by
  simp [firstClash?, clashAfter?_eq_some_iff, clashAfter?_eq_none_iff, IsFirstClash]

/-! ## Frames -/

theorem Function.render_eq_error_iff {f : Function} {e : EmitError} : f.render = .error e ↔
    f.frameSize % Convention.stackAlignment ≠ 0 ∧
      e = .convention (.misalignedFrame f.frameSize) := by
  rw [render, code, Frame.make]
  by_cases h : f.frameSize % Convention.stackAlignment = 0
  · simp [h, Except.map]
  · simp [h, Except.map, eq_comm]

/-- Two steps fail when the first one does, or else the second one with its result. With it a
failing compilation is taken apart into its steps. -/
theorem bind_eq_error_iff {ε α β : Type} {x : Except ε α} {f : α → Except ε β} {e : ε} :
    (x >>= f) = .error e ↔ x = .error e ∨ ∃ a, x = .ok a ∧ f a = .error e := by
  cases x with
  | error e' => simp [bind, Except.bind]
  | ok a => simp [bind, Except.bind]

/-- Functions are rendered one after another, up to the first one whose frame is out of line. -/
theorem mapM_render_eq_error_iff {fs : List Function} {e : EmitError} :
    fs.mapM Function.render = .error e ↔ ∃ front f back, fs = front ++ f :: back ∧
      (∀ g ∈ front, g.frameSize % Convention.stackAlignment = 0) ∧ f.render = .error e := by
  induction fs with
  | nil => simp [pure, Except.pure]
  | cons first rest ih =>
    -- the first function fails, or it is written and one of the others fails
    rw [List.mapM_cons, bind_eq_error_iff]
    simp only [bind_eq_error_iff, ih]
    constructor
    · rintro (hfirst | ⟨text, hfirst, ⟨front, f, back, rfl, haligned, hf⟩ | ⟨_, -, h⟩⟩)
      · exact ⟨[], first, rest, rfl, by simp, hfirst⟩
      · have hfirst := Function.exists_render_iff.1 ⟨text, hfirst⟩
        exact ⟨first :: front, f, back, rfl, List.forall_mem_cons.2 ⟨hfirst, haligned⟩, hf⟩
      · cases h
    · rintro ⟨front, f, back, hfs, haligned, hf⟩
      cases front with
      | nil =>
        obtain ⟨rfl, rfl⟩ := List.cons.inj hfs
        exact .inl hf
      | cons g front =>
        obtain ⟨rfl, rfl⟩ := List.cons.inj hfs
        obtain ⟨hfirst, haligned⟩ := List.forall_mem_cons.1 haligned
        obtain ⟨text, htext⟩ := Function.exists_render_iff.2 hfirst
        exact .inr ⟨text, htext, .inl ⟨front, f, back, rfl, haligned, hf⟩⟩

/-! ## Units -/

/-- A unit cannot be written because of its first clash; if there is none, because of the first frame
that would leave the stack misaligned. -/
theorem Program.render_eq_error_iff {unit : Program} {e : EmitError} : unit.render = .error e ↔
    (∃ name, IsFirstClash (unit.functions.map (·.name)) name ∧ e = .duplicateSymbol name) ∨
      "main" ∉ unit.functions.map (·.name) ∧ (unit.functions.map (·.name)).Nodup ∧
        ∃ front f back, unit.functions = front ++ f :: back ∧
          (∀ g ∈ front, g.frameSize % Convention.stackAlignment = 0) ∧
          f.frameSize % Convention.stackAlignment ≠ 0 ∧
          e = .convention (.misalignedFrame f.frameSize) := by
  rw [Program.render]
  cases hclash : firstClash? (unit.functions.map (·.name)) with
  | some name =>
    have hfirst := firstClash?_eq_some_iff.1 hclash
    constructor
    · intro h
      exact .inl ⟨name, hfirst, (Except.error.inj h).symm⟩
    · rintro (⟨other, hother, rfl⟩ | ⟨hmain, hnodup, -⟩)
      · -- there is only one first clash, since it is what is found
        obtain rfl := Option.some.inj (hclash.symm.trans (firstClash?_eq_some_iff.2 hother))
        rfl
      · cases hclash.symm.trans ((firstClash?_eq_none_iff _).2 ⟨hmain, hnodup⟩)
  | none =>
    obtain ⟨hmain, hnodup⟩ := (firstClash?_eq_none_iff _).1 hclash
    obtain ⟨wrapper, hwrapper⟩ := Function.exists_render_iff (f := mainWrapper unit.entry).2 rfl
    have hnone (name : String) : ¬ IsFirstClash (unit.functions.map (·.name)) name := by
      rw [← firstClash?_eq_some_iff, hclash]
      exact (Option.some_ne_none name).symm
    -- only the functions of the unit can fail, for the rest of the text is always there
    have hrest (texts : List String) : (do
        let wrapper ← (mainWrapper unit.entry).render
        return unlines (header unit.source) ++ String.join texts ++ wrapper ++ unlines footer) ≠
          .error e := by
      rw [hwrapper]
      intro h
      cases h
    simp only [bind_eq_error_iff (x := List.mapM _ _), mapM_render_eq_error_iff,
      Function.render_eq_error_iff, hrest, and_false, exists_false, or_false]
    constructor
    · intro hframe
      exact .inr ⟨hmain, hnodup, hframe⟩
    · rintro (⟨name, hname, -⟩ | ⟨-, -, hframe⟩)
      · exact (hnone name hname).elim
      · exact hframe

end Assembly

/-! ## Programs -/

namespace Program

variable {p : Program} {options : Options} {s s' : State} {c : List Inst}

/-- Once its routines are complete, all that can fail is that the unit is written. So its errors are
those of `render`, as errors of the generator. -/
theorem compile_eq_error_iff_render (hs : State.initial options.registers = .ok s)
    (hlower : (p.lower options.comments).Yields s () s' c) {e : LoweringError} :
    p.compile options = .error e ↔ ∃ e',
      Assembly.Program.render ⟨options.source, p.name, s'.finished⟩ = .error e' ∧ e = .emit e' := by
  obtain ⟨-, hdone⟩ := completed_of_initial hs hlower
  have hrun : (p.lower options.comments).run s = ⟨.ok (), s', c⟩ := yields_iff.1 hlower
  -- The first three steps succeed, by `hs`, `hrun` and `hdone`.
  simp only [compile, generate, bind_eq_error_iff, hs, reduceCtorEq, false_or, Except.ok.injEq,
    exists_eq_left', hrun, hdone]
  cases Assembly.Program.render ⟨options.source, p.name, s'.finished⟩ with
  | ok text => simp [mapError_ok, pure, Except.pure]
  | error e' => simp [mapError_error, eq_comm]

/-- A program with complete routines is not compiled because of the first clash of its functions.
Frames are always aligned, by `names_of_compiled`, so there is no other reason left. -/
theorem compile_eq_error_iff (hs : State.initial options.registers = .ok s)
    (hlower : (p.lower options.comments).Yields s () s' c) {e : LoweringError} :
    p.compile options = .error e ↔ ∃ name,
      IsFirstClash (s'.finished.map (·.name)) name ∧ e = .emit (.duplicateSymbol name) := by
  have haligned := (names_of_compiled (completed_of_initial hs hlower).1).2
  rw [compile_eq_error_iff_render hs hlower]
  constructor
  · rintro ⟨e', hrender, rfl⟩
    rcases Assembly.Program.render_eq_error_iff.1 hrender with
      ⟨name, hname, rfl⟩ | ⟨-, -, front, f, back, hunit, -, hbad, -⟩
    · exact ⟨name, hname, rfl⟩
    · -- every frame keeps the stack aligned
      have hf : f ∈ front ++ f :: back := List.mem_append_right _ List.mem_cons_self
      rw [← hunit] at hf
      exact absurd (haligned f hf) hbad
  · rintro ⟨name, hname, rfl⟩
    exact ⟨_, Assembly.Program.render_eq_error_iff.2 (.inl ⟨name, hname, rfl⟩), rfl⟩

/-- **One function for each routine, and each symbol once.** When all routines of a program are complete,
there is one function for each of them, in the order in which they come to their end. Then the program
is compiled exactly if no function is called `main` and no two have the same name, and otherwise it
fails for the first clash in that order. For any unit at all it is the same, but that frames matter
too: where there is no clash, the first frame that is out of line is what the error is about. -/
theorem functions_of_generate (hs : State.initial options.registers = .ok s)
    (hgenerate : (p.generate options.comments s).result = .ok ()) :
    let functions := (p.generate options.comments s).state.finished
    let names := p.routines.map (·.name)
    List.Forall₂ (fun r f => r.Compiled options.comments f) p.routines functions ∧
      functions.map (·.name) = names ∧
      ((∃ compiled, p.compile options = .ok compiled) ↔ "main" ∉ names ∧ names.Nodup) ∧
      (∀ e, p.compile options = .error e ↔
        ∃ name, IsFirstClash names name ∧ e = .emit (.duplicateSymbol name)) ∧
      ∀ unit : Assembly.Program,
        let symbols := unit.functions.map (·.name)
        ((∃ text, unit.render = .ok text) ↔ "main" ∉ symbols ∧ symbols.Nodup ∧
          ∀ f ∈ unit.functions, f.frameSize % Convention.stackAlignment = 0) ∧
        ∀ name, unit.render = .error (.duplicateSymbol name) ↔ IsFirstClash symbols name := by
  intro functions names
  have hlower : (p.lower options.comments).Yields s () (p.generate options.comments s).state
      (p.generate options.comments s).code := by
    rw [yields_iff, ← hgenerate]
    rfl
  obtain ⟨hcompiled, -⟩ := completed_of_initial hs hlower
  have hsame : functions.map (·.name) = names := (names_of_compiled hcompiled).1
  refine ⟨hcompiled, hsame, ?_, fun e => ?_, fun unit => ⟨Assembly.Program.exists_render_iff, ?_⟩⟩
  -- the routines are complete, so only the symbols are left to be looked at
  · rw [exists_compile_iff, ← and_assoc]
    exact and_iff_left ⟨s, _, _, hs, hlower⟩
  · rw [compile_eq_error_iff hs hlower, ← hsame]
  · intro name
    rw [Assembly.Program.render_eq_error_iff]
    simp

end Program

/-! ### Subprograms inside subprograms

Two procedures have the same name, one of them inside another procedure; and so have the program and
one more procedure. The first of these clashes to come up is that of the two procedures. -/

/-- A procedure that does nothing, around others. -/
def emptyProcedure (name : String) (subprograms : List Subprogram) : Subprogram :=
  .mk .procedure name [] [] subprograms (.compound 1 []) 1

/-- The program. -/
def nestedProgram : Program where
  name := "outer"
  args := []
  declarations := []
  subprograms :=
    [emptyProcedure "left" [emptyProcedure "inner" [emptyProcedure "deep" []], emptyProcedure "next" []],
     emptyProcedure "inner" [], emptyProcedure "outer" []]
  body := .compound 1 []
  line := 1

/-- Seven functions are made for it, and the compilation fails for the second `inner`. -/
theorem functions_nestedProgram :
    (nestedProgram.generate false { pool := .ofRegs [.rdi, .rsi, .rcx] }).state.finished.map (·.name) =
      ["deep", "inner", "next", "left", "inner", "outer", "outer"] ∧
    nestedProgram.compile {} = .error (.emit (.duplicateSymbol "inner")) := by
  have hinitial : State.initial ({} : Options).registers =
      .ok { pool := .ofRegs [.rdi, .rsi, .rcx] } := rfl
  have hgenerate : (nestedProgram.generate ({} : Options).comments
      { pool := .ofRegs [.rdi, .rsi, .rcx] }).result = .ok () := by cbv
  obtain ⟨-, hnames, -, hfails, -⟩ := Program.functions_of_generate hinitial hgenerate
  -- The second `inner` comes fifth, after four names that are different.
  refine ⟨hnames, (hfails _).2 ⟨"inner", ?_, rfl⟩⟩
  exact ⟨["deep", "inner", "next", "left"], ["outer", "outer"], rfl, by decide, by decide, by decide⟩

end PascalAsm
