import PascalAsm.Proofs.Units.Warnings

/-!
# What is compiled without a warning

Code is made for integers, and whoever gets no warning takes it that nothing else was asked for. That is
almost so: a program that is compiled without a diagnostic has no real variables and parameters, no
arrays, no real numbers and no divisions of reals, wherever these may stand. But the type of what a
function returns is never looked at. A function that is to return a real returns an integer, and nobody
is told.

* **`Routine.IsPlain`** — the declarations and the body of a routine are about integers only.
* **`Program.diagnostics_eq_nil_iff`** — nothing is reported just if all routines are like that, and the
  types of results have no part in it.
* **`compile_silentProgram`** — a program with a real result that is compiled without a diagnostic.
-/

namespace PascalAsm

open Lowering Gen State

/-! ## Integers only -/

/-- What is declared is neither real nor an array. Arrays count as well, since each of them is
dropped with a warning. -/
def Declaration.isPlain : Declaration → Bool
  | .vars _ _ type => type = .integer
  | .arrays _ names .. => names = []

/-- The node is neither a real number nor a division of reals. What its operands are is asked of
their own nodes. -/
def Expr.isPlain : Expr → Bool
  | .real .. | .mul _ .slash .. => false
  | _ => true

/-- A routine whose declarations and body are about integers only. The type of its result is not
part of it. -/
structure Routine.IsPlain (r : Routine) : Prop where
  params : ∀ d ∈ r.params, d.isPlain = true
  declarations : ∀ d ∈ r.declarations, d.isPlain = true
  nodes : ∀ e ∈ r.body.nodes, e.isPlain = true

/-- Whatever else would be said about its reals, a declaration of integers gives nothing to say. How
a real variable would be reported depends on where it is declared, `ofReal`. -/
theorem Declaration.coercions_eq_nil_iff {d : Declaration} {ofReal : Coercion} :
    d.coercions ofReal = [] ↔ d.isPlain = true := by
  cases d with
  | vars line names type => cases type <;> simp [coercions, isPlain]
  | arrays => simp [coercions, isPlain]

theorem Expr.coercion?_eq_none_iff {e : Expr} : e.coercion? = none ↔ e.isPlain = true := by
  cases e with
  | mul line op left right => cases op <;> simp [coercion?, isPlain]
  | _ => simp [coercion?, isPlain]

theorem Routine.coercions_eq_nil_iff {r : Routine} : r.coercions = [] ↔ r.IsPlain := by
  rw [coercions, List.append_eq_nil_iff, List.append_eq_nil_iff, List.flatMap_eq_nil_iff,
    List.flatMap_eq_nil_iff, Expr.coercionsOf, List.filterMap_eq_nil_iff]
  simp only [Declaration.coercions_eq_nil_iff, Expr.coercion?_eq_none_iff]
  exact ⟨fun ⟨hparams, hdeclarations, hnodes⟩ => ⟨hparams, hdeclarations, hnodes⟩,
    fun ⟨hparams, hdeclarations, hnodes⟩ => ⟨hparams, hdeclarations, hnodes⟩⟩

/-! ## Results of another type -/

/-- The kind with another type of result, if there is a result. Procedures are left as they are. -/
def SubprogramKind.retyped (type : VarType) : SubprogramKind → SubprogramKind
  | procedure => procedure
  | function _ => function type

namespace Subprogram

mutual

/-- The subprogram with another type for its result and for those of the functions nested in it. -/
def retyped (type : VarType) : Subprogram → Subprogram
  | mk kind name params declarations subprograms body line =>
    mk (kind.retyped type) name params declarations (retypedAll type subprograms) body line

/-- The subprograms with another type for all results. It goes into the nested subprograms as well.
-/
def retypedAll (type : VarType) : List Subprogram → List Subprogram
  | [] => []
  | s :: rest => s.retyped type :: retypedAll type rest

end

/-- The type of the result, if there is one. A procedure has none. -/
def resultType? : Subprogram → Option VarType
  | mk (.function type) .. => some type
  | mk .procedure .. => none

/-- What code is made from does not say of which type the result is. A routine keeps whether there
is a result, and nothing else about it. -/
theorem routine_retyped (type : VarType) (s : Subprogram) : (s.retyped type).routine = s.routine := by
  obtain ⟨kind, name, params, declarations, subprograms, body, line⟩ := s
  rw [retyped]
  cases kind <;> rfl

mutual

theorem lower_retyped (comments : Bool) (type : VarType) :
    ∀ s : Subprogram, (s.retyped type).lower comments = s.lower comments
  | .mk kind name params declarations subprograms body line => by
    have hroutine := routine_retyped type (.mk kind name params declarations subprograms body line)
    rw [retyped] at hroutine ⊢
    rw [lower, lower, hroutine, lowerAll_retypedAll comments type subprograms]

theorem lowerAll_retypedAll (comments : Bool) (type : VarType) :
    ∀ ss : List Subprogram, lowerAll comments (retypedAll type ss) = lowerAll comments ss
  | [] => by rw [retypedAll]
  | s :: rest => by
    rw [retypedAll, lowerAll, lowerAll, lower_retyped comments type s,
      lowerAll_retypedAll comments type rest]

end

end Subprogram

namespace Program

variable {p : Program} {options : Options} {compiled : Compiled}

/-- The program with another type for the results of all its functions. All else is the same, the
types of variables included. -/
def retyped (type : VarType) (p : Program) : Program :=
  { p with subprograms := Subprogram.retypedAll type p.subprograms }

/-- Whatever types the results of its functions have, a program is compiled to the same, or not
compiled for the same reason. -/
theorem compile_retyped (type : VarType) (p : Program) (options : Options) :
    (p.retyped type).compile options = p.compile options := by
  have hlower : (p.retyped type).lower options.comments = p.lower options.comments := by
    rw [lower, lower]
    exact congrArg _ (Subprogram.lowerAll_retypedAll options.comments type p.subprograms)
  simp only [compile, generate, hlower]
  rfl

/-! ## No diagnostics -/

/-- Nothing is reported if there is nothing to be coerced. Diagnostics are the coercions in another
order, and an empty list has one order. -/
theorem diagnostics_eq_nil_iff_coercions (h : p.compile options = .ok compiled) :
    compiled.report.diagnostics = [] ↔ p.coercions = [] := by
  obtain ⟨s, s', _, hs, hlower, -, -, -, hreport⟩ := compile_eq_ok_iff.1 h
  have hstart : s.warnings = [] := by
    rcases State.initial_eq_ok_iff.1 hs with ⟨-, rfl⟩ | ⟨-, rfl⟩ <;> rfl
  have hgiven : s'.warnings.Perm p.coercions := by
    simpa [hstart] using p.lower_warns options.comments hlower
  rw [hreport, State.report, List.map_eq_nil_iff]
  exact ⟨fun hnone => (hnone ▸ hgiven).nil_eq.symm, fun hnone => (hnone ▸ hgiven).eq_nil⟩

/-- **What is compiled without a diagnostic.** If a program is compiled, then nothing is reported just
if all its routines, nested ones included, are about integers only. The types of the results of
functions are no part of this: with any other types for them the program is compiled to the same unit
and with the same report. -/
theorem diagnostics_eq_nil_iff (h : p.compile options = .ok compiled) :
    (compiled.report.diagnostics = [] ↔ ∀ r ∈ p.routines, r.IsPlain) ∧
      ∀ type, (p.retyped type).compile options = .ok compiled := by
  refine ⟨?_, fun type => (compile_retyped type p options).trans h⟩
  rw [diagnostics_eq_nil_iff_coercions h, coercions, List.flatMap_eq_nil_iff]
  simp only [Routine.coercions_eq_nil_iff]

end Program

/-! ## A real result -/

/-- A program with a function that takes nothing, and whose result of type real is two thirds. -/
def silentProgram : Program where
  name := "silent"
  args := ["output"]
  declarations := []
  subprograms := [.mk (.function .real) "third" [] [] []
    (.assign 2 (.var 2 "third") (.mul 2 .div (.integer 2 2) (.integer 2 3))) 1]
  body := .compound 3 [.call 3 "write" [.call 3 "third" []]]
  line := 1

theorem isOk_compile_silentProgram : (silentProgram.compile {}).isOk = true := by
  decide +kernel

theorem diagnostics_silentProgram :
    ∃ compiled, silentProgram.compile {} = .ok compiled ∧ compiled.report.diagnostics = [] := by
  obtain ⟨compiled, hcompile⟩ := exists_of_isOk isOk_compile_silentProgram
  exact ⟨compiled, hcompile, (Program.diagnostics_eq_nil_iff_coercions hcompile).2 rfl⟩

/-- It is compiled like the program whose function returns an integer. -/
theorem retyped_silentProgram : ∃ compiled, silentProgram.compile {} = .ok compiled ∧
    (∀ r ∈ silentProgram.routines, r.IsPlain) ∧
      (silentProgram.retyped .integer).compile {} = .ok compiled := by
  obtain ⟨compiled, hcompile, hnone⟩ := diagnostics_silentProgram
  obtain ⟨hplain, hretyped⟩ := Program.diagnostics_eq_nil_iff hcompile
  exact ⟨compiled, hcompile, hplain.1 hnone, hretyped .integer⟩

/-- Without a diagnostic it is compiled, though it has a real type. -/
theorem compile_silentProgram : ∃ compiled, silentProgram.compile {} = .ok compiled ∧
    compiled.report.diagnostics = [] ∧
      ∃ f ∈ silentProgram.subprograms, f.resultType? = some .real := by
  obtain ⟨compiled, hcompile, hnone⟩ := diagnostics_silentProgram
  exact ⟨compiled, hcompile, hnone, _, List.mem_cons_self, rfl⟩

end PascalAsm
