import PascalAsm.CommandLine.Run
import PascalAsm.Proofs.Generator.Programs
import PascalAsm.Proofs.RoundTrip.Programs

/-!
# What a run does and shows

Both commands begin alike: the input is read and compiled, and whatever goes wrong on the way ends the
run. `Command.generated` is this beginning. `Directory.run` goes on from its result: `check` only says
that there is one, and `compile` writes it to where its output path leads.

With a compiled program, a run shows all warnings in the order in which they were raised, and how many
there are. Without one it shows the error alone. The warnings that were raised before the error are in
the state that the code generator has reached by then, and nobody asks for that state.

* `Directory.run_of_failed`, `run_of_check` and `run_of_output` — the three ways that a run can take.
* **`Program.raised`** — the warnings that are raised, up to the end or to a failure.
* **`Directory.run_of_readable`** — what is shown of a tree that can be read.
* **`stderr_unfinishedProgram`** — a run that has raised a warning and does not show it.
-/

namespace PascalAsm

open Assembly Lowering Gen

/-! ## Compiled programs of commands -/

namespace CommandLine

namespace Command

/-- The path that the assembly is to be written to. If none is given, it is the path of the input
with another extension; `check` has none. -/
def outputPath? (c : Command) : Option String :=
  match c.action with
  | .compile output _ => some (output.getD (Path.withExtension c.input "s"))
  | .check => none

/-- The compiled program of the text of the input, if it could be read; or else the end of the run. -/
def generated (c : Command) : Option String → Except Exit Compiled
  | none => .error (.failure "" ("Failed to read " ++ c.input))
  | some text =>
    match Program.read? text with
    | none => .error (.failure "" ("Invalid syntax tree in " ++ c.input))
    | some program => (program.compile c.options).mapError fun e =>
        .failure (printed (CompileError.ofLowering c.source e).report)
          ("Compilation of " ++ c.input ++ " failed")

variable {c : Command} {text? : Option String} {exit : Exit} {result : Compiled}

/-- The answer of a command depends on its input by way of the compiled program only. So what
follows is about compiled programs, and no longer about texts. -/
theorem answer_eq (c : Command) (text? : Option String) : c.answer text? =
    match c.generated text? with
    | .error exit => .ends exit
    | .ok result => c.complete result := by
  -- No text, text that is no tree, and a tree: only the last is compiled.
  cases text? with
  | none => rfl
  | some text =>
    rw [answer, generated]
    cases Program.read? text with
    | none => rfl
    | some program =>
      dsimp only
      cases program.compile c.options <;> rfl

theorem generated_of_read {text : String} {p : Program} (h : Program.read? text = some p) :
    c.generated (some text) = (p.compile c.options).mapError fun e =>
      .failure (printed (CompileError.ofLowering c.source e).report)
        ("Compilation of " ++ c.input ++ " failed") := by
  rw [generated, h]

theorem generated_eq_ok_iff : c.generated text? = .ok result ↔ ∃ text p,
    text? = some text ∧ Program.read? text = some p ∧ p.compile c.options = .ok result := by
  cases text? with
  | none => simp [generated]
  | some text =>
    cases hread : Program.read? text with
    | none => simp [generated, hread]
    | some p => simp [generated_of_read hread, hread, mapError_eq_ok_iff]

/-- Without a compiled program, a run ends by an error. What is shown depends on why: no text, no
tree, or an error of the compilation. -/
theorem exists_failure_of_generated (h : c.generated text? = .error exit) :
    ∃ shown message, exit = .failure shown message := by
  cases text? with
  | none => exact ⟨_, _, (Except.error.inj h).symm⟩
  | some text =>
    cases hread : Program.read? text with
    | none =>
      rw [generated, hread] at h
      exact ⟨_, _, (Except.error.inj h).symm⟩
    | some p =>
      rw [generated_of_read hread] at h
      -- A program that is compiled contradicts `h`; every other outcome is a failure.
      cases hcompile : p.compile c.options with
      | error e =>
        rw [hcompile] at h
        exact ⟨_, _, (Except.error.inj h).symm⟩
      | ok result =>
        rw [hcompile] at h
        cases h

end Command

/-! ## Runs -/

namespace Directory

variable {d : Directory} {args : List String} {c : Command} {result : Compiled}

/-- Texts can be written to where the path leads. The path may lead to a file that is there already,
or to one that is not. -/
def Writable (d : Directory) (path : String) : Prop := ∀ text, (d.write? path text).isSome

/-- Without a compiled program, that is how a run ends. Nothing is written, whatever the command is.
-/
theorem run_of_failed {exit : Exit} (hargs : Command.ofArgs args = .ok c)
    (h : c.generated (d.read? c.input) = .error exit) : d.run args = (exit, d) := by
  rw [run, hargs]
  dsimp only
  rw [Command.answer_eq, h]

/-- With a compiled program, a run that is to write no assembly says that there is one. -/
theorem run_of_check (hargs : Command.ofArgs args = .ok c)
    (h : c.generated (d.read? c.input) = .ok result) (hpath : c.outputPath? = none) :
    d.run args =
      ({ stdout := c.input ++ ": " ++ toString result.unit.functions.length ++ " functions, ok\n"
         stderr := printed result.report }, d) := by
  -- Only a compilation names a path, so by `hpath` this is a check.
  obtain ⟨_ | _, input, registers, verbose⟩ := c
  · cases hpath
  · rw [run, hargs]
    dsimp only
    rw [Command.answer_eq, h]
    rfl

/-- With a compiled program, a run that is to write the assembly does so if it can. -/
theorem run_of_output {path : String} (hargs : Command.ofArgs args = .ok c)
    (h : c.generated (d.read? c.input) = .ok result) (hpath : c.outputPath? = some path) :
    d.run args =
      match d.write? path result.assembly with
      | some later => ({ stderr := printed result.report }, later)
      | none => (.unwritten { stderr := printed result.report } path, d) := by
  -- Only a compilation names a path, and `hpath` says which one.
  obtain ⟨_ | _, input, registers, verbose⟩ := c
  · obtain rfl := Option.some.inj hpath
    rw [run, hargs]
    dsimp only
    rw [Command.answer_eq, h]
    rfl
  · cases hpath

/-- A run with a compiled program succeeds and shows the warnings, unless the assembly cannot be
written. -/
theorem exit_of_writable (hargs : Command.ofArgs args = .ok c)
    (h : c.generated (d.read? c.input) = .ok result)
    (hwritable : ∀ path, c.outputPath? = some path → d.Writable path) :
    (d.run args).1.code = 0 ∧ (d.run args).1.stderr = printed result.report := by
  -- A check writes nothing; a compilation finds its path writable.
  cases hpath : c.outputPath? with
  | none =>
    rw [run_of_check hargs h hpath]
    exact ⟨rfl, rfl⟩
  | some path =>
    obtain ⟨later, hlater⟩ := Option.isSome_iff_exists.1 (hwritable path hpath result.assembly)
    rw [run_of_output hargs h hpath, hlater]
    exact ⟨rfl, rfl⟩

end Directory

end CommandLine

/-! ## Warnings that are raised -/

/-- A warning as a diagnostic about a source file. Its line is known for every warning. -/
def Lowering.Warning.diagnostic (source : String) (w : Warning) : Diagnostic :=
  ⟨.warning, w.coercion.message, .atLine source w.line⟩

/-- An error as a diagnostic about a source file; without a line, about line zero. Such an error is
about no place in the program. -/
def Lowering.LoweringError.diagnostic (source : String) (e : LoweringError) : Diagnostic :=
  ⟨.error, e.message, .atLine source (e.line?.getD 0)⟩

/-- The warnings that are raised until the routines of a program are completed, or one of them fails. -/
def Program.raised (p : Program) (options : Options) : List Warning :=
  match State.initial options.registers with
  | .ok start => (p.generate options.comments start).state.warnings
  | .error _ => []

theorem Program.report_of_compile {p : Program} {options : Options} {compiled : Compiled}
    (h : p.compile options = .ok compiled) :
    compiled.report = ⟨(p.raised options).map (·.diagnostic options.source)⟩ := by
  obtain ⟨start, s, code, hstart, hlower, -, -, -, hreport⟩ := compile_eq_ok_iff.1 h
  have hrun : p.generate options.comments start = ⟨.ok (), s, code⟩ := yields_iff.1 hlower
  rw [hreport, raised, hstart]
  dsimp only
  rw [hrun]
  rfl

namespace CommandLine

/-! ## Reports as they are printed -/

/-- Warnings are printed in order, and counted. Without any there is no summary either. -/
theorem printed_warnings (source : String) (ws : List Warning) :
    printed ⟨ws.map (·.diagnostic source)⟩ =
      if ws = [] then ""
      else unlines (ws.map (fun w => (w.diagnostic source).text) ++
        [Report.counted ws.length "warning"]) := by
  have herrors : (Report.mk (ws.map (·.diagnostic source))).errors = 0 := by
    rw [Report.errors, Report.count, List.countP_eq_zero]
    intro d hd
    obtain ⟨w, -, rfl⟩ := List.mem_map.1 hd
    exact Bool.false_ne_true
  have hwarnings : (Report.mk (ws.map (·.diagnostic source))).warnings = ws.length := by
    rw [Report.warnings, Report.count, List.countP_eq_length.2, List.length_map]
    intro d hd
    obtain ⟨w, -, rfl⟩ := List.mem_map.1 hd
    rfl
  rw [printed]
  by_cases hnone : ws = []
  · rw [if_pos hnone, if_pos (List.map_eq_nil_iff.2 hnone)]
  · rw [if_neg hnone, if_neg (mt List.map_eq_nil_iff.1 hnone), Report.summary, herrors, hwarnings,
      List.map_map]
    -- there is at least one warning, so they are counted
    cases hcount : ws.length with
    | zero => exact absurd (List.length_eq_zero_iff.1 hcount) hnone
    | succ n => rfl

/-- The report about an error holds nothing else. So warnings that were raised before it are not
among what is shown. -/
theorem printed_error (source : String) (e : LoweringError) :
    printed (CompileError.ofLowering source e).report =
      unlines [(e.diagnostic source).text, "1 error"] := by
  have hreport : (CompileError.ofLowering source e).report = ⟨[e.diagnostic source]⟩ := rfl
  have hsummary : (Report.mk [e.diagnostic source]).summary = Report.counted 1 "error" := rfl
  have hone : Report.counted 1 "error" = "1 error" := by decide
  rw [hreport, printed, if_neg (List.cons_ne_nil _ _), hsummary, hone]
  rfl

/-! ## What is shown -/

namespace Directory

variable {d : Directory} {args : List String} {c : Command} {text : String} {p : Program}

/-- **What is shown of a readable tree.** If its program is compiled, and the assembly can be written
where that is asked for, then the run succeeds and shows all warnings in the order in which they were
raised, and how many there are. If the program is not compiled, the run fails and changes no file; and
what it shows is the error as the only diagnostic, whatever warnings were raised before it. The log is
no part of this: a line of it is neither a diagnostic nor counted in the summary. -/
theorem run_of_readable (hargs : Command.ofArgs args = .ok c) (htext : d.read? c.input = some text)
    (hread : Program.read? text = some p) :
    (∀ compiled, p.compile c.options = .ok compiled →
      (∀ path, c.outputPath? = some path → d.Writable path) →
      (d.run args).1.code = 0 ∧ (d.run args).1.stderr =
        if p.raised c.options = [] then ""
        else unlines ((p.raised c.options).map (fun w => (w.diagnostic c.source).text) ++
          [Report.counted (p.raised c.options).length "warning"])) ∧
    ∀ e, p.compile c.options = .error e → d.run args =
      ({ code := 1
         stderr := unlines [(e.diagnostic c.source).text, "1 error"] ++
           failureLine ("Compilation of " ++ c.input ++ " failed") }, d) := by
  have hgenerated := Command.generated_of_read (c := c) hread
  rw [← htext] at hgenerated
  constructor
  · intro compiled hcompile hwritable
    have hreport : compiled.report = ⟨(p.raised c.options).map (·.diagnostic c.source)⟩ :=
      Program.report_of_compile hcompile
    rw [hcompile, mapError_ok] at hgenerated
    rw [← printed_warnings, ← hreport]
    exact exit_of_writable hargs hgenerated hwritable
  · intro e hcompile
    rw [hcompile, mapError_error, printed_error] at hgenerated
    exact run_of_failed hargs hgenerated

end Directory

/-! ## A real variable

A warning is raised where the variable is declared. It is shown if the body of the program is compiled,
and lost if it is not. -/

/-- A program that declares a real variable. The variable has a warning of its own, on the first
line. -/
def realProgram (body : Stmt) : Program where
  name := "reals"
  args := []
  declarations := [.vars 1 ["x"] .real]
  subprograms := []
  body := body
  line := 1

/-- The program that does nothing. -/
def idleProgram : Program := realProgram (.compound 2 [])

/-- The program that uses a variable that is not declared. -/
def unfinishedProgram : Program := realProgram (.assign 2 (.var 2 "x") (.var 2 "missing"))

/-- A directory that holds the tree of a program. -/
def treeDirectory (p : Program) : Directory := { files := [("in.json", p.render)] }

/-- The command that checks the tree. With the pool of three registers and without `-v`. -/
def checkCommand : Command := ⟨.check, "in.json", 3, false⟩

theorem ofArgs_checkCommand : Command.ofArgs ["check", "in.json"] = .ok checkCommand := by
  decide +kernel

theorem read?_treeDirectory (p : Program) :
    (treeDirectory p).read? checkCommand.input = some p.render := by rfl

/-- A program without reals that does not nest too deep is read from its text. There is nothing to
be asked of its numerals then. -/
theorem read?_render_of_depth {p : Program} (hreals : p.reals = [])
    (hdepth : p.toJson.depth ≤ 127) : Program.read? p.render = some p := by
  rw [Program.read?_render_eq (by simp [hreals])]
  exact if_pos hdepth

theorem source_checkCommand : checkCommand.source = "in.p" := by decide +kernel

theorem read?_idleProgram : Program.read? idleProgram.render = some idleProgram :=
  read?_render_of_depth rfl (by decide +kernel)

theorem exists_compile_idleProgram :
    ∃ compiled, idleProgram.compile checkCommand.options = .ok compiled :=
  exists_of_isOk (by decide +kernel)

/-- The warning is shown, and nothing else. -/
theorem stderr_idleProgram : ((treeDirectory idleProgram).run ["check", "in.json"]).1.stderr =
    "in.p:1: warning: REAL types not supported, treating as integer\n1 warning\n" := by
  obtain ⟨compiled, hcompile⟩ := exists_compile_idleProgram
  have hraised : idleProgram.raised checkCommand.options = [⟨.realVariable, 1⟩] := by
    decide +kernel
  obtain ⟨hshown, -⟩ := Directory.run_of_readable ofArgs_checkCommand
    (read?_treeDirectory idleProgram) read?_idleProgram
  have hstderr := (hshown compiled hcompile fun path hpath => nomatch hpath).2
  rw [hraised, source_checkCommand] at hstderr
  rw [hstderr]
  decide +kernel

/-- The same warning is raised here, and what is shown is the error only. -/
theorem stderr_unfinishedProgram :
    unfinishedProgram.raised checkCommand.options = [⟨.realVariable, 1⟩] ∧
      ((treeDirectory unfinishedProgram).run ["check", "in.json"]).1.stderr =
        "in.p:2: error: line 2: variable missing has no stack slot\n1 error\n" ++
          "Error: Compilation of in.json failed\n" := by
  have hread : Program.read? unfinishedProgram.render = some unfinishedProgram :=
    read?_render_of_depth rfl (by decide +kernel)
  have hcompile : unfinishedProgram.compile checkCommand.options =
    .error (.fault (.undefinedVariable "missing") (some 2)) := by rfl
  have hgenerated := Command.generated_of_read (c := checkCommand) hread
  rw [← read?_treeDirectory, hcompile, mapError_error, printed_error, source_checkCommand] at hgenerated
  rw [Directory.run_of_failed ofArgs_checkCommand hgenerated]
  decide +kernel

end CommandLine

end PascalAsm
