import PascalAsm.Proofs.CommandLine.Runs
import PascalAsm.Proofs.Units.Comments

/-!
# All or nothing

A run changes files by one write at its end, and only if nothing has gone wrong before. What can go
wrong before, and what is said about it, is the same for both commands, although one of them may ask for
comments: comments have no part in whether a program is compiled, in its warnings, or in its error.

* `Program.map_report_congr` — the report or the error of a compilation does not depend on comments.
* `Command.map_report_generated` — so neither does what a command makes of its input.
* **`Directory.Written`** — what a directory holds after a write.
* **`Directory.run_atomic`** — what a run leaves behind, and that `check` tells how `compile` ends.
-/

namespace PascalAsm

open Assembly Lowering Gen

/-! ## Reports of compilations -/

/-- What is reported about an outcome of the code generator, if nothing fails. Of the unit all that
counts is that it can be written. -/
def Lowering.Outcome.reported (o : Outcome Unit) (source entry : String) :
    Except LoweringError Report := do
  o.result
  o.state.checkDone
  ((Assembly.Program.render ⟨source, entry, o.state.finished⟩).map fun _ => ()).mapError .emit
  return o.state.report source

/-- Comments have no part in it. Errors and warnings are the same, and the unit can be written with
comments if it can be without them. -/
theorem Lowering.Outcome.reported_uncommented (o : Outcome Unit) (source entry : String) :
    o.uncommented.reported source entry = o.reported source entry := by
  have hrender := Assembly.Program.render_uncommented ⟨source, entry, o.state.finished⟩
  have hfinished : o.uncommented.state.finished = o.state.finished.map Function.uncommented := rfl
  rw [Assembly.Program.uncommented] at hrender
  rw [reported, reported, hfinished, hrender]
  rfl

namespace Program

/-- The report of a compilation, by what the code generator makes of the program. The text of the
unit is not looked at, only whether there is one. -/
theorem map_report_compile {p : Program} {options : Options} {start : State}
    (hstart : State.initial options.registers = .ok start) : (p.compile options).map (·.report) =
      (p.generate options.comments start).reported options.source p.name := by
  rw [compile, hstart]
  simp only [bind, Except.bind]
  generalize p.generate options.comments start = o
  rw [Outcome.reported]
  -- Each step that can fail is a case, and in each both sides come to the same.
  cases o.result with
  | error e => rfl
  | ok _ =>
    cases o.state.checkDone with
    | error e => rfl
    | ok _ =>
      dsimp only
      cases Assembly.Program.render _ with
      | error e => rfl
      | ok text => rfl

/-- With as many registers, the same is reported about a source file, whether or not there are
comments. -/
theorem map_report_congr (p : Program) {options options' : Options}
    (hregisters : options'.registers = options.registers) (hsource : options'.source = options.source) :
    (p.compile options').map (·.report) = (p.compile options).map (·.report) := by
  cases hstart : State.initial options.registers with
  | error e => rw [compile, compile, hregisters, hstart]; rfl
  | ok start =>
    rw [map_report_compile hstart, map_report_compile (hregisters ▸ hstart), hsource]
    -- nothing is finished at the start, so there are no comments to be taken out
    have huncommented : start.uncommented = start := by
      rcases State.initial_eq_ok_iff.1 hstart with ⟨-, rfl⟩ | ⟨-, rfl⟩ <;> rfl
    have hreported (comments : Bool) : (p.generate comments start).reported options.source p.name =
        (p.generate false start).reported options.source p.name := by
      cases comments with
      | false => rfl
      | true =>
        have hgenerate : (p.generate true start).uncommented = p.generate false start := by
          rw [generate, generate, ← p.erases_lower start, huncommented]
        rw [← hgenerate, Outcome.reported_uncommented]
    exact (hreported _).trans (hreported _).symm

end Program

namespace CommandLine

/-! ## Commands that agree -/

theorem map_mapError {ε δ α β : Type} {x : Except ε α} {f : α → β} {g : ε → δ} :
    (x.mapError g).map f = (x.map f).mapError g := by
  cases x <;> rfl

/-- Commands with the same input and as many registers come to a compiled program together, with the
same report; or they end in the same way. -/
theorem Command.map_report_generated {c c' : Command} (hinput : c'.input = c.input)
    (hregisters : c'.registers = c.registers) (text? : Option String) :
    (c'.generated text?).map (·.report) = (c.generated text?).map (·.report) := by
  have hsource : c'.source = c.source := by rw [source, source, hinput]
  cases text? with
  | none => rw [generated, generated, hinput]
  | some text =>
    cases hread : Program.read? text with
    | none => rw [generated, generated, hread, hinput]
    | some p =>
      -- Comments and the place for the output have no part in the report: `map_report_congr`.
      have hreport : (p.compile c'.options).map (·.report) = (p.compile c.options).map (·.report) :=
        p.map_report_congr hregisters hsource
      rw [generated_of_read hread, generated_of_read hread, map_mapError, map_mapError, hreport,
        hinput, hsource]

namespace Directory

variable {d : Directory} {args args' : List String} {c c' : Command}

/-- If what is to be written can be written, the report decides with which code a run ends, and what it
shows on the error stream. -/
theorem code_stderr_eq (hargs : Command.ofArgs args = .ok c)
    (hwritable : ∀ path, c.outputPath? = some path → d.Writable path) :
    ((d.run args).1.code, (d.run args).1.stderr) =
      match (c.generated (d.read? c.input)).map (·.report) with
      | .error exit => (exit.code, exit.stderr)
      | .ok report => (0, printed report) := by
  cases hgenerated : c.generated (d.read? c.input) with
  | error exit => rw [run_of_failed hargs hgenerated]; rfl
  | ok result =>
    -- With `hwritable` a compiled program ends in success, whatever else was asked for.
    obtain ⟨hcode, hstderr⟩ := exit_of_writable hargs hgenerated hwritable
    rw [hcode, hstderr]
    rfl

/-- So runs of commands that agree end with the same code and show the same there. What they write
to the output stream may be different. -/
theorem exit_agrees (hargs : Command.ofArgs args = .ok c) (hargs' : Command.ofArgs args' = .ok c')
    (hinput : c'.input = c.input) (hregisters : c'.registers = c.registers)
    (hwritable : ∀ path, c.outputPath? = some path → d.Writable path)
    (hwritable' : ∀ path, c'.outputPath? = some path → d.Writable path) :
    (d.run args').1.code = (d.run args).1.code ∧ (d.run args').1.stderr = (d.run args).1.stderr := by
  have hshown' := code_stderr_eq hargs' hwritable'
  rw [hinput, Command.map_report_generated hinput hregisters,
    ← code_stderr_eq hargs hwritable] at hshown'
  exact Prod.mk.inj hshown'

/-! ## What is written -/

/-- The later directory holds the text where the path leads, and what this one holds everywhere else.
The null device keeps nothing. -/
def Written (d : Directory) (path text : String) (later : Directory) : Prop :=
  match d.resolve path with
  | some (.file name) => ∀ other, later.find? other = if other = name then some text else d.find? other
  | some .null => later = d
  | none => False

theorem written_of_write? {path text : String} {later : Directory}
    (h : d.write? path text = some later) : d.Written path text later := by
  unfold write? at h
  unfold Written
  cases hplace : d.resolve path with
  | none =>
    rw [hplace] at h
    cases h
  | some place =>
    cases place with
    | file name =>
      rw [hplace] at h
      dsimp only at h ⊢
      -- the name may be too long
      split at h
      · obtain rfl := Option.some.inj h
        exact d.find?_put name text
      · cases h
    | null =>
      rw [hplace] at h
      exact (Option.some.inj h).symm

theorem writable_of_resolve {path name : String} (hplace : d.resolve path = some (.file name))
    (hname : name.utf8ByteSize ≤ maxNameLength) : d.Writable path := by
  intro text
  rw [write?, hplace]
  dsimp only
  rw [if_pos hname]
  rfl

/-- A run that fails changes no file, and neither does one that has no output path. Writing is the
last step, and a write that fails gives back no directory. -/
theorem run_snd_eq (hargs : Command.ofArgs args = .ok c)
    (h : (d.run args).1.code ≠ 0 ∨ c.outputPath? = none) : (d.run args).2 = d := by
  cases hgenerated : c.generated (d.read? c.input) with
  | error exit => rw [run_of_failed hargs hgenerated]
  | ok result =>
    cases hpath : c.outputPath? with
    | none => rw [run_of_check hargs hgenerated hpath]
    -- with an output path the run has failed, and then nothing was written
    | some path =>
      have hrun := run_of_output hargs hgenerated hpath
      cases hwrite : d.write? path result.assembly with
      | none =>
        rw [hwrite] at hrun
        rw [hrun]
      | some later =>
        rw [hwrite] at hrun
        rw [hrun, hpath] at h
        simp at h

/-- A run with an output path that succeeds has written the assembly of its input there. By
`Written` there is nothing else that has changed. -/
theorem written_of_code {path : String} (hargs : Command.ofArgs args = .ok c)
    (hpath : c.outputPath? = some path) (hcode : (d.run args).1.code = 0) :
    ∃ text p compiled, d.read? c.input = some text ∧ Program.read? text = some p ∧
      p.compile c.options = .ok compiled ∧ d.Written path compiled.assembly (d.run args).2 := by
  cases hgenerated : c.generated (d.read? c.input) with
  | error exit =>
    obtain ⟨shown, message, rfl⟩ := Command.exists_failure_of_generated hgenerated
    rw [run_of_failed hargs hgenerated] at hcode
    cases hcode
  | ok result =>
    obtain ⟨text, p, htext, hread, hcompile⟩ := Command.generated_eq_ok_iff.1 hgenerated
    refine ⟨text, p, result, htext, hread, hcompile, ?_⟩
    have hrun := run_of_output hargs hgenerated hpath
    cases hwrite : d.write? path result.assembly with
    -- a file that cannot be written fails the run
    | none =>
      rw [hwrite] at hrun
      rw [hrun] at hcode
      cases hcode
    | some later =>
      rw [hwrite] at hrun
      rw [hrun]
      exact written_of_write? hwrite

/-- **All or nothing.** A run that fails changes no file. `check` changes none either, and if `compile`
succeeds, then there is a readable program at its input, whose assembly is what the run leaves where the
output path leads; no other file is changed. Two runs in the same directory, with the same input and as
many registers, end with the same code, be it `check` or `compile`, with comments or without them, if
`compile` can write where its output path leads; and they show the same on the error stream, unless one
of them is verbose, for then the log tells about comments and files too.

Where paths lead is up to the directory, so input and output can lie anywhere, also in one place. -/
theorem run_atomic (d : Directory) (args : List String) :
    ((d.run args).1.code ≠ 0 → (d.run args).2 = d) ∧
      ∀ c, Command.ofArgs args = .ok c →
        (c.action = .check → (d.run args).2 = d) ∧
        (∀ output comments, c.action = .compile output comments → (d.run args).1.code = 0 →
          ∃ text p compiled, d.read? c.input = some text ∧ Program.read? text = some p ∧
            p.compile ⟨c.registers, comments, c.source⟩ = .ok compiled ∧
            d.Written (output.getD (Path.withExtension c.input "s")) compiled.assembly (d.run args).2) ∧
        ∀ args' c', Command.ofArgs args' = .ok c' → c'.input = c.input → c'.registers = c.registers →
          (∀ path, c.outputPath? = some path → d.Writable path) →
          (∀ path, c'.outputPath? = some path → d.Writable path) →
          (d.run args').1.code = (d.run args).1.code ∧
            (c.verbose = false → c'.verbose = false →
              (d.run args').1.stderr = (d.run args).1.stderr) := by
  constructor
  · intro hcode
    cases hargs : Command.ofArgs args with
    | error ending => rw [run, hargs]
    | ok c => exact run_snd_eq hargs (.inl hcode)
  · intro c hargs
    refine ⟨fun haction => ?_, fun output comments haction hcode => ?_,
      fun args' c' hargs' hinput hregisters hwritable hwritable' => ?_⟩
    -- `check` has no output path
    · have hpath : c.outputPath? = none := by rw [Command.outputPath?, haction]
      exact run_snd_eq hargs (.inr hpath)
    · have hpath : c.outputPath? = some (output.getD (Path.withExtension c.input "s")) := by
        rw [Command.outputPath?, haction]
      have hcomments : c.comments = comments := by rw [Command.comments, haction]
      have hwritten := written_of_code hargs hpath hcode
      rwa [Command.options, hcomments] at hwritten
    -- what is printed agrees with or without the log, which is not printed here
    · obtain ⟨hcode, hstderr⟩ := exit_agrees hargs hargs' hinput hregisters hwritable hwritable'
      exact ⟨hcode, fun _ _ => hstderr⟩

end Directory

/-! ## Checked and written

The program that does nothing is checked, and it is compiled with comments. -/

/-- The command that compiles the tree, with comments. -/
def compileCommand : Command := ⟨.compile none true, "in.json", 3, false⟩

theorem ofArgs_compileCommand :
    Command.ofArgs ["compile", "in.json", "--comments"] = .ok compileCommand := by decide +kernel

theorem writable_compileCommand {p : Program} {path : String}
    (h : compileCommand.outputPath? = some path) : (treeDirectory p).Writable path := by
  have houtput : compileCommand.outputPath? = some (Path.withExtension "in.json" "s") := rfl
  have hplace : Directory.place? (Path.withExtension "in.json" "s") = some (.file "in.s") := by
    decide +kernel
  rw [houtput] at h
  rw [← Option.some.inj h]
  exact Directory.writable_of_resolve hplace (by decide)

theorem code_idleProgram : ((treeDirectory idleProgram).run ["check", "in.json"]).1.code = 0 := by
  obtain ⟨compiled, hcompile⟩ := exists_compile_idleProgram
  have hgenerated : checkCommand.generated ((treeDirectory idleProgram).read? checkCommand.input) =
      .ok compiled :=
    Command.generated_eq_ok_iff.2 ⟨_, _, read?_treeDirectory _, read?_idleProgram, hcompile⟩
  exact (Directory.exit_of_writable ofArgs_checkCommand hgenerated fun _ h => nomatch h).1

/-- The checking run changes nothing, the other one leaves the assembly, and both show the same. -/
theorem run_atomic_idleProgram :
    ((treeDirectory idleProgram).run ["check", "in.json"]).2 = treeDirectory idleProgram ∧
      ((treeDirectory idleProgram).run ["compile", "in.json", "--comments"]).1.stderr =
        ((treeDirectory idleProgram).run ["check", "in.json"]).1.stderr ∧
      ∃ compiled, idleProgram.compile compileCommand.options = .ok compiled ∧
        (treeDirectory idleProgram).Written (Path.withExtension "in.json" "s") compiled.assembly
          ((treeDirectory idleProgram).run ["compile", "in.json", "--comments"]).2 := by
  obtain ⟨-, hcheck⟩ := Directory.run_atomic (treeDirectory idleProgram) ["check", "in.json"]
  obtain ⟨hsame, -, hagrees⟩ := hcheck _ ofArgs_checkCommand
  -- Neither command is verbose, so that they show the same on the error stream.
  obtain ⟨hcode, hagree⟩ := hagrees _ _ ofArgs_compileCommand rfl rfl (fun _ h => nomatch h)
    fun _ => writable_compileCommand
  have hstderr := hagree rfl rfl
  obtain ⟨-, hcompile⟩ :=
    Directory.run_atomic (treeDirectory idleProgram) ["compile", "in.json", "--comments"]
  obtain ⟨text, p, compiled, htext, hread, hcompiled, hwritten⟩ :=
    (hcompile _ ofArgs_compileCommand).2.1 none true rfl (hcode.trans code_idleProgram)
  obtain rfl := Option.some.inj ((read?_treeDirectory idleProgram).symm.trans htext)
  obtain rfl := Option.some.inj (read?_idleProgram.symm.trans hread)
  exact ⟨hsame rfl, hstderr, compiled, hcompiled, hwritten⟩

end CommandLine

end PascalAsm
