import PascalAsm.Proofs.Units.Wording
import PascalAsm.Proofs.Units.Frames
import PascalAsm.Proofs.Units.Labels

/-!
# The symbols of a compiled unit

The text of a unit defines the names of its functions, `main`, two format strings, and the labels of
all bodies; and it refers to the two functions of the runtime library, which it must not define. All
these names live in one space. Identifiers keep out of the way of names that begin with a dot or an
underscore, labels are numbered apart from the format strings, and a clash of two functions, or of
one with `main`, is an error.

That leaves `printf`, which is an identifier. `Program.symbols_of_compile` says that it is defined
if and only if a routine has this name. Then it takes the calls that are meant for the library.
-/

namespace PascalAsm

open Assembly Lowering Gen State

/-! ## Identifiers -/

/-- Identifiers can name symbols. Symbols may contain a point and a dollar sign besides. -/
theorem isSymbol_of_isIdentifier {name : String} (h : isIdentifier name = true) : IsSymbol name := by
  unfold isIdentifier at h
  split at h
  · cases h
  next c rest hname =>
    simp only [Bool.and_eq_true, List.all_eq_true, Bool.or_eq_true, decide_eq_true_eq] at h
    obtain ⟨hc, hrest⟩ := h
    intro d hd
    rw [hname, List.mem_cons] at hd
    -- Every character is a letter, a digit or an underscore, and those are allowed in symbols.
    rcases hd with rfl | hd
    · simp [isSymbolChar, Char.isAlphanum, hc]
    · rcases hrest d hd with hd | rfl
      · simp [isSymbolChar, hd]
      · decide

/-- Labels begin with a dot, and identifiers do not. So a label is never the name of a routine. -/
theorem isIdentifier_localLabel (k : Nat) : isIdentifier (localLabel k) = false := by
  unfold isIdentifier localLabel
  rw [String.toList_append]
  rfl

/-! ## Bodies

A body consists of phrases, which say where the words in its instructions come from: labels are made up
by the generator, and the other words are fixed or quoted from the program. -/

namespace Assembly

variable {pooled : List Reg} {slot : Operand → Prop} {c : List Inst} {i : Inst}

theorem Source.words_eq_nil (hslot : ∀ op, slot op → op.words = []) {op : Operand}
    (h : Source pooled slot op) : op.words = [] := by
  cases h with
  | imm | reg => rfl
  | slot h => exact hslot _ h

/-- The words in a phrase are labels, format strings, or taken over from the program. Registers and
numbers have no words, and by `hslot` neither have slots. -/
theorem Phrase.legible (hslot : ∀ op, slot op → op.words = []) (h : Phrase pooled slot c) (hi : i ∈ c)
    (htidy : i.Tidy) (hlabel : ∀ name ∈ i.labelName?, IsSymbol name)
    (htarget : ∀ name ∈ i.target?, OneLine name) : i.Legible := by
  -- words are found in calls, formats, jumps, labels and comments only
  cases h with
  | load hs =>
    rw [List.mem_singleton.1 hi]
    exact .plain (by rw [Inst.words, hs.words_eq_nil hslot]; rfl)
  | result | negate =>
    rw [List.mem_singleton.1 hi]
    exact .plain rfl
  | store _ hd | constant _ hd =>
    rw [List.mem_singleton.1 hi]
    exact .plain (by rw [Inst.words, hslot _ hd]; rfl)
  | arith _ hs | compare hs =>
    rw [List.mem_singleton.1 hi]
    exact .plain (by rw [Inst.words, hs.words_eq_nil hslot]; rfl)
  | divide _ hs =>
    simp only [divideCode, List.mem_cons, List.not_mem_nil, or_false] at hi
    rcases hi with rfl | rfl | rfl | rfl
    · exact .plain rfl
    · exact .plain rfl
    · exact .plain (hs.words_eq_nil hslot)
    · exact .plain rfl
  | call name =>
    rcases List.mem_cons.1 hi with rfl | hi
    · exact .plain rfl
    · obtain rfl := List.mem_singleton.1 hi
      exact .of_words htidy hlabel (by simp)
  | address h =>
    rw [List.mem_singleton.1 hi]
    exact .plain (hslot _ h)
  | format h =>
    obtain rfl := List.mem_singleton.1 hi
    refine .of_words (fun w hw => ?_) hlabel (by simp)
    obtain rfl := List.mem_singleton.1 hw
    rcases h with rfl | rfl <;> decide
  | jmp name | jcc condition name =>
    obtain rfl := List.mem_singleton.1 hi
    refine .of_words (fun w hw => ?_) hlabel (by simp)
    obtain rfl := List.mem_singleton.1 hw
    exact htarget _ rfl
  | label name =>
    obtain rfl := List.mem_singleton.1 hi
    refine .of_words (fun w hw => ?_) hlabel (by simp)
    obtain rfl := List.mem_singleton.1 hw
    exact (hlabel _ rfl).oneLine
  | comment line =>
    obtain rfl := List.mem_singleton.1 hi
    exact .of_words htidy hlabel (by simp)

/-- The symbols of a unit are some fixed ones, the names of the functions, and the labels of bodies. -/
theorem Program.symbols_perm (unit : Program) : unit.symbols.Perm
    ([Runtime.writeFormat, Runtime.readFormat, "main"] ++
      (unit.functions.map (·.name) ++ labels (unit.functions.flatMap (·.body)))) := by
  have hfunctions : (unit.functions.flatMap Function.symbols).Perm
      (unit.functions.map (·.name) ++ labels (unit.functions.flatMap (·.body))) := by
    rw [labels, List.filterMap_flatMap, List.map_eq_flatMap]
    exact (List.flatMap_append_perm unit.functions (fun f => [f.name]) fun f => labels f.body).symm
  unfold symbols
  rw [List.append_assoc]
  exact (hfunctions.append_right ["main"]).trans List.perm_append_comm |>.append_left _

theorem Phrases.exists_of_mem (h : Phrases pooled slot c) (hi : i ∈ c) :
    ∃ d, Phrase pooled slot d ∧ i ∈ d := by
  induction h with
  | nil => cases hi
  | cons hd _ ih => exact (List.mem_append.1 hi).elim (fun hi => ⟨_, hd, hi⟩) ih

end Assembly

namespace Routine

variable {pooled : List Reg} {comments : Bool} {r : Routine} {f : Function} {n n' : Nat}

/-- A body takes over texts of the routine only, and these are one line each. Identifiers are one
line each, and so is every text that is put together from them. -/
theorem Generated.tidy (hnames : ∀ x ∈ r.identifiers, isIdentifier x = true)
    (h : r.Generated pooled comments n n' f) : ∀ i ∈ f.body, i.Tidy := by
  obtain ⟨s, s', c, scope, outer, -, -, -, -, hbody, -, -, rfl⟩ := h.body
  have hlines : ∀ x ∈ r.body.identifiers, OneLine x := fun x hx =>
    (isSymbol_of_isIdentifier (hnames x (by simp [identifiers, hx]))).oneLine
  -- what is quoted is made by the statements alone; parameters and result are moves
  have hcode : ∀ i ∈ c, i.Tidy := by
    have hrun : ∀ i ∈ ((r.body.lower comments).run s).code, i.Tidy := Stmt.tidy_lower hlines s
    rw [yields_iff] at hbody
    rwa [hbody] at hrun
  intro i hi
  rw [List.mem_append, List.mem_append] at hi
  rcases hi with hi | hi | hi
  · rw [storing, paramStores, ← List.map_uncurry_zip_eq_zipWith, List.mem_map] at hi
    obtain ⟨_, -, rfl⟩ := hi
    exact .unquoted rfl
  · exact hcode i hi
  · obtain ⟨_, -, rfl⟩ := List.mem_map.1 hi
    exact .unquoted rfl

/-- If every name in a routine is an identifier, then its function can be read. By `Phrase.legible`,
once its comments are tidy, `Generated.tidy`. -/
theorem Generated.legible (hnames : ∀ x ∈ r.identifiers, isIdentifier x = true)
    (h : r.Generated pooled comments n n' f) : f.Legible := by
  obtain ⟨scope, outer, -, -, hphrases⟩ := h.phrases
  have hslot : ∀ op, Scopes.Slots (scope :: outer) op → op.words = [] := by
    rintro op ⟨x, slot, -, rfl⟩
    rfl
  have hlabels : ∀ name ∈ labels f.body, IsSymbol name := by
    intro name hname
    obtain ⟨k, -, rfl⟩ := h.defines.exists_of_mem hname
    exact isSymbol_localLabel k
  refine ⟨?_, fun i hi => ?_⟩
  · have hname : f.name = r.name := by
      obtain ⟨_, _, _, _, _, -, -, -, -, -, -, -, rfl⟩ := h.body
      rfl
    rw [hname]
    exact isSymbol_of_isIdentifier (hnames _ (by simp [identifiers]))
  · obtain ⟨d, hd, hmem⟩ := hphrases.exists_of_mem hi
    refine hd.legible hslot hmem (h.tidy hnames i hi) (fun name hname => ?_) fun name hname => ?_
    · exact hlabels name (List.mem_filterMap.2 ⟨i, hi, hname⟩)
    · -- a jump leads to a label of the same body
      have htarget : name ∈ targets f.body := List.mem_filterMap.2 ⟨i, hi, hname⟩
      have hlabel : name ∈ labels f.body := by simpa using (h.aims.mem_iff name).1 htarget
      exact (hlabels name hlabel).oneLine

end Routine

/-! ## Units -/

namespace Program

variable {p : Program} {options : Options} {compiled : Compiled}

/-- The text of a compiled unit defines the symbols of the unit. The name of the source stands in
the text too, and `hsource` keeps it to one line. -/
theorem definedSymbols_of_compile (hnames : ∀ x ∈ p.identifiers, isIdentifier x = true)
    (hsource : OneLine options.source) (h : p.compile options = .ok compiled) :
    definedSymbols compiled.assembly = compiled.unit.symbols := by
  obtain ⟨s, s', c, hs, hlower, -, hunit, htext, -⟩ := compile_eq_ok_iff.1 h
  have hall := generated_of_initial hs hlower
  have hroutine {r : Routine} (hr : r ∈ p.routines) : ∀ x ∈ r.identifiers, isIdentifier x = true :=
    fun x hx => hnames x (identifiers_routine_subset hr hx)
  have hentry : IsSymbol p.name := by
    have hr : p.routine ∈ p.routines := List.mem_append_right _ List.mem_cons_self
    exact isSymbol_of_isIdentifier (hroutine hr _ List.mem_cons_self)
  -- Three conditions: the source name is one line, the entry is a symbol, functions are legible.
  refine Assembly.Program.definedSymbols_of_render ?_ ?_ (fun f hf => ?_) htext
  · rwa [hunit]
  · rw [hunit]
    exact hentry.oneLine
  · rw [hunit] at hf
    obtain ⟨r, hr, _, _, hgenerated⟩ := hall.exists_of_mem hf
    exact hgenerated.legible (hroutine hr)

/-- The labels of all bodies are those of distinct numbers. Each number below the last one is that
of one label. -/
theorem defines_of_compile (h : p.compile options = .ok compiled) :
    ∃ n, Defines (· < n) (compiled.unit.functions.flatMap (·.body)) := by
  obtain ⟨s, s', c, hs, hlower, -, hunit, -, -⟩ := compile_eq_ok_iff.1 h
  refine ⟨s'.labels, ?_⟩
  rw [hunit]
  exact (generated_of_initial hs hlower).defines.2.congr fun k => by omega

/-- The fixed symbols, the names of routines and the labels of a compiled unit. In the text each
function is followed by its own labels. -/
theorem symbols_perm_of_compile (h : p.compile options = .ok compiled) :
    compiled.unit.symbols.Perm ([Runtime.writeFormat, Runtime.readFormat, "main"] ++
      (p.routines.map (·.name) ++ labels (compiled.unit.functions.flatMap (·.body)))) := by
  have hsame := (names_of_compiled (functions_of_compile h).2).1
  rw [← hsame]
  exact compiled.unit.symbols_perm

/-- What does not look like a label is one of the fixed symbols, or the name of a routine. -/
theorem mem_symbols_of_compile (h : p.compile options = .ok compiled) {x : String}
    (hx : (x.toList.drop 2).all Char.isDigit = false) : x ∈ compiled.unit.symbols ↔
      x ∈ [Runtime.writeFormat, Runtime.readFormat, "main"] ∨ ∃ r ∈ p.routines, r.name = x := by
  have hlabel : x ∉ labels (compiled.unit.functions.flatMap (·.body)) := by
    obtain ⟨n, hdefines⟩ := defines_of_compile h
    intro hmem
    obtain ⟨k, -, hk⟩ := hdefines.exists_of_mem hmem
    exact ne_localLabel hx k hk
  rw [(symbols_perm_of_compile h).mem_iff, List.mem_append, List.mem_append, or_iff_left hlabel,
    List.mem_map]

/-- No two symbols of a compiled unit are the same. Names of routines do not clash when a unit is
compiled, and labels and format strings begin with a point. -/
theorem nodup_symbols_of_compile (hnames : ∀ x ∈ p.identifiers, isIdentifier x = true)
    (h : p.compile options = .ok compiled) : compiled.unit.symbols.Nodup := by
  obtain ⟨hmain, hnodup, -⟩ := exists_compile_iff.1 ⟨compiled, h⟩
  obtain ⟨n, hdefines⟩ := defines_of_compile h
  have hroutine {x : String} (hx : x ∈ p.routines.map (·.name)) : isIdentifier x = true := by
    obtain ⟨r, hr, rfl⟩ := List.mem_map.1 hx
    exact hnames _ (identifiers_routine_subset hr List.mem_cons_self)
  -- each kind of symbols has no repetitions, and no two kinds meet
  rw [(symbols_perm_of_compile h).nodup_iff, List.nodup_append, List.nodup_append]
  refine ⟨by decide, ⟨hnodup, hdefines.nodup, ?_⟩, ?_⟩
  · rintro x hx y hy rfl
    obtain ⟨k, -, rfl⟩ := hdefines.exists_of_mem hy
    have hletter := hroutine hx
    rw [isIdentifier_localLabel] at hletter
    cases hletter
  · rintro x hx y hy rfl
    have hdistinct : x ∉ p.routines.map (·.name) := by
      simp only [List.mem_cons, List.not_mem_nil, or_false] at hx
      rcases hx with rfl | rfl | rfl
      · exact fun hmem => absurd (hroutine hmem) (by decide)
      · exact fun hmem => absurd (hroutine hmem) (by decide)
      · exact hmain
    have hlabel := (List.mem_append.1 hy).resolve_left hdistinct
    obtain ⟨k, -, hk⟩ := hdefines.exists_of_mem hlabel
    have hfixed : ∀ x ∈ [Runtime.writeFormat, Runtime.readFormat, "main"],
        (x.toList.drop 2).all Char.isDigit = false := by decide
    exact ne_localLabel (hfixed x hx) k hk

/-- **Symbols of a compiled unit.** If all names in a program are identifiers, then the text that it is
compiled to defines every symbol and label once. It does not define the library function that reads;
and it defines the one that writes just if a routine has its name, so that otherwise all calls of
either go to the library.

The name of the source file is printed as it is, in quotes. With `hsource` it stays in its line, which
is all that `definedSymbols` asks for; a name with a quotation mark, a semicolon and a colon in it could
still make the assembler see a symbol that is none of the program's. -/
theorem symbols_of_compile (hnames : ∀ x ∈ p.identifiers, isIdentifier x = true)
    (hsource : OneLine options.source) (h : p.compile options = .ok compiled) :
    definedSymbols compiled.assembly = compiled.unit.symbols ∧
      (definedSymbols compiled.assembly).Nodup ∧
      Runtime.scanf ∉ definedSymbols compiled.assembly ∧
      (Runtime.printf ∈ definedSymbols compiled.assembly ↔
        ∃ r ∈ p.routines, r.name = Runtime.printf) := by
  rw [definedSymbols_of_compile hnames hsource h]
  refine ⟨rfl, nodup_symbols_of_compile hnames h, ?_, ?_⟩
  · rw [mem_symbols_of_compile h (by decide)]
    -- `scanf` starts with two underscores, so it is no identifier and no routine is called so.
    rintro (hfixed | ⟨r, hr, hname⟩)
    · exact absurd hfixed (by decide)
    · have hidentifier := hnames _ (identifiers_routine_subset hr List.mem_cons_self)
      rw [hname] at hidentifier
      exact absurd hidentifier (by decide)
  · have hfixed : Runtime.printf ∉ [Runtime.writeFormat, Runtime.readFormat, "main"] := by decide
    rw [mem_symbols_of_compile h (by decide), or_iff_right hfixed]

end Program

/-- All calls of the program of sums for reading and writing go to the library. -/
theorem symbols_sumProgram : (∀ x ∈ sumProgram.identifiers, isIdentifier x = true) ∧
    OneLine "<input>" ∧ ∃ compiled, sumProgram.compile {} = .ok compiled ∧
      (definedSymbols compiled.assembly).Nodup ∧
      Runtime.scanf ∉ definedSymbols compiled.assembly ∧
      Runtime.printf ∉ definedSymbols compiled.assembly := by
  have hnames : ∀ x ∈ sumProgram.identifiers, isIdentifier x = true := by decide
  obtain ⟨compiled, hcompile⟩ : ∃ compiled, sumProgram.compile {} = .ok compiled :=
    Program.exists_compile_iff.2
      ⟨by decide, by decide, sumStart, sumOutcome.state, sumOutcome.code, rfl, yields_sumProgram⟩
  obtain ⟨-, hnodup, hscanf, hprintf⟩ :=
    Program.symbols_of_compile hnames (by decide : OneLine "<input>") hcompile
  -- No routine of this program is called `printf`.
  have hnone : ¬ ∃ r ∈ sumProgram.routines, r.name = Runtime.printf := by decide
  exact ⟨hnames, by decide, compiled, hcompile, hnodup, hscanf, fun h => hnone (hprintf.1 h)⟩

/-! ## A program that takes the place of the library

Nothing is wrong with the text of this program but that it is linked differently from how it is meant:
the call in its body leads to the procedure, and nothing is written. -/

/-- A program that declares a procedure `printf`, and writes a number. -/
def capturingProgram : Program where
  name := "capturing"
  args := ["output"]
  declarations := []
  subprograms := [.mk .procedure "printf" [] [] [] (.compound 1 []) 1]
  body := .compound 2 [.call 3 "write" [.integer 3 1]]
  line := 1

/-- It is compiled, its text defines `printf`, and the program calls this symbol to write. -/
theorem printf_capturingProgram : (∀ x ∈ capturingProgram.identifiers, isIdentifier x = true) ∧
    ∃ compiled, capturingProgram.compile {} = .ok compiled ∧
      compiled.unit.functions.map (·.name) = [Runtime.printf, "capturing"] ∧
      definedSymbols compiled.assembly = [".LC0", ".LC1", Runtime.printf, "capturing", "main"] ∧
      ∃ f ∈ compiled.unit.functions, f.name = "capturing" ∧ .call Runtime.printf ∈ f.body := by
  have hnames : ∀ x ∈ capturingProgram.identifiers, isIdentifier x = true := by decide
  let o := (capturingProgram.lower false).run { pool := .ofRegs [.rdi, .rsi, .rcx] }
  have hlower : (capturingProgram.lower false).Yields { pool := .ofRegs [.rdi, .rsi, .rcx] } ()
      o.state o.code := by
    rw [yields_iff]
    cbv
  -- All of the unit is computed once; the two facts about it are read off.
  have hfinished : o.state.finished = [⟨Runtime.printf, 16, []⟩, ⟨"capturing", 16,
      [.movl (.imm 1) (.reg .rdi), .movl (.reg .rdi) (.reg .rsi),
        .leaq (.rip Runtime.writeFormat) .rdi, clear .rax, .call Runtime.printf]⟩] := by
    cbv
  obtain ⟨compiled, hcompile⟩ : ∃ compiled, capturingProgram.compile {} = .ok compiled :=
    Program.exists_compile_iff.2 ⟨by decide, by decide, _, o.state, o.code, rfl, hlower⟩
  have hfunctions : compiled.unit.functions = o.state.finished := by
    obtain ⟨s, s', c, hs, hlower', -, hunit, -, -⟩ := Program.compile_eq_ok_iff.1 hcompile
    obtain rfl := Except.ok.inj hs
    obtain ⟨-, rfl, -⟩ := Outcome.mk.inj (hlower'.symm.trans hlower)
    rw [hunit]
  refine ⟨hnames, compiled, hcompile, ?_, ?_, ?_⟩
  · rw [hfunctions, hfinished]
    rfl
  · rw [Program.definedSymbols_of_compile hnames (by decide) hcompile, Program.symbols, hfunctions,
      hfinished]
    rfl
  · rw [hfunctions, hfinished]
    exact ⟨_, List.mem_cons_of_mem _ List.mem_cons_self, rfl, by simp⟩

end PascalAsm
