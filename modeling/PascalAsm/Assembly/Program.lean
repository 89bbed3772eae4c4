import PascalAsm.Assembly.Frame

/-!
# Assembly programs

A compilation unit: the functions of a program, each with its frame size and body, and the text
that the assembler reads. The text opens with the format strings of the runtime library, then
come the functions in order, then a `main` that calls the entry symbol, then the closing lines.

Rendering checks the symbols first and the frames second, and gives no text unless all is well.
`firstClash?` is the rule for symbols: `main` belongs to the unit itself, and no name is defined
twice.
-/

namespace PascalAsm.Assembly

/-! ### The runtime library -/

namespace Runtime

/-- The label of the format string that writes a number and a newline. -/
def writeFormat : String := ".LC0"

/-- The label of the format string that reads a number. -/
def readFormat : String := ".LC1"

/-- The library function that writes. -/
def printf : String := "printf"

/-- The library function that reads. -/
def scanf : String := "__isoc99_scanf"

end Runtime

/-! ### Units -/

/-- A function: its symbol, the room its slots take, and its instructions between opening and
closing the frame. Opening and closing the frame is added when it is rendered. -/
structure Function where
  name : String
  frameSize : Nat
  body : List Inst
deriving DecidableEq

/-- A compilation unit. -/
structure Program where
  /-- The source file that the unit came from. -/
  source : String
  /-- The symbol that `main` calls. -/
  entry : String
  /-- The functions in the order in which they are written. -/
  functions : List Function
deriving DecidableEq

/-- Why a unit cannot be rendered. -/
inductive EmitError where
  | convention (error : ConventionError)
  /-- A symbol would be defined twice. -/
  | duplicateSymbol (name : String)
deriving DecidableEq

/-- What is said about a unit that cannot be rendered. -/
def EmitError.message : EmitError → String
  | .convention e => "ABI violation: " ++ e.message
  | .duplicateSymbol name => "Duplicate function symbol: " ++ name

/-- Clears a register. -/
def clear (r : Reg) : Inst := .movl (.imm 0) (.reg r)

/-- The function that the operating system starts: it calls the entry and returns zero. -/
def mainWrapper (entry : String) : Function where
  name := "main"
  frameSize := 0
  body := [clear .rax, .call entry, clear .rax]

/-! ### Symbols -/

/-- The first name that is `main` or was seen before, given the names seen so far. -/
def clashAfter? (seen : List String) : List String → Option String
  | [] => none
  | name :: rest =>
    if name = "main" ∨ name ∈ seen then some name else clashAfter? (name :: seen) rest

/-- The first name in a list of symbols that the unit cannot define. The order is that of the
functions, so inner routines come before outer ones. -/
def firstClash? (names : List String) : Option String := clashAfter? [] names

theorem clashAfter?_eq_none_iff (seen names : List String) :
    clashAfter? seen names = none ↔
      "main" ∉ names ∧ names.Nodup ∧ ∀ n ∈ names, n ∉ seen := by
  induction names generalizing seen with
  | nil => simp [clashAfter?]
  | cons name rest ih =>
    by_cases h : name = "main" ∨ name ∈ seen
    · rcases h with h | h <;> simp [clashAfter?, h]
    · have h' := not_or.1 h
      simp only [clashAfter?, if_neg h, ih, List.mem_cons, List.nodup_cons, not_or,
        forall_eq_or_imp]
      constructor
      · rintro ⟨hm, hn, ha⟩
        exact ⟨⟨Ne.symm h'.1, hm⟩, ⟨fun hr => (ha _ hr).1 rfl, hn⟩, h'.2, fun n hr => (ha n hr).2⟩
      · rintro ⟨⟨_, hm⟩, ⟨hr, hn⟩, _, ha⟩
        exact ⟨hm, hn, fun n hn' => ⟨fun e => hr (e ▸ hn'), ha n hn'⟩⟩

/-- No symbol clashes exactly when the names are distinct and none of them is `main`. -/
theorem firstClash?_eq_none_iff (names : List String) :
    firstClash? names = none ↔ "main" ∉ names ∧ names.Nodup := by
  simp [firstClash?, clashAfter?_eq_none_iff]

/-! ### Text -/

/-- The lines before the functions. -/
def header (source : String) : List String :=
  ["\t.file\t\"" ++ source ++ "\"",
   "\t.section\t.rodata",
   Runtime.writeFormat ++ ":",
   "\t.string\t\"%d\\n\"",
   Runtime.readFormat ++ ":",
   "\t.string\t\"%d\"",
   "\t.text"]

/-- The lines after the functions. -/
def footer : List String :=
  ["\t.ident\t\"GPC: 0.1.0\"",
   "\t.section\t.note.GNU-stack,\"\",@progbits"]

/-- A function with its frame opened and closed. Its frame is checked here, and that is all that can
fail. -/
def Function.code (f : Function) : Except EmitError (List Inst) :=
  match Frame.make f.name f.frameSize with
  | .ok frame => .ok (frame.prologue ++ f.body ++ frame.epilogue)
  | .error e => .error (.convention e)

/-- The text of one function. -/
def Function.render (f : Function) : Except EmitError String := f.code.map listing

/-- The text of a unit, or the first thing that forbids one. Names are checked before frames, so a
clash is reported although a frame is misaligned as well. -/
def Program.render (p : Program) : Except EmitError String :=
  match firstClash? (p.functions.map (·.name)) with
  | some name => .error (.duplicateSymbol name)
  | none => do
    let functions ← p.functions.mapM Function.render
    let wrapper ← (mainWrapper p.entry).render
    return unlines (header p.source) ++ String.join functions ++ wrapper ++ unlines footer

end PascalAsm.Assembly
