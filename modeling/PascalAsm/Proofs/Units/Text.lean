import PascalAsm.Proofs.Generator.Programs

/-!
# The symbols of a text

An assembler learns the symbols that a unit defines from its text, a line at a time: what stands
before a colon at the beginning of a line is defined there. `definedSymbols` reads a text like that.

Instructions are told apart from definitions by their first word, which a tabulator ends, so what
else is in a line does not matter as long as it is one line. **`Inst.Legible`** says that a line is
one, and that it defines what it should. `Program.definedSymbols_of_render` puts the lines of a unit
together.
-/

namespace PascalAsm.Assembly

/-! ## Reading

A statement of the assembler takes one line here, and it may have any number of definitions before it.
Directives and instructions begin with a word that no colon follows, so reading a line ends there. -/

/-- The characters that symbols consist of. A colon is none of them, so the name of a label ends
there. -/
def isSymbolChar (c : Char) : Bool := c.isAlphanum || c = '_' || c = '.' || c = '$'

/-- The characters that a line may have before its first word. Any other character there that is no
part of a symbol ends the search in the line. -/
def isBlank (c : Char) : Bool := c = ' ' || c = '\t'

/-- The symbols that the rest of a line defines, after the beginning of a word. Another definition
or a statement may follow each definition. -/
def definedAfter (word : List Char) : List Char → List String
  | [] => []
  | c :: rest =>
    if isSymbolChar c then definedAfter (word ++ [c]) rest
    else if c = ':' then String.ofList word :: definedAfter [] rest
    else if word = [] ∧ isBlank c then definedAfter [] rest
    else []

/-- The symbols that a text defines, in order. A semicolon ends a statement as well, but not in a string
or a comment, and a unit has none elsewhere; so it is not looked for. That is right as long as the name
of the source, which is printed in quotes, does not close them itself. -/
def definedSymbols (text : String) : List String :=
  (text.toList.splitOn '\n').flatMap (definedAfter [])

/-! ## Symbols and lines -/

/-- The text takes no more than one line. It may be empty, and may contain anything but a newline.
-/
def OneLine (s : String) : Prop := '\n' ∉ s.toList

/-- The text can name a symbol. Whether it is the name of anything does not matter. -/
def IsSymbol (s : String) : Prop := ∀ c ∈ s.toList, isSymbolChar c = true

instance (s : String) : Decidable (OneLine s) := inferInstanceAs (Decidable (_ ∉ _))

instance (s : String) : Decidable (IsSymbol s) :=
  decidable_of_iff (s.toList.all isSymbolChar = true) List.all_eq_true

theorem IsSymbol.oneLine {s : String} (h : IsSymbol s) : OneLine s := fun hmem =>
  absurd (h _ hmem) (by decide)

@[simp] theorem oneLine_append {s t : String} : OneLine (s ++ t) ↔ OneLine s ∧ OneLine t := by
  simp only [OneLine, String.toList_append, List.mem_append, not_or]

theorem isSymbol_append {s t : String} (hs : IsSymbol s) (ht : IsSymbol t) : IsSymbol (s ++ t) := by
  intro c hc
  rw [String.toList_append, List.mem_append] at hc
  exact hc.elim (hs c) (ht c)

theorem isSymbolChar_of_mem_toDigits {n : Nat} {c : Char} (h : c ∈ Nat.toDigits 10 n) :
    isSymbolChar c = true := by
  have hdigit := Nat.isDigit_of_mem_toDigits (by decide) (by decide) h
  simp [isSymbolChar, Char.isAlphanum, hdigit]

theorem isSymbol_repr (n : Nat) : IsSymbol n.repr := by
  intro c hc
  rw [Nat.toList_repr] at hc
  exact isSymbolChar_of_mem_toDigits hc

theorem isSymbol_localLabel (k : Nat) : IsSymbol (Lowering.localLabel k) :=
  isSymbol_append (by decide) (isSymbol_repr k)

@[simp] theorem oneLine_repr (n : Nat) : OneLine n.repr := (isSymbol_repr n).oneLine

@[simp] theorem oneLine_toString (n : Int) : OneLine (toString n) := by
  cases n with
  | ofNat n => exact oneLine_repr n
  | negSucc n => exact oneLine_append.2 ⟨by decide, oneLine_repr (n + 1)⟩

/-! ## Lines -/

section

variable {word start rest : List Char}

theorem definedAfter_append (h : ∀ c ∈ word, isSymbolChar c = true) :
    definedAfter start (word ++ rest) = definedAfter (start ++ word) rest := by
  induction word generalizing start with
  | nil => rw [List.nil_append, List.append_nil]
  | cons c word ih =>
    rw [List.forall_mem_cons] at h
    rw [List.cons_append, definedAfter, if_pos h.1, ih h.2, List.append_assoc, List.singleton_append]

/-- A line with a name and a colon defines the name. Reading it takes the characters one by one
until the colon. -/
theorem definedAfter_label {name : String} (h : IsSymbol name) :
    definedAfter [] (name ++ ":").toList = [name] := by
  rw [String.toList_append, definedAfter_append h, List.nil_append]
  show [String.ofList name.toList] = [name]
  rw [String.ofList_toList]

end

theorem toList_unlines_cons (l : String) (lines : List String) :
    (unlines (l :: lines)).toList = l.toList ++ '\n' :: (unlines lines).toList := by
  simp [unlines, String.toList_join]

/-- The lines of a text are read one by one. That needs each of them to be one line, which is `h`.
-/
theorem definedSymbols_unlines_append {lines : List String} (h : ∀ l ∈ lines, OneLine l)
    (text : String) : definedSymbols (unlines lines ++ text) =
      lines.flatMap (fun l => definedAfter [] l.toList) ++ definedSymbols text := by
  induction lines with
  | nil => simp [unlines, String.join]
  | cons l lines ih =>
    obtain ⟨hl, hlines⟩ := List.forall_mem_cons.1 h
    have htext : (unlines (l :: lines) ++ text).toList =
        l.toList ++ '\n' :: (unlines lines ++ text).toList := by
      simp [toList_unlines_cons]
    -- the first line ends where the newline after it stands, and not before
    have hfirst : l.toList.splitOnP (· == '\n') = [l.toList] :=
      List.splitOnP_eq_singleton fun c hc => beq_false_of_ne fun e => hl (e ▸ hc)
    rw [definedSymbols, htext, List.splitOn, List.splitOnP_append_cons _ _ (by decide), hfirst,
      List.flatMap_append, List.flatMap_singleton, List.flatMap_cons, List.append_assoc,
      ← ih hlines, definedSymbols, List.splitOn]

-- What stands after the first word of a statement is not looked at.
example : definedSymbols "\t.text\nf:\n\tcall\tg # h:\n\tret\n" = ["f"] := by decide

/-! ## Instructions

Only some words in an instruction can be long or strange: labels, names of routines, and the texts of
comments and directives. Of these the text of the line has to be asked for; the rest of it is fixed. -/

/-- The labels in an operand. Only data that is addressed from the instruction pointer has one. -/
def Operand.words : Operand → List String
  | .rip label => [label]
  | _ => []

/-- The words in an instruction that are neither mnemonics nor registers nor numbers. A line for the
assembler and a comment are taken as a whole, and count as one. -/
def Inst.words : Inst → List String
  | .movl src dest | .arith _ src dest | .cmpl src dest => src.words ++ dest.words
  | .negl op | .idivl op | .leaq op _ => op.words
  | .jmp name | .jcc _ name | .call name | .label name => [name]
  | .directive line | .comment line => [line]
  | .cdq | .movq .. | .pushq _ | .popq _ | .subq .. | .ret => []

/-- The instruction takes one line of text, which defines its label if it has one. So what a whole
text defines is known from its instructions. -/
structure Inst.Legible (i : Inst) : Prop where
  oneLine : OneLine i.line
  defines : definedAfter [] i.line.toList = i.labelName?.toList

theorem Operand.oneLine_text {op : Operand} (h : ∀ w ∈ op.words, OneLine w) : OneLine op.text := by
  cases op with
  | reg r => cases r <;> decide
  | imm v => exact oneLine_append.2 ⟨by decide, oneLine_toString _⟩
  | mem base disp =>
    have hbase : OneLine base.name64 := by cases base <;> decide
    simp only [text, oneLine_append, oneLine_toString, hbase]
    decide
  | rip label => exact oneLine_append.2 ⟨h label List.mem_cons_self, by decide⟩

@[simp] theorem Reg.oneLine_name64 (r : Reg) : OneLine r.name64 := by cases r <;> decide

theorem Inst.oneLine_text {i : Inst} (h : ∀ w ∈ i.words, OneLine w) : OneLine i.text := by
  -- Every word of an operand is a word of the instruction, by the inclusions below.
  have hop {op : Operand} (hw : op.words ⊆ i.words) : OneLine op.text :=
    Operand.oneLine_text fun w hmem => h w (hw hmem)
  cases i with
  | movl src dest | cmpl src dest =>
    have hsrc := hop (List.subset_append_left src.words dest.words)
    have hdest := hop (List.subset_append_right src.words dest.words)
    simp +decide [text, hsrc, hdest]
  | arith op src dest =>
    have hsrc := hop (List.subset_append_left src.words dest.words)
    have hdest := hop (List.subset_append_right src.words dest.words)
    cases op <;> simp +decide [text, ArithOp.mnemonic, hsrc, hdest]
  | negl op | idivl op | leaq op dest => simp +decide [text, hop (List.Subset.refl _)]
  | jcc c name => cases c <;> simp +decide [text, Condition.suffix, h name List.mem_cons_self]
  | jmp w | call w | label w | directive w | comment w =>
    simp +decide [text, h w List.mem_cons_self]
  | cdq | movq | pushq | popq | subq | ret => simp +decide [text]

/-- A line that defines nothing begins with a word that a tabulator ends. A name would have to be
followed by a colon instead. -/
theorem Inst.definedAfter_line {i : Inst} (hlabel : i.labelName? = none)
    (hdirective : ∀ line, i ≠ .directive line) : definedAfter [] i.line.toList = [] := by
  -- reading comes to an end at that tabulator, so the operands need not be known
  cases i with
  | label name => simp [labelName?] at hlabel
  | directive line => exact absurd rfl (hdirective line)
  | arith op src dest =>
    simp only [line, isLabel, text, String.toList_append, Bool.false_eq_true, if_false]
    cases op <;> rfl
  | jcc c name =>
    simp only [line, isLabel, text, String.toList_append, Bool.false_eq_true, if_false]
    cases c <;> rfl
  | _ =>
    simp only [line, isLabel, text, String.toList_append, Bool.false_eq_true, if_false]
    rfl

namespace Inst

theorem Legible.of_words {i : Inst} (hwords : ∀ w ∈ i.words, OneLine w)
    (hlabel : ∀ name ∈ i.labelName?, IsSymbol name) (hdirective : ∀ line, i ≠ .directive line) :
    i.Legible := by
  have htext := oneLine_text hwords
  -- With a label the line defines it; without one `definedAfter_line` finds nothing.
  cases hi : i.labelName? with
  | some name =>
    obtain rfl : i = .label name := by
      cases i <;> simp_all [labelName?]
    exact ⟨htext, definedAfter_label (hlabel name rfl)⟩
  | none =>
    refine ⟨?_, by rw [definedAfter_line hi hdirective, hi]; rfl⟩
    unfold line
    split
    · exact htext
    · exact oneLine_append.2 ⟨by decide, htext⟩

/-- An instruction without words is legible. Its text consists of fixed parts, registers and
numbers, and has no newline. -/
theorem Legible.plain {i : Inst} (h : i.words = []) : i.Legible := by
  refine .of_words (by simp [h]) (fun name hname => ?_) fun line hline => ?_
  · cases i <;> simp_all [words, labelName?]
  · simp [hline, words] at h

theorem Legible.directive {line : String} (hline : OneLine line)
    (h : definedAfter [] ("\t" ++ line).toList = []) : (Inst.directive line).Legible :=
  ⟨oneLine_append.2 ⟨by decide, hline⟩, h⟩

end Inst

theorem definedSymbols_listing_append {code : List Inst} (h : ∀ i ∈ code, i.Legible)
    (text : String) : definedSymbols (listing code ++ text) = labels code ++ definedSymbols text := by
  -- Line by line each instruction defines its label, if it has one.
  have hlines : (code.map Inst.line).flatMap (fun l => definedAfter [] l.toList) = labels code := by
    induction code with
    | nil => rfl
    | cons i code ih =>
      obtain ⟨hi, hcode⟩ := List.forall_mem_cons.1 h
      rw [List.map_cons, List.flatMap_cons, hi.defines, ih hcode, labels_cons]
  rw [listing, definedSymbols_unlines_append, hlines]
  intro l hl
  obtain ⟨i, hi, rfl⟩ := List.mem_map.1 hl
  exact (h i hi).oneLine

/-! ## Units -/

/-- A function whose name and body can be read. Opening and closing its frame is legible already if
its name is. -/
structure Function.Legible (f : Function) : Prop where
  name : IsSymbol f.name
  body : ∀ i ∈ f.body, i.Legible

/-- The symbols of a function: its name, and the labels of its body. The name comes first, as in the
text. -/
def Function.symbols (f : Function) : List String := f.name :: labels f.body

/-- The symbols of a unit in the order of its text. The two format strings come first and `main`
comes last. -/
def Program.symbols (unit : Program) : List String :=
  [Runtime.writeFormat, Runtime.readFormat] ++ unit.functions.flatMap Function.symbols ++ ["main"]

namespace Frame

/-- Opening a frame defines its name. The name is in the directives before it as well, which define
nothing. -/
theorem legible_prologue {frame : Frame} (h : IsSymbol frame.name) :
    (∀ i ∈ frame.prologue, i.Legible) ∧ labels frame.prologue = [frame.name] := by
  have hname := h.oneLine
  constructor
  · intro i hi
    simp only [prologue, List.mem_append, List.mem_cons, List.not_mem_nil, or_false] at hi
    -- Two directives, the label, two instructions, and the room if any is made.
    rcases hi with (rfl | rfl | rfl | rfl | rfl) | hi
    · exact .directive (by simp +decide [hname]) (by simp only [String.toList_append]; rfl)
    · exact .directive (by simp +decide [hname]) (by simp only [String.toList_append]; rfl)
    · exact .of_words (by simpa [Inst.words]) (by simpa [Inst.labelName?]) (by simp)
    · exact .plain rfl
    · exact .plain rfl
    · split at hi
      · cases hi
      · rw [List.mem_singleton.1 hi]
        exact .plain rfl
  · unfold prologue
    split <;> rfl

/-- Closing a frame defines nothing. The directive that gives the size of the function has its name
in it. -/
theorem legible_epilogue {frame : Frame} (h : IsSymbol frame.name) :
    (∀ i ∈ frame.epilogue, i.Legible) ∧ labels frame.epilogue = [] := by
  have hname := h.oneLine
  refine ⟨fun i hi => ?_, rfl⟩
  simp only [epilogue, List.mem_cons, List.not_mem_nil, or_false] at hi
  rcases hi with rfl | rfl | rfl | rfl
  · exact .plain rfl
  · exact .plain rfl
  · exact .plain rfl
  · exact .directive (by simp +decide [hname]) (by simp only [String.toList_append]; rfl)

end Frame

namespace Function

theorem code_eq_ok {f : Function} {c : List Inst} (h : f.code = .ok c) :
    ∃ frame : Frame, frame.name = f.name ∧ frame.size = f.frameSize ∧
      c = frame.prologue ++ f.body ++ frame.epilogue := by
  rw [code, Frame.make] at h
  by_cases haligned : f.frameSize % Convention.stackAlignment = 0
  · rw [dif_pos haligned] at h
    exact ⟨_, rfl, rfl, (Except.ok.inj h).symm⟩
  · rw [dif_neg haligned] at h
    cases h

theorem render_eq_ok_iff {f : Function} {t : String} :
    f.render = .ok t ↔ ∃ c, f.code = .ok c ∧ listing c = t := by
  rw [render]
  cases f.code with
  | error e => simp [Except.map]
  | ok c => simp [Except.map]

/-- The text of a function defines its symbols. What follows is arbitrary, so that texts can be read
one after another. -/
theorem definedSymbols_render_append {f : Function} {t : String} (hf : f.Legible)
    (h : f.render = .ok t) (text : String) :
    definedSymbols (t ++ text) = f.symbols ++ definedSymbols text := by
  obtain ⟨c, hcode, rfl⟩ := render_eq_ok_iff.1 h
  obtain ⟨frame, hname, -, rfl⟩ := code_eq_ok hcode
  obtain ⟨hprologue, hlabel⟩ := Frame.legible_prologue (hname ▸ hf.name)
  obtain ⟨hepilogue, hnone⟩ := Frame.legible_epilogue (hname ▸ hf.name)
  -- The name comes from the prologue, the labels from the body, and nothing from the epilogue.
  rw [definedSymbols_listing_append, labels_append, labels_append, hlabel, hnone, hname,
    List.append_nil]
  · rfl
  · intro i hi
    rw [List.mem_append, List.mem_append] at hi
    exact hi.elim (·.elim (hprologue i) (hf.body i)) (hepilogue i)

/-- The texts of some functions define the symbols of all of them. By induction on the functions,
with `definedSymbols_render_append` for each. -/
theorem definedSymbols_join_append {fs : List Function} {ts : List String}
    (hts : List.Forall₂ (fun f t => f.render = .ok t) fs ts) (hfs : ∀ f ∈ fs, f.Legible)
    (text : String) :
    definedSymbols (String.join ts ++ text) = fs.flatMap symbols ++ definedSymbols text := by
  induction hts with
  | nil => simp [String.join]
  | cons ht _ ih =>
    rw [List.forall_mem_cons] at hfs
    rw [String.join_cons, String.append_assoc, definedSymbols_render_append hfs.1 ht, ih hfs.2,
      List.flatMap_cons, List.append_assoc]

end Function

/-- The name of the source is in a line of its own. The other lines of the header are the same for
all units. -/
theorem oneLine_header {source : String} (h : OneLine source) : ∀ l ∈ header source, OneLine l := by
  simp +decide [header, h]

/-- The text of a unit defines its symbols, if it can be read line by line. It is put together from
the header, the functions and the lines after them. -/
theorem Program.definedSymbols_of_render {unit : Program} {text : String}
    (hsource : OneLine unit.source) (hentry : OneLine unit.entry)
    (hfunctions : ∀ f ∈ unit.functions, f.Legible) (h : unit.render = .ok text) :
    definedSymbols text = unit.symbols := by
  have hwrapper : (mainWrapper unit.entry).Legible := by
    refine ⟨(by decide : IsSymbol "main"), fun i hi => ?_⟩
    simp only [mainWrapper, clear, List.mem_cons, List.not_mem_nil, or_false] at hi
    rcases hi with rfl | rfl | rfl
    · exact .plain rfl
    · exact .of_words (by simpa [Inst.words]) (by simp [Inst.labelName?]) (by simp)
    · exact .plain rfl
  have hheader := oneLine_header hsource
  have hlabels : (header unit.source).flatMap (fun l => definedAfter [] l.toList) =
      [Runtime.writeFormat, Runtime.readFormat] := by
    -- the name of the source stands behind the first word of its line
    have hfile : definedAfter [] ("\t.file\t\"" ++ unit.source ++ "\"").toList = [] := by
      simp only [String.toList_append]
      rfl
    rw [header, List.flatMap_cons, hfile]
    decide
  rw [render] at h
  split at h
  · cases h
  · obtain ⟨ts, hts, h⟩ := bind_eq_ok_iff.1 h
    obtain ⟨wrapper, hw, h⟩ := bind_eq_ok_iff.1 h
    obtain rfl := Except.ok.inj h
    rw [String.append_assoc, String.append_assoc, definedSymbols_unlines_append hheader, hlabels,
      Function.definedSymbols_join_append (mapM_eq_ok_iff.1 hts) hfunctions,
      Function.definedSymbols_render_append hwrapper hw, symbols, List.append_assoc]
    rfl

end PascalAsm.Assembly
