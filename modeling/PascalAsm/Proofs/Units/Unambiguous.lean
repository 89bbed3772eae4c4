import PascalAsm.Proofs.RoundTrip.Numerals
import PascalAsm.Proofs.Units.Operands
import PascalAsm.Proofs.Units.Text

/-!
# The text of a unit determines the unit

Nothing in a text says where a function begins, which of its instructions belong to its frame, or
where one operand ends and the next one begins. All the same there are no two units with one text,
as long as labels do not contain the characters that stand between operands.

A text is taken apart from the outside to the inside:

* `unlines_inj` — into lines;
* `Inst.line_inj` — each line is that of one instruction, because no instruction opens like one of
  another kind (`prefixFree_forms`) and operands end at the first comma;
* `Function.code_inj` — the instructions of a function end with the first `movq` after its frame is
  open, and what makes room for its slots is told apart from its body by its kind.

**`Program.render_inj`** puts this together. `Inst.Readable` and `Inst.isBody` say which
instructions it is about.
-/

namespace PascalAsm.Assembly

/-! ## Separators -/

/-- The first separator parts a list in one way only. What stands after it may contain the separator
as often as it likes. -/
theorem parts_inj {α : Type} {sep : α} {xs ys rest rest' : List α} (hxs : sep ∉ xs) (hys : sep ∉ ys)
    (h : xs ++ sep :: rest = ys ++ sep :: rest') : xs = ys ∧ rest = rest' := by
  -- Where one list ends the other has to end too, since `sep` is in neither.
  induction xs generalizing ys with
  | nil =>
    cases ys with
    | nil => exact ⟨rfl, (List.cons.inj h).2⟩
    | cons y ys => exact absurd (List.cons.inj h).1 (List.ne_of_not_mem_cons hys)
  | cons x xs ih =>
    cases ys with
    | nil => exact absurd (List.cons.inj h).1.symm (List.ne_of_not_mem_cons hxs)
    | cons y ys =>
      obtain ⟨rfl, htail⟩ := List.cons.inj h
      obtain ⟨rfl, hrest⟩ :=
        ih (List.not_mem_of_not_mem_cons hxs) (List.not_mem_of_not_mem_cons hys) htail
      exact ⟨rfl, hrest⟩

theorem unlines_append (ls ms : List String) : unlines (ls ++ ms) = unlines ls ++ unlines ms := by
  simp [unlines]

theorem listing_flatten (cs : List (List Inst)) :
    listing cs.flatten = String.join (cs.map listing) := by
  induction cs with
  | nil => rfl
  | cons c cs ih =>
    rw [List.flatten_cons, listing, List.map_append, unlines_append, ← listing, ← listing, ih,
      List.map_cons, String.join_cons]

/-- Lines are put together in a way that can be undone. By induction on the lines, with `parts_inj`
for the first newline. -/
theorem unlines_inj {ls ms : List String} (hls : ∀ l ∈ ls, OneLine l) (hms : ∀ m ∈ ms, OneLine m)
    (h : unlines ls = unlines ms) : ls = ms := by
  -- even an empty line ends in a newline, so it is told apart from no line
  have hnil (l : String) (lines : List String) : unlines (l :: lines) ≠ unlines [] := by
    intro h
    have hchars := (toList_unlines_cons l lines).symm.trans (congrArg String.toList h)
    exact List.cons_ne_nil _ _ (List.append_eq_nil_iff.1 hchars).2
  induction ls generalizing ms with
  | nil =>
    cases ms with
    | nil => rfl
    | cons m ms => exact (hnil m ms h.symm).elim
  | cons l ls ih =>
    cases ms with
    | nil => exact (hnil l ls h).elim
    | cons m ms =>
      rw [List.forall_mem_cons] at hls hms
      have hchars := congrArg String.toList h
      rw [toList_unlines_cons, toList_unlines_cons] at hchars
      obtain ⟨hl, hrest⟩ := parts_inj hls.1 hms.1 hchars
      rw [String.toList_inj.1 hl, ih hls.2 hms.2 (String.toList_inj.1 hrest)]

/-- Two operands are told apart by the comma between them. Neither of the first ones contains a
comma, and what is behind it may be anything. -/
theorem pair_inj {a b c d : String} (ha : ',' ∉ a.toList) (hb : ',' ∉ b.toList)
    (h : a ++ (", " ++ c) = b ++ (", " ++ d)) : a = b ∧ c = d := by
  have hchars := congrArg String.toList h
  simp only [String.toList_append] at hchars
  obtain ⟨hab, hcd⟩ := parts_inj ha hb hchars
  exact ⟨String.toList_inj.1 hab, String.toList_inj.1 (List.cons.inj hcd).2⟩

/-! ## Operands -/

theorem toString_int_inj {m n : Int} (h : toString m = toString n) : m = n := by
  have hread := Numeral.integer?_toString m
  rw [h, Numeral.integer?_toString n] at hread
  exact (Option.some.inj hread).symm

/-- The spelling of an integer consists of digits, apart from a sign. So it has neither a comma nor
a parenthesis in it. -/
theorem isPart_of_mem_toString {n : Int} {c : Char} (h : c ∈ (toString n).toList) :
    Numeral.isPart c = true := by
  obtain ⟨numeral, hnumeral, -⟩ := Option.bind_eq_some_iff.1 (Numeral.integer?_toString n)
  exact Numeral.isPart_of_ofString? hnumeral c h

theorem notMem_toString {c : Char} (hc : Numeral.isPart c = false) (n : Int) :
    c ∉ (toString n).toList := fun h =>
  Bool.false_ne_true (hc.symm.trans (isPart_of_mem_toString h))

theorem Reg.name32_inj {r s : Reg} (h : r.name32 = s.name32) : r = s := by
  cases r <;> cases s <;> first | rfl | exact absurd h (by decide)

theorem Reg.name64_inj {r s : Reg} (h : r.name64 = s.name64) : r = s := by
  cases r <;> cases s <;> first | rfl | exact absurd h (by decide)

theorem Reg.length_name64 (r : Reg) : r.name64.toList.length = 4 := by cases r <;> decide

theorem Reg.comma_notMem_name64 (r : Reg) : ',' ∉ r.name64.toList := by cases r <;> decide

/-- The characters that stand between the words of a line, or at the end of it. A label in which one
of them stood would be two words to a reader. -/
def isSeparator (c : Char) : Bool := c = '\n' || c = '\t' || c = ','

/-- The text is one word of a line. Blanks are allowed, since a line is parted at tabulators and
commas. -/
def IsWord (s : String) : Prop := ∀ c ∈ s.toList, isSeparator c = false

instance (s : String) : Decidable (IsWord s) :=
  decidable_of_iff (s.toList.all (fun c => !isSeparator c) = true) (by simp [IsWord])

theorem IsWord.notMem {s : String} {c : Char} (h : IsWord s) (hc : isSeparator c = true) :
    c ∉ s.toList := fun hmem => Bool.false_ne_true ((h c hmem).symm.trans hc)

theorem IsSymbol.isWord {s : String} (h : IsSymbol s) : IsWord s := by
  intro c hc
  have hchar := h c hc
  by_contra hsep
  simp only [isSeparator, Bool.not_eq_false, Bool.or_eq_true, decide_eq_true_eq] at hsep
  rcases hsep with (rfl | rfl) | rfl <;> exact absurd hchar (by decide)

theorem IsWord.oneLine {s : String} (h : IsWord s) : OneLine s := h.notMem (by decide)

namespace Operand

theorem notMem_text_imm {c : Char} (hc : Numeral.isPart c = false) (hsign : c ≠ '$') (v : Int32) :
    c ∉ (imm v).text.toList := by
  simp only [text, String.toList_append, List.mem_append, notMem_toString hc, or_false]
  exact fun h => hsign (List.mem_singleton.1 h)

/-- Every operand but a constant names a register. A constant is a dollar sign and an integer. -/
theorem percent_notMem_text {op : Operand} : '%' ∉ op.text.toList ↔ op.isImm = true := by
  cases op with
  | reg r => cases r <;> decide
  | imm v => simp [isImm, notMem_text_imm (c := '%') (by decide) (by decide) v]
  | mem base disp => cases base <;> simp [text, isImm, Reg.name64]
  | rip label => simp [text, isImm]

/-- Only operands in memory are given by an address in parentheses. A register and a constant have
no parentheses in their texts. -/
theorem paren_mem_text {op : Operand} : ')' ∈ op.text.toList ↔ op.isMemory = true := by
  cases op with
  | reg r => cases r <;> decide
  | imm v => simp [isMemory, notMem_text_imm (c := ')') (by decide) (by decide) v]
  | mem base disp => simp [text, isMemory]
  | rip label => simp [text, isMemory]

theorem comma_notMem_text {op : Operand} (h : ∀ w ∈ op.words, IsWord w) : ',' ∉ op.text.toList := by
  -- Numbers and names of registers are decided; a label is a word, `h`.
  cases op with
  | reg r => cases r <;> decide
  | imm v => exact notMem_text_imm (by decide) (by decide) v
  | mem base disp =>
    have hdisp := notMem_toString (c := ',') (by decide) disp
    simp only [text, String.toList_append, List.mem_append, hdisp, base.comma_notMem_name64]
    decide
  | rip label =>
    have hlabel : ',' ∉ label.toList := (h label List.mem_cons_self).notMem (by decide)
    simp only [text, String.toList_append, List.mem_append, hlabel]
    decide

/-- What stands before the parentheses of an address is told apart from what stands in them, as the
names of all registers are of one length. -/
theorem address_inj {a b base base' : String}
    (hlength : base.toList.length = base'.toList.length)
    (h : a ++ "(" ++ base ++ ")" = b ++ "(" ++ base' ++ ")") : a = b ∧ base = base' := by
  have hchars := congrArg String.toList h
  simp only [String.toList_append, List.append_cancel_right_eq] at hchars
  obtain ⟨hab, hbase⟩ := List.append_inj' hchars hlength
  exact ⟨String.toList_inj.1 (List.append_cancel_right hab), String.toList_inj.1 hbase⟩

/-- The instruction pointer is not the base of another address. Otherwise an offset that reads like
a label could be taken for one. -/
theorem text_mem_ne_text_rip (base : Reg) (disp : Int) (label : String) :
    (mem base disp).text ≠ (rip label).text := by
  intro h
  have hpieces : (rip label).text = label ++ "(" ++ "%rip" ++ ")" := by
    rw [String.append_assoc, String.append_assoc]
    rfl
  have hname := (address_inj base.length_name64 (h.trans hpieces)).2
  cases base <;> exact absurd hname (by decide)

theorem text_inj {a b : Operand} (h : a.text = b.text) : a = b := by
  -- this leaves registers, constants and addresses apart, but not the two kinds of addresses
  have himm : a.isImm = b.isImm := by
    rw [Bool.eq_iff_iff, ← percent_notMem_text, ← percent_notMem_text, h]
  have hmemory : a.isMemory = b.isMemory := by
    rw [Bool.eq_iff_iff, ← paren_mem_text, ← paren_mem_text, h]
  cases a with
  | reg r =>
    cases b with
    | reg s => rw [Reg.name32_inj h]
    | imm v => cases himm
    | mem _ _ | rip _ => cases hmemory
  | imm v =>
    cases b with
    | imm w => rw [Int32.toInt_inj.1 (toString_int_inj ((String.append_right_inj _).1 h))]
    | reg _ | mem _ _ | rip _ => cases himm
  | mem base disp =>
    cases b with
    | reg _ | imm _ => cases hmemory
    | mem base' disp' =>
      have hlength := base.length_name64.trans base'.length_name64.symm
      obtain ⟨hdisp, hname⟩ := address_inj hlength h
      rw [toString_int_inj hdisp, Reg.name64_inj hname]
    | rip label => exact (text_mem_ne_text_rip base disp label h).elim
  | rip label =>
    cases b with
    | reg _ | imm _ => cases hmemory
    | mem base disp => exact (text_mem_ne_text_rip base disp label h.symm).elim
    | rip label' => rw [(String.append_left_inj _).1 h]

/-- An operand ends at the comma after it. No operand has a comma in its text, unless a label in it
has one, which `ha` rules out. -/
theorem source_inj {a b : Operand} {c d : String} (ha : ∀ w ∈ a.words, IsWord w)
    (hb : ∀ w ∈ b.words, IsWord w) (h : a.text ++ (", " ++ c) = b.text ++ (", " ++ d)) :
    a = b ∧ c = d := by
  obtain ⟨hab, hcd⟩ := pair_inj (comma_notMem_text ha) (comma_notMem_text hb) h
  exact ⟨text_inj hab, hcd⟩

end Operand

/-! ## Instructions -/

/-- The line of the instruction is not longer than it should be: every label in it is one word, and
a comment is one line. A line for the assembler begins with a point, as no other line does. -/
def Inst.Readable : Inst → Prop
  | .directive line => OneLine line ∧ ['.'] <+: line.toList
  | .comment line => OneLine line
  | i => ∀ w ∈ i.words, IsWord w

/-- The instruction can stand in a body: it has no part in opening or closing a frame. -/
def Inst.isBody : Inst → Bool
  | .movq .. | .pushq _ | .popq _ | .subq .. | .ret | .directive _ => false
  | _ => true

namespace Inst

/-- What is left of an instruction without its operands. The name of an arithmetic operation and the
condition of a jump stay, since they are in the mnemonic. -/
def form : Inst → Inst
  | movl .. => movl (.imm 0) (.imm 0)
  | arith op .. => arith op (.imm 0) (.imm 0)
  | negl _ => negl (.imm 0)
  | cmpl .. => cmpl (.imm 0) (.imm 0)
  | cdq => cdq
  | idivl _ => idivl (.imm 0)
  | movq .. => movq .rax .rax
  | pushq _ => pushq .rax
  | popq _ => popq .rax
  | subq .. => subq 0 .rax
  | leaq .. => leaq (.imm 0) .rax
  | jmp _ => jmp ""
  | jcc c _ => jcc c ""
  | call _ => call ""
  | ret => ret
  | label _ => label ""
  | directive _ => directive ""
  | comment _ => comment ""

/-- The beginning that the texts of all instructions of one form have in common. It goes up to the
first operand, if there is one. -/
def opening : Inst → String
  | movl .. => "movl\t"
  | arith op .. => op.mnemonic ++ "\t"
  | negl _ => "negl\t"
  | cmpl .. => "cmpl\t"
  | cdq => "cdq"
  | idivl _ => "idivl\t"
  | movq .. => "movq\t"
  | pushq _ => "pushq\t"
  | popq _ => "popq\t"
  | subq .. => "subq\t$"
  | leaq .. => "leaq\t"
  | jmp _ => "jmp\t"
  | jcc c _ => "j" ++ c.suffix ++ "\t"
  | call _ => "call\t"
  | ret => "ret"
  | label _ => ""
  | directive _ => "."
  | comment _ => "# "

/-- The forms of all instructions but labels. They are finitely many, so facts about all of them can
be decided. -/
def forms : List Inst :=
  [movl (.imm 0) (.imm 0), cmpl (.imm 0) (.imm 0)]
  ++ [.add, .sub, .imul].map (fun op => arith op (.imm 0) (.imm 0))
  ++ [negl (.imm 0), idivl (.imm 0), cdq, movq .rax .rax, pushq .rax, popq .rax, subq 0 .rax,
      leaq (.imm 0) .rax]
  ++ [.e, .ne, .l, .le, .g, .ge].map (fun c => jcc c "")
  ++ [jmp "", call "", ret, directive "", comment ""]

theorem form_mem_forms {i : Inst} (h : i.isLabel = false) : i.form ∈ forms := by
  cases i with
  | label name => cases h
  | arith op => cases op <;> simp [form, forms]
  | jcc c => cases c <;> simp [form, forms]
  | _ => simp [form, forms]

@[simp] theorem opening_form (i : Inst) : i.form.opening = i.opening := by cases i <;> rfl

/-- No instruction opens like one of another form. It is decided for all pairs, and two lines that
are equal have one opening by it. -/
theorem prefixFree_forms :
    ∀ i ∈ forms, ∀ j ∈ forms, i.opening.toList <+: j.opening.toList → i = j := by
  decide +kernel

section

variable {i j : Inst}

/-- An instruction without words is readable. What could be mistaken are the words only. -/
theorem Readable.plain (h : i.words = []) : i.Readable := by
  cases i <;> simp_all [Readable, words]

theorem Readable.opening_prefix (hi : i.Readable) : i.opening.toList <+: i.text.toList := by
  cases i with
  | directive line =>
    have hpoint : ['.'] <+: line.toList := hi.2
    simpa [opening, text] using hpoint
  | cdq | ret => exact List.prefix_refl _
  | label name => exact List.nil_prefix
  | _ =>
    simp only [opening, text, String.toList_append, List.append_assoc]
    simp

/-- A readable line begins with a tabulator, unless it is a label. That is how labels are told from
the other instructions. -/
theorem Readable.not_tab_prefix (hi : i.Readable) :
    ¬ ['\t'] <+: i.line.toList ↔ i.isLabel = true := by
  cases i with
  -- A label stands at the margin, and its name has no tabulator.
  | label name =>
    refine ⟨fun _ => rfl, fun _ h => ?_⟩
    have hmem : '\t' ∈ (name ++ ":").toList := h.subset List.mem_cons_self
    rw [String.toList_append, List.mem_append] at hmem
    rcases hmem with hmem | hmem
    · exact (IsWord.notMem (hi name List.mem_cons_self) (by decide) hmem).elim
    · exact absurd hmem (by decide)
  | _ => simp [isLabel, line]

/-- Instructions of one form are told apart by their operands. By cases on the form; each part is
found again by `source_inj`, or stands at the end of the line. -/
theorem text_inj (hi : i.Readable) (hj : j.Readable) (hform : i.form = j.form)
    (h : i.text = j.text) : i = j := by
  -- two instructions with one form are of one kind
  cases i <;> cases j <;> cases hform
  case cdq.cdq | ret.ret => rfl
  all_goals
    simp only [text, String.append_assoc, String.append_right_inj, String.append_left_inj] at h
  case movl.movl src dest src' dest' | cmpl.cmpl src dest src' dest' |
      arith.arith op src dest src' dest' =>
    obtain ⟨rfl, hdest⟩ := Operand.source_inj (fun w hw => hi w (List.mem_append_left _ hw))
      (fun w hw => hj w (List.mem_append_left _ hw)) h
    rw [Operand.text_inj hdest]
  case leaq.leaq src dest src' dest' =>
    obtain ⟨rfl, hdest⟩ := Operand.source_inj hi hj h
    rw [Reg.name64_inj hdest]
  case movq.movq src dest src' dest' =>
    obtain ⟨hsrc, hdest⟩ := pair_inj src.comma_notMem_name64 src'.comma_notMem_name64 h
    rw [Reg.name64_inj hsrc, Reg.name64_inj hdest]
  case subq.subq amount r amount' r' =>
    have hcomma (n : Nat) : ',' ∉ n.repr.toList := (isSymbol_repr n).isWord.notMem (by decide)
    obtain ⟨hamount, hr⟩ := pair_inj (hcomma amount) (hcomma amount') h
    rw [Nat.repr_inj.1 hamount, Reg.name64_inj hr]
  case negl.negl op op' | idivl.idivl op op' => rw [Operand.text_inj h]
  case pushq.pushq r r' | popq.popq r r' => rw [Reg.name64_inj h]
  -- what is left consists of one word or of one line
  all_goals rw [h]

/-- No two instructions have one line. Their forms are equal by `prefixFree_forms`, and then their
operands by `text_inj`. -/
theorem line_inj (hi : i.Readable) (hj : j.Readable) (h : i.line = j.line) : i = j := by
  have hlabel : i.isLabel = j.isLabel := by
    rw [Bool.eq_iff_iff, ← hi.not_tab_prefix, ← hj.not_tab_prefix, h]
  have htext : i.text = j.text := by
    rw [line, line, ← hlabel] at h
    split at h
    · exact h
    · exact (String.append_right_inj _).1 h
  refine text_inj hi hj ?_ htext
  cases hmargin : i.isLabel with
  | true =>
    obtain ⟨name, rfl⟩ : ∃ name, i = .label name := by cases i <;> simp_all [isLabel]
    obtain ⟨name', rfl⟩ : ∃ name', j = .label name' := by cases j <;> simp_all [isLabel]
    rfl
  | false =>
    have himem := form_mem_forms hmargin
    have hjmem := form_mem_forms (hlabel.symm.trans hmargin)
    -- both openings are at the beginning of one text, so one is at the beginning of the other
    have hopening := htext ▸ hi.opening_prefix
    rcases List.prefix_or_prefix_of_prefix hopening hj.opening_prefix with h | h
    · exact prefixFree_forms _ himem _ hjmem (by rwa [opening_form, opening_form])
    · exact (prefixFree_forms _ hjmem _ himem (by rwa [opening_form, opening_form])).symm

end

theorem Readable.oneLine_line {i : Inst} (hi : i.Readable) : OneLine i.line := by
  have htext : OneLine i.text := by
    cases i with
    | directive line => exact And.left hi
    | comment line => exact oneLine_text (List.forall_mem_singleton.2 hi)
    | _ => exact oneLine_text fun w hw => (hi w hw).oneLine
  rw [line]
  split
  · exact htext
  · exact oneLine_append.2 ⟨by decide, htext⟩

theorem lines_inj {xs ys : List Inst} (hxs : ∀ i ∈ xs, i.Readable) (hys : ∀ i ∈ ys, i.Readable)
    (h : xs.map line = ys.map line) : xs = ys := by
  induction xs generalizing ys with
  | nil => exact (List.map_eq_nil_iff.1 h.symm).symm
  | cons x xs ih =>
    obtain ⟨y, ys, rfl⟩ : ∃ y zs, ys = y :: zs := List.exists_cons_of_ne_nil (by rintro rfl; cases h)
    obtain ⟨hhead, htail⟩ := List.cons.inj h
    rw [List.forall_mem_cons] at hxs hys
    rw [line_inj hxs.1 hys.1 hhead, ih hxs.2 hys.2 htail]

end Inst

/-! ## Functions -/

/-- The name of the function is one word, and no instruction of its body could be taken for one of the
frame or for two. -/
structure Function.Readable (f : Function) : Prop where
  name : IsWord f.name
  body : ∀ i ∈ f.body, i.isBody = true ∧ i.Readable

namespace Frame

/-- The instruction that makes room for slots, if there are any. It stands between the frame and the
body. -/
def room (size : Nat) : List Inst := if size = 0 then [] else [.subq size .rsp]

theorem room_inj {m n : Nat} (h : room m = room n) : m = n := by
  unfold room at h
  split at h <;> split at h <;> simp_all

theorem eq_subq_of_mem_room {size : Nat} {i : Inst} (h : i ∈ room size) : i = .subq size .rsp := by
  unfold room at h
  split at h
  · cases h
  · exact List.mem_singleton.1 h

end Frame

namespace Function

variable {f g : Function} {c d : List Inst}

/-- What is around the body of a function depends on its name and on the size of its frame. -/
theorem code_eq_pieces (h : f.code = .ok c) :
    c = [Inst.directive (".globl\t" ++ f.name), .directive (".type\t" ++ f.name ++ ", @function"),
        .label f.name, .pushq .rbp, .movq .rsp .rbp] ++ (Frame.room f.frameSize ++ f.body) ++
      [.movq .rbp .rsp, .popq .rbp, .ret, .directive (".size\t" ++ f.name ++ ", .-" ++ f.name)] := by
  obtain ⟨frame, hname, hsize, rfl⟩ := code_eq_ok h
  rw [Frame.prologue, Frame.epilogue, hname, hsize, ← Frame.room, ← List.append_assoc]

theorem Readable.code (hf : f.Readable) (h : f.code = .ok c) : ∀ i ∈ c, i.Readable := by
  have hname := hf.name.oneLine
  have hdirective {line : String} (hline : OneLine line) (hpoint : ['.'] <+: line.toList) :
    (Inst.directive line).Readable := ⟨hline, hpoint⟩
  rw [code_eq_pieces h]
  simp only [List.forall_mem_append, List.forall_mem_cons]
  -- Piece by piece: directives, the label, the frame, the body, and the frame again.
  refine ⟨⟨⟨?_, ?_, ?_, ?_, ?_, List.forall_mem_nil _⟩, ?_, fun i hi => (hf.body i hi).2⟩,
    ?_, ?_, ?_, ?_, List.forall_mem_nil _⟩
  · exact hdirective (by simp +decide [hname]) (by simp)
  · exact hdirective (by simp +decide [hname]) (by simp)
  · exact List.forall_mem_singleton.2 hf.name
  · exact .plain rfl
  · exact .plain rfl
  · intro i hi
    obtain rfl := Frame.eq_subq_of_mem_room hi
    exact .plain rfl
  · exact .plain rfl
  · exact .plain rfl
  · exact .plain rfl
  · exact hdirective (by simp +decide [hname]) (by simp)

/-- Room and body are told apart by the kinds of their instructions. No body begins with an
instruction that moves the stack pointer. -/
theorem room_append_body_inj (hf : f.Readable) (hg : g.Readable)
    (h : Frame.room f.frameSize ++ f.body = Frame.room g.frameSize ++ g.body) :
    f.frameSize = g.frameSize ∧ f.body = g.body := by
  -- Making room is no instruction of a body, so filtering by `isBody` takes the two apart.
  have hframe {k : Function} (hk : k.Readable) :
      (Frame.room k.frameSize ++ k.body).filter (fun i => !i.isBody) = Frame.room k.frameSize := by
    have hroom (i : Inst) (hi : i ∈ Frame.room k.frameSize) : (!i.isBody) = true := by
      rw [Frame.eq_subq_of_mem_room hi]
      rfl
    have hbody (i : Inst) (hi : i ∈ k.body) : ¬ (!i.isBody) = true := by
      simp [(hk.body i hi).1]
    rw [List.filter_append, List.filter_eq_self.2 hroom, List.filter_eq_nil_iff.2 hbody,
      List.append_nil]
  have hroom : Frame.room f.frameSize = Frame.room g.frameSize := by
    rw [← hframe hf, h, hframe hg]
  rw [hroom] at h
  exact ⟨Frame.room_inj hroom, List.append_cancel_left h⟩

/-- The frame is not closed before the body is over. Closing begins with a `movq`, and no body has
one, by `Inst.isBody`. -/
theorem Readable.movq_notMem (hf : f.Readable) :
    Inst.movq .rbp .rsp ∉ Frame.room f.frameSize ++ f.body := by
  intro h
  rcases List.mem_append.1 h with h | h
  · cases Frame.eq_subq_of_mem_room h
  · cases (hf.body _ h).1

/-- Texts of functions are made from their codes. Texts of different functions can then be compared
instruction by instruction. -/
theorem exists_codes_of_texts {fs : List Function} {ts : List String}
    (hts : List.Forall₂ (fun f t => f.render = .ok t) fs ts) :
    ∃ cs, List.Forall₂ (fun f c => f.code = .ok c) fs cs ∧ ts = cs.map listing := by
  induction hts with
  | nil => exact ⟨[], .nil, rfl⟩
  | cons ht _ ih =>
    obtain ⟨c, hc, rfl⟩ := render_eq_ok_iff.1 ht
    obtain ⟨cs, hcs, rfl⟩ := ih
    exact ⟨c :: cs, .cons hc hcs, rfl⟩

/-- From where the code of a function begins, it can be told where it ends and of which function it is.
-/
theorem code_inj (hf : f.Readable) (hg : g.Readable) (hc : f.code = .ok c) (hd : g.code = .ok d)
    {rest rest' : List Inst} (h : c ++ rest = d ++ rest') : f = g ∧ rest = rest' := by
  rw [code_eq_pieces hc, code_eq_pieces hd] at h
  simp only [List.append_assoc, List.cons_append, List.nil_append, List.cons.injEq,
    Inst.directive.injEq, String.append_right_inj] at h
  obtain ⟨hname, -, -, -, -, h⟩ := h
  -- the frame is open now, and the next `movq` closes it
  rw [← List.append_assoc, ← List.append_assoc] at h
  obtain ⟨hpieces, hrest⟩ := parts_inj hf.movq_notMem hg.movq_notMem h
  obtain ⟨hsize, hbody⟩ := room_append_body_inj hf hg hpieces
  simp only [List.cons.injEq] at hrest
  refine ⟨?_, hrest.2.2.2⟩
  cases f; cases g
  cases hname; cases hsize; cases hbody
  rfl

theorem Readable.codes {fs : List Function} {cs : List (List Inst)}
    (hcs : List.Forall₂ (fun f c => f.code = .ok c) fs cs) (hfs : ∀ f ∈ fs, f.Readable) :
    ∀ i ∈ cs.flatten, i.Readable := by
  induction hcs with
  | nil => exact List.forall_mem_nil _
  | cons hc _ ih =>
    rw [List.forall_mem_cons] at hfs
    exact List.forall_mem_append.2 ⟨hfs.1.code hc, ih hfs.2⟩

end Function

/-! ## Units -/

/-- Names are as long as they seem to be in the text of the unit, and all its functions are readable.
-/
structure Program.Readable (unit : Program) : Prop where
  source : OneLine unit.source
  entry : IsWord unit.entry
  functions : ∀ f ∈ unit.functions, f.Readable

namespace Program

/-- The lines after the functions, as instructions. They are directives, which no function has in
its body. -/
def closing : List Inst :=
  [.directive ".ident\t\"GPC: 0.1.0\"",
   .directive ".section\t.note.GNU-stack,\"\",@progbits"]

/-- The functions of a unit, and `main` after them. All of them are written in the same way. -/
def allFunctions (unit : Program) : List Function := unit.functions ++ [mainWrapper unit.entry]

theorem Readable.allFunctions {unit : Program} (hu : unit.Readable) :
    ∀ f ∈ unit.allFunctions, f.Readable := by
  intro f hf
  rcases List.mem_append.1 hf with hf | hf
  · exact hu.functions f hf
  · obtain rfl := List.mem_singleton.1 hf
    refine ⟨(by decide : IsSymbol "main").isWord, ?_⟩
    simp only [mainWrapper, clear, List.forall_mem_cons]
    exact ⟨⟨rfl, .plain rfl⟩, ⟨rfl, List.forall_mem_singleton.2 hu.entry⟩, ⟨rfl, .plain rfl⟩,
      List.forall_mem_nil _⟩

/-- A text consists of the header and of the codes of all functions. The lines of it are those of
`closing` at the end, and of the functions in between. -/
theorem exists_codes_of_render {unit : Program} {text : String} (h : unit.render = .ok text) :
    ∃ codes, List.Forall₂ (fun f c => f.code = .ok c) unit.allFunctions codes ∧
      text = unlines (header unit.source ++ (codes.flatten ++ closing).map Inst.line) := by
  rw [render] at h
  split at h
  · cases h
  · obtain ⟨texts, htexts, h⟩ := bind_eq_ok_iff.1 h
    obtain ⟨wrapper, hwrapper, h⟩ := bind_eq_ok_iff.1 h
    obtain ⟨codes, hcodes, rfl⟩ := Function.exists_codes_of_texts (mapM_eq_ok_iff.1 htexts)
    obtain ⟨c, hc, rfl⟩ := Function.render_eq_ok_iff.1 hwrapper
    refine ⟨codes ++ [c], List.rel_append hcodes (.cons hc .nil), ?_⟩
    -- The footer is written as if it were the code of a function.
    have hfooter : unlines footer = listing closing := rfl
    rw [← Except.ok.inj h, hfooter, ← listing_flatten, listing, listing, listing, ← unlines_append,
      ← unlines_append, ← unlines_append, List.flatten_append, List.flatten_singleton,
      List.map_append, List.map_append, List.append_assoc, List.append_assoc, List.append_assoc]

/-- The codes of some functions one after another are those of no other functions. Induction on the
functions. -/
theorem functions_inj {fs gs : List Function} {cs ds : List (List Inst)}
    (hcs : List.Forall₂ (fun f c => f.code = .ok c) fs cs)
    (hds : List.Forall₂ (fun f c => f.code = .ok c) gs ds)
    (hfs : ∀ f ∈ fs, f.Readable) (hgs : ∀ g ∈ gs, g.Readable)
    (h : cs.flatten ++ closing = ds.flatten ++ closing) : fs = gs := by
  -- a function begins with a line that the closing lines do not begin with
  have hclosing {f : Function} {c rest : List Inst} (hc : f.code = .ok c) : c ++ rest ≠ closing := by
    rw [Function.code_eq_pieces hc, closing]
    intro h
    have hglobal := congrArg String.toList (Inst.directive.inj (List.cons.inj h).1)
    simp at hglobal
  induction hcs generalizing gs ds with
  | nil =>
    cases hds with
    | nil => rfl
    | cons hd hds => exact (hclosing hd (by simpa using h.symm)).elim
  | cons hc hcs ih =>
    cases hds with
    | nil => exact (hclosing hc (by simpa using h)).elim
    | cons hd hds =>
      rw [List.forall_mem_cons] at hfs hgs
      rw [List.flatten_cons, List.flatten_cons, List.append_assoc, List.append_assoc] at h
      obtain ⟨rfl, h⟩ := Function.code_inj hfs.1 hgs.1 hc hd h
      rw [ih hds hfs.2 hgs.2 h]

theorem Readable.lines {unit : Program} (hu : unit.Readable) {cs : List (List Inst)}
    (hcs : List.Forall₂ (fun f c => f.code = .ok c) unit.allFunctions cs) :
    (∀ i ∈ cs.flatten ++ closing, i.Readable) ∧
    ∀ l ∈ header unit.source ++ (cs.flatten ++ closing).map Inst.line, OneLine l := by
  -- The closing lines are directives, which can be decided.
  have hclosing : ∀ i ∈ closing, i.Readable := by
    simp only [closing, List.forall_mem_cons]
    exact ⟨⟨by decide, by simp⟩, ⟨by decide, by simp⟩, List.forall_mem_nil _⟩
  have hall := List.forall_mem_append.2 ⟨Function.Readable.codes hcs hu.allFunctions, hclosing⟩
  refine ⟨hall, List.forall_mem_append.2 ⟨oneLine_header hu.source, fun l hl => ?_⟩⟩
  obtain ⟨i, hi, rfl⟩ := List.mem_map.1 hl
  exact (hall i hi).oneLine_line

/-- Two readable units have one text if and only if they are one unit. The other direction is that
rendering is a function. -/
theorem render_inj {u v : Program} {s t : String} (hu : u.Readable) (hv : v.Readable)
    (hs : u.render = .ok s) (ht : v.render = .ok t) : s = t ↔ u = v := by
  constructor
  · rintro rfl
    obtain ⟨cs, hcs, rfl⟩ := exists_codes_of_render hs
    obtain ⟨ds, hds, h⟩ := exists_codes_of_render ht
    obtain ⟨huread, huline⟩ := hu.lines hcs
    obtain ⟨hvread, hvline⟩ := hv.lines hds
    obtain ⟨hheader, hcode⟩ := List.append_inj (unlines_inj huline hvline h) rfl
    have hsource := (List.cons.inj hheader).1
    rw [String.append_left_inj, String.append_right_inj] at hsource
    have hcodes := Inst.lines_inj huread hvread hcode
    have hall := functions_inj hcs hds hu.allFunctions hv.allFunctions hcodes
    obtain ⟨hfunctions, hmain⟩ := List.append_inj' hall rfl
    have hentry : u.entry = v.entry := by simpa [mainWrapper] using hmain
    -- the source, the functions and the entry are all there is to a unit
    cases u; cases v
    cases hsource; cases hfunctions; cases hentry
    rfl
  · rintro rfl
    exact Except.ok.inj (hs.symm.trans ht)

/-- A unit of one function, which loads something. -/
def loading (datum : Operand) : Program where
  source := "load.pas"
  entry := "load"
  functions := [⟨"load", 16, [.movl datum (.reg .rdi)]⟩]

theorem readable_loading {datum : Operand} (h : ∀ w ∈ datum.words, IsWord w) :
    (loading datum).Readable := by
  have hname : IsWord "load" := IsSymbol.isWord (by decide)
  refine ⟨(by decide : OneLine "load.pas"), hname, List.forall_mem_singleton.2 ⟨hname, ?_⟩⟩
  exact List.forall_mem_singleton.2 ⟨rfl, List.forall_mem_append.2 ⟨h, List.forall_mem_nil _⟩⟩

/-- A label can look like a displacement, and the text still shows which of them it is: the two units
differ in one operand, and both operands are written with a number and a register. -/
theorem render_loading_ne : ∃ s t, (loading (.mem .rax 5)).render = .ok s ∧
    (loading (.rip "5")).render = .ok t ∧ s ≠ t := by
  have hmem : (loading (.mem .rax 5)).Readable := readable_loading (List.forall_mem_nil _)
  have hrip : (loading (.rip "5")).Readable :=
    readable_loading (List.forall_mem_singleton.2 (by decide))
  refine ⟨_, _, rfl, rfl, fun h => ?_⟩
  have hsame := (render_inj hmem hrip rfl rfl).1 h
  exact absurd hsame (by decide)

end Program

end PascalAsm.Assembly
