/-!
# Instructions

The part of the x86-64 instruction set that compiled programs use, and its text in AT&T syntax,
source operand first.

* `Reg`: the registers, with a 32-bit and a 64-bit name;
* `Operand`: the operands of 32-bit instructions;
* `Condition`: the conditions of conditional jumps after a signed comparison, with `holds` for
  their meaning and `holds_inverse` for the opposite condition;
* `Inst`: the instructions and the lines of assembler text that belong to a function body, with
  `Inst.text` for one of them and `listing` for a sequence.
-/

namespace PascalAsm.Assembly

/-! ### Registers -/

/-- A general purpose register. -/
inductive Reg where
  | rax
  | rcx
  | rdx
  | rsi
  | rdi
  | rbp
  | rsp
deriving DecidableEq

namespace Reg

/-- The name of the whole register. -/
def name64 : Reg → String
  | rax => "%rax"
  | rcx => "%rcx"
  | rdx => "%rdx"
  | rsi => "%rsi"
  | rdi => "%rdi"
  | rbp => "%rbp"
  | rsp => "%rsp"

/-- The name of the lower half, on which 32-bit arithmetic works. -/
def name32 : Reg → String
  | rax => "%eax"
  | rcx => "%ecx"
  | rdx => "%edx"
  | rsi => "%esi"
  | rdi => "%edi"
  | rbp => "%ebp"
  | rsp => "%esp"

/-- The name of the register without the sign that marks registers in assembly text. -/
def bareName : Reg → String
  | rax => "rax"
  | rcx => "rcx"
  | rdx => "rdx"
  | rsi => "rsi"
  | rdi => "rdi"
  | rbp => "rbp"
  | rsp => "rsp"

end Reg

/-! ### Operands -/

/-- An operand of a 32-bit instruction. Memory is addressed relative to a register or to the
instruction pointer, and in no other way. -/
inductive Operand where
  /-- The lower half of a register. -/
  | reg (r : Reg)
  /-- A constant. -/
  | imm (value : Int32)
  /-- The doubleword `disp` bytes above the address in `base`. -/
  | mem (base : Reg) (disp : Int)
  /-- The datum at a label, addressed from the instruction pointer. -/
  | rip (label : String)
deriving DecidableEq

namespace Operand

/-- The displacement of a slot that lies `offset` bytes below the frame pointer. A displacement is
a signed doubleword, so an offset that fits an unsigned one is read as that; a greater offset is
beyond every frame and only changes its sign. -/
def slotDisplacement (offset : Nat) : Int :=
  -- offsets are unsigned doublewords and displacements signed ones
  if offset < UInt32.size then -(Int.bmod offset UInt32.size) else -offset

/-- The frame slot `offset` bytes below the frame pointer. -/
def frameSlot (offset : Nat) : Operand := .mem .rbp (slotDisplacement offset)

/-- In the lower half of the range an offset and its displacement are opposite numbers. -/
theorem slotDisplacement_of_lt {offset : Nat} (h : 2 * offset < UInt32.size) :
    slotDisplacement offset = -offset := by
  simp only [slotDisplacement, UInt32.size] at *
  rw [if_pos (by omega), Int.bmod_def]
  omega

/-- Whether the operand is a constant. -/
def isImm : Operand → Bool
  | imm _ => true
  | _ => false

/-- The operand in assembly text. -/
def text : Operand → String
  | reg r => r.name32
  | imm v => "$" ++ toString v.toInt
  | mem base disp => toString disp ++ "(" ++ base.name64 ++ ")"
  | rip label => label ++ "(%rip)"

end Operand

/-! ### Arithmetic and conditions -/

/-- Two-operand arithmetic that leaves its result in the destination. -/
inductive ArithOp where
  | add
  | sub
  | imul
deriving DecidableEq

/-- The mnemonic of the 32-bit form. -/
def ArithOp.mnemonic : ArithOp → String
  | add => "addl"
  | sub => "subl"
  | imul => "imull"

/-- The condition of a conditional jump, read after a signed comparison. -/
inductive Condition where
  | e
  | ne
  | l
  | le
  | g
  | ge
deriving DecidableEq

namespace Condition

/-- The condition that holds exactly when this one does not. -/
def inverse : Condition → Condition
  | e => ne
  | ne => e
  | l => ge
  | le => g
  | g => le
  | ge => l

/-- The letters that follow `j` or `set` for this condition. -/
def suffix : Condition → String
  | e => "e"
  | ne => "ne"
  | l => "l"
  | le => "le"
  | g => "g"
  | ge => "ge"

/-- Whether the condition holds after `cmpl src, dest`: the destination is the left side. -/
def holds (c : Condition) (dest src : Int32) : Bool :=
  match c with
  | e => dest = src
  | ne => dest ≠ src
  | l => dest < src
  | le => dest ≤ src
  | g => src < dest
  | ge => src ≤ dest

/-- The inverse holds exactly when the condition does not: signed order is total. -/
theorem holds_inverse (c : Condition) (dest src : Int32) :
    c.inverse.holds dest src = !c.holds dest src := by
  have lt_le (a b : Int32) : b ≤ a ↔ ¬ a < b := by
    rw [Int32.le_iff_toInt_le, Int32.lt_iff_toInt_lt, Int.not_lt]
  cases c with
  | e => exact decide_not
  | ne => simp only [inverse, holds, ne_eq, decide_not, Bool.not_not]
  | l => simp only [inverse, holds, lt_le dest src, decide_not]
  | le => simp only [inverse, holds, lt_le src dest, decide_not, Bool.not_not]
  | g => simp only [inverse, holds, lt_le src dest, decide_not]
  | ge => simp only [inverse, holds, lt_le dest src, decide_not, Bool.not_not]

end Condition

/-! ### Instructions -/

/-- One line of a function: an instruction, or a line for the assembler. -/
inductive Inst where
  /-- Moves a doubleword. -/
  | movl (src dest : Operand)
  /-- Combines the source into the destination. -/
  | arith (op : ArithOp) (src dest : Operand)
  /-- Negates a doubleword. -/
  | negl (dest : Operand)
  /-- Compares the destination with the source and sets the flags. -/
  | cmpl (src dest : Operand)
  /-- Extends the sign of `%eax` into `%edx`. -/
  | cdq
  /-- Divides `%edx:%eax`: quotient to `%eax`, remainder to `%edx`. -/
  | idivl (divisor : Operand)
  | movq (src dest : Reg)
  | pushq (r : Reg)
  | popq (r : Reg)
  /-- Lowers a register by a constant. -/
  | subq (amount : Nat) (r : Reg)
  /-- Loads the address of a memory operand. -/
  | leaq (src : Operand) (dest : Reg)
  | jmp (target : String)
  | jcc (condition : Condition) (target : String)
  | call (target : String)
  | ret
  /-- Defines a label at this place. -/
  | label (name : String)
  /-- A line for the assembler itself. -/
  | directive (line : String)
  | comment (line : String)
deriving DecidableEq

namespace Inst

/-- Whether the line defines a label; such a line is not indented. -/
def isLabel : Inst → Bool
  | label _ => true
  | _ => false

/-- The mnemonic, a tabulator, and the operands. -/
def text : Inst → String
  | movl src dest => "movl\t" ++ src.text ++ ", " ++ dest.text
  | arith op src dest => op.mnemonic ++ "\t" ++ src.text ++ ", " ++ dest.text
  | negl dest => "negl\t" ++ dest.text
  | cmpl src dest => "cmpl\t" ++ src.text ++ ", " ++ dest.text
  | cdq => "cdq"
  | idivl divisor => "idivl\t" ++ divisor.text
  | movq src dest => "movq\t" ++ src.name64 ++ ", " ++ dest.name64
  | pushq r => "pushq\t" ++ r.name64
  | popq r => "popq\t" ++ r.name64
  | subq amount r => "subq\t$" ++ toString amount ++ ", " ++ r.name64
  | leaq src dest => "leaq\t" ++ src.text ++ ", " ++ dest.name64
  | jmp target => "jmp\t" ++ target
  | jcc c target => "j" ++ c.suffix ++ "\t" ++ target
  | call target => "call\t" ++ target
  | ret => "ret"
  | label name => name ++ ":"
  | directive line => line
  | comment line => "# " ++ line

/-- The whole line: labels stand at the margin, all else one tabulator in. -/
def line (i : Inst) : String := if i.isLabel then i.text else "\t" ++ i.text

end Inst

/-! ### Listings -/

/-- Lines of text, each ended by a newline. -/
def unlines (lines : List String) : String := String.join (lines.map (· ++ "\n"))

/-- Instructions as text, one a line. It ends with a newline, so listings can be put one after
another. -/
def listing (code : List Inst) : String := unlines (code.map Inst.line)

end PascalAsm.Assembly
