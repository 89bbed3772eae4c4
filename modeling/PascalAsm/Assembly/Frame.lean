import PascalAsm.Assembly.Instruction

/-!
# Calls and stack frames

What compiled code keeps of the System V calling convention for x86-64, restricted to integers:
which register carries which argument, how a frame is sized, and the instructions that open and
close it.

A frame reaches from the frame pointer down to the stack pointer. It holds the slots of the
arguments, then of the locals, then of the temporaries. `align_mod` and `le_align` say that its
size is rounded up to the stack alignment.
-/

namespace PascalAsm.Assembly

namespace Convention

/-- The registers of the integer arguments, in order. -/
def argumentRegs : List Reg := [.rdi, .rsi, .rdx, .rcx]

/-- No more arguments than this are passed: there is no passing on the stack. -/
def maxArguments : Nat := argumentRegs.length

/-- Holds a function's result, and the dividend and quotient of a division. -/
def resultReg : Reg := .rax

/-- Holds the remainder of a division. -/
def remainderReg : Reg := .rdx

/-- Tells a variadic function how many vector registers carry arguments. -/
def vectorCountReg : Reg := .rax

/-- The stack pointer is a multiple of this at every call. -/
def stackAlignment : Nat := 16

/-- The bytes between a caller's and a callee's frame: return address and saved frame pointer. -/
def reservedBytes : Nat := 16

end Convention

/-- How a function can break the calling convention. -/
inductive ConventionError where
  /-- More arguments are asked for than travel in registers. -/
  | tooManyArguments (count : Nat)
  /-- A frame would leave the stack pointer misaligned. -/
  | misalignedFrame (size : Nat)
deriving DecidableEq

/-- What is said about a breach of the calling convention. -/
def ConventionError.message : ConventionError → String
  | .tooManyArguments count =>
    "Too many arguments: " ++ toString count ++ " (maximum: "
      ++ toString Convention.maxArguments ++ ")"
  | .misalignedFrame size =>
    "Stack frame of " ++ toString size ++ " bytes is not "
      ++ toString Convention.stackAlignment ++ "-byte aligned"

/-- The register of the argument at a position counted from zero. Where there is none, the error
tells how many arguments that would take. -/
def argumentReg (index : Nat) : Except ConventionError Reg :=
  match Convention.argumentRegs[index]? with
  | some r => .ok r
  | none => .error (.tooManyArguments (index + 1))

/-! ### Sizes -/

/-- The least multiple of the stack alignment that holds `bytes`. -/
def align (bytes : Nat) : Nat :=
  (bytes + Convention.stackAlignment - 1) / Convention.stackAlignment * Convention.stackAlignment

theorem align_mod (bytes : Nat) : align bytes % Convention.stackAlignment = 0 :=
  Nat.mul_mod_left _ _

theorem le_align (bytes : Nat) : bytes ≤ align bytes := by
  simp only [align, Convention.stackAlignment]; omega

theorem align_lt (bytes : Nat) : align bytes < bytes + Convention.stackAlignment := by
  simp only [align, Convention.stackAlignment]; omega

/-! ### Opening and closing a frame -/

/-- The frame of a named function: `size` is what the function takes off the stack pointer. That it
keeps the stack aligned is part of it, so a misaligned one cannot be opened. -/
structure Frame where
  name : String
  size : Nat
  aligned : size % Convention.stackAlignment = 0

namespace Frame

/-- The frame of that size, if it keeps the stack aligned. -/
def make (name : String) (size : Nat) : Except ConventionError Frame :=
  if h : size % Convention.stackAlignment = 0 then .ok ⟨name, size, h⟩
  else .error (.misalignedFrame size)

/-- Announces the symbol, saves the caller's frame pointer, sets this frame's, and makes room for
the slots; a frame without slots needs no room. -/
def prologue (f : Frame) : List Inst :=
  [.directive (".globl\t" ++ f.name),
   .directive (".type\t" ++ f.name ++ ", @function"),
   .label f.name,
   .pushq .rbp,
   .movq .rsp .rbp]
  -- without slots there is nothing to make room for
  ++ if f.size = 0 then [] else [.subq f.size .rsp]

/-- Gives the room back, restores the caller's frame pointer, returns, and records the size of the
symbol. -/
def epilogue (f : Frame) : List Inst :=
  [.movq .rbp .rsp,
   .popq .rbp,
   .ret,
   .directive (".size\t" ++ f.name ++ ", .-" ++ f.name)]

end Frame

end PascalAsm.Assembly
