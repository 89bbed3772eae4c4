import Mathlib.Logic.Function.Basic
import Mathlib.Logic.Relation
import PascalAsm.Assembly.Program

/-!
# The stack of a running unit

A machine on which all functions of a unit run together, with their frames opened and closed and the
return addresses on the stack. It is about the stack alone: memory has an address for every byte, and
pushing, popping, calling and returning are as the processor does them; but what is computed in the
registers of data, and which way a conditional jump goes, is left open. So whatever holds of all runs
of this machine holds of the real one.

* **`Function.Framed`** — what a body has to observe: it names doublewords of its own frame only, and
  leaves the stack to the instructions that open and close the frame.
* **`Step`** — one instruction. Functions of the unit are entered; what other functions do is a
  parameter, and `Outside.Keeps` is what they are trusted with.
* **`During`** — the runs in which the stack pointer has not risen above a limit: the activation of a
  function lasts for as long as its return address is on the stack.
* **`Comes`** — what the machine comes to whatever is done, without stopping on the way.

`Function.Framed.balanced` is the result. As long as an activation lasts, the stack is aligned at every
call and every slot that is named lies in the frame, and the run goes on: it stops only where a function
of another unit does not come back. From the end of the body the run comes to the return, and there
the stack pointer and the frame pointer are those of the caller again.
-/

namespace PascalAsm.Assembly

open Relation

/-! ## Frames -/

/-- The operands of the instructions that work on doublewords, and of those that load an address. -/
def Inst.operands : Inst → List Operand
  | .movl src dest | .arith _ src dest | .cmpl src dest => [src, dest]
  | .negl op | .idivl op | .leaq op _ => [op]
  | _ => []

/-- The register, if the operand is one. -/
def Operand.regs : Operand → List Reg
  | .reg r => [r]
  | _ => []

/-- The registers that an instruction changes. What a call changes is up to the callee. What is
written into memory is said by `Inst.written`. -/
def Inst.writes : Inst → List Reg
  | .movl _ dest | .arith _ _ dest | .negl dest => dest.regs
  | .cdq => [.rdx]
  | .idivl _ => [.rax, .rdx]
  | .movq _ r | .leaq _ r | .subq _ r => [r]
  | .pushq _ => [.rsp]
  | .popq r => [r, .rsp]
  | _ => []

/-- Whether the instruction is one of those that open and close frames. No instruction of a framed
body is one of these (`Inst.Framed.plain`): a body does not move the stack pointer. -/
def Inst.isFraming : Inst → Bool
  | .pushq _ | .popq _ | .ret | .movq .. | .subq .. => true
  | _ => false

/-- The operand, if it is in memory, is a doubleword of a frame of that size: it lies below the frame
pointer, and not among the bytes between two frames. -/
def Operand.Within (size : Nat) (op : Operand) : Prop :=
  ∀ base disp, op = .mem base disp → base = .rbp ∧
    ∃ k : Nat, disp = -k ∧ 4 ∣ k ∧ 4 ≤ k ∧ k + Convention.reservedBytes ≤ size

/-- The instruction names doublewords of the frame only, and leaves the stack as it is. It is a
property of the single instruction, so a body is framed if its instructions are: no run has to be
followed for it. -/
structure Inst.Framed (size : Nat) (i : Inst) : Prop where
  within : ∀ op ∈ i.operands, op.Within size
  keeps : ∀ r ∈ i.writes, r ≠ .rbp ∧ r ≠ .rsp
  plain : i.isFraming = false

/-- The body has all labels that it jumps to, so that no jump leads out of it. -/
structure Function.Closed (f : Function) : Prop where
  jmp : ∀ {name}, .jmp name ∈ f.body → .label name ∈ f.body
  jcc : ∀ {condition name}, .jcc condition name ∈ f.body → .label name ∈ f.body

/-- The frame keeps the stack aligned, and the body keeps to the frame. From these two fields
everything that is said of runs follows, by `Function.Framed.balanced`. -/
structure Function.Framed (f : Function) : Prop where
  aligned : f.frameSize % Convention.stackAlignment = 0
  body : ∀ i ∈ f.body, i.Framed f.frameSize

/-- The function that calls the entry has no jumps. -/
theorem closed_mainWrapper (entry : String) : (mainWrapper entry).Closed where
  jmp h := by simp [mainWrapper, clear] at h
  jcc h := by simp [mainWrapper, clear] at h

/-- The function that calls the entry has no slots. -/
theorem framed_mainWrapper (entry : String) : (mainWrapper entry).Framed where
  aligned := rfl
  body := by
    intro i hi
    rw [mainWrapper, List.mem_cons, List.mem_cons, List.mem_singleton] at hi
    rcases hi with rfl | rfl | rfl <;>
      exact ⟨by simp [clear, Inst.operands, Operand.Within],
        by simp [clear, Inst.writes, Operand.regs], rfl⟩

namespace Operand

variable {size : Nat} {op : Operand}

@[simp] theorem within_reg (r : Reg) : (reg r).Within size := fun _ _ h => by simp at h

@[simp] theorem within_imm (v : Int32) : (imm v).Within size := fun _ _ h => by simp at h

@[simp] theorem within_rip (label : String) : (rip label).Within size := fun _ _ h => by simp at h

end Operand

/-! ## The machine -/

/-- What eight bytes of memory hold: a number, which can be an address of the stack, or the address of
an instruction, given by the function and what is still ahead in it. -/
inductive Word where
  | number (n : Int)
  | code (f : Function) (ahead : List Inst)

/-- A byte of memory is one of the bytes of a word. -/
structure Byte where
  word : Word
  index : Nat

/-- What each byte of memory holds, by its address. Memory is cut into bytes so that overlapping
accesses are what they are on the processor; a byte remembers the word it is a part of. -/
abbrev Memory := Int → Byte

namespace Memory

/-- The eight bytes from an address on are those of a word. It is said byte by byte, so that it
survives whatever is written elsewhere: `Holds.of_agree`. -/
def Holds (m : Memory) (a : Int) (w : Word) : Prop := ∀ i : Nat, i < 8 → m (a + i) = ⟨w, i⟩

/-- The memory with a word at an address. Bytes outside of the eight are left alone. -/
def put (m : Memory) (a : Int) (w : Word) : Memory := fun b =>
  if a ≤ b ∧ b < a + 8 then ⟨w, (b - a).toNat⟩ else m b

/-- From an address on, two memories are the same. Stacks grow downward: what a callee leaves alone
is what lies above its stack pointer. -/
def AgreeFrom (a : Int) (m m' : Memory) : Prop := ∀ b, a ≤ b → m' b = m b

variable {m m' : Memory} {a b : Int} {w w' : Word}

theorem holds_put (m : Memory) (a : Int) (w : Word) : (m.put a w).Holds a w := by
  intro i hi
  have hrange : a ≤ a + i ∧ a + i < a + 8 := by omega
  have hindex : (a + i - a).toNat = i := by omega
  rw [put, if_pos hrange, hindex]

/-- The first byte tells which word it is. That is all that a return needs: the address on top of
the stack is the one that the call has pushed. -/
theorem Holds.unique (h : m.Holds a w) (h' : m.Holds a w') : w = w' :=
  congrArg Byte.word ((h 0 (by omega)).symm.trans (h' 0 (by omega)))

theorem Holds.of_agree (h : m.Holds b w) (hm : AgreeFrom a m m') (hab : a ≤ b) : m'.Holds b w := by
  intro i hi
  rw [hm _ (by omega), h i hi]

theorem agreeFrom_put (m : Memory) (w : Word) (h : a + 8 ≤ b) : AgreeFrom b m (m.put a w) := by
  intro x hx
  rw [put, if_neg (by omega)]

theorem AgreeFrom.mono (h : AgreeFrom a m m') (hab : a ≤ b) : AgreeFrom b m m' := fun x hx =>
  h x (by omega)

end Memory

/-- A processor: its registers, the memory, and the address of the next instruction. In contrast to
`Machine` it has a stack and runs all functions of a unit, but it does not say what is computed. -/
structure Cpu where
  regs : Reg → Int
  memory : Memory
  control : Word

/-- The instructions that close the frame of a function; the size of the frame plays no part. -/
def Function.epilogue (f : Function) : List Inst := (Frame.mk f.name 0 rfl).epilogue

/-- The operands that an instruction writes. -/
def Inst.written : Inst → List Operand
  | .movl _ dest | .arith _ _ dest | .negl dest => [dest]
  | _ => []

namespace Cpu

/-- The processor at another instruction. -/
def go (c : Cpu) (f : Function) (ahead : List Inst) : Cpu := { c with control := .code f ahead }

/-- A register gets a number. -/
def setReg (c : Cpu) (r : Reg) (n : Int) : Cpu := { c with regs := Function.update c.regs r n }

/-- A word is pushed. -/
def push (c : Cpu) (w : Word) : Cpu where
  regs := Function.update c.regs .rsp (c.regs .rsp - 8)
  memory := c.memory.put (c.regs .rsp - 8) w
  control := c.control

/-- The word on top of the stack, if there is one. If the bytes do not belong together, it can be any
word. -/
def Pops (c : Cpu) (w : Word) : Prop := ∀ w', c.memory.Holds (c.regs .rsp) w' → w' = w

/-- An instruction works on data: other registers keep what they hold, and so do bytes that are not of
the doubleword that is written. -/
structure Computes (c : Cpu) (i : Inst) (d : Cpu) : Prop where
  regs : ∀ r, r ∉ i.writes → d.regs r = c.regs r
  memory : ∀ a, (∀ base disp, .mem base disp ∈ i.written →
    a < c.regs base + disp ∨ c.regs base + disp + 4 ≤ a) → d.memory a = c.memory a

/-- A jump leads behind the label in the body of the same function. -/
def Jumps (c : Cpu) (f : Function) (name : String) (d : Cpu) : Prop :=
  ∃ before after, f.body = before ++ .label name :: after ∧ d = c.go f (after ++ f.epilogue)

/-- The stack of the caller is kept: the stack pointer, the frame pointer, and what lies from there
on, which is where the saved registers and the return addresses are. -/
structure Keeps (c d : Cpu) : Prop where
  stack : d.regs .rsp = c.regs .rsp
  frame : d.regs .rbp = c.regs .rbp
  memory : c.memory.AgreeFrom (c.regs .rbp) d.memory

end Cpu

/-- What functions of other units do to registers and memory, from the call to the return. A function
that is not related to any state does not come back. -/
abbrev Outside := String → Cpu → Cpu → Prop

/-- The functions of other units keep the stack of their caller. -/
def Outside.Keeps (outside : Outside) : Prop := ∀ name c d, outside name c d → c.Keeps d

/-- A function that was called with that stack pointer, frame pointer and return address has
returned. -/
structure Returned (sp bp : Int) (ret : Word) (c : Cpu) : Prop where
  control : c.control = ret
  stack : c.regs .rsp = sp + 8
  frame : c.regs .rbp = bp

section

variable (linked : List Function) (outside : Outside)

/-- What an instruction of a function does, with `rest` behind it. -/
def Inst.Does (f : Function) (rest : List Inst) (c d : Cpu) : Inst → Prop
  | .label _ | .directive _ | .comment _ => d = c.go f rest
  | .pushq r => d = (c.push (.number (c.regs r))).go f rest
  | .popq r => ∃ n, c.Pops (.number n) ∧
      d = ((c.setReg .rsp (c.regs .rsp + 8)).setReg r n).go f rest
  | .movq src dest => d = (c.setReg dest (c.regs src)).go f rest
  | .subq amount r => d = (c.setReg r (c.regs r - amount)).go f rest
  | .ret => ∃ w, c.Pops w ∧ d = { c.setReg .rsp (c.regs .rsp + 8) with control := w }
  | .jmp name => c.Jumps f name d
  | .jcc _ name => c.Jumps f name d ∨ d = c.go f rest
  | .call name =>
    (∃ g ∈ linked, g.name = name ∧ ∃ code, g.code = .ok code ∧
      d = (c.push (.code f rest)).go g code) ∨
    (∀ g ∈ linked, g.name ≠ name) ∧ ∃ e, outside name c e ∧ d = e.go f rest
  | i => c.Computes i d ∧ d.control = .code f rest

/-- One instruction is carried out. What it does is not determined where numbers are computed:
`Inst.Does` leaves them open, so that a statement about every step holds for any values. -/
def Step (c d : Cpu) : Prop :=
  ∃ f i rest, c.control = .code f (i :: rest) ∧ i.Does linked outside f rest c d

/-- The machine runs while the stack pointer is not above a limit. Above the limit is the stack of
the caller, so that the run ends with the return of the function that was called. -/
def During (limit : Int) : Cpu → Cpu → Prop :=
  ReflTransGen fun c d => c.regs .rsp ≤ limit ∧ Step linked outside c d

/-- Whatever is done, the machine comes to what is described, and never stops before. Other than a
statement about one run this excludes that the machine gets stuck on the way, whatever it does. -/
inductive Comes (P : Cpu → Prop) : Cpu → Prop
  | here {c : Cpu} (h : P c) : Comes P c
  | next {c : Cpu} (goes : ∃ d, Step linked outside c d)
    (all : ∀ d, Step linked outside c d → Comes P d) : Comes P c

/-- The next instruction calls a function of another unit that does not come back. This is the one
way in which a run inside a compiled unit may stop: all else that is next can be carried out
(`Cpu.goes_of_body`). -/
def Cpu.Waits (c : Cpu) : Prop :=
  ∃ f name rest, c.control = .code f (.call name :: rest) ∧ (∀ g ∈ linked, g.name ≠ name) ∧
    ∀ e, ¬ outside name c e

/-- What is right when the next instruction is carried out: there is one, of a function of the unit,
and it can be carried out unless it waits for another unit; a jump leads somewhere, the stack is
aligned at a call, and an operand in memory is a doubleword between the stack pointer and the frame
pointer. -/
structure Cpu.Safe (c : Cpu) : Prop where
  inside : ∃ f ∈ linked, ∃ i ahead, c.control = .code f (i :: ahead)
  goes : (∃ d, Step linked outside c d) ∨ c.Waits linked outside
  jump : ∀ {f i name rest}, c.control = .code f (i :: rest) →
    i = .jmp name ∨ (∃ condition, i = .jcc condition name) → ∃ d, c.Jumps f name d
  call : ∀ {f name rest}, c.control = .code f (.call name :: rest) →
    c.regs .rsp % Convention.stackAlignment = 0
  slot : ∀ {f i rest base disp}, c.control = .code f (i :: rest) → .mem base disp ∈ i.operands →
    base = .rbp ∧ c.regs .rsp ≤ c.regs .rbp + disp ∧ c.regs .rbp + disp + 4 ≤ c.regs .rbp

/-- A function has code, and if it is called with the stack pointer eight bytes off the alignment, as
a call leaves it, then all that is done is safe until the function returns to its caller, with the
stack pointer behind the return address and the frame pointer as it was. It does return when it is at
the end of its body; the stack pointer tells this activation from those of later calls. -/
def Function.Balanced (f : Function) : Prop :=
  ∃ code, f.code = .ok code ∧ ∀ {c d : Cpu} {ret : Word}, c.control = .code f code →
    c.regs .rsp % Convention.stackAlignment = 8 → c.memory.Holds (c.regs .rsp) ret →
    During linked outside (c.regs .rsp) c d →
    ((d.regs .rsp ≤ c.regs .rsp ∧ d.Safe linked outside) ∨
        Returned (c.regs .rsp) (c.regs .rbp) ret d) ∧
      (d.control = .code f f.epilogue → d.regs .rsp = c.regs .rsp - 8 - f.frameSize →
        Comes linked outside (Returned (c.regs .rsp) (c.regs .rbp) ret) d)

end

/-- All functions of a unit, `main` included. Calls between them are resolved by name, in this list;
every other name is up to `Outside`. -/
def Program.linked (unit : Program) : List Function := unit.functions ++ [mainWrapper unit.entry]

/-! ## The code of a function -/

namespace Function

/-- The lines before the first instruction of a function. -/
def marks (f : Function) : List Inst :=
  [.directive (".globl\t" ++ f.name), .directive (".type\t" ++ f.name ++ ", @function"),
   .label f.name]

/-- A line before the first instruction is no instruction itself, so it has no effect when control
passes it. -/
theorem cases_of_mem_marks {f : Function} {i : Inst} (h : i ∈ f.marks) :
    (∃ line, i = .directive line) ∨ i = .label f.name := by
  simp only [marks, List.mem_cons, List.not_mem_nil, or_false] at h
  rcases h with rfl | rfl | rfl
  · exact .inl ⟨_, rfl⟩
  · exact .inl ⟨_, rfl⟩
  · exact .inr rfl

/-- The instruction that makes room for the slots. -/
def room (f : Function) : List Inst := if f.frameSize = 0 then [] else [.subq f.frameSize .rsp]

/-- A function whose frame is aligned has code: its frame is opened, and closed after the body. -/
theorem Framed.code_eq {f : Function} (h : f.Framed) : f.code =
    .ok (f.marks ++ .pushq .rbp :: .movq .rsp .rbp :: (f.room ++ (f.body ++ f.epilogue))) := by
  rw [code, Frame.make, dif_pos h.aligned]
  simp [Frame.prologue, marks, room, epilogue, Frame.epilogue]

end Function

/-! ## Activations -/

section

variable {linked : List Function} {outside : Outside} {limit bp₀ sp bp : Int} {ret w : Word}
  {c d : Cpu} {m m' : Memory} {f : Function} {rest : List Inst}

/-- The activations on the stack, seen from the one that was begun last: it was called with the stack
pointer `sp`, where its return address `ret` is, and the frame pointer `bp`. The first one was called
with the stack pointer `limit`; every other one was called from the body of the one before it, whose
frame is just above. -/
inductive Called (linked : List Function) (limit bp₀ : Int) (w : Word) (m : Memory) :
    Int → Int → Word → Prop
  | first (h : m.Holds limit w) : Called linked limit bp₀ w m limit bp₀ w
  | next {f : Function} {rest : List Inst} {sp bp : Int} {ret : Word} (hf : f ∈ linked)
    (hrest : rest <:+ f.body) (caller : Called linked limit bp₀ w m sp bp ret)
    (hbp : m.Holds (sp - 8) (.number bp))
    (hret : m.Holds (sp - 8 - f.frameSize - 8) (.code f (rest ++ f.epilogue))) :
    Called linked limit bp₀ w m (sp - 8 - f.frameSize - 8) (sp - 8) (.code f (rest ++ f.epilogue))

namespace Called

theorem holds (h : Called linked limit bp₀ w m sp bp ret) : m.Holds sp ret := by
  cases h with
  | first h => exact h
  | next _ _ _ _ hret => exact hret

theorem le (h : Called linked limit bp₀ w m sp bp ret) : sp ≤ limit := by
  induction h with
  | first => exact Int.le_refl _
  | next => omega

/-- The stack pointer is the same at all calls, modulo the alignment. By induction on the
activations: each frame is a multiple of the alignment, and the two words that are pushed on entry
make up for it. -/
theorem mod (h : Called linked limit bp₀ w m sp bp ret) (hlinked : ∀ f ∈ linked, f.Framed)
    (hlimit : limit % 16 = 8) : sp % 16 = 8 := by
  induction h with
  | first => exact hlimit
  | next hf _ _ _ _ ih =>
    have haligned := (hlinked _ hf).aligned
    rw [Convention.stackAlignment] at haligned
    omega

/-- What is known of the activations is known from the last return address on. All return addresses
and saved frame pointers lie there; what is below is the frame of the activation itself. -/
theorem of_agree (h : Called linked limit bp₀ w m sp bp ret) (hm : m.AgreeFrom sp m') :
    Called linked limit bp₀ w m' sp bp ret := by
  induction h with
  | first h => exact .first (h.of_agree hm (Int.le_refl _))
  | next hf hrest _ hbp hret ih =>
    exact .next hf hrest (ih (hm.mono (by omega))) (hbp.of_agree hm (by omega))
      (hret.of_agree hm (Int.le_refl _))

end Called

/-- Where an activation is in the code of its function, and what that means for its frame. -/
inductive At (f : Function) (sp bp : Int) (c : Cpu) : Prop
  /-- Nothing was done yet. -/
  | entered {marks : List Inst} (hmarks : marks <:+ f.marks)
    (hc : c.control = .code f
      (marks ++ .pushq .rbp :: .movq .rsp .rbp :: (f.room ++ (f.body ++ f.epilogue))))
    (hsp : c.regs .rsp = sp) (hbp : c.regs .rbp = bp)
  /-- The frame pointer of the caller was pushed. -/
  | saved (hc : c.control = .code f (.movq .rsp .rbp :: (f.room ++ (f.body ++ f.epilogue))))
    (hsp : c.regs .rsp = sp - 8) (hold : c.memory.Holds (sp - 8) (.number bp))
  /-- The frame pointer was set. -/
  | set (hc : c.control = .code f (.subq f.frameSize .rsp :: (f.body ++ f.epilogue)))
    (hsp : c.regs .rsp = sp - 8) (hbp : c.regs .rbp = sp - 8)
    (hold : c.memory.Holds (sp - 8) (.number bp))
  /-- The frame is open. -/
  | body {rest : List Inst} (hrest : rest <:+ f.body) (hc : c.control = .code f (rest ++ f.epilogue))
    (hsp : c.regs .rsp = sp - 8 - f.frameSize) (hbp : c.regs .rbp = sp - 8)
    (hold : c.memory.Holds (sp - 8) (.number bp))
  /-- The slots were given up. -/
  | left (hc : c.control = .code f (f.epilogue.drop 1)) (hsp : c.regs .rsp = sp - 8)
    (hold : c.memory.Holds (sp - 8) (.number bp))
  /-- The frame pointer of the caller was popped. -/
  | restored (hc : c.control = .code f (f.epilogue.drop 2)) (hsp : c.regs .rsp = sp)
    (hbp : c.regs .rbp = bp)

/-- Some activation of a function of the unit is under way. It is the invariant of the run:
`Active.step` keeps it, and `Function.Framed.balanced` reads its result off it. -/
def Active (linked : List Function) (limit bp₀ : Int) (w : Word) (c : Cpu) : Prop :=
  ∃ f ∈ linked, ∃ sp bp ret, Called linked limit bp₀ w c.memory sp bp ret ∧ At f sp bp c

/-! ## One instruction -/

/-- The operands that are written are among those that are named. So what is known of the operands
that an instruction names is known of those that it writes. -/
theorem Inst.written_subset (i : Inst) : i.written ⊆ i.operands := by
  cases i <;> simp [written, operands]

/-- An instruction that keeps to the frame keeps the stack of the caller. With `hi` it writes
neither of the two registers, and memory only inside of the frame. -/
theorem Cpu.Computes.keeps {i : Inst} {size : Nat} (h : c.Computes i d) (hi : i.Framed size) :
    c.Keeps d where
  stack := h.regs .rsp fun hw => (hi.keeps _ hw).2 rfl
  frame := h.regs .rbp fun hw => (hi.keeps _ hw).1 rfl
  memory := by
    intro a ha
    refine h.memory a fun base disp hw => .inr ?_
    obtain ⟨rfl, k, rfl, -, hk, -⟩ := hi.within _ (i.written_subset hw) base disp rfl
    omega

/-- Within a body, what keeps the stack of the caller keeps the activation. Both calls that come
back and instructions that only compute are of this kind. -/
theorem Active.of_keeps (hf : f ∈ linked) (hcalled : Called linked limit bp₀ w c.memory sp bp ret)
    (hsp : c.regs .rsp = sp - 8 - f.frameSize) (hbp : c.regs .rbp = sp - 8)
    (hold : c.memory.Holds (sp - 8) (.number bp)) (hk : c.Keeps d) (hrest : rest <:+ f.body)
    (hd : d.control = .code f (rest ++ f.epilogue)) : Active linked limit bp₀ w d := by
  have hmemory := hbp ▸ hk.memory
  exact ⟨f, hf, sp, bp, ret, hcalled.of_agree (hmemory.mono (by omega)),
    .body hrest hd (hk.stack.trans hsp) (hk.frame.trans hbp)
      (hold.of_agree hmemory (Int.le_refl _))⟩

/-- A function is entered: its return address is on top of the stack. It is at its first line then,
with nothing of its frame set up: `At.entered`. -/
theorem Active.of_call {g : Function} {code : List Inst} (hlinked : ∀ f ∈ linked, f.Framed)
    (hg : g ∈ linked) (hcode : g.code = .ok code)
    (hcalled : Called linked limit bp₀ w c.memory (c.regs .rsp) (c.regs .rbp) ret)
    (hc : c.control = .code g code) : Active linked limit bp₀ w c := by
  have hlines := (hlinked g hg).code_eq.symm.trans hcode
  refine ⟨g, hg, _, _, ret, hcalled, .entered (List.suffix_refl _) ?_ rfl rfl⟩
  rw [hc, Except.ok.inj hlines]

/-- An instruction of a body keeps the activation, or begins another one. A call of a function of
the unit is what begins another one; the present activation becomes the caller in `Called.next`. -/
theorem Active.body_step (hlinked : ∀ f ∈ linked, f.Framed) (houtside : outside.Keeps)
    (hf : f ∈ linked) (hcalled : Called linked limit bp₀ w c.memory sp bp ret) {i : Inst}
    (hrest : i :: rest <:+ f.body) (hsp : c.regs .rsp = sp - 8 - f.frameSize)
    (hbp : c.regs .rbp = sp - 8) (hold : c.memory.Holds (sp - 8) (.number bp))
    (h : i.Does linked outside f (rest ++ f.epilogue) c d) : Active linked limit bp₀ w d := by
  have hi : i.Framed f.frameSize := (hlinked f hf).body i (hrest.mem List.mem_cons_self)
  have hrest' : rest <:+ f.body := (List.suffix_cons i rest).trans hrest
  have hgo (ahead : List Inst) : c.Keeps (c.go f ahead) := ⟨rfl, rfl, fun _ _ => rfl⟩
  have hjump {name : String} (hj : c.Jumps f name d) : Active linked limit bp₀ w d := by
    obtain ⟨before, after, hbody, rfl⟩ := hj
    have hafter : after <:+ f.body := ⟨before ++ [.label name], by simp [hbody]⟩
    exact .of_keeps hf hcalled hsp hbp hold (hgo _) hafter rfl
  have hcomputes (hd : c.Computes i d ∧ d.control = .code f (rest ++ f.epilogue)) :
      Active linked limit bp₀ w d :=
    .of_keeps hf hcalled hsp hbp hold (hd.1.keeps hi) hrest' hd.2
  cases i with
  | movl | arith | negl | cmpl | cdq | idivl | leaq => exact hcomputes h
  | label | directive | comment =>
    obtain rfl := h
    exact .of_keeps hf hcalled hsp hbp hold (hgo _) hrest' rfl
  | jmp name => exact hjump h
  | jcc condition name =>
    rcases h with h | rfl
    · exact hjump h
    · exact .of_keeps hf hcalled hsp hbp hold (hgo _) hrest' rfl
  | call name =>
    rcases h with ⟨g, hg, -, code, hcode, rfl⟩ | ⟨-, e, he, rfl⟩
    · -- the return address is pushed below the frame
      let back : Word := .code f (rest ++ f.epilogue)
      have hbelow : sp - 8 - f.frameSize - 8 + 8 ≤ sp - 8 := by omega
      have hmemory := c.memory.agreeFrom_put back hbelow
      have hnext := Called.next hf hrest' (hcalled.of_agree (hmemory.mono (by omega)))
        (hold.of_agree hmemory (Int.le_refl _)) (Memory.holds_put _ _ _)
      have hentered : Called linked limit bp₀ w (c.push back).memory ((c.push back).regs .rsp)
          ((c.push back).regs .rbp) back := by
        simpa [Cpu.push, hsp, hbp] using hnext
      exact .of_call hlinked hg hcode hentered rfl
    · have hkeeps := houtside _ _ _ he
      exact .of_keeps hf hcalled hsp hbp hold ⟨hkeeps.stack, hkeeps.frame, hkeeps.memory⟩ hrest' rfl
  | pushq | popq | movq | subq | ret => exact absurd hi.plain (by simp [Inst.isFraming])

/-- The next instruction is determined by control, and so is the function that it is of. -/
theorem Cpu.control_inj {f g : Function} {i j : Inst} {ahead rest : List Inst}
    (h : c.control = .code f (i :: ahead)) (h' : c.control = .code g (j :: rest)) :
    f = g ∧ i = j ∧ ahead = rest := by
  obtain ⟨hf, hcode⟩ := Word.code.inj (h.symm.trans h')
  exact ⟨hf, List.cons.inj hcode⟩

/-- The step is that of the instruction that is next. Control says which instruction that is, so
`Step` can be opened wherever `hc` is known. -/
theorem Step.does {i : Inst} {ahead : List Inst} (h : Step linked outside c d)
    (hc : c.control = .code f (i :: ahead)) : i.Does linked outside f ahead c d := by
  obtain ⟨g, j, rest, hc', hj⟩ := h
  obtain ⟨rfl, rfl, rfl⟩ := Cpu.control_inj hc hc'
  exact hj

/-- A step before the frame is open brings its opening forward. The lines before it are marks, which
do nothing, and the push of the frame pointer. -/
theorem At.entered_step {marks : List Inst} (hmarks : marks <:+ f.marks)
    (hc : c.control = .code f
      (marks ++ .pushq .rbp :: .movq .rsp .rbp :: (f.room ++ (f.body ++ f.epilogue))))
    (hsp : c.regs .rsp = sp) (hbp : c.regs .rbp = bp) (h : Step linked outside c d) :
    At f sp bp d ∧ c.memory.AgreeFrom sp d.memory := by
  cases marks with
  | nil =>
    obtain rfl := h.does hc
    refine ⟨.saved rfl ?_ ?_, ?_⟩
    · simp [Cpu.go, Cpu.push, hsp]
    · simpa [Cpu.go, Cpu.push, hsp, hbp] using c.memory.holds_put (sp - 8) (.number bp)
    · simpa [Cpu.go, Cpu.push, hsp] using c.memory.agreeFrom_put _ (by omega : sp - 8 + 8 ≤ sp)
  | cons i marks =>
    have hrest : marks <:+ f.marks := (List.suffix_cons i marks).trans hmarks
    have hi : i ∈ f.marks := hmarks.mem List.mem_cons_self
    -- directives and the label of the function have no effect
    have hd : d = c.go f
        (marks ++ .pushq .rbp :: .movq .rsp .rbp :: (f.room ++ (f.body ++ f.epilogue))) := by
      have hdoes := h.does hc
      rcases Function.cases_of_mem_marks hi with ⟨line, rfl⟩ | rfl <;> exact hdoes
    subst hd
    exact ⟨.entered hrest rfl hsp hbp, fun _ _ => rfl⟩

/-- Setting the frame pointer opens the frame, unless there is room to be made. Room is made by one
subtraction, which is left out if the frame is empty. -/
theorem At.saved_step
    (hc : c.control = .code f (.movq .rsp .rbp :: (f.room ++ (f.body ++ f.epilogue))))
    (hsp : c.regs .rsp = sp - 8) (hold : c.memory.Holds (sp - 8) (.number bp))
    (h : Step linked outside c d) : At f sp bp d ∧ c.memory.AgreeFrom sp d.memory := by
  obtain rfl := h.does hc
  refine ⟨?_, fun _ _ => rfl⟩
  -- With nothing to be made room for, `room` is empty and the body is next.
  by_cases hsize : f.frameSize = 0
  · refine .body (List.suffix_refl f.body) ?_ ?_ ?_ hold
    · simp [Cpu.go, Function.room, hsize]
    · simp [Cpu.go, Cpu.setReg, hsp, hsize]
    · simp [Cpu.go, Cpu.setReg, hsp]
  · refine .set ?_ ?_ ?_ hold
    · simp [Cpu.go, Function.room, hsize]
    · simp [Cpu.go, Cpu.setReg, hsp]
    · simp [Cpu.go, Cpu.setReg, hsp]

theorem At.set_step (hc : c.control = .code f (.subq f.frameSize .rsp :: (f.body ++ f.epilogue)))
    (hsp : c.regs .rsp = sp - 8) (hbp : c.regs .rbp = sp - 8)
    (hold : c.memory.Holds (sp - 8) (.number bp)) (h : Step linked outside c d) :
    At f sp bp d ∧ c.memory.AgreeFrom sp d.memory := by
  obtain rfl := h.does hc
  refine ⟨.body (List.suffix_refl f.body) rfl ?_ ?_ hold, fun _ _ => rfl⟩
  · simp [Cpu.go, Cpu.setReg, hsp]
  · simpa [Cpu.go, Cpu.setReg] using hbp

/-- Popping the frame pointer gives back what was pushed. That it is still there is `hold`: the body
writes only below it. -/
theorem At.left_step (hc : c.control = .code f (f.epilogue.drop 1)) (hsp : c.regs .rsp = sp - 8)
    (hold : c.memory.Holds (sp - 8) (.number bp)) (h : Step linked outside c d) :
    At f sp bp d ∧ c.memory.AgreeFrom sp d.memory := by
  obtain ⟨n, hpops, rfl⟩ := h.does hc
  obtain rfl : bp = n := Word.number.inj (hpops _ (hsp ▸ hold))
  refine ⟨.restored rfl ?_ ?_, fun _ _ => rfl⟩
  · simp [Cpu.go, Cpu.setReg, hsp]
  · simp [Cpu.go, Cpu.setReg]

/-- Returning ends the activation: it was the first one, or the one before it goes on. What is
popped as the return address is what was pushed by the call, `hcalled.holds`. -/
theorem Active.restored_step (hcalled : Called linked limit bp₀ w c.memory sp bp ret)
    (hc : c.control = .code f (f.epilogue.drop 2)) (hsp : c.regs .rsp = sp)
    (hbp : c.regs .rbp = bp) (h : Step linked outside c d) :
    Active linked limit bp₀ w d ∨ Returned limit bp₀ w d := by
  obtain ⟨w', hpops, rfl⟩ := h.does hc
  -- `hcalled.holds` says what lies on top of the stack, and `hpops` that this is where it goes.
  obtain rfl : ret = w' := hpops _ (hsp ▸ hcalled.holds)
  cases hcalled with
  | first => exact .inr ⟨rfl, by simp [Cpu.setReg, hsp], by simpa [Cpu.setReg] using hbp⟩
  | next hg hrest caller hold =>
    refine .inl ⟨_, hg, _, _, _, caller, .body hrest rfl ?_ ?_ hold⟩
    · simp [Cpu.setReg, hsp]
    · simpa [Cpu.setReg] using hbp

/-- Every step keeps some activation under way, or ends the first one. One lemma for each place at
which control can be in a function, from `At.entered_step` to `Active.restored_step`. -/
theorem Active.step (hlinked : ∀ f ∈ linked, f.Framed) (houtside : outside.Keeps)
    (hactive : Active linked limit bp₀ w c) (h : Step linked outside c d) :
    Active linked limit bp₀ w d ∨ Returned limit bp₀ w d := by
  obtain ⟨f, hf, sp, bp, ret, hcalled, hat⟩ := hactive
  -- outside the body nothing is called, and what lies above the return address is kept
  have hsame (h : At f sp bp d ∧ c.memory.AgreeFrom sp d.memory) : Active linked limit bp₀ w d :=
    ⟨f, hf, sp, bp, ret, hcalled.of_agree h.2, h.1⟩
  cases hat with
  | entered hmarks hc hsp hbp => exact .inl (hsame (At.entered_step hmarks hc hsp hbp h))
  | saved hc hsp hold => exact .inl (hsame (At.saved_step hc hsp hold h))
  | set hc hsp hbp hold => exact .inl (hsame (At.set_step hc hsp hbp hold h))
  | left hc hsp hold => exact .inl (hsame (At.left_step hc hsp hold h))
  | restored hc hsp hbp => exact restored_step hcalled hc hsp hbp h
  | @body rest hrest hc hsp hbp hold =>
    cases rest with
    | nil =>
      obtain rfl := h.does hc
      refine .inl (hsame ⟨.left rfl ?_ hold, fun _ _ => rfl⟩)
      simp [Cpu.go, Cpu.setReg, hbp]
    | cons i rest =>
      exact .inl (.body_step hlinked houtside hf hcalled hrest hsp hbp hold (h.does hc))

/-! ## Going on -/

/-- An instruction of a body can be carried out, unless it waits for another unit. Jumps need
`hclosed`; calls inside the unit find a function, and those to the outside either come back or wait.
-/
theorem Cpu.goes_of_body (hlinked : ∀ f ∈ linked, f.Framed) (hf : f ∈ linked) (hclosed : f.Closed)
    {i : Inst} (hi : i ∈ f.body) (hc : c.control = .code f (i :: rest)) :
    (∃ d, Step linked outside c d) ∨ c.Waits linked outside := by
  have hgo {d : Cpu} (h : i.Does linked outside f rest c d) :
      (∃ d, Step linked outside c d) ∨ c.Waits linked outside := .inl ⟨d, f, i, rest, hc, h⟩
  -- what is computed is left open, so nothing may be computed as well
  have hcomputes : c.Computes i (c.go f rest) ∧ (c.go f rest).control = .code f rest :=
    ⟨⟨fun _ _ => rfl, fun _ _ => rfl⟩, rfl⟩
  cases i with
  | movl | arith | negl | cmpl | cdq | idivl | leaq => exact hgo hcomputes
  | label | directive | comment => exact hgo rfl
  | jmp name =>
    obtain ⟨before, after, hbody⟩ := List.append_of_mem (hclosed.jmp hi)
    exact hgo ⟨before, after, hbody, rfl⟩
  | jcc condition name => exact hgo (.inr rfl)
  | call name =>
    by_cases hname : ∃ g ∈ linked, g.name = name
    · obtain ⟨g, hg, hgname⟩ := hname
      exact hgo (.inl ⟨g, hg, hgname, _, (hlinked g hg).code_eq, rfl⟩)
    · have hother : ∀ g ∈ linked, g.name ≠ name := fun g hg hgname => hname ⟨g, hg, hgname⟩
      by_cases hback : ∃ e, outside name c e
      · obtain ⟨e, he⟩ := hback
        exact hgo (.inr ⟨hother, e, he, rfl⟩)
      · exact .inr ⟨f, name, rest, hc, hother, not_exists.1 hback⟩
  | pushq | popq | movq | subq | ret =>
    exact absurd ((hlinked f hf).body _ hi).plain (by simp [Inst.isFraming])

/-- A jump leads behind its label, because the label is in the body. Without this a machine could
stop in front of a jump, and `Cpu.Safe` would not hold. -/
theorem Function.Closed.exists_jumps (hclosed : f.Closed) {i : Inst} (hi : i ∈ f.body) {name : String}
    (hjump : i = .jmp name ∨ ∃ condition, i = .jcc condition name) (c : Cpu) :
    ∃ d, c.Jumps f name d := by
  have hlabel : .label name ∈ f.body := by
    rcases hjump with rfl | ⟨condition, rfl⟩
    · exact hclosed.jmp hi
    · exact hclosed.jcc hi
  obtain ⟨before, after, hbody⟩ := List.append_of_mem hlabel
  exact ⟨_, before, after, hbody, rfl⟩

/-- The word on top of the stack can be popped. `Holds.unique` makes sure that nothing else can be
popped. -/
theorem Cpu.pops_of_holds (h : c.memory.Holds (c.regs .rsp) w) : c.Pops w := fun _ h' => h'.unique h

/-- From the end of the body on there is one way only, and it is the one back to the caller. -/
theorem comes_of_end (hc : c.control = .code f f.epilogue) (hbp : c.regs .rbp = sp - 8)
    (hold : c.memory.Holds (sp - 8) (.number bp)) (hret : c.memory.Holds sp ret) :
    Comes linked outside (Returned sp bp ret) c := by
  refine .next ⟨_, f, _, _, hc, rfl⟩ fun d h => ?_
  obtain rfl := h.does hc
  -- the slots were given up, so the frame pointer of the caller is on top of the stack
  have hsaved : c.memory.Holds (c.regs .rbp) (.number bp) := by rwa [hbp]
  refine .next ⟨_, f, _, _, rfl, bp, Cpu.pops_of_holds hsaved, rfl⟩ fun d h => ?_
  obtain ⟨n, hpops, rfl⟩ := h.does rfl
  obtain rfl : bp = n := Word.number.inj (hpops _ hsaved)
  -- behind it lies the return address
  have hback : c.memory.Holds (c.regs .rbp + 8) ret := by rwa [hbp, Int.sub_add_cancel]
  refine .next ⟨_, f, _, _, rfl, ret, Cpu.pops_of_holds hback, rfl⟩ fun d h => ?_
  obtain ⟨w, hpops, rfl⟩ := h.does rfl
  obtain rfl : ret = w := hpops _ hback
  refine .here ⟨rfl, ?_, ?_⟩
  · simp [Cpu.go, Cpu.setReg, hbp]
  · simp [Cpu.go, Cpu.setReg]

/-! ## Safety -/

/-- Outside the body an instruction is safe if it can be carried out: it is no call and no jump, and
names no operand. -/
theorem Cpu.Safe.of_quiet {i : Inst} {ahead : List Inst} (hf : f ∈ linked)
    (hc : c.control = .code f (i :: ahead)) (hgoes : ∃ d, Step linked outside c d)
    (hoperands : i.operands = [])
    (hquiet : ∀ name, i ≠ .call name ∧ i ≠ .jmp name ∧ ∀ condition, i ≠ .jcc condition name) :
    c.Safe linked outside where
  inside := ⟨f, hf, _, _, hc⟩
  goes := .inl hgoes
  -- `hquiet` leaves the fields on calls and jumps, and `hoperands` the one on slots, empty.
  jump {_ _ name _} h hjump := by
    obtain ⟨-, rfl, -⟩ := Cpu.control_inj hc h
    obtain ⟨-, hjmp, hjcc⟩ := hquiet name
    exact (hjump.elim hjmp fun ⟨condition, h⟩ => hjcc condition h).elim
  call {_ name _} h := by
    obtain ⟨-, rfl, -⟩ := Cpu.control_inj hc h
    exact absurd rfl (hquiet name).1
  slot h hop := by
    obtain ⟨-, rfl, -⟩ := Cpu.control_inj hc h
    simp [hoperands] at hop

/-- While the frame is open, an instruction of the body is safe. Displacements are those of
`Inst.Framed`, counted from a frame pointer that `hbp` fixes. -/
theorem Cpu.Safe.of_body (hlinked : ∀ f ∈ linked, f.Framed) (hclosed : ∀ f ∈ linked, f.Closed)
    (hf : f ∈ linked) (hmod : sp % 16 = 8) {i : Inst} {ahead : List Inst} (hi : i ∈ f.body)
    (hc : c.control = .code f (i :: ahead)) (hsp : c.regs .rsp = sp - 8 - f.frameSize)
    (hbp : c.regs .rbp = sp - 8) : c.Safe linked outside where
  -- `goes` rests on `hclosed` and `slot` on `hlinked`; alignment is that of the frame, `hmod`.
  inside := ⟨f, hf, _, _, hc⟩
  goes := goes_of_body hlinked hf (hclosed f hf) hi hc
  jump h hjump := by
    obtain ⟨rfl, rfl, rfl⟩ := Cpu.control_inj hc h
    exact (hclosed f hf).exists_jumps hi hjump c
  call _ := by
    have haligned := (hlinked f hf).aligned
    rw [Convention.stackAlignment] at haligned ⊢
    omega
  slot {_ _ _ base disp} h hop := by
    obtain ⟨rfl, rfl, rfl⟩ := Cpu.control_inj hc h
    obtain ⟨rfl, k, rfl, -, hk, hsize⟩ := ((hlinked f hf).body i hi).within _ hop base disp rfl
    refine ⟨rfl, ?_, ?_⟩ <;> omega

/-- While an activation is under way, the stack pointer is not above the first return address, and the
next instruction is safe. -/
theorem Active.safe (hlinked : ∀ f ∈ linked, f.Framed) (hclosed : ∀ f ∈ linked, f.Closed)
    (hlimit : limit % 16 = 8) (h : Active linked limit bp₀ w c) :
    c.regs .rsp ≤ limit ∧ c.Safe linked outside := by
  obtain ⟨f, hf, sp, bp, ret, hcalled, hat⟩ := h
  have hle : sp ≤ limit := hcalled.le
  cases hat with
  | @entered marks hmarks hc hsp hbp =>
    refine ⟨by omega, ?_⟩
    cases marks with
    | nil => exact .of_quiet hf hc ⟨_, f, _, _, hc, rfl⟩ rfl (by simp)
    | cons i marks =>
      have hi : i ∈ f.marks := hmarks.mem List.mem_cons_self
      rcases Function.cases_of_mem_marks hi with ⟨line, rfl⟩ | rfl <;>
        exact .of_quiet hf hc ⟨_, f, _, _, hc, rfl⟩ rfl (by simp)
  | saved hc hsp | set hc hsp =>
    exact ⟨by omega, .of_quiet hf hc ⟨_, f, _, _, hc, rfl⟩ rfl (by simp)⟩
  | left hc hsp hold =>
    -- `hold` is what makes the frame pointer pop as a number
    have hpops := Cpu.pops_of_holds (hsp ▸ hold)
    exact ⟨by omega, .of_quiet hf hc ⟨_, f, _, _, hc, bp, hpops, rfl⟩ rfl (by simp)⟩
  | restored hc hsp hbp =>
    have hpops := Cpu.pops_of_holds (hsp ▸ hcalled.holds)
    exact ⟨by omega, .of_quiet hf hc ⟨_, f, _, _, hc, ret, hpops, rfl⟩ rfl (by simp)⟩
  | @body rest hrest hc hsp hbp =>
    refine ⟨by omega, ?_⟩
    cases rest with
    | nil => exact .of_quiet hf hc ⟨_, f, _, _, hc, rfl⟩ rfl (by simp)
    | cons i rest =>
      -- only a call in the body asks for the alignment of the stack
      have hmod := hcalled.mod hlinked hlimit
      exact .of_body hlinked hclosed hf hmod (hrest.mem List.mem_cons_self) hc hsp hbp

/-- At the end of a body the stack pointer tells whether it is the first activation: every other one
lies below it. -/
theorem Active.first_of_end (h : Active linked limit bp₀ w c)
    (hc : c.control = .code f f.epilogue) (hsp : c.regs .rsp = limit - 8 - f.frameSize) :
    c.regs .rbp = limit - 8 ∧ c.memory.Holds (limit - 8) (.number bp₀) ∧ c.memory.Holds limit w := by
  obtain ⟨g, -, sp, bp, ret, hcalled, hat⟩ := h
  cases hat with
  | @entered marks hmarks hg =>
    -- the first instruction of the epilogue is none of those before the frame is open
    cases marks with
    | nil => simp [hc, Function.epilogue, Frame.epilogue] at hg
    | cons i marks =>
      have hi : i ∈ g.marks := hmarks.mem List.mem_cons_self
      rcases Function.cases_of_mem_marks hi with ⟨line, rfl⟩ | rfl <;>
        simp [hc, Function.epilogue, Frame.epilogue] at hg
  | saved hg | set hg | left hg | restored hg =>
    simp [hc, Function.epilogue, Frame.epilogue] at hg
  | body hrest hg hgsp hgbp hold =>
    obtain ⟨rfl, -⟩ := Word.code.inj (hc.symm.trans hg)
    obtain rfl : sp = limit := by omega
    cases hcalled with
    | first hret => exact ⟨hgbp, hold, hret⟩
    | next _ _ caller =>
      have hle := caller.le
      omega

/-- As long as an activation of a function lasts, every instruction is safe; when it is over, the
function has returned to where it was called, and it is over soon after the end of the body. -/
theorem Function.Framed.balanced (hlinked : ∀ f ∈ linked, f.Framed)
    (hclosed : ∀ f ∈ linked, f.Closed) (houtside : outside.Keeps) (hf : f ∈ linked) :
    f.Balanced linked outside := by
  refine ⟨_, (hlinked f hf).code_eq, fun {c d w} hc hsp hw hrun => ?_⟩
  have hactive : Active linked (c.regs .rsp) (c.regs .rbp) w d ∨
      Returned (c.regs .rsp) (c.regs .rbp) w d := by
    induction hrun with
    | refl => exact .inl (.of_call hlinked hf (hlinked f hf).code_eq (.first hw) hc)
    | tail _ hstep ih =>
      rcases ih with ih | ih
      · exact ih.step hlinked houtside hstep.2
      · -- the return address is no longer on the stack
        have hstack := ih.stack
        omega
  refine ⟨hactive.imp_left (Active.safe hlinked hclosed hsp), fun hend hdsp => ?_⟩
  rcases hactive with hactive | hreturned
  · obtain ⟨hbp, hold, hret⟩ := hactive.first_of_end hend hdsp
    exact comes_of_end hend hbp hold hret
  · exact .here hreturned

end

end PascalAsm.Assembly
