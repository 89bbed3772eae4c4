import Mathlib.Algebra.Ring.Int.Defs
import Mathlib.Logic.Function.Basic
import Mathlib.Logic.Relation
import PascalAsm.Assembly.Program
import PascalAsm.Proofs.Meaning.Run

/-!
# Running function bodies

The machine that compiled code is run on: one frame, the registers, and the world outside.

* **`Machine`** — a register holds a doubleword and, after a load of an address, knows what the
  address points to. What a slot of a new frame holds, where the frame lies, and what is in the
  registers are all part of the state, so nothing is assumed about them.
* **`Targets`** — what calls do. A target is a function of the machine, and a machine has a `seed`
  that only targets look at: they can leave anything behind in the registers, and something else
  after each call.
* **`Inst.exec`** — one instruction that the next one follows; `execAll` runs a list of them.
* **`step`** — one instruction of a function body, jumps included. A `Config` keeps the code that is
  still ahead, and a list of the comparisons that were made.

A body is entered after the frame was opened and left before it is closed, so the instructions that
do this have no meaning here.
-/

namespace PascalAsm.Assembly

/-! ## The state -/

/-- What an address points to. -/
inductive Place where
  /-- The slot at a displacement from the frame pointer. -/
  | slot (disp : Int)
  | datum (label : String)
deriving DecidableEq

/-- A machine that runs one function body in a world `W`. It knows of the frame only what the code
names: slots are doublewords at a displacement, not bytes in a memory. -/
structure Machine (W : Type) where
  /-- The lower halves of the registers. -/
  regs : Reg → Int32
  /-- What the registers point to that hold an address. -/
  address : Reg → Option Place
  /-- The doublewords of the frame, by their displacement. -/
  slots : Int → Int32
  /-- The lower halves of addresses. -/
  low : Place → Int32
  /-- The two sides of the last comparison: the destination, then the source. -/
  flags : Option (Int32 × Int32)
  /-- Decides what calls leave behind. -/
  seed : Nat
  world : W

/-- What a call does to the machine, if it comes back. A body is run with its calls as a parameter,
so that a statement about one body does not depend on the bodies of the others. -/
abbrev Targets (W : Type) := String → Machine W → Option (Machine W)

variable {W : Type}

namespace Machine

/-- A register gets a doubleword. Whatever address it held is forgotten. -/
def setReg (m : Machine W) (r : Reg) (v : Int32) : Machine W :=
  { m with regs := Function.update m.regs r v, address := Function.update m.address r none }

/-- A slot gets a doubleword. -/
def setSlot (m : Machine W) (disp : Int) (v : Int32) : Machine W :=
  { m with slots := Function.update m.slots disp v }

/-- A register gets an address. What its lower half reads as is up to the machine, `m.low`, and
nothing that is proved depends on it. -/
def point (m : Machine W) (r : Reg) (p : Place) : Machine W :=
  { m with
    regs := Function.update m.regs r (m.low p)
    address := Function.update m.address r (some p) }

/-- The flags tell nothing about a comparison any more. Arithmetic sets them too, but no generated
jump looks at what arithmetic has set. -/
def clearFlags (m : Machine W) : Machine W := { m with flags := none }

@[simp] theorem regs_setReg_self (m : Machine W) (r : Reg) (v : Int32) :
    (m.setReg r v).regs r = v := by
  simp [setReg]

theorem regs_setReg_of_ne (m : Machine W) {r q : Reg} (v : Int32) (h : q ≠ r) :
    (m.setReg r v).regs q = m.regs q := by
  simp [setReg, h]

@[simp] theorem slots_setReg (m : Machine W) (r : Reg) (v : Int32) :
    (m.setReg r v).slots = m.slots := rfl

@[simp] theorem world_setReg (m : Machine W) (r : Reg) (v : Int32) :
    (m.setReg r v).world = m.world := rfl

@[simp] theorem regs_setSlot (m : Machine W) (d : Int) (v : Int32) :
    (m.setSlot d v).regs = m.regs := rfl

@[simp] theorem slots_setSlot_self (m : Machine W) (d : Int) (v : Int32) :
    (m.setSlot d v).slots d = v := by
  simp [setSlot]

theorem slots_setSlot_of_ne (m : Machine W) {d e : Int} (v : Int32) (h : e ≠ d) :
    (m.setSlot d v).slots e = m.slots e := by
  simp [setSlot, h]

@[simp] theorem world_setSlot (m : Machine W) (d : Int) (v : Int32) :
    (m.setSlot d v).world = m.world := rfl

@[simp] theorem regs_clearFlags (m : Machine W) : m.clearFlags.regs = m.regs := rfl

@[simp] theorem slots_clearFlags (m : Machine W) : m.clearFlags.slots = m.slots := rfl

@[simp] theorem world_clearFlags (m : Machine W) : m.clearFlags.world = m.world := rfl

/-- The doubleword of an operand; data at labels are no doublewords. -/
def read? (m : Machine W) : Operand → Option Int32
  | .reg r => some (m.regs r)
  | .imm v => some v
  | .mem .rbp disp => some (m.slots disp)
  | _ => none

/-- An operand gets a doubleword. -/
def write? (m : Machine W) (v : Int32) : Operand → Option (Machine W)
  | .reg r => some (m.setReg r v)
  | .mem .rbp disp => some (m.setSlot disp v)
  | _ => none

end Machine

/-! ## Instructions without jumps -/

/-- What arithmetic leaves in its destination. -/
def ArithOp.result : ArithOp → Int32 → Int32 → Int32
  | .add, a, b => a + b
  | .sub, a, b => a - b
  | .imul, a, b => a * b

/-- The quotient and remainder of the 64-bit number in two doublewords, the upper one signed, by a
doubleword. There is none if the divisor is zero or the quotient does not fit a doubleword. -/
def wideDivide (upper lower divisor : Int32) : Option (Int32 × Int32) :=
  let dividend : Int := upper.toInt * 2 ^ 32 + lower.toUInt32.toNat
  let quotient := dividend.tdiv divisor.toInt
  if divisor = 0 ∨ quotient < Int32.minValue.toInt ∨ Int32.maxValue.toInt < quotient then none
  else some (.ofInt quotient, .ofInt (dividend.tmod divisor.toInt))

/-- Runs an instruction that the next one follows. Comparisons and jumps are not among them. A
division is carried out if it does not trap, and a call if its target comes back. -/
def Inst.exec (targets : Targets W) (m : Machine W) : Inst → Option (Machine W)
  | .movl src dest => do m.write? (← m.read? src) dest
  | .arith op src dest => do
    let b ← m.read? src
    let a ← m.read? dest
    m.clearFlags.write? (op.result a b) dest
  | .negl dest => do
    let a ← m.read? dest
    m.clearFlags.write? (-a) dest
  | .cdq => some (m.setReg .rdx (if m.regs .rax < 0 then -1 else 0))
  | .idivl divisor => do
    let b ← m.read? divisor
    let (quotient, remainder) ← wideDivide (m.regs .rdx) (m.regs .rax) b
    some ((m.clearFlags.setReg .rax quotient).setReg .rdx remainder)
  | .leaq (.mem .rbp disp) dest => some (m.point dest (.slot disp))
  | .leaq (.rip name) dest => some (m.point dest (.datum name))
  | .call name => targets name m
  | .label _ | .comment _ => some m
  | _ => none

/-- Runs instructions one after another. This is the form in which the code of values is run: there
is no jump in it (`Straight`), so that no body has to be searched for a label. -/
def execAll (targets : Targets W) : List Inst → Machine W → Option (Machine W)
  | [], m => some m
  | i :: rest, m => do execAll targets rest (← i.exec targets m)

section

variable {targets : Targets W}

/-! What the instructions do whose operands are known. -/

theorem exec_movl_reg {m : Machine W} {src : Operand} {v : Int32} (r : Reg)
    (h : m.read? src = some v) : (Inst.movl src (.reg r)).exec targets m = some (m.setReg r v) := by
  simp only [Inst.exec, h]
  rfl

theorem exec_movl_slot {m : Machine W} {src : Operand} {v : Int32} (d : Int)
    (h : m.read? src = some v) :
    (Inst.movl src (.mem .rbp d)).exec targets m = some (m.setSlot d v) := by
  simp only [Inst.exec, h]
  rfl

theorem exec_arith_reg {m : Machine W} {src : Operand} {b : Int32} (op : ArithOp) (r : Reg)
    (h : m.read? src = some b) : (Inst.arith op src (.reg r)).exec targets m =
      some (m.clearFlags.setReg r (op.result (m.regs r) b)) := by
  simp only [Inst.exec, h]
  rfl

theorem exec_negl_reg (m : Machine W) (r : Reg) :
    (Inst.negl (.reg r)).exec targets m = some (m.clearFlags.setReg r (-m.regs r)) := rfl

theorem exec_idivl {m : Machine W} {divisor : Operand} {b quotient remainder : Int32}
    (h : m.read? divisor = some b)
    (hq : wideDivide (m.regs .rdx) (m.regs .rax) b = some (quotient, remainder)) :
    (Inst.idivl divisor).exec targets m =
      some ((m.clearFlags.setReg .rax quotient).setReg .rdx remainder) := by
  simp [Inst.exec, h, hq]

@[simp] theorem execAll_nil (m : Machine W) : execAll targets [] m = some m := rfl

theorem execAll_cons {i : Inst} {rest : List Inst} {m m' : Machine W}
    (h : i.exec targets m = some m') :
    execAll targets (i :: rest) m = execAll targets rest m' := by
  simp [execAll, h]

theorem execAll_append (c d : List Inst) (m : Machine W) :
    execAll targets (c ++ d) m = (execAll targets c m).bind (execAll targets d) := by
  induction c generalizing m with
  | nil => rfl
  | cons i rest ih =>
    simp only [List.cons_append, execAll, Option.bind_eq_bind, Option.bind_assoc]
    exact congrArg _ (funext ih)

/-- Code after code: the second piece runs from where the first one ends. It puts the runs of two
generators together in the order in which `yields_bind` puts their code together. -/
theorem execAll_append_of {c d : List Inst} {m m₁ m₂ : Machine W}
    (h₁ : execAll targets c m = some m₁) (h₂ : execAll targets d m₁ = some m₂) :
    execAll targets (c ++ d) m = some m₂ := by
  rw [execAll_append, h₁, Option.bind_some, h₂]

end

/-! ## Whole bodies -/

/-- Where control is. The code ahead is a suffix of the body; a jump starts it anew behind a label.
-/
inductive Control where
  /-- In front of some code; at the end if there is none. -/
  | ahead (rest : List Inst)
  /-- At a label that the code does not have. -/
  | outside (label : String)
deriving DecidableEq

/-- A moment in the run of a body. The list of comparisons is no part of the processor: it is kept
so that what a condition asks for can be stated. -/
structure Config (W : Type) where
  control : Control
  machine : Machine W
  /-- The comparisons that were made, oldest first. -/
  compared : List Comparison

/-- Whether the instruction compares. -/
def Inst.compares : Inst → Bool
  | .cmpl .. => true
  | _ => false

/-- How many comparisons stand in the code. -/
def compareCount (code : List Inst) : Nat := code.countP Inst.compares

@[simp] theorem compareCount_append (c d : List Inst) :
    compareCount (c ++ d) = compareCount c + compareCount d :=
  List.countP_append

/-- The label that a line defines. -/
def Inst.labelName? : Inst → Option String
  | .label name => some name
  | _ => none

/-- The labels that the code defines, in order. -/
def labels (code : List Inst) : List String := code.filterMap Inst.labelName?

@[simp] theorem labels_nil : labels [] = [] := rfl

theorem labels_cons (i : Inst) (rest : List Inst) :
    labels (i :: rest) = i.labelName?.toList ++ labels rest := by
  rw [labels, List.filterMap_cons]
  cases i.labelName? <;> rfl

theorem mem_labels_iff {name : String} {code : List Inst} :
    name ∈ labels code ↔ .label name ∈ code := by
  induction code with
  | nil => simp
  | cons i rest ih => cases i <;> simp [labels_cons, Inst.labelName?, ih, eq_comm]

@[simp] theorem labels_append (c d : List Inst) : labels (c ++ d) = labels c ++ labels d :=
  List.filterMap_append

/-- Where a jump to a label leads. The first label of the name counts, as in a search from the top
of the body. -/
def goto (name : String) : List Inst → Control
  | [] => .outside name
  | .label l :: rest => if l = name then .ahead rest else goto name rest
  | _ :: rest => goto name rest

/-- One step of a body. The comparison that it makes, if it does, is numbered by its place among the
comparisons of the body. -/
def step (targets : Targets W) (body : List Inst) (c : Config W) : Option (Config W) :=
  match c.control with
  | .outside _ | .ahead [] => none
  | .ahead (i :: rest) =>
    match i with
    | .cmpl src dest => do
      let b ← c.machine.read? src
      let a ← c.machine.read? dest
      let number := compareCount body - compareCount (i :: rest)
      some ⟨.ahead rest, { c.machine with flags := some (a, b) }, c.compared ++ [⟨number, a, b⟩]⟩
    | .jmp name => some { c with control := goto name body }
    | .jcc condition name => do
      let (a, b) ← c.machine.flags
      some { c with control := if condition.holds a b then goto name body else .ahead rest }
    | i => do
      let m ← i.exec targets c.machine
      some { c with control := .ahead rest, machine := m }

/-- One configuration of a body leads to another one. It is the reflexive and transitive closure of
`step`, so it can be extended at either end. -/
abbrev Reaches (targets : Targets W) (body : List Inst) : Config W → Config W → Prop :=
  Relation.ReflTransGen fun c d => step targets body c = some d

section

variable {targets : Targets W} {body : List Inst}

/-- A label that does not stand first is looked for further on. -/
theorem goto_cons_of_ne {name : String} {i : Inst} (rest : List Inst)
    (h : name ∉ i.labelName?) : goto name (i :: rest) = goto name rest := by
  cases i with
  | label l => exact if_neg fun e => h (by rw [e]; rfl)
  | _ => rfl

/-- A label that the code does not have leads out of it. By induction on the code, each instruction
by `goto_cons_of_ne`. -/
theorem goto_of_notMem {name : String} {code : List Inst} (h : name ∉ labels code) :
    goto name code = .outside name := by
  induction code with
  | nil => rfl
  | cons i rest ih =>
    rw [labels_cons, List.mem_append, Option.mem_toList, not_or] at h
    rw [goto_cons_of_ne rest h.1, ih h.2]

/-- A label leads to its first place. With `h` no place before it is meant; where labels are drawn
only once this is always so. -/
theorem goto_append_label {name : String} {before : List Inst} (rest : List Inst)
    (h : name ∉ labels before) : goto name (before ++ .label name :: rest) = .ahead rest := by
  induction before with
  | nil => exact if_pos rfl
  | cons i before ih =>
    rw [labels_cons, List.mem_append, Option.mem_toList, not_or] at h
    rw [List.cons_append, goto_cons_of_ne _ h.1, ih h.2]

/-- An instruction that the next one follows is one step. It is how runs by `execAll` become steps
of the machine: `Reaches.ofExecAll`. -/
theorem step_of_exec {i : Inst} {rest : List Inst} {m m' : Machine W} (log : List Comparison)
    (h : i.exec targets m = some m') :
    step targets body ⟨.ahead (i :: rest), m, log⟩ = some ⟨.ahead rest, m', log⟩ := by
  cases i with
  | cmpl | jmp | jcc => simp [Inst.exec] at h
  | _ => simp only [step, h, Option.bind_eq_bind, Option.bind_some]

/-- A comparison sets the flags, and is noted down under its number. The number is counted from the
end of the body, by what is still ahead: `hn` says how many comparisons were passed. -/
theorem step_cmpl {src dest : Operand} {rest : List Inst} {m : Machine W} {log : List Comparison}
    {number : Nat} {a b : Int32} (ha : m.read? dest = some a) (hb : m.read? src = some b)
    (hn : compareCount body = number + compareCount (.cmpl src dest :: rest)) :
    step targets body ⟨.ahead (.cmpl src dest :: rest), m, log⟩ =
      some ⟨.ahead rest, { m with flags := some (a, b) }, log ++ [⟨number, a, b⟩]⟩ := by
  simp [step, ha, hb, hn]

/-- A conditional jump looks at the last comparison. If it jumps it searches the whole body, so that
code which was placed somewhere has to be found by `Placed.goto`. -/
theorem step_jcc {condition : Condition} {name : String} {rest : List Inst} {m : Machine W}
    {log : List Comparison} {a b : Int32} (h : m.flags = some (a, b)) :
    step targets body ⟨.ahead (.jcc condition name :: rest), m, log⟩ =
      some ⟨if condition.holds a b then goto name body else .ahead rest, m, log⟩ := by
  simp [step, h]

/-- Code without jumps is run through. By induction on the code; whatever comes after it, `rest`, is
not looked at. -/
theorem Reaches.ofExecAll {c : List Inst} (rest : List Inst) {m m' : Machine W}
    (log : List Comparison) (h : execAll targets c m = some m') :
    Reaches targets body ⟨.ahead (c ++ rest), m, log⟩ ⟨.ahead rest, m', log⟩ := by
  -- Each instruction is one step by `step_of_exec`.
  induction c generalizing m with
  | nil =>
    obtain rfl : m = m' := by simpa using h
    exact .refl
  | cons i c ih =>
    simp only [execAll, Option.bind_eq_bind, Option.bind_eq_some_iff] at h
    obtain ⟨m₁, hi, hc⟩ := h
    exact .head (step_of_exec log hi) (ih hc)

end

/-! ## Placement -/

/-- Code that stands in a body, with some code after it: its labels are defined there only once, and
nowhere before it. -/
def Placed (body code rest : List Inst) : Prop :=
  ∃ before, body = before ++ (code ++ rest) ∧ (labels code).Nodup ∧
    ∀ l ∈ labels code, l ∉ labels before

namespace Placed

variable {body c d rest : List Inst}

theorem left (h : Placed body (c ++ d) rest) : Placed body c (d ++ rest) := by
  obtain ⟨before, hb, hn, ho⟩ := h
  rw [labels_append, List.nodup_append] at hn
  exact ⟨before, by rw [hb, List.append_assoc], hn.1, fun l hl => ho l (by simp [hl])⟩

theorem right (h : Placed body (c ++ d) rest) : Placed body d rest := by
  obtain ⟨before, hb, hn, ho⟩ := h
  rw [labels_append, List.nodup_append] at hn
  refine ⟨before ++ c, by rw [hb]; simp, hn.2.1, fun l hl => ?_⟩
  rw [labels_append, List.mem_append, not_or]
  exact ⟨ho l (by simp [hl]), fun hc => hn.2.2 l hc l hl rfl⟩

theorem tail {i : Inst} (h : Placed body (i :: c) rest) : Placed body c rest :=
  right (c := [i]) h

/-- A label of placed code is found. -/
theorem goto {name : String} (h : Placed body (.label name :: c) rest) :
    goto name body = .ahead (c ++ rest) := by
  obtain ⟨before, hb, -, ho⟩ := h
  rw [hb, List.cons_append]
  exact goto_append_label _ (ho name (by simp [labels_cons, Inst.labelName?]))

/-- A body stands in itself, if no label is defined twice. So a piece of code can be run on its own,
with nothing around it. -/
theorem self (h : (labels body).Nodup) : Placed body body [] :=
  ⟨[], by simp, h, by simp⟩

/-- The comparisons of a body are those before placed code, those in it, and those after it. -/
theorem compareCount (h : Placed body c rest) :
    ∃ number, compareCount body = number + compareCount (c ++ rest) := by
  obtain ⟨before, hb, -⟩ := h
  exact ⟨Assembly.compareCount before, by rw [hb, compareCount_append]⟩

end Placed

end PascalAsm.Assembly
