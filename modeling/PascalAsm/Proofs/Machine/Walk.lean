import PascalAsm.Proofs.Machine.Basic
import PascalAsm.Proofs.Machine.Stack

/-!
# A run that can be computed

The machine of the stack leaves open what is computed and which way a conditional jump goes, so its
runs are no function of where they start. `Cpu.next?` takes one of the ways there are: it falls through
at every conditional jump, leaves the data alone, and has functions of other units return at once.
`during_of_walk` says that the run it takes is one of those of the machine, so that a theorem about
all of them can be tried on a unit.
-/

namespace PascalAsm.Assembly

open Relation

variable {linked : List Function} {limit : Int} {c d : Cpu} {f : Function} {rest : List Inst}

/-! ## Functions of other units -/

/-- Functions of other units that return at once. They keep the stack of their caller,
`keeps_returning`, and do nothing else. -/
def returning : Outside := fun _ c d => d = c

theorem keeps_returning : returning.Keeps := by
  rintro name c d rfl
  exact ⟨rfl, rfl, fun _ _ => rfl⟩

/-! ## One step -/

/-- The word on top of the stack, going by its first byte. Where a word is held there, it is this
one by `Memory.Holds.unique`. -/
def Cpu.top (c : Cpu) : Word := (c.memory (c.regs .rsp)).word

theorem Cpu.pops_top (c : Cpu) : c.Pops c.top := by
  intro w hw
  have hfirst := hw 0 (by omega)
  rw [Cpu.top, ← Int.add_zero (c.regs .rsp)]
  exact congrArg Byte.word hfirst.symm

/-- A jump within a body leads behind its label. What stands before the label is not said: the first
place of the label is meant, and a jump is allowed to any. -/
theorem exists_of_goto {name : String} {code after : List Inst} (h : goto name code = .ahead after) :
    ∃ before, code = before ++ .label name :: after := by
  induction code with
  | nil => simp [goto] at h
  | cons i rest ih =>
    have hlater (h : goto name rest = .ahead after) :
        ∃ before, i :: rest = before ++ .label name :: after := by
      obtain ⟨before, rfl⟩ := ih h
      exact ⟨i :: before, rfl⟩
    -- Only a label can be the one that is looked for; behind every other instruction it is `ih`.
    cases i with
    | label l =>
      rw [goto] at h
      split at h
      · next hl => exact ⟨[], by rw [hl, Control.ahead.inj h, List.nil_append]⟩
      · exact hlater h
    | _ => exact hlater h

/-- What an instruction does if nothing is computed and no conditional jump is taken. This is one of
the things that `Inst.Does` allows, chosen so that it can be computed. -/
def Inst.next? (linked : List Function) (f : Function) (rest : List Inst) (c : Cpu) :
    Inst → Option Cpu
  | .pushq r => some ((c.push (.number (c.regs r))).go f rest)
  | .popq r =>
    match c.top with
    | .number n => some (((c.setReg .rsp (c.regs .rsp + 8)).setReg r n).go f rest)
    | .code .. => none
  | .movq src dest => some ((c.setReg dest (c.regs src)).go f rest)
  | .subq amount r => some ((c.setReg r (c.regs r - amount)).go f rest)
  | .ret => some { c.setReg .rsp (c.regs .rsp + 8) with control := c.top }
  | .jmp name =>
    match goto name f.body with
    | .ahead after => some (c.go f (after ++ f.epilogue))
    | .outside _ => none
  | .call name =>
    match linked.find? (·.name = name) with
    | some g =>
      match g.code with
      | .ok code => some ((c.push (.code f rest)).go g code)
      | .error _ => none
    | none => some (c.go f rest)
  | _ => some (c.go f rest)

/-- The next instruction is carried out, if there is one. Behind the last instruction there is none,
and none outside of the unit. -/
def Cpu.next? (linked : List Function) (c : Cpu) : Option Cpu :=
  match c.control with
  | .code f (i :: rest) => i.next? linked f rest c
  | _ => none

/-- What is computed is one of the things that an instruction can do. One case for each form of
instruction; only jumps, calls and pops have more to show than that the result is the same. -/
theorem Inst.does_of_next? {i : Inst} (h : i.next? linked f rest c = some d) :
    i.Does linked returning f rest c d := by
  have hcomputes (hd : some (c.go f rest) = some d) :
      c.Computes i d ∧ d.control = .code f rest := by
    obtain rfl := Option.some.inj hd
    exact ⟨⟨fun _ _ => rfl, fun _ _ => rfl⟩, rfl⟩
  cases i with
  -- What only computes may do anything to the registers; `hcomputes` says it does this.
  | movl | arith | negl | cmpl | cdq | idivl | leaq => exact hcomputes h
  | label | directive | comment | pushq | movq | subq => exact (Option.some.inj h).symm
  | jcc condition name => exact .inr (Option.some.inj h).symm
  | popq r =>
    simp only [next?] at h
    split at h
    · next n htop => exact ⟨n, htop ▸ c.pops_top, (Option.some.inj h).symm⟩
    · simp at h
  | ret => exact ⟨c.top, c.pops_top, (Option.some.inj h).symm⟩
  | jmp name =>
    simp only [next?] at h
    split at h
    · next after hafter =>
      obtain ⟨before, hbody⟩ := exists_of_goto hafter
      exact ⟨before, after, hbody, (Option.some.inj h).symm⟩
    · simp at h
  | call name =>
    simp only [next?] at h
    split at h
    · next g hg =>
      have hname : g.name = name := by simpa using List.find?_some hg
      split at h
      · next code hcode =>
        exact .inl ⟨g, List.mem_of_find?_eq_some hg, hname, code, hcode, (Option.some.inj h).symm⟩
      · simp at h
    -- No function of the unit has this name, so what the call does is up to `returning`.
    · next hnone =>
      have hother : ∀ g ∈ linked, g.name ≠ name := by simpa using hnone
      exact .inr ⟨hother, c, rfl, (Option.some.inj h).symm⟩

theorem Cpu.step_of_next? (h : c.next? linked = some d) : Step linked returning c d := by
  rw [next?] at h
  split at h
  · next f i rest hc => exact ⟨f, i, rest, hc, i.does_of_next? h⟩
  · simp at h

/-! ## Many steps -/

/-- At most so many steps, but none any more when the stack pointer has risen above the limit. -/
def Cpu.walk (linked : List Function) (limit : Int) : Nat → Cpu → Option Cpu
  | 0, c => some c
  | n + 1, c => if c.regs .rsp ≤ limit then (c.next? linked).bind (walk linked limit n) else some c

/-- What is computed step by step is a run of the machine. With it a complete run of a compiled unit
can be computed and then used as a run of the machine. -/
theorem during_of_walk {n : Nat} (h : c.walk linked limit n = some d) :
    During linked returning limit c d := by
  -- Each computed step is one of the machine by `Cpu.step_of_next?`.
  induction n generalizing c with
  | zero =>
    obtain rfl := Option.some.inj h
    exact .refl
  | succ n ih =>
    rw [Cpu.walk] at h
    split at h
    · next hle =>
      obtain ⟨b, hb, hd⟩ := Option.bind_eq_some_iff.1 h
      exact .head ⟨hle, Cpu.step_of_next? hb⟩ (ih hd)
    · obtain rfl := Option.some.inj h
      exact .refl

end PascalAsm.Assembly
