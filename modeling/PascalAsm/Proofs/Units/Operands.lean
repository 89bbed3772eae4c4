import PascalAsm.Proofs.Units.Frames

/-!
# Operands of the emitted instructions

Not every instruction that can be written down can be carried out. A processor reads or writes
memory once in an instruction, it cannot store into a constant, and its division takes the dividend
from a fixed pair of registers, so that the divisor must be in neither of them. And some
instructions rely on those before them: a division on the dividend and its sign, a call on the
register that says how many vector registers are in use.

* **`Inst.Encodable`** — the operands of an instruction are of a kind that it can have.
* **`Inst.Flanked`** — what an instruction relies on stands directly before it, and what it leaves
  behind is fetched directly after it.

`Program.feasible_of_compile` says both of all instructions in the bodies of a unit. It is shown for
one phrase after another: an instruction never relies on one of another phrase.
-/

namespace PascalAsm

open Assembly Lowering Gen State

/-! ## Instructions and what is around them -/

namespace Assembly

/-- The operand is in memory. An instruction may have at most one operand of this kind. -/
def Operand.isMemory : Operand → Bool
  | .mem .. | .rip _ => true
  | .reg _ | .imm _ => false

/-- The operand can be stored into. What is addressed from the instruction pointer is constant data.
Constants cannot be stored into either. -/
def Operand.isTarget : Operand → Bool
  | .reg _ | .mem .. => true
  | .imm _ | .rip _ => false

/-- The operand is a slot of a frame. All memory that bodies store into is of this kind. -/
def Operand.IsSlot (op : Operand) : Prop := ∃ offset, op = .frameSlot offset

/-- The operands of the instruction are of a kind that it can have. The members of the pool matter
for the registers in which values are computed. -/
def Inst.Encodable (pooled : List Reg) : Inst → Prop
  | .movl src dest => dest.isTarget = true ∧ ¬ (src.isMemory = true ∧ dest.isMemory = true)
  | .arith _ _ dest | .cmpl _ dest | .negl dest => ∃ r, dest = .reg r
  | .idivl divisor =>
    divisor.IsSlot ∨ ∃ r ∈ pooled, divisor = .reg r ∧ r ≠ .rax ∧ r ≠ .rdx
  | .leaq src dest =>
    src.IsSlot ∧ dest = .rsi ∨
      (src = .rip Runtime.writeFormat ∨ src = .rip Runtime.readFormat) ∧ dest = .rdi
  | _ => True

/-- What stands around the instruction is what it needs. Before a division the dividend is moved to
`%eax` and its sign is extended into `%edx`, and after it the quotient or the remainder replaces the
dividend. Before a call `%eax` is cleared. -/
def Inst.Flanked (pooled : List Reg) (before after : List Inst) : Inst → Prop
  | .idivl _ => ∃ dividend ∈ pooled, ∃ result earlier later, (result = .rax ∨ result = .rdx) ∧
      before = earlier ++ [.movl (.reg dividend) (.reg .rax), .cdq] ∧
      after = .movl (.reg result) (.reg dividend) :: later
  | .call _ => ∃ earlier, before = earlier ++ [.movl (.imm 0) (.reg .rax)]
  | _ => True

/-- Every instruction of the code is encodable, and has around it what it needs. The second part is
stated by splitting the code at the instruction, so it is empty for most of them. -/
structure Feasible (pooled : List Reg) (c : List Inst) : Prop where
  encodable : ∀ i ∈ c, i.Encodable pooled
  flanked : ∀ before i after, c = before ++ i :: after → i.Flanked pooled before after

variable {pooled : List Reg} {c d : List Inst} {i : Inst}

/-- Only what stands next to an instruction matters. So code that is feasible stays so inside of
longer code. -/
theorem Inst.Flanked.extend {before after : List Inst} (h : i.Flanked pooled before after)
    (first last : List Inst) : i.Flanked pooled (first ++ before) (after ++ last) := by
  -- Only a division and a call look at what stands before them, and at its end.
  cases i with
  | idivl divisor =>
    obtain ⟨dividend, hd, result, earlier, later, hr, rfl, rfl⟩ := h
    refine ⟨dividend, hd, result, first ++ earlier, later ++ last, hr, ?_, rfl⟩
    rw [List.append_assoc]
  | call name =>
    obtain ⟨earlier, rfl⟩ := h
    exact ⟨first ++ earlier, (List.append_assoc ..).symm⟩
  | _ => trivial

namespace Feasible

theorem nil : Feasible pooled [] where
  encodable := by simp
  flanked := by simp

/-- An instruction on its own, if it needs nothing around it. That leaves out divisions and calls
only. -/
theorem single (h : i.Encodable pooled) (hi : ∀ before after, i.Flanked pooled before after) :
    Feasible pooled [i] where
  encodable := List.forall_mem_singleton.2 h
  flanked := by
    intro before j after heq
    obtain rfl : j = i := by
      have hj : j ∈ [i] := heq ▸ List.mem_append_right before List.mem_cons_self
      exact List.mem_singleton.1 hj
    exact hi before after

theorem append (h : Feasible pooled c) (h' : Feasible pooled d) : Feasible pooled (c ++ d) where
  encodable := List.forall_mem_append.2 ⟨h.encodable, h'.encodable⟩
  flanked := by
    intro before i after heq
    obtain ⟨before', rfl, hd⟩ | ⟨tail, hc, htail⟩ := List.append_eq_append_iff.1 heq
    · -- the instruction is one of the second part
      have hi := (h'.flanked before' i after hd).extend c []
      rwa [List.append_nil] at hi
    · cases tail with
      | nil =>
        rw [List.append_nil] at hc
        have hi := (h'.flanked [] i after htail.symm).extend before []
        rwa [List.append_nil, List.append_nil] at hi
      | cons j after' =>
        -- the instruction is one of the first part
        obtain ⟨rfl, rfl⟩ := List.cons.inj htail
        exact (h.flanked before i after' hc).extend [] d

end Feasible

/-! ## Phrases -/

/-- A division has around it what it needs, by the code that it comes with. The dividend is moved to
`%rax` in front of it, and the result comes from there or from `%rdx`. -/
theorem feasible_divideCode {result dest : Reg} {divisor : Operand}
    (hresult : result = Convention.resultReg ∨ result = Convention.remainderReg)
    (hdivisor : (Inst.idivl divisor).Encodable pooled) (hdest : dest ∈ pooled) :
    Feasible pooled (divideCode result divisor dest) where
  encodable := by
    simp only [divideCode, List.forall_mem_cons, List.not_mem_nil]
    have hregs {r q : Reg} :
        ¬ ((Operand.reg r).isMemory = true ∧ (Operand.reg q).isMemory = true) :=
      fun h => Bool.false_ne_true h.1
    exact ⟨⟨rfl, hregs⟩, trivial, hdivisor, ⟨rfl, hregs⟩, fun _ h => h.elim⟩
  flanked := by
    intro before i after heq
    -- by how many of the four instructions stand before it
    rcases before with _ | ⟨_, _ | ⟨_, _ | ⟨_, _ | ⟨_, before⟩⟩⟩⟩ <;>
      simp only [divideCode, List.nil_append, List.cons_append, List.cons.injEq,
        List.nil_eq, List.append_eq_nil_iff, reduceCtorEq, and_false] at heq
    · obtain ⟨rfl, -⟩ := heq
      trivial
    · obtain ⟨-, rfl, -⟩ := heq
      trivial
    · obtain ⟨rfl, rfl, rfl, rfl⟩ := heq
      exact ⟨dest, hdest, result, [], [], hresult, rfl, rfl⟩
    · obtain ⟨-, -, -, rfl, -⟩ := heq
      trivial

/-- A call has what it needs before it. It is the register that announces how many vector registers
have arguments. -/
theorem feasible_call (name : String) :
    Feasible pooled [clear Convention.vectorCountReg, .call name] where
  encodable := by
    simp only [List.forall_mem_cons, List.not_mem_nil]
    exact ⟨⟨rfl, fun h => Bool.false_ne_true h.1⟩, trivial, fun _ h => h.elim⟩
  flanked := by
    intro before i after heq
    -- There are two places in the code: `before` has no instruction, or one, and never more.
    rcases before with _ | ⟨_, _ | ⟨_, before⟩⟩ <;>
      simp only [List.nil_append, List.cons_append, List.cons.injEq, List.nil_eq,
        List.append_eq_nil_iff, reduceCtorEq, and_false] at heq
    · obtain ⟨rfl, -⟩ := heq
      trivial
    · obtain ⟨rfl, rfl, -⟩ := heq
      exact ⟨[], rfl⟩

variable {slot : Operand → Prop}

/-- If slots are slots of a frame, and the registers of a division are none of the pool, then every
phrase can be carried out. -/
theorem Phrase.feasible (hslot : ∀ op, slot op → op.IsSlot)
    (hpool : ∀ r ∈ pooled, r ≠ .rax ∧ r ≠ .rdx) (h : Phrase pooled slot c) : Feasible pooled c := by
  have hmemory {op : Operand} (hop : slot op) : op.isTarget = true := by
    obtain ⟨_, rfl⟩ := hslot op hop
    rfl
  cases h with
  | load => exact .single ⟨rfl, fun h => nomatch h.2⟩ fun _ _ => trivial
  | result => exact .single ⟨rfl, fun h => nomatch h.2⟩ fun _ _ => trivial
  | store _ hd => exact .single ⟨hmemory hd, fun h => nomatch h.1⟩ fun _ _ => trivial
  | constant v hd => exact .single ⟨hmemory hd, fun h => nomatch h.1⟩ fun _ _ => trivial
  | arith | negate | compare => exact .single ⟨_, rfl⟩ fun _ _ => trivial
  -- The divisor is a slot or in the pool; `hv` excludes an immediate, `hpool` the two registers.
  | divide hr hs hv hd =>
    refine feasible_divideCode hr ?_ hd
    cases hs with
    | imm v => cases hv
    | reg hmem => exact .inr ⟨_, hmem, rfl, hpool _ hmem⟩
    | slot hop => exact .inl (hslot _ hop)
  | call name => exact feasible_call name
  | address hop => exact .single (.inl ⟨hslot _ hop, rfl⟩) fun _ _ => trivial
  | format hlabel =>
    refine .single (.inr ⟨?_, rfl⟩) fun _ _ => trivial
    obtain rfl | rfl := hlabel
    · exact .inl rfl
    · exact .inr rfl
  | jmp | jcc | label | comment => exact .single trivial fun _ _ => trivial

theorem Phrases.feasible (hslot : ∀ op, slot op → op.IsSlot)
    (hpool : ∀ r ∈ pooled, r ≠ .rax ∧ r ≠ .rdx) (h : Phrases pooled slot c) :
    Feasible pooled c := by
  induction h with
  | nil => exact .nil
  | cons hc _ ih => exact (hc.feasible hslot hpool).append ih

/-- The function that calls the entry is one call with its register cleared before and after. No
register of a pool occurs in it. -/
theorem feasible_mainWrapper (entry : String) : Feasible pooled (mainWrapper entry).body :=
  (feasible_call entry).append (.single ⟨rfl, fun h => nomatch h.2⟩ fun _ _ => trivial)

end Assembly

/-! ## Units -/

/-- The body of a routine can be carried out. By the phrases that the body consists of, with the
members of the pool that it was made with. -/
theorem Routine.Generated.feasible {r : Routine} {pooled : List Reg} {comments : Bool} {n n' : Nat}
    {f : Function} (h : r.Generated pooled comments n n' f) : Feasible pooled f.body := by
  obtain ⟨scope, outer, -, -, hphrases⟩ := h.phrases
  obtain ⟨s, -, -, -, -, -, -, hrests, -⟩ := h.body
  refine hphrases.feasible ?_ fun r hr => ?_
  · rintro op ⟨_, slot, -, rfl⟩
    exact ⟨slot.offset, rfl⟩
  · exact hrests.sound.sound.ne_of_mem (hrests.members ▸ hr)

/-- **Operands in a compiled unit.** In the bodies of all functions every instruction has operands
that it can have; in particular the divisor of a division is a slot of the frame or a register of
the pool, and neither of the registers that the division works in. Every division has its dividend
prepared directly before it, and every call its register cleared. -/
theorem Program.feasible_of_compile {p : Program} {options : Options} {compiled : Compiled}
    (h : p.compile options = .ok compiled) : ∃ pool, Pool.ofSize options.registers = .ok pool ∧
      ∀ f ∈ compiled.unit.linked, Feasible pool.members f.body := by
  obtain ⟨s, s', c, hs, hlower, -, hunit, -, -⟩ := Program.compile_eq_ok_iff.1 h
  refine ⟨s.pool, ?_, fun f hf => ?_⟩
  · rw [Pool.ofSize_eq_ok_iff]
    obtain ⟨hregisters, rfl⟩ | ⟨hregisters, rfl⟩ := State.initial_eq_ok_iff.1 hs
    · exact .inl ⟨hregisters, rfl⟩
    · exact .inr ⟨hregisters, rfl⟩
  -- A generated function has a body of phrases; the wrapper consists of one call.
  · rcases List.mem_append.1 hf with hf | hf
    · rw [hunit] at hf
      obtain ⟨r, -, n, n', hr⟩ := (Program.generated_of_initial hs hlower).exists_of_mem hf
      exact hr.feasible
    · rw [List.mem_singleton.1 hf]
      exact feasible_mainWrapper _

/-- A program that divides by a variable, by a constant, and by what it has in a register. -/
def dividingProgram : Program where
  name := "dividing"
  args := ["input", "output"]
  declarations := [.vars 1 ["n"] .integer]
  subprograms :=
    [.mk (.function .integer) "last" [.vars 2 ["k"] .integer] [] []
      (.assign 3 (.var 3 "last") (.mul 3 .mod (.var 3 "k") (.integer 3 10))) 2]
  body := .compound 4
    [.call 5 "read" [.var 5 "n"],
     .call 6 "write" [.mul 6 .div (.integer 6 100) (.var 6 "n")],
     .call 7 "write" [.mul 7 .div (.call 7 "last" [.var 7 "n"])
      (.add 7 .plus (.var 7 "n") (.integer 7 1))]]
  line := 1

/-- With two registers, the divisor in a register is in the second of them. -/
theorem feasible_dividingProgram : ∃ compiled,
    dividingProgram.compile { registers := 2 } = .ok compiled ∧
      (∃ pool, Pool.ofSize 2 = .ok pool ∧
        ∀ f ∈ compiled.unit.linked, Feasible pool.members f.body) ∧
      ∃ f ∈ compiled.unit.linked, .idivl (.reg .rsi) ∈ f.body := by
  let o := (dividingProgram.lower false).run { pool := .ofRegs [.rdi, .rsi] }
  have hlower : (dividingProgram.lower false).Yields { pool := .ofRegs [.rdi, .rsi] } () o.state
      o.code := by
    rw [yields_iff]
    cbv
  obtain ⟨compiled, hcompile⟩ : ∃ compiled,
      dividingProgram.compile { registers := 2 } = .ok compiled :=
    Program.exists_compile_iff.2 ⟨by decide, by decide, _, o.state, o.code, rfl, hlower⟩
  refine ⟨compiled, hcompile, Program.feasible_of_compile hcompile, ?_⟩
  obtain ⟨s, s', c, hs, hlower', -, hunit, -, -⟩ := Program.compile_eq_ok_iff.1 hcompile
  obtain rfl := Except.ok.inj hs
  obtain ⟨-, rfl, -⟩ := Outcome.mk.inj (hlower'.symm.trans hlower)
  -- Which function divides by a register is computed on the functions that were made.
  have hdivides : o.state.finished.any (fun f => .idivl (.reg .rsi) ∈ f.body) = true := by cbv
  obtain ⟨f, hf, hmem⟩ := List.any_eq_true.1 hdivides
  rw [Assembly.Program.linked, hunit]
  exact ⟨f, List.mem_append_left _ hf, of_decide_eq_true hmem⟩

end PascalAsm
