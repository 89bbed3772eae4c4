import PascalAsm.Proofs.Correctness.Programs
import PascalAsm.Proofs.Generator.Phrases
import PascalAsm.Proofs.Machine.Walk
import PascalAsm.Proofs.Simulation.Routines
import PascalAsm.Proofs.Units.Labels

/-!
# Bodies keep to their frames

The size of a frame is read off the scope of a routine when its body is complete, and by then the
body names slots that were laid out at many moments: parameters and variables before it was begun,
temporaries in its middle. `Routine.Generated.framed` says that all of them lie in the frame, and that
the body leaves the stack to the instructions that open and close the frame; it is shown for one
phrase after another.
-/

namespace PascalAsm

open Assembly Lowering Gen State

/-! ## Phrases -/

namespace Assembly

variable {pooled : List Reg} {slot : Operand → Prop} {size : Nat}

theorem Source.within (hslot : ∀ op, slot op → op.Within size) {op : Operand}
    (h : Source pooled slot op) : op.Within size := by
  cases h with
  | imm v => exact Operand.within_imm v
  | reg _ => exact Operand.within_reg _
  | slot h => exact hslot op h

/-- A register of data is none of those that hold addresses of the stack. It is used wherever an
instruction writes a register that a pool has handed out. -/
theorem Reg.ne_of_isData {r : Reg} (h : r.isData = true) : r ≠ .rbp ∧ r ≠ .rsp := by
  revert h
  cases r <;> decide

/-- If the slots lie in the frame, then a phrase keeps to the frame. Phrases are what bodies consist
of, so it is one case for each of them and not one for each generator. -/
theorem Phrase.framed (hdata : ∀ r ∈ pooled, r.isData = true)
    (hslot : ∀ op, slot op → op.Within size ∧ op.regs = []) {c : List Inst}
    (h : Phrase pooled slot c) : ∀ i ∈ c, i.Framed size := by
  have hsource {op : Operand} (hop : Source pooled slot op) : op.Within size :=
    hop.within fun op h => (hslot op h).1
  -- neither the stack pointer nor the frame pointer is in the pool
  have hpooled {r : Reg} (hr : r ∈ pooled) := Reg.ne_of_isData (hdata r hr)
  cases h with
  | load hs hd =>
    refine List.forall_mem_singleton.2 ⟨?_, ?_, rfl⟩
    · simp [Inst.operands, hsource hs]
    · simp [Inst.writes, Operand.regs, Reg.ne_of_isData hd]
  | result hd =>
    refine List.forall_mem_singleton.2 ⟨?_, ?_, rfl⟩
    · simp [Inst.operands]
    · simp [Inst.writes, Operand.regs, hpooled hd]
  | store hs hd =>
    refine List.forall_mem_singleton.2 ⟨?_, ?_, rfl⟩
    · simp [Inst.operands, hslot _ hd]
    · simp [Inst.writes, hslot _ hd]
  | constant v hd =>
    refine List.forall_mem_singleton.2 ⟨?_, ?_, rfl⟩
    · simp [Inst.operands, hslot _ hd]
    · simp [Inst.writes, hslot _ hd]
  | arith op hs hd =>
    refine List.forall_mem_singleton.2 ⟨?_, ?_, rfl⟩
    · simp [Inst.operands, hsource hs]
    · simp [Inst.writes, Operand.regs, hpooled hd]
  | negate hd =>
    refine List.forall_mem_singleton.2 ⟨?_, ?_, rfl⟩
    · simp [Inst.operands]
    · simp [Inst.writes, Operand.regs, hpooled hd]
  | compare hs hd =>
    refine List.forall_mem_singleton.2 ⟨?_, ?_, rfl⟩
    · simp [Inst.operands, hsource hs]
    · simp [Inst.writes]
  | divide hr hs hv hd =>
    intro i hi
    simp only [divideCode, List.mem_cons, List.not_mem_nil, or_false] at hi
    rcases hi with rfl | rfl | rfl | rfl
    · exact ⟨by simp [Inst.operands], by simp [Inst.writes, Operand.regs, Convention.resultReg], rfl⟩
    · exact ⟨by simp [Inst.operands], by simp [Inst.writes], rfl⟩
    · exact ⟨by simp [Inst.operands, hsource hs], by simp [Inst.writes], rfl⟩
    · exact ⟨by simp [Inst.operands], by simp [Inst.writes, Operand.regs, hpooled hd], rfl⟩
  | call name =>
    intro i hi
    simp only [List.mem_cons, List.not_mem_nil, or_false] at hi
    rcases hi with rfl | rfl
    · exact ⟨by simp [clear, Inst.operands],
        by simp [clear, Inst.writes, Operand.regs, Convention.vectorCountReg], rfl⟩
    · exact ⟨by simp [Inst.operands], by simp [Inst.writes], rfl⟩
  | address h =>
    refine List.forall_mem_singleton.2 ⟨?_, ?_, rfl⟩
    · simp [Inst.operands, hslot _ h]
    · simp [Inst.writes]
  | format h =>
    refine List.forall_mem_singleton.2 ⟨?_, ?_, rfl⟩
    · simp [Inst.operands]
    · simp [Inst.writes]
  | jmp | jcc | label | comment =>
    refine List.forall_mem_singleton.2 ⟨?_, ?_, rfl⟩
    · simp [Inst.operands]
    · simp [Inst.writes]

theorem Phrases.framed (hdata : ∀ r ∈ pooled, r.isData = true)
    (hslot : ∀ op, slot op → op.Within size ∧ op.regs = []) {c : List Inst}
    (h : Phrases pooled slot c) : ∀ i ∈ c, i.Framed size := by
  induction h with
  | nil => simp
  | cons hc _ ih =>
    intro i hi
    rcases List.mem_append.1 hi with hi | hi
    · exact hc.framed hdata hslot i hi
    · exact ih i hi

end Assembly

/-! ## The slots of a body -/

namespace Lowering

/-- The slots of a scope lie in its frame, if the frame is not so large that displacements wrap. -/
theorem Scope.Laid.within {scope : Scope} {outer : Scopes} (h : scope.Laid)
    (hsmall : scope.frameSize < 2 ^ 31) {op : Operand} (hop : Scopes.Slots (scope :: outer) op) :
    op.Within scope.frameSize ∧ op.regs = [] := by
  obtain ⟨x, slot, hfind, rfl⟩ := hop
  obtain ⟨hmem, -⟩ := Scope.mem_of_find? hfind
  obtain ⟨i, hi, rfl⟩ := List.getElem_of_mem hmem
  have hoffset := h.offset i hi
  have hsize : scope.usedBytes + Convention.reservedBytes ≤ scope.frameSize := le_align _
  simp only [Scope.usedBytes, slotSize, Convention.reservedBytes] at hoffset hsize
  -- the frame is small enough, so the displacement is that of the offset
  have hdisp : scope.slots[i].disp = -(scope.slots[i].offset : Int) := by
    refine Operand.slotDisplacement_of_lt ?_
    rw [UInt32.size]
    omega
  refine ⟨?_, rfl⟩
  rintro base disp hmem
  rw [Slot.operand_eq] at hmem
  obtain ⟨rfl, rfl⟩ := Operand.mem.inj hmem
  refine ⟨rfl, scope.slots[i].offset, hdisp, by omega, by omega, ?_⟩
  show _ + 16 ≤ _
  omega

end Lowering

namespace Routine

variable {pooled : List Reg} {comments : Bool} {r : Routine} {f : Function} {n n' : Nat}

/-- No register of the pool holds an address of the stack. The pool has been sound since the start,
and that is part of being sound. -/
theorem Generated.isData (h : r.Generated pooled comments n n' f) : ∀ q ∈ pooled, q.isData = true := by
  obtain ⟨s, -, -, -, -, -, -, hrests, -⟩ := h.body
  exact fun q hq => hrests.sound.isData hq

/-- The instructions of a body are phrases, and their slots are those of a scope whose size the frame
has. -/
theorem Generated.phrases (h : r.Generated pooled comments n n' f) : ∃ scope outer, scope.Laid ∧
    f.frameSize = scope.frameSize ∧ Phrases pooled (Scopes.Slots (scope :: outer)) f.body := by
  obtain ⟨s, s', c, scope, outer, hscopes, -, hidle, -, hbody, -, hscopes', rfl⟩ := h.body
  have hgrows := (Stmt.lower_made hbody).advanced.scopes
  rw [hscopes, hscopes'] at hgrows
  have hentry := r.laid_entry h.sized.nodup
  have hlaid : Scopes.Laid (scope :: outer) := hgrows.laid fun q hq => by
    obtain rfl : r.entry = q := by simpa using hq
    exact hentry
  have hslot {slot : Slot} (hs : slot ∈ r.entry.slots) :
      Scopes.Slots (scope :: outer) slot.operand :=
    hgrows.slot (Scopes.slots_of_find? (hentry.find?_of_mem hs))
  have hcode := Stmt.phrases_of_lower hidle hbody
  rw [hscopes'] at hcode
  -- before the body parameters are stored, after it the result is loaded
  have hstoring : Phrases pooled (Scopes.Slots (scope :: outer)) r.storing := by
    refine .of_forall fun i hi => ?_
    rw [storing, paramStores, ← List.map_uncurry_zip_eq_zipWith, List.mem_map] at hi
    obtain ⟨⟨q, slot⟩, hmem, rfl⟩ := hi
    obtain ⟨hq, hs⟩ := List.of_mem_zip hmem
    have hdata : q.isData = true := by
      revert hq
      cases q <;> decide
    exact .store hdata (hslot (mem_entry_of_argument hs))
  have hloading : Phrases pooled (Scopes.Slots (scope :: outer)) r.loading := by
    refine .of_forall fun i hi => ?_
    obtain ⟨slot, hs, rfl⟩ := List.mem_map.1 hi
    exact .load (.slot (hslot (mem_entry_of_result hs))) rfl
  exact ⟨scope, outer, hlaid scope rfl, rfl, hstoring.append (hcode.append hloading)⟩

/-- The body of a routine keeps to its frame, if the frame is not so large that displacements wrap. -/
theorem Generated.framed (h : r.Generated pooled comments n n' f) (hsmall : f.frameSize < 2 ^ 31) :
    f.Framed := by
  obtain ⟨scope, outer, hlaid, hsize, hphrases⟩ := h.phrases
  rw [hsize] at hsmall
  refine ⟨?_, ?_⟩
  · rw [hsize]
    exact align_mod _
  · rw [hsize]
    exact hphrases.framed h.isData fun op hop => hlaid.within hsmall hop

/-- A body has the labels that it jumps to. So a jump in it finds what it looks for, which is where
a run could be stuck. -/
theorem Generated.closed (h : r.Generated pooled comments n n' f) : f.Closed := by
  have hlands {i : Inst} {name : String} (hi : i ∈ f.body) (htarget : i.target? = some name) :
      .label name ∈ f.body := by
    have hmem : name ∈ targets f.body := List.mem_filterMap.2 ⟨i, hi, htarget⟩
    have hlabel : name ∈ labels f.body := by simpa using (h.aims.mem_iff name).1 hmem
    exact mem_labels_iff.1 hlabel
  exact ⟨fun hi => hlands hi rfl, fun hi => hlands hi rfl⟩

end Routine

/-! ## Units -/

/-- **Frames of a compiled unit.** If no frame is so large that displacements wrap, every function of
the unit keeps to its frame; and whenever it is called, the stack is aligned at all calls and every
slot that is named is in a frame, until it returns with the stack of its caller as it was. Functions
of other units have only to keep the stack themselves. -/
theorem Program.frames_of_compile {p : Program} {options : Options} {compiled : Compiled}
    {outside : Outside} (h : p.compile options = .ok compiled)
    (hsmall : ∀ f ∈ compiled.unit.functions, f.frameSize < 2 ^ 31) (houtside : outside.Keeps) :
    (∀ f ∈ compiled.unit.linked, f.Framed) ∧
      ∀ f ∈ compiled.unit.linked, f.Balanced compiled.unit.linked outside := by
  -- A function of the unit was generated for a routine, or is the wrapper that calls the entry.
  have hkept : ∀ f ∈ compiled.unit.linked, f.Framed ∧ f.Closed := by
    intro f hf
    rcases List.mem_append.1 hf with hf | hf
    · obtain ⟨s, s', c, hs, hlower, -, hunit, -, -⟩ := Program.compile_eq_ok_iff.1 h
      have hmem : f ∈ s'.finished := by rwa [hunit] at hf
      obtain ⟨r, -, n, n', hr⟩ := (Program.generated_of_initial hs hlower).exists_of_mem hmem
      exact ⟨hr.framed (hsmall f hf), hr.closed⟩
    · rw [List.mem_singleton.1 hf]
      exact ⟨framed_mainWrapper _, closed_mainWrapper _⟩
  have hframed : ∀ f ∈ compiled.unit.linked, f.Framed := fun f hf => (hkept f hf).1
  have hclosed : ∀ f ∈ compiled.unit.linked, f.Closed := fun f hf => (hkept f hf).2
  exact ⟨hframed, fun f hf => Function.Framed.balanced hframed hclosed houtside hf⟩

/-! ### The start of a unit -/

/-- The processor when `main` is called, with an address on the stack. It stands at the first
instruction of `main`, the address of return on top of its stack. -/
def startingCpu (entry : String) : Cpu where
  regs r := if r = .rbp then 77 else 1000
  memory := Memory.put (fun _ => ⟨.number 0, 0⟩) 1000 (.number 4096)
  control := .code (mainWrapper entry)
    ((mainWrapper entry).marks ++ .pushq .rbp :: .movq .rsp .rbp ::
      ((mainWrapper entry).room ++ ((mainWrapper entry).body ++ (mainWrapper entry).epilogue)))

/-- What becomes of the call of `main` in the unit of the program of sums: the run that falls through
at every conditional jump. -/
def sumReturn : Option Cpu :=
  (startingCpu "sums").walk (sumOutcome.state.finished ++ [mainWrapper "sums"]) 1000 60

/-- The unit of the program of sums keeps to its frames. Its `main` can be run to the end, and then it
has returned to where it was called, with the stack as it was. -/
theorem frames_sumProgram : ∃ compiled, sumProgram.compile {} = .ok compiled ∧
    ((∀ f ∈ compiled.unit.linked, f.Framed) ∧
      ∀ f ∈ compiled.unit.linked, f.Balanced compiled.unit.linked returning) ∧
    ∃ d, During compiled.unit.linked returning 1000 (startingCpu "sums") d ∧
      Returned 1000 77 (.number 4096) d := by
  obtain ⟨compiled, hcompile⟩ : ∃ compiled, sumProgram.compile {} = .ok compiled :=
    Program.exists_compile_iff.2
      ⟨by decide, by decide, sumStart, sumOutcome.state, sumOutcome.code, rfl, yields_sumProgram⟩
  obtain ⟨s, s', c, hs, hlower, -, hunit, -, -⟩ := Program.compile_eq_ok_iff.1 hcompile
  obtain rfl : sumStart = s := Except.ok.inj hs
  obtain ⟨-, rfl, -⟩ := Outcome.mk.inj (hlower.symm.trans yields_sumProgram)
  have hsizes : ∀ f ∈ compiled.unit.functions, f.frameSize < 2 ^ 31 := by
    rw [hunit]
    simpa using (by cbv : sumOutcome.state.finished.all (fun f => f.frameSize < 2 ^ 31) = true)
  have hframes := Program.frames_of_compile hcompile hsizes keeps_returning
  refine ⟨compiled, hcompile, hframes, ?_⟩
  have hlinked : compiled.unit.linked = sumOutcome.state.finished ++ [mainWrapper "sums"] := by
    rw [hunit]
    rfl
  have hmem : mainWrapper "sums" ∈ compiled.unit.linked := by simp [hlinked]
  obtain ⟨code, hcode, hbalanced⟩ := hframes.2 _ hmem
  have hcontrol : (startingCpu "sums").control = .code (mainWrapper "sums") code := by
    rw [startingCpu, Except.ok.inj ((framed_mainWrapper "sums").code_eq.symm.trans hcode)]
  -- the run ends above the return address, so `main` has returned
  obtain ⟨d, hd, hrisen⟩ : ∃ d, sumReturn = some d ∧ d.regs .rsp = 1008 := by
    have hend : sumReturn.map (·.regs .rsp) = some 1008 := by decide +kernel
    exact Option.map_eq_some_iff.1 hend
  have hrun : During compiled.unit.linked returning 1000 (startingCpu "sums") d := by
    rw [hlinked]
    exact during_of_walk hd
  obtain ⟨hsafe | hreturned, -⟩ := hbalanced hcontrol rfl (Memory.holds_put _ _ _) hrun
  · exact absurd hsafe.1 (by rw [hrisen]; decide)
  · exact ⟨d, hrun, hreturned⟩

end PascalAsm
