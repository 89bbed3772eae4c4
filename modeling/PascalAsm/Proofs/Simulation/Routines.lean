import Mathlib.Data.List.Zip
import PascalAsm.Proofs.Generator.Routines
import PascalAsm.Proofs.Simulation.Statements

/-!
# Running the code of routines

The function of a routine stores its parameters, runs the code of its body, and loads its result. So
a call of the function has the effect of a call of the routine: `Routine.Compiled.reaches`. The
frame may hold anything at the start, since a variable has no value before it is assigned.
-/

namespace PascalAsm

open Assembly Lowering Gen State

variable {W : Type}

/-! ## Parameters -/

/-- Registers are stored into different slots. By induction on the slots; with `hn` no store hits
the slot of an earlier one. -/
theorem exec_stores (targets : Targets W) (regs : List Reg) {slots : List Slot} (m : Machine W)
    (hn : (slots.map Slot.disp).Nodup) :
    ∃ m', execAll targets (regs.zipWith (fun r slot => .movl (.reg r) slot.operand) slots) m =
        some m' ∧ (∀ p ∈ regs.zip slots, m'.slots p.2.disp = m.regs p.1) ∧
      (∀ d, d ∉ slots.map Slot.disp → m'.slots d = m.slots d) ∧ m'.regs = m.regs ∧
      m'.world = m.world := by
  induction slots generalizing regs m with
  | nil => exact ⟨m, by simp, by simp, fun _ _ => rfl, rfl, rfl⟩
  | cons slot slots ih =>
    cases regs with
    | nil => exact ⟨m, by simp, by simp, fun _ _ => rfl, rfl, rfl⟩
    | cons r regs =>
      rw [List.map_cons, List.nodup_cons] at hn
      have hmov : (Inst.movl (.reg r) slot.operand).exec targets m =
          some (m.setSlot slot.disp (m.regs r)) := exec_movl_slot slot.disp rfl
      obtain ⟨m', hex, hstored, hothers, hregs, hworld⟩ :=
        ih regs (m.setSlot slot.disp (m.regs r)) hn.2
      refine ⟨m', (execAll_cons hmov).trans hex, ?_, ?_, hregs, hworld⟩
      · intro p hp
        rw [List.zip_cons_cons, List.mem_cons] at hp
        rcases hp with rfl | hp
        -- what is stored later goes into other slots
        · exact (hothers _ hn.1).trans (m.slots_setSlot_self ..)
        · exact hstored p hp
      · intro d hd
        rw [List.map_cons, List.mem_cons, not_or] at hd
        exact (hothers d hd.2).trans (m.slots_setSlot_of_ne _ hd.1)

/-- What is stored for the parameters are their values at the start of a call. Afterwards the
machine holds the store that the call begins with, `entryStore`. -/
theorem Routine.storing_executes {r : Routine} {L : Layout} (targets : Targets W) {m : Machine W}
    {args : List Int32}
    (hplace : ∀ slot ∈ Region.argument.slots 0 r.parameters, L.place slot.name = some slot.disp)
    (hnames : ∀ x ∈ r.parameters, ¬ Dollar x) (hn : r.parameters.Nodup)
    (hpass : m.Passes args) (hcount : args.length = r.parameters.length) :
    ∃ m', execAll targets r.storing m = some m' ∧ Holds L (r.entryStore args) m' ∧
      m'.world = m.world := by
  let slots := Region.argument.slots 0 r.parameters
  have hslots : slots.map (·.name) = r.parameters := Region.names_slots ..
  have hdisp : (slots.map Slot.disp).Nodup := by
    have hnodup : (slots.map (·.name)).Nodup := hslots ▸ hn
    refine hnodup.of_map.map_on fun a ha b hb hab => ?_
    have hname : a.name = b.name := L.inj (hplace a ha) (hab ▸ hplace b hb)
    exact List.inj_on_of_nodup_map hnodup ha hb hname
  obtain ⟨m', hex, hstored, -, -, hworld⟩ :=
    exec_stores targets Convention.argumentRegs m hdisp
  refine ⟨m', hex, fun x v hx => ?_, hworld⟩
  obtain ⟨⟨y, v'⟩, hfind, rfl⟩ := Option.map_eq_some_iff.1 hx
  have hmem := List.mem_of_find?_eq_some hfind
  obtain rfl : y = x := by simpa using List.find?_some hfind
  -- the parameter and its value come from a slot and a register at the same position
  have hlength : slots.length = args.length := by rw [hcount, ← hslots, List.length_map]
  rw [hpass, ← hslots, List.zip_map, List.mem_map, ← hlength] at hmem
  obtain ⟨⟨slot, q⟩, hzip, hp⟩ := hmem
  obtain ⟨rfl, rfl⟩ := Prod.mk.inj hp
  have hpair : (q, slot) ∈ Convention.argumentRegs.zip slots := by
    rw [← List.zip_swap, List.mem_map]
    refine ⟨(slot, q), ?_, rfl⟩
    refine List.mem_of_mem_take (i := slots.length) ?_
    rw [List.zip, List.take_zipWith, List.take_length]
    exact hzip
  have hslot : slot ∈ slots := (List.of_mem_zip hzip).1
  exact ⟨hnames slot.name (hslots ▸ List.mem_map_of_mem hslot), slot.disp, hplace slot hslot,
    hstored (q, slot) hpair⟩

/-- What is loaded at the end is the value of the result, if it has one. -/
theorem Routine.loading_executes {r : Routine} {L : Layout} (targets : Targets W) {m : Machine W}
    {store : Store} (hplace : ∀ slot ∈ r.resultSlots, L.place slot.name = some slot.disp)
    (hstore : Holds L store m) :
    ∃ m', execAll targets r.loading m = some m' ∧ m'.world = m.world ∧
      ∀ v ∈ (if r.returnsValue then store r.name else none),
        m'.regs Convention.resultReg = v := by
  rw [loading]
  rw [resultSlots] at hplace ⊢
  cases hreturns : r.returnsValue with
  | false => exact ⟨m, rfl, rfl, by simp⟩
  | true =>
    simp only [hreturns, if_true, Region.slots, List.mem_singleton, forall_eq] at hplace
    simp only [if_true, Region.slots, List.map_cons, List.map_nil]
    have hmov (slot : Slot) :
        (Inst.movl slot.operand (.reg Convention.resultReg)).exec targets m =
          some (m.setReg Convention.resultReg (m.slots slot.disp)) :=
      exec_movl_reg Convention.resultReg rfl
    refine ⟨_, (execAll_cons (hmov _)).trans (execAll_nil _), rfl, fun v hv => ?_⟩
    -- `hstore` places the result somewhere, and `hplace` says that it is this slot.
    obtain ⟨-, d, hd, rfl⟩ := hstore r.name v hv
    obtain rfl := Option.some.inj (hplace.symm.trans hd)
    exact m.regs_setReg_self ..

/-! ## Functions -/

namespace Lowering.Scope

/-- A slot of a scope is found in every scope that it grows to. It is found although the body has
added temporaries to its scope. -/
theorem find?_of_grows {P : String → Prop} {scope : Scope} {outer S : Scopes} (h : scope.Laid)
    (hg : Scopes.Grows P (scope :: outer) S) {slot : Slot} (hslot : slot ∈ scope.slots) :
    S.find? slot.name = some slot :=
  hg.find? (h.find?_of_mem hslot)

end Lowering.Scope

namespace Routine

variable {r : Routine}

/-- The variables of a routine have different slots. All that is asked of the names is that no two
are the same, as the generator checks. -/
theorem laid_entry (r : Routine) (h : r.varNames.Nodup) : r.entry.Laid := by
  have hparams : (Scope.empty.laidOut .argument r.parameters).Laid :=
    Scope.empty.laid_laidOut .argument Scope.laid_empty (List.nodup_append.1 h).1
  refine Scope.laid_laidOut _ .local hparams ?_
  rw [Scope.names_laidOut]
  exact h

/-- Parameters have the first slots of the scope of a routine. So they are found at the end of the
body, by `find?_of_grows`. -/
theorem mem_entry_of_argument {slot : Slot} (h : slot ∈ Region.argument.slots 0 r.parameters) :
    slot ∈ r.entry.slots := by
  refine List.mem_append_left _ ?_
  exact h

/-- The result has the last slot of the scope of a routine. It is the local that is named after the
function. -/
theorem mem_entry_of_result {slot : Slot} (h : slot ∈ r.resultSlots) : slot ∈ r.entry.slots := by
  refine List.mem_append_right _ ?_
  rw [locals, Region.slots_append]
  refine List.mem_append_right _ ?_
  simpa [resultSlots, Scope.laidOut, Scope.empty] using h

end Routine

/-- **The function of a routine runs as the routine.** When it finds the arguments in the registers,
it comes to its end with the world that the routine leaves behind, and with the result, if there is
one, in its register. -/
theorem Routine.Compiled.reaches [Terminal W] {targets : Targets W} {calls : Callees W}
    {r : Routine} {comments : Bool} {f : Function} {fuel : Nat} {m : Machine W} {args : List Int32}
    {store : Store} {w : W} (hf : r.Compiled comments f) (hans : Answers targets calls)
    (hlib : Library targets) (hnames : ∀ x ∈ r.identifiers, ¬ Dollar x) (hpass : m.Passes args)
    (hcount : args.length = r.parameters.length)
    (heffect : r.body.exec calls fuel (r.entryStore args) m.world = some (store, w)) :
    ∃ m' log, Reaches targets f.body ⟨.ahead f.body, m, []⟩ ⟨.ahead [], m', log⟩ ∧
      m'.world = w ∧
      ∀ v ∈ (if r.returnsValue then store r.name else none),
        m'.regs Convention.resultReg = v := by
  obtain ⟨s, s', c, outer, hscopes, hdepth, hidle, hbody, hcode⟩ := hf.body
  have hmade := Stmt.lower_made hbody
  have hlaid := r.laid_entry hf.sized.nodup
  have hgrows := hmade.advanced.scopes
  rw [hscopes] at hgrows
  let L := Layout.ofScopes s'.scopes (hgrows.laid fun scope h => by cases h; exact hlaid)
  have hL : L.Covers s'.scopes := Layout.covers_ofScopes _ _
  have hplace : ∀ slot ∈ r.entry.slots, L.place slot.name = some slot.disp := fun slot hslot =>
    hL (Scope.find?_of_grows hlaid hgrows hslot)
  have hplaced : Placed f.body c r.loading := by
    refine ⟨r.storing, hcode, hmade.labels.nodup, fun l _ => ?_⟩
    rw [r.straight_storing.labels_eq]
    exact List.not_mem_nil
  have hvariables : ∀ x ∈ r.varNames, ¬ Dollar x := fun x hx =>
    hnames x (r.varNames_subset_identifiers hx)
  -- the parameters are stored
  obtain ⟨m₁, hex₁, hstore₁, hworld₁⟩ := r.storing_executes targets
    (fun slot h => hplace slot (mem_entry_of_argument h))
    (fun x hx => hvariables x (List.mem_append_left _ hx)) (List.nodup_append.1 hf.sized.nodup).1
    hpass hcount
  -- the body runs, and gives values only to variables that it names
  have hplain : store.Plain := (Stmt.assigns_exec r.body heffect).plain_of_names hstore₁.plain
    fun x hx => hnames x (List.mem_append_right _ hx)
  obtain ⟨m₂, log, hreaches, hstore₂, rfl⟩ := Stmt.lower_performs hans hlib hbody hL hidle hplaced
    [] hstore₁ (hworld₁ ▸ heffect) hplain
  -- the result is loaded
  obtain ⟨m₃, hex₃, hworld₃, hresult⟩ := r.loading_executes targets
    (fun slot h => hplace slot (mem_entry_of_result h)) hstore₂
  refine ⟨m₃, log, ?_, hworld₃, hresult⟩
  have hlast : Reaches targets f.body ⟨.ahead (r.loading ++ []), m₂, log⟩ ⟨.ahead [], m₃, log⟩ :=
    .ofExecAll [] log hex₃
  rw [List.append_nil] at hlast
  rw [hcode] at hreaches hlast ⊢
  exact (Reaches.ofExecAll _ [] hex₁).trans (hreaches.trans hlast)

end PascalAsm
