import Mathlib.Order.Bounds.Defs
import PascalAsm.Proofs.Failures.Lookup

/-!
# What every run keeps of the open scopes

A slot that was handed out is addressed by all code that comes after it, while further slots are
added and scopes are opened and closed inside its own. So it has to stay where it is, and no other
may overlap it. Here this is said of every state that operations on scopes lead to, against the
record of what was handed out.

* **`Scope.Ordered`** — the arguments come first, then the locals, then the temporaries. A region is
  closed to additions as soon as a later one has begun, which keeps the order.
* **`State.Reached.forall_scopes`** — what holds of a scope without slots and survives every
  addition holds of every open scope.
* **`State.Reached.handsOut`** — the result: where the slots are, what a name is found as, when an
  addition fails, and how large the frame is.
-/

namespace PascalAsm.Lowering

open Assembly Gen

/-! ## One scope -/

namespace Scope

/-- The slots of a region, in order of creation. Since slots are only added at the end, this is also
their order in the layout. -/
def slotsOf (s : Scope) (region : Region) : List Slot := s.slots.filter (·.region = region)

/-- The regions were laid out one after another. It is an equation, so that nothing between two
regions can be overlooked. -/
def Ordered (s : Scope) : Prop :=
  s.slots = s.slotsOf .argument ++ s.slotsOf .local ++ s.slotsOf .temporary

theorem ordered_empty : Ordered empty := rfl

/-- Nothing was added to the regions after one that is not closed. A later slot would have closed
the region. -/
theorem slotsOf_eq_nil {s : Scope} {region later : Region} (h : s.isClosed region = false)
    (hlater : region.rank < later.rank) : s.slotsOf later = [] := by
  rw [slotsOf, List.filter_eq_nil_iff]
  rintro slot hslot hregion
  have hle := (List.any_eq_false.1 h) slot hslot
  rw [decide_eq_true_eq] at hle hregion
  exact hle (hregion ▸ hlater)

theorem isClosed_eq_true_iff {s : Scope} {region : Region} :
    s.isClosed region = true ↔ ∃ slot ∈ s.slots, region.rank < slot.region.rank := by
  simp [isClosed]

theorem slotsOf_append (s : Scope) (slot : Slot) (region : Region) :
    slotsOf ⟨s.slots ++ [slot]⟩ region =
      s.slotsOf region ++ if slot.region = region then [slot] else [] := by
  by_cases h : slot.region = region <;> simp [slotsOf, h]

theorem Ordered.add {s t : Scope} {region : Region} {name : String} {slot : Slot} (h : s.Ordered)
    (hadd : s.add region name = .ok (slot, t)) : t.Ordered := by
  obtain ⟨hopen, -, -, rfl⟩ := add_eq_ok_iff.1 hadd
  have hregion : (s.nextSlot region name).region = region := rfl
  rw [Ordered] at h
  simp only [Ordered, slotsOf_append, hregion]
  -- the regions after that of the new slot are empty
  cases region with
  | argument =>
    have hlocals : s.slotsOf .local = [] := slotsOf_eq_nil hopen (by decide)
    have htemporaries : s.slotsOf .temporary = [] := slotsOf_eq_nil hopen (by decide)
    rw [hlocals, htemporaries, List.append_nil, List.append_nil] at h
    simp [hlocals, htemporaries, ← h]
  | «local» =>
    have htemporaries : s.slotsOf .temporary = [] := slotsOf_eq_nil hopen (by decide)
    rw [htemporaries, List.append_nil] at h
    simp [htemporaries, h]
  | temporary => simp [h]

theorem Laid.offsets_eq {s : Scope} (h : s.Laid) :
    s.slots.map (·.offset) = (List.range s.slots.length).map fun i => 4 * (i + 1) := by
  apply List.ext_getElem
  · simp
  · intro i hi _
    have hlt : i < s.slots.length := by simpa using hi
    simpa [slotSize] using h.offset i hlt

/-- No smaller size keeps the stack aligned and has room for the slots and what lies above them. -/
theorem isLeast_frameSize (s : Scope) :
    IsLeast {size | 16 ∣ size ∧ 4 * s.slots.length + 16 ≤ size} s.frameSize := by
  have hlower := le_align (s.usedBytes + Convention.reservedBytes)
  have hupper := align_lt (s.usedBytes + Convention.reservedBytes)
  have hmod := align_mod (s.usedBytes + Convention.reservedBytes)
  simp only [usedBytes, slotSize, Convention.reservedBytes, Convention.stackAlignment] at *
  constructor
  · exact ⟨Nat.dvd_of_mod_eq_zero hmod, hlower⟩
  · rintro size ⟨⟨k, rfl⟩, hsize⟩
    -- two multiples of the alignment that are less than one alignment apart
    show align (4 * s.slots.length + 16) ≤ 16 * k
    omega

/-- An addition is refused for one of two reasons. Which of the two it is, is told by the error. -/
theorem add_eq_error_iff {s : Scope} {region : Region} {name : String} :
    (∃ e, s.add region name = .error e) ↔
      (∃ slot ∈ s.slots, region.rank < slot.region.rank) ∨ name ∈ s.slots.map (·.name) := by
  rw [← isClosed_eq_true_iff, ← binds_iff, add]
  split
  next hclosed => simp [hclosed]
  next hopen => split <;> simp_all

end Scope

/-! ## All open scopes -/

namespace State

variable {s : State} {L : List Declared}

/-- What holds of a scope without slots and survives every addition holds of every open scope. -/
theorem Reached.forall_scopes {P : Scope → Prop} (hempty : P .empty)
    (hadd : ∀ {scope scope' : Scope} {region : Region} {name : String} {slot : Slot}, P scope →
      scope.add region name = .ok (slot, scope') → P scope')
    (h : Reached s L) : ∀ scope ∈ s.scopes, P scope := by
  induction h with
  | start hinitial =>
    obtain ⟨-, rfl⟩ | ⟨-, rfl⟩ := initial_eq_ok_iff.1 hinitial <;> simp
  | @step s L op _ ih =>
    cases op with
    | enter => exact List.forall_mem_cons.2 ⟨hempty, ih⟩
    | leave =>
      rw [ScopeOp.carryOut, state_run_then_pure]
      obtain ⟨scopes, arrays⟩ := s
      cases scopes with
      | nil => exact ih
      | cons scope outer => exact (List.forall_mem_cons.1 ih).2
    | add region name =>
      rcases hrun : (addSlot region name).run s with ⟨e | slot, s', c⟩
      · obtain ⟨_, -, -, rfl⟩ := fails_addSlot.1 (⟨c, hrun⟩ : (addSlot region name).Fails s e s')
        rw [ScopeOp.carryOut, run_bind_of_error _ hrun]
        exact ih
      · rw [ScopeOp.carryOut, run_bind_of_ok _ hrun]
        obtain ⟨S, hS, rfl, -⟩ := yields_addSlot.1 hrun
        -- the innermost scope gets the slot, those around it stay
        obtain ⟨scope, scope', outer, hs, rfl, hscope⟩ := Scopes.add_eq_ok_iff.1 hS
        rw [hs] at ih
        obtain ⟨hinner, houter⟩ := List.forall_mem_cons.1 ih
        exact List.forall_mem_cons.2 ⟨hadd hinner hscope, houter⟩
    | array name => exact ih

/-- A slot is handed out for the name and in the region that were asked for. -/
theorem of_yields_addSlot {region : Region} {name : String} {slot : Slot} {s' : State} {c : List Inst}
    (h : (addSlot region name).Yields s slot s' c) : slot.name = name ∧ slot.region = region := by
  obtain ⟨S, hS, -, -⟩ := yields_addSlot.1 h
  obtain ⟨scope, scope', outer, -, -, hscope⟩ := Scopes.add_eq_ok_iff.1 hS
  obtain ⟨-, -, rfl, -⟩ := Scope.add_eq_ok_iff.1 hscope
  exact ⟨rfl, rfl⟩

/-- An addition is refused if no scope is open, or by the innermost one. What the innermost one
refuses is read off the slots that were declared in it. -/
theorem Holds.fails_addSlot_iff (h : s.Holds L) (region : Region) (name : String) :
    (∃ e s', (addSlot region name).Fails s e s') ↔ L = [] ∨ ∃ d ∈ L.head?,
      (∃ slot ∈ d.slots, region.rank < slot.region.rank) ∨ d.Binds name := by
  have hslots := h.slots
  have hfails : (∃ e s', (addSlot region name).Fails s e s') ↔
      ∃ le, Scopes.add region name s.scopes = .error le := by
    simp only [fails_addSlot]
    constructor
    · rintro ⟨_, _, le, hle, -, -⟩
      exact ⟨le, hle⟩
    · rintro ⟨le, hle⟩
      exact ⟨_, _, le, hle, rfl, rfl⟩
  rw [hfails]
  -- only the innermost scope is asked
  cases hs : s.scopes with
  | nil =>
    rw [hs] at hslots
    obtain rfl := List.map_eq_nil_iff.1 hslots.symm
    simp [Scopes.add]
  | cons scope outer =>
    rw [hs] at hslots
    obtain ⟨d, rest, rfl, hd, -⟩ := List.map_eq_cons_iff.1 hslots.symm
    have hadd : (∃ le, Scopes.add region name (scope :: outer) = .error le) ↔
        ∃ le, scope.add region name = .error le := by
      rw [Scopes.add]
      rcases scope.add region name with e | ⟨slot, scope'⟩ <;> simp [Except.map]
    rw [hadd, Scope.add_eq_error_iff]
    simp only [reduceCtorEq, List.head?_cons, Option.mem_some_iff, exists_eq_left', false_or, hd,
      Declared.Binds]

/-- **The open scopes along every run.** They hold the slots that were handed out in them, and these
are one below the other from the frame pointer down, the arguments before the locals before the
temporaries, no two of one name. A name is found as the slot that the innermost scope handed out for
it. An addition fails exactly if no scope is open, a later region has begun or the name has a slot,
and it changes nothing then. The frame is the smallest that keeps the stack aligned and has room for
all slots. -/
theorem Reached.handsOut (h : Reached s L) :
    s.scopes.map (·.slots) = L.map (·.slots) ∧
      (∀ scope ∈ s.scopes,
        scope.slots.map (·.offset) = (List.range scope.slots.length).map (fun i => 4 * (i + 1)) ∧
        scope.slots = scope.slotsOf .argument ++ scope.slotsOf .local ++ scope.slotsOf .temporary ∧
        (scope.slots.map (·.name)).Nodup ∧
        scope.usedBytes = 4 * scope.slots.length ∧
        IsLeast {size | 16 ∣ size ∧ 4 * scope.slots.length + 16 ≤ size} scope.frameSize) ∧
      (∀ name slot, s.scopes.find? name = some slot ↔
        ∃ d ∈ L.head?, slot ∈ d.slots ∧ slot.name = name) ∧
      ∀ region name,
        (∀ slot s' c, (addSlot region name).Yields s slot s' c →
          slot.name = name ∧ slot.region = region) ∧
        ((∃ e s', (addSlot region name).Fails s e s') ↔ L = [] ∨ ∃ d ∈ L.head?,
          (∃ slot ∈ d.slots, region.rank < slot.region.rank) ∨ d.Binds name) ∧
        ∀ e s', (addSlot region name).Fails s e s' → s' = s := by
  -- `Holds` ties the scopes to what was declared; every addition keeps the order of the regions.
  have hholds := h.holds
  have hordered := h.forall_scopes Scope.ordered_empty fun hscope hadd => hscope.add hadd
  refine ⟨hholds.slots, ?_, ?_, fun region name => ⟨?_, ?_, ?_⟩⟩
  · intro scope hscope
    have hlaid := hholds.laid scope hscope
    exact ⟨hlaid.offsets_eq, hordered scope hscope, hlaid.names, rfl, scope.isLeast_frameSize⟩
  · intro name slot
    exact hholds.find?_eq_some_iff
  · intro slot s' c hadd
    exact of_yields_addSlot hadd
  · exact hholds.fails_addSlot_iff region name
  · intro e s' hfails
    obtain ⟨_, -, -, rfl⟩ := fails_addSlot.1 hfails
    rfl

/-- A scope with an argument and a local. -/
def argumentAndLocal : Declared := ⟨[⟨"n", 4, .argument⟩, ⟨"x", 8, .local⟩], []⟩

/-- After a scope was opened and closed inside, in which the same name was given a slot, and after
an argument that came too late: both slots are where they were, and neither a second local of the
name nor a further argument is accepted. -/
theorem handsOut_argumentAndLocal : ∃ s, Reached s [argumentAndLocal] ∧
    s.scopes.find? "n" = some ⟨"n", 4, .argument⟩ ∧ s.scopes.find? "x" = some ⟨"x", 8, .local⟩ ∧
    (∃ e s', (addSlot .local "x").Fails s e s') ∧ ∃ e s', (addSlot .argument "late").Fails s e s' := by
  have hstart : State.initial 3 = .ok { pool := .ofRegs [.rdi, .rsi, .rcx] } := rfl
  have houter := Reached.start hstart |>.step .enter |>.step (.add .argument "n")
    |>.step (.add .local "x")
  -- The inner `x` is another slot, and is gone when its scope is closed.
  have hinner := houter.step .enter |>.step (.add .temporary "x") |>.step .leave
  have hreached := hinner.step (.add .argument "late")
  obtain ⟨-, -, hfind, hadd⟩ := hreached.handsOut
  refine ⟨_, hreached, (hfind _ _).2 (by decide), (hfind _ _).2 (by decide), ?_, ?_⟩
  · exact (hadd .local "x").2.1.2 (by decide)
  · exact (hadd .argument "late").2.1.2 (by decide)

end State

end PascalAsm.Lowering
