import PascalAsm.Proofs.Failures.Programs

/-!
# What a name is found as

Scopes are opened and closed, names get slots in the innermost one, and arrays are noted there. The
state keeps the slots and the arrays in two stacks, and a lookup goes down them to different depths.
Here the same is told from outside: a record is kept of what each open scope has declared, by the
answers that were given, and `Lowering.State.Reached.lookup_iff` says what a lookup answers in terms of
that record alone.

A name is found in the innermost scope only. Where that has neither a slot nor an array of the name, a
slot in a scope around it is reported as such. An array in a scope around it is not: to a lookup it is a
name that nothing declares.
-/

namespace PascalAsm.Lowering

open Assembly Gen

/-! ## Operations on scopes -/

/-- What can be done to the open scopes. Temporaries are added as variables are, in a region of
their own. -/
inductive ScopeOp where
  /-- A scope is opened. -/
  | enter
  /-- The innermost scope is closed. -/
  | leave
  /-- A name is given a slot in the innermost scope. -/
  | add (region : Region) (name : String)
  /-- An array is noted in the innermost scope. -/
  | array (name : String)

/-- Does it, and gives the new slot if there is one. Only a variable gets a slot; the other
operations give nothing. -/
def ScopeOp.carryOut : ScopeOp → Gen (Option Slot)
  | .enter => do
    enterScope
    return none
  | .leave => do
    leaveScope
    return none
  | .add region name => return some (← addSlot region name)
  | .array name => do
    declareArray name
    return none

/-- What one open scope has declared: the slots that were handed out, and the names of arrays. -/
structure Declared where
  slots : List Slot := []
  arrays : List String := []

/-- The scope has a variable of the name. Arrays are not among the slots, since they have no room in
the frame. -/
def Declared.Binds (d : Declared) (name : String) : Prop := name ∈ d.slots.map (·.name)

instance (d : Declared) (name : String) : Decidable (d.Binds name) :=
  inferInstanceAs (Decidable (name ∈ d.slots.map (·.name)))

/-- The record of the open scopes, innermost first, after one more operation and what it answered. -/
def ScopeOp.record (op : ScopeOp) (answer : Except LoweringError (Option Slot))
    (L : List Declared) : List Declared :=
  match op, answer with
  | .enter, _ => {} :: L
  | .leave, _ => L.tail
  | .add .., .ok (some slot) => L.modifyHead fun d => { d with slots := d.slots ++ [slot] }
  | .add .., _ => L
  | .array name, _ => L.modifyHead fun d => { d with arrays := d.arrays ++ [name] }

namespace State

/-- The states that operations on scopes lead to from the start, failed ones included, each with the
record of its open scopes. -/
inductive Reached : State → List Declared → Prop
  | start {registers : Nat} {s : State} (h : State.initial registers = .ok s) : Reached s []
  | step {s : State} {L : List Declared} (op : ScopeOp) (h : Reached s L) :
    Reached (op.carryOut.run s).state (op.record (op.carryOut.run s).result L)

/-- The two stacks of the state hold what the record says. One of the stacks has the slots and the
other one the arrays, and they are as long as each other. -/
structure Holds (s : State) (L : List Declared) : Prop where
  slots : s.scopes.map (·.slots) = L.map (·.slots)
  arrays : s.arrays = L.map (·.arrays)
  laid : ∀ scope ∈ s.scopes, scope.Laid

variable {s : State} {L : List Declared}

theorem holds_initial {registers : Nat} (h : State.initial registers = .ok s) : s.Holds [] := by
  obtain ⟨-, rfl⟩ | ⟨-, rfl⟩ := initial_eq_ok_iff.1 h <;> exact ⟨rfl, rfl, by simp⟩

/-- The value that is given at the end does not change the state. -/
theorem state_run_then_pure {α β : Type} (m : Gen α) (b : β) :
    ((do let _ ← m; return b : Gen β).run s).state = (m.run s).state := by
  rcases h : m.run s with ⟨e | a, s', c⟩
  · rw [run_bind_of_error _ h]
  · rw [run_bind_of_ok _ h]
    rfl

namespace Holds

theorem enter (h : s.Holds L) : (enterScope.run s).state.Holds ({} :: L) := by
  refine ⟨congrArg ([] :: ·) h.slots, congrArg ([] :: ·) h.arrays, ?_⟩
  exact List.forall_mem_cons.2 ⟨Scope.laid_empty, h.laid⟩

theorem leave (h : s.Holds L) : (leaveScope.run s).state.Holds L.tail := by
  obtain ⟨hslots, harrays, hlaid⟩ := h
  obtain ⟨scopes, arrays⟩ := s
  cases scopes with
  | nil =>
    -- there is nothing to close
    obtain rfl := List.map_eq_nil_iff.1 hslots.symm
    exact ⟨rfl, harrays, hlaid⟩
  | cons scope outer =>
    refine ⟨?_, ?_, fun q hq => hlaid q (List.mem_cons_of_mem scope hq)⟩
    · rw [List.map_tail, ← hslots]
      rfl
    · rw [List.map_tail, ← harrays]
      rfl

theorem array (h : s.Holds L) (name : String) : ((declareArray name).run s).state.Holds
    (L.modifyHead fun d => { d with arrays := d.arrays ++ [name] }) := by
  obtain ⟨hslots, harrays, hlaid⟩ := h
  refine ⟨?_, ?_, hlaid⟩
  · cases L <;> exact hslots
  · show s.arrays.modifyHead (· ++ [name]) = _
    rw [harrays]
    cases L <;> rfl

/-- A slot that is handed out is the last one of the innermost scope. -/
theorem add (h : s.Holds L) {region : Region} {name : String} {slot : Slot} {s' : State}
    {c : List Inst} (hadd : (addSlot region name).Yields s slot s' c) :
    s'.Holds (L.modifyHead fun d => { d with slots := d.slots ++ [slot] }) := by
  obtain ⟨hslots, harrays, hlaid⟩ := h
  obtain ⟨S, hS, rfl, -⟩ := yields_addSlot.1 hadd
  obtain ⟨scope, scope', outer, hs, rfl, hscope⟩ := Scopes.add_eq_ok_iff.1 hS
  obtain ⟨-, -, rfl, rfl⟩ := Scope.add_eq_ok_iff.1 hscope
  rw [hs] at hslots hlaid
  obtain ⟨hhead, htail⟩ := List.forall_mem_cons.1 hlaid
  -- `hslots` says that there is a declaration for the scope that is extended, `d`.
  obtain ⟨d, rest, rfl, hd, hrest⟩ := List.map_eq_cons_iff.1 hslots.symm
  refine ⟨?_, harrays, List.forall_mem_cons.2 ⟨hhead.add hscope, htail⟩⟩
  simp [hd, hrest]

/-- Each operation changes the stacks as it changes the record. A variable that is refused changes
nothing, and then the record stays as it is as well. -/
theorem step (h : s.Holds L) (op : ScopeOp) :
    (op.carryOut.run s).state.Holds (op.record (op.carryOut.run s).result L) := by
  cases op with
  | enter => exact h.enter
  | leave =>
    rw [ScopeOp.carryOut, state_run_then_pure]
    exact h.leave
  | add region name =>
    rcases hrun : (addSlot region name).run s with ⟨e | slot, s', c⟩
    · -- the scopes are as they were, and so is the record
      have hadd : (addSlot region name).Fails s e s' := ⟨c, hrun⟩
      obtain ⟨_, -, -, rfl⟩ := fails_addSlot.1 hadd
      rw [ScopeOp.carryOut, run_bind_of_error _ hrun]
      exact h
    · rw [ScopeOp.carryOut, run_bind_of_ok _ hrun]
      exact h.add hrun
  | array name => exact h.array name

/-! ### Reading the stacks -/

/-- The slot of a name is the one that the innermost scope handed out for it. -/
theorem find?_eq_some_iff (h : s.Holds L) {name : String} {slot : Slot} :
    s.scopes.find? name = some slot ↔ ∃ d ∈ L.head?, slot ∈ d.slots ∧ slot.name = name := by
  obtain ⟨hslots, -, hlaid⟩ := h
  cases hs : s.scopes with
  | nil =>
    rw [hs] at hslots
    obtain rfl := List.map_eq_nil_iff.1 hslots.symm
    simp [Scopes.find?]
  | cons scope outer =>
    rw [hs] at hslots hlaid
    obtain ⟨d, rest, rfl, hd, -⟩ := List.map_eq_cons_iff.1 hslots.symm
    -- Only the innermost scope is searched, in which names are distinct: `Laid.find?_of_mem`.
    have hscope := hlaid scope List.mem_cons_self
    simp only [Scopes.find?, List.head?_cons, Option.mem_some_iff, exists_eq_left', hd]
    constructor
    · exact Scope.mem_of_find?
    · rintro ⟨hmem, rfl⟩
      exact hscope.find?_of_mem hmem

theorem find?_eq_none_iff (h : s.Holds L) (name : String) :
    s.scopes.find? name = none ↔ ∀ d ∈ L.head?, ¬ d.Binds name := by
  simp only [Option.eq_none_iff_forall_ne_some, ne_eq, h.find?_eq_some_iff, Declared.Binds,
    List.mem_map]
  grind

theorem isArray_iff (h : s.Holds L) (name : String) :
    s.isArray name = true ↔ ∃ d ∈ L.head?, name ∈ d.arrays := by
  rw [State.isArray, h.arrays]
  cases L <;> simp

theorem bindsOutside_iff (h : s.Holds L) (name : String) :
    s.scopes.bindsOutside name = true ↔ ∃ d ∈ L.tail, d.Binds name := by
  have hslots := h.slots
  cases hs : s.scopes with
  | nil =>
    rw [hs] at hslots
    obtain rfl := List.map_eq_nil_iff.1 hslots.symm
    simp [Scopes.bindsOutside]
  | cons scope outer =>
    rw [hs] at hslots
    obtain ⟨d, rest, rfl, -, hrest⟩ := List.map_eq_cons_iff.1 hslots.symm
    -- By `hrest` the scopes around the innermost one have the slots that were declared there.
    have hsame : (∃ q ∈ outer.map (·.slots), name ∈ q.map (·.name)) ↔
        ∃ q ∈ rest.map (·.slots), name ∈ q.map (·.name) := by rw [hrest]
    simp only [List.mem_map, exists_exists_and_eq_and] at hsame
    simpa only [Scopes.bindsOutside, List.any_eq_true, Scope.binds_iff, List.tail_cons, Declared.Binds,
      List.mem_map] using hsame

end Holds

/-- Along every history the stacks hold what was recorded. By induction on the history, with `step`
for every operation; it is all that the lookup needs. -/
theorem Reached.holds (h : Reached s L) : s.Holds L := by
  induction h with
  | start h => exact holds_initial h
  | step op _ ih => exact ih.step op

/-- **What a lookup answers.** The slot that the innermost scope handed out for the name, if it did so.
If not, the name is refused as an array if the innermost scope noted one, and else as a variable that is
not local if some scope around it has one. It is called undefined exactly if there is no variable of the
name in any open scope, and no array in the innermost one. -/
theorem Reached.lookup_iff (h : Reached s L) (name : String) (line : Line) :
    (∀ slot, s.lookup name line = .ok slot ↔
      ∃ d ∈ L.head?, slot ∈ d.slots ∧ slot.name = name) ∧
    (s.lookup name line = .error (.unsupported (.arrayVariable name) line) ↔
      ∃ d ∈ L.head?, ¬ d.Binds name ∧ name ∈ d.arrays) ∧
    (s.lookup name line = .error (.unsupported (.nonLocal name) line) ↔
      (∀ d ∈ L.head?, ¬ d.Binds name ∧ name ∉ d.arrays) ∧ ∃ d ∈ L.tail, d.Binds name) ∧
    (s.lookup name line = .error (.onLine (.undefinedVariable name) line) ↔
      (∀ d ∈ L, ¬ d.Binds name) ∧ ∀ d ∈ L.head?, name ∉ d.arrays) := by
  have hnone := h.holds.find?_eq_none_iff name
  have harray := h.holds.isArray_iff name
  have houtside := h.holds.bindsOutside_iff name
  refine ⟨fun slot => ?_, ?_⟩
  · rw [lookup_eq_ok_iff]
    exact h.holds.find?_eq_some_iff
  simp only [State.lookup, LoweringError.unsupported, LoweringError.onLine]
  cases L with
  | nil =>
    -- no scope is open, so there is nothing to be found
    have hfind : s.scopes.find? name = none := hnone.2 (by simp)
    have hisArray : s.isArray name = false := by simpa using harray
    have hbinds : s.scopes.bindsOutside name = false := by simpa using houtside
    simp [hfind, hisArray, hbinds]
  | cons d outer =>
    simp only [List.head?_cons, Option.mem_some_iff, exists_eq_left', forall_eq', List.tail_cons,
      List.forall_mem_cons] at *
    -- a miss is told apart by the questions in turn
    cases hfind : s.scopes.find? name with
    | some slot =>
      have hd : d.Binds name := by simpa [hfind] using hnone
      simp [hd]
    | none =>
      have hd : ¬ d.Binds name := hnone.1 hfind
      by_cases ha : name ∈ d.arrays
      · simp [hd, ha, harray.2 ha]
      · have hisArray : s.isArray name = false := by simpa [ha] using harray
        cases hbinds : s.scopes.bindsOutside name with
        | true =>
          obtain ⟨q, hq, hname⟩ := houtside.1 hbinds
          have hsome : ∃ q ∈ outer, q.Binds name := ⟨q, hq, hname⟩
          have hall : ¬ ∀ q ∈ outer, ¬ q.Binds name := fun hno => hno q hq hname
          simp [hd, ha, hisArray, hsome, hall]
        | false =>
          have hall : ∀ q ∈ outer, ¬ q.Binds name := by simpa [hbinds] using houtside
          have hno : ¬ ∃ q ∈ outer, q.Binds name := by
            rintro ⟨q, hq, hname⟩
            exact hall q hq hname
          simpa [hd, ha, hisArray, hno] using hall

/-- What two nested scopes declare: a variable in the outer one; a variable and an array in the inner
one. -/
def nestedScopes : List Declared :=
  [⟨[⟨"inner", 4, .local⟩], ["table"]⟩, ⟨[⟨"outer", 4, .local⟩], []⟩]

/-- Of the names that are declared there, only that of the inner variable is found. The outer
variable is recognised as such, which is what the other error is for. -/
theorem lookup_nestedScopes : ∃ s, Reached s nestedScopes ∧
    s.lookup "inner" 1 = .ok ⟨"inner", 4, .local⟩ ∧
    s.lookup "outer" 2 = .error (.unsupported (.nonLocal "outer") 2) ∧
    s.lookup "table" 3 = .error (.unsupported (.arrayVariable "table") 3) ∧
    s.lookup "nowhere" 4 = .error (.onLine (.undefinedVariable "nowhere") 4) := by
  have hstart : State.initial 3 = .ok { pool := .ofRegs [.rdi, .rsi, .rcx] } := rfl
  -- Five operations: a scope with a variable, and in it a scope with a variable and an array.
  have hreached := Reached.start hstart |>.step .enter |>.step (.add .local "outer") |>.step .enter
    |>.step (.add .local "inner") |>.step (.array "table")
  refine ⟨_, hreached, ?_⟩
  exact ⟨(hreached.lookup_iff "inner" 1).1 _ |>.2 (by decide),
    (hreached.lookup_iff "outer" 2).2.2.1.2 (by decide),
    (hreached.lookup_iff "table" 3).2.1.2 (by decide),
    (hreached.lookup_iff "nowhere" 4).2.2.2.2 (by decide)⟩

/-- A name may be declared and be called undefined: that of an array, in a scope inside the one that
declares it. -/
theorem undefinedVariable_of_declared : ¬ ∀ (s : State) (L : List Declared) (name : String) (line : Line),
    Reached s L → (s.lookup name line = .error (.onLine (.undefinedVariable name) line) ↔
      ∀ d ∈ L, ¬ d.Binds name ∧ name ∉ d.arrays) := by
  intro h
  have hstart : State.initial 3 = .ok { pool := .ofRegs [.rdi, .rsi, .rcx] } := rfl
  have hreached := Reached.start hstart |>.step .enter |>.step (.array "table") |>.step .enter
  have hnowhere := (h _ _ "table" 3 hreached).1 rfl
  have htable := hnowhere ⟨[], ["table"]⟩ (List.mem_cons_of_mem _ List.mem_cons_self)
  exact htable.2 (by decide)

end State

end PascalAsm.Lowering
