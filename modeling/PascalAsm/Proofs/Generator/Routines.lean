import Mathlib.Data.List.Forall2
import PascalAsm.Lowering.Routine
import PascalAsm.Proofs.Generator.Statements
import PascalAsm.Proofs.Meaning.Supported

/-!
# The code of routines

A routine lays out its parameters, then its variables, and makes its body with exactly these in
scope. `Routine.yields_lower` says when that is possible: the names must differ, there can be no
array among the parameters, and not too many parameters; the rest is up to the body and to what is
nested in the routine.

`Subprogram.compiled_of_lower` goes through a subprogram and all that is nested in it. The routines
are completed one after another, and each of them is **`Routine.Compiled`**: its function is the code
of its body, between the storing of the parameters and the loading of the result.
-/

namespace PascalAsm

open Assembly Lowering Gen State

theorem Declaration.scalars_vars (line : Line) (names : List String) (type : VarType)
    (rest : List Declaration) : scalars (.vars line names type :: rest) = names ++ scalars rest := rfl

theorem Declaration.scalars_arrays (line : Line) (names : List String) (type : VarType)
    (first last : Int32) (rest : List Declaration) :
    scalars (.arrays line names type first last :: rest) = scalars rest := rfl

namespace Lowering

/-! ## Slots one below the other -/

/-- The slots of some names, below those that are used already. It says where slots come to lie
without a state, so that layouts can be computed from the declarations. -/
def Region.slots (region : Region) (used : Nat) : List String → List Slot
  | [] => []
  | name :: rest => ⟨name, slotSize * used + slotSize, region⟩ :: region.slots (used + 1) rest

namespace Region

variable (region : Region) (used : Nat)

@[simp] theorem length_slots (names : List String) :
    (region.slots used names).length = names.length := by
  induction names generalizing used with
  | nil => rfl
  | cons name rest ih => exact congrArg (· + 1) (ih (used + 1))

@[simp] theorem names_slots (names : List String) :
    (region.slots used names).map (·.name) = names := by
  induction names generalizing used with
  | nil => rfl
  | cons name rest ih => exact congrArg (name :: ·) (ih (used + 1))

theorem slots_append (names more : List String) : region.slots used (names ++ more) =
    region.slots used names ++ region.slots (used + names.length) more := by
  induction names generalizing used with
  | nil => rfl
  | cons name rest ih =>
    rw [List.cons_append, slots, ih, slots, List.cons_append, List.length_cons]
    congr 3
    omega

variable {region used}

theorem region_of_mem_slots {names : List String} {slot : Slot}
    (h : slot ∈ region.slots used names) : slot.region = region := by
  induction names generalizing used with
  | nil => simp [slots] at h
  | cons name rest ih =>
    rw [slots, List.mem_cons] at h
    rcases h with rfl | h
    · rfl
    · exact ih h

theorem offset_slots {names : List String} (i : Nat) (h : i < (region.slots used names).length) :
    (region.slots used names)[i].offset = slotSize * (used + i + 1) := by
  -- Along the names, with one more word in use for each of them.
  induction names generalizing used i with
  | nil => simp [slots] at h
  | cons name rest ih =>
    cases i with
    | zero => simp [slots, slotSize, Nat.mul_add]
    | succ i =>
      have hi : i < (region.slots (used + 1) rest).length := by
        rw [slots, List.length_cons] at h
        omega
      have hnext := ih i hi
      simp only [slots, List.getElem_cons_succ, hnext]
      congr 1
      omega

end Region

namespace Scope

/-- The scope with slots for some more names. Of which names this is what the generator does is said
by `yields_bindParams` and `yields_bindLocals`. -/
def laidOut (scope : Scope) (region : Region) (names : List String) : Scope :=
  ⟨scope.slots ++ region.slots scope.slots.length names⟩

variable (scope : Scope) (region : Region)

@[simp] theorem laidOut_nil : scope.laidOut region [] = scope := by
  simp [laidOut, Region.slots]

theorem laidOut_append (names more : List String) :
    (scope.laidOut region names).laidOut region more = scope.laidOut region (names ++ more) := by
  simp [laidOut, Region.slots_append]

@[simp] theorem names_laidOut (names : List String) :
    (scope.laidOut region names).slots.map (·.name) = scope.slots.map (·.name) ++ names := by
  simp [laidOut]

/-- New slots close the earlier regions at most. With `h` the new ones come before or are of the
region itself, which stays open. -/
theorem isClosed_laidOut {later : Region} (names : List String) (h : region.rank ≤ later.rank)
    (hopen : scope.isClosed later = false) : (scope.laidOut region names).isClosed later = false := by
  rw [isClosed, laidOut, List.any_append, Bool.or_eq_false_iff]
  refine ⟨hopen, ?_⟩
  rw [List.any_eq_false]
  intro slot hslot
  rw [Region.region_of_mem_slots hslot]
  simpa using h

theorem laid_laidOut {names : List String} (h : scope.Laid)
    (hn : (scope.slots.map (·.name) ++ names).Nodup) : (scope.laidOut region names).Laid := by
  refine ⟨fun i hi => ?_, by rwa [names_laidOut]⟩
  simp only [laidOut] at hi ⊢
  rcases Nat.lt_or_ge i scope.slots.length with hl | hl
  · rw [List.getElem_append_left hl, h.offset i hl]
  · rw [List.getElem_append_right hl, Region.offset_slots]
    congr 1
    omega

end Scope

/-! ## Declarations -/

/-- The warning about a declaration of reals. There is one for each declaration, however many names
it gives. -/
def realWarning (coercion : Coercion) (line : Line) : VarType → List Warning
  | .real => [⟨coercion, line⟩]
  | .integer => []

/-- The warnings about parameters. Arrays among them are refused, so they need no warning. -/
def paramWarnings : List Declaration → List Warning
  | [] => []
  | .vars line _ type :: rest => realWarning .realParameter line type ++ paramWarnings rest
  | .arrays .. :: rest => paramWarnings rest

/-- The warnings about variables: arrays are dropped, and reals are taken for integers. An array has
a warning of its own for each of its names, in the order in which they are declared. -/
def localWarnings : List Declaration → List Warning
  | [] => []
  | .vars line _ type :: rest => realWarning .realVariable line type ++ localWarnings rest
  | .arrays line names .. :: rest => names.map (⟨.arrayDropped ·, line⟩) ++ localWarnings rest

/-- The names that declarations give to arrays. They get no slots, but a reference to one is
answered in another way than one to an unknown name. -/
def arrayNames : List Declaration → List String
  | [] => []
  | .vars .. :: rest => arrayNames rest
  | .arrays _ names .. :: rest => names ++ arrayNames rest

namespace State

/-- The state after declarations: other scopes, more arrays and more warnings. Every declaration
takes a state to one of this form, and `declare_declare` joins two of them. -/
def declare (s : State) (S : Scopes) (arrays : List String) (ws : List Warning) : State :=
  { s with
    scopes := S
    arrays := s.arrays.modifyHead (· ++ arrays)
    warnings := s.warnings ++ ws }

variable (s : State) (S T : Scopes)

theorem declare_declare (as bs : List String) (ws vs : List Warning) :
    (s.declare S as ws).declare T bs vs = s.declare T (as ++ bs) (ws ++ vs) := by
  cases h : s.arrays <;> simp [declare, h]

theorem declare_nothing : s.declare s.scopes [] [] = s := by
  cases s with
  | mk scopes arrays => cases arrays <;> simp [declare]

theorem scopes_eq_declare : { s with scopes := S } = s.declare S [] [] := by
  cases h : s.arrays <;> simp [declare, h]

end State

namespace Gen

variable {s s' : State} {u : Unit} {c : List Inst} {scope : Scope} {outer : Scopes}

/-- A name gets a slot exactly if it has none yet. What is decided by the region is in `hopen`. -/
theorem yields_addSlot_below {region : Region} {name : String} {slot : Slot}
    (hs : s.scopes = scope :: outer) (hopen : scope.isClosed region = false) :
    (addSlot region name).Yields s slot s' c ↔
      name ∉ scope.slots.map (·.name) ∧ slot = scope.nextSlot region name ∧
        s' = s.declare (scope.laidOut region [name] :: outer) [] [] ∧ c = [] := by
  have hslots : scope.laidOut region [name] = ⟨scope.slots ++ [scope.nextSlot region name]⟩ := rfl
  -- The scope is open for this region, `hopen`, so the name decides.
  rw [yields_addSlot, hs, hslots, ← Scope.find?_eq_none_iff, ← scopes_eq_declare]
  constructor
  · rintro ⟨S, hadd, rfl, rfl⟩
    obtain ⟨_, _, _, h, rfl, hadd'⟩ := Scopes.add_eq_ok_iff.1 hadd
    obtain ⟨rfl, rfl⟩ := List.cons.inj h
    obtain ⟨-, hnone, rfl, rfl⟩ := Scope.add_eq_ok_iff.1 hadd'
    exact ⟨hnone, rfl, rfl, rfl⟩
  · rintro ⟨hnone, rfl, rfl, rfl⟩
    refine ⟨_, Scopes.add_eq_ok_iff.2 ⟨scope, _, outer, rfl, rfl, ?_⟩, rfl, rfl⟩
    exact Scope.add_eq_ok_iff.2 ⟨hopen, hnone, rfl, rfl⟩

/-- Some names get slots exactly if they differ, from each other and from those that have one. -/
theorem yields_addSlots {region : Region} {names : List String} {slots : List Slot}
    (hs : s.scopes = scope :: outer) (hopen : scope.isClosed region = false)
    (hn : (scope.slots.map (·.name)).Nodup) :
    (addSlots region names).Yields s slots s' c ↔
      (scope.slots.map (·.name) ++ names).Nodup ∧
        slots = region.slots scope.slots.length names ∧
        s' = s.declare (scope.laidOut region names :: outer) [] [] ∧ c = [] := by
  induction names generalizing s scope slots c with
  | nil =>
    have hsame : s.declare (scope :: outer) [] [] = s := hs ▸ s.declare_nothing
    simp [addSlots, Region.slots, hn, hsame]
  | cons name rest ih =>
    have hopen' := scope.isClosed_laidOut region [name] (Nat.le_refl _) hopen
    -- names are laid out one by one, and the scope stays open for the region
    have hsplit : scope.slots.map (·.name) ++ name :: rest =
        (scope.laidOut region [name]).slots.map (·.name) ++ rest := by simp
    have hlaid : scope.laidOut region (name :: rest) =
        (scope.laidOut region [name]).laidOut region rest :=
      (scope.laidOut_append region [name] rest).symm
    have hlength : (scope.laidOut region [name]).slots.length = scope.slots.length + 1 := by
      simp [Scope.laidOut]
    rw [addSlots, hsplit, hlaid, Region.slots, ← hlength]
    constructor
    · intro h
      obtain ⟨slot, s₁, _, _, ha, h', rfl⟩ := yields_bind.1 h
      obtain ⟨hnew, rfl, rfl, rfl⟩ := (yields_addSlot_below hs hopen).1 ha
      obtain ⟨slots', s₂, _, _, hr, hp, rfl⟩ := yields_bind.1 h'
      obtain ⟨rfl, rfl, rfl⟩ := yields_pure.1 hp
      have hn' : ((scope.laidOut region [name]).slots.map (·.name)).Nodup := by
        rw [Scope.names_laidOut, List.nodup_append]
        refine ⟨hn, List.nodup_singleton name, fun a ha b hb e => ?_⟩
        rw [List.mem_singleton] at hb
        exact hnew (hb ▸ e ▸ ha)
      obtain ⟨hnodup, rfl, rfl, rfl⟩ := (ih rfl hopen' hn').1 hr
      exact ⟨hnodup, rfl, s.declare_declare _ _ [] [] [] [], rfl⟩
    · rintro ⟨hnodup, rfl, rfl, rfl⟩
      have hn' := (List.nodup_append.1 hnodup).1
      have hnew : name ∉ scope.slots.map (·.name) := by
        rw [Scope.names_laidOut, List.nodup_append] at hn'
        exact fun hm => hn'.2.2 name hm name (List.mem_singleton_self name) rfl
      refine yields_bind.2 ⟨_, _, [], [], (yields_addSlot_below hs hopen).2 ⟨hnew, rfl, rfl, rfl⟩,
        ?_, rfl⟩
      have hrest := (ih (s := s.declare (scope.laidOut region [name] :: outer) [] []) rfl hopen' hn').2
        ⟨hnodup, rfl, (s.declare_declare _ _ [] [] [] []).symm, rfl⟩
      exact yields_bind.2 ⟨_, _, [], [], hrest, yields_pure.2 ⟨rfl, rfl, rfl⟩, rfl⟩

theorem yields_warn_bind {β : Type} {w : Warning} {k : Unit → Gen β} {b : β} :
    (warn w >>= k).Yields s b s' c ↔
      (k ()).Yields { s with warnings := s.warnings ++ [w] } b s' c :=
  yields_modify_bind

theorem yields_warnReal {β : Type} {coercion : Coercion} {line : Line} {type : VarType}
    {k : Unit → Gen β} {b : β} :
    (if type = .real then warn ⟨coercion, line⟩ >>= k else k ()).Yields s b s' c ↔
      (k ()).Yields (s.declare s.scopes [] (realWarning coercion line type)) b s' c := by
  cases type with
  | integer => rw [if_neg (by decide), realWarning, declare_nothing]
  | real =>
    have hwarn : s.declare s.scopes [] [⟨coercion, line⟩] =
        { s with warnings := s.warnings ++ [⟨coercion, line⟩] } := by
      cases h : s.arrays <;> simp [declare, h]
    rw [if_pos rfl, realWarning, hwarn]
    exact yields_modify_bind

/-- Parameters are laid out if they are no arrays and their names differ. The warnings that come
with it are those of `paramWarnings`, and the slots those of `Region.slots`. -/
theorem yields_bindParams {ds : List Declaration} {slots : List Slot}
    (hs : s.scopes = scope :: outer) (hopen : scope.isClosed .argument = false)
    (hn : (scope.slots.map (·.name)).Nodup) :
    (bindParams ds).Yields s slots s' c ↔
      (∀ d ∈ ds, ∃ line names type, d = .vars line names type) ∧
        (scope.slots.map (·.name) ++ Declaration.scalars ds).Nodup ∧
        slots = Region.argument.slots scope.slots.length (Declaration.scalars ds) ∧
        s' = s.declare (scope.laidOut .argument (Declaration.scalars ds) :: outer) []
          (paramWarnings ds) ∧ c = [] := by
  induction ds generalizing s scope slots c with
  | nil =>
    have hsame : s.declare (scope :: outer) [] [] = s := hs ▸ s.declare_nothing
    simp [bindParams, Declaration.scalars, paramWarnings, Region.slots, hsame, hn]
  | cons d rest ih =>
    cases d with
    | arrays line names type first last => simp [bindParams]
    -- a group is laid out as a whole, before the groups behind it
    | vars line names type =>
      have hopen' := scope.isClosed_laidOut .argument names (Nat.le_refl _) hopen
      have hlength : (scope.laidOut .argument names).slots.length =
          scope.slots.length + names.length := by simp [Scope.laidOut]
      rw [bindParams, yields_warnReal, Declaration.scalars_vars, ← Scope.laidOut_append,
        ← List.append_assoc, Region.slots_append, paramWarnings, ← hlength, ← scope.names_laidOut .argument]
      constructor
      · intro h
        obtain ⟨slots₁, s₁, _, _, ha, h', rfl⟩ := yields_bind.1 h
        obtain ⟨hn₁, rfl, rfl, rfl⟩ := (yields_addSlots (by exact hs) hopen hn).1 ha
        obtain ⟨slots₂, s₂, _, _, hr, hp, rfl⟩ := yields_bind.1 h'
        obtain ⟨rfl, rfl, rfl⟩ := yields_pure.1 hp
        rw [← scope.names_laidOut .argument] at hn₁
        obtain ⟨hvars, hnodup, rfl, rfl, rfl⟩ := (ih rfl hopen' hn₁).1 hr
        refine ⟨?_, hnodup, rfl, ?_, rfl⟩
        · rintro d (_ | ⟨_, hd⟩)
          · exact ⟨line, names, type, rfl⟩
          · exact hvars d hd
        · simp [declare_declare]
      · rintro ⟨hvars, hnodup, rfl, rfl, rfl⟩
        have hn₁ := (List.nodup_append.1 hnodup).1
        refine yields_bind.2 ⟨_, _, [], [],
          (yields_addSlots (by exact hs) hopen hn).2 ⟨?_, rfl, rfl, rfl⟩, ?_, rfl⟩
        · rwa [← scope.names_laidOut .argument]
        · refine yields_bind.2 ⟨_, _, [], [], (ih rfl hopen' hn₁).2
            ⟨fun d hd => hvars d (.tail _ hd), hnodup, rfl, ?_, rfl⟩, yields_pure.2 ⟨rfl, rfl, rfl⟩, rfl⟩
          simp [declare_declare]

/-- Dropping arrays cannot fail. By induction on the names, which are declared one after another. -/
theorem yields_dropArrays_bind {β : Type} {line : Line} {names : List String} {k : Unit → Gen β}
    {b : β} : (dropArrays line names >>= k).Yields s b s' c ↔
      (k ()).Yields (s.declare s.scopes names (names.map (⟨.arrayDropped ·, line⟩))) b s' c := by
  -- `hstep` is one array, and `declare_declare` joins it with those after it.
  induction names generalizing s with
  | nil => rw [dropArrays, pure_bind, List.map_nil, declare_nothing]
  | cons name rest ih =>
    have hstep : ∀ w : Warning, { s with
          arrays := s.arrays.modifyHead (· ++ [name]), warnings := s.warnings ++ [w] } =
        s.declare s.scopes [name] [w] := fun _ => rfl
    rw [dropArrays, bind_assoc, yields_warn_bind, bind_assoc, declareArray, yields_modify_bind,
      hstep, ih]
    rw [show (s.declare s.scopes [name] _).scopes = s.scopes from rfl, declare_declare]
    rfl

/-- Variables are laid out if their names differ; arrays are dropped. Their names have to differ
from those of the parameters, too, since all are in one scope. -/
theorem yields_bindLocals {ds : List Declaration} (hs : s.scopes = scope :: outer)
    (hopen : scope.isClosed .local = false) (hn : (scope.slots.map (·.name)).Nodup) :
    (bindLocals ds).Yields s u s' c ↔
      (scope.slots.map (·.name) ++ Declaration.scalars ds).Nodup ∧
        s' = s.declare (scope.laidOut .local (Declaration.scalars ds) :: outer) (arrayNames ds)
          (localWarnings ds) ∧ c = [] := by
  induction ds generalizing s scope c with
  | nil =>
    have hsame : s.declare (scope :: outer) [] [] = s := hs ▸ s.declare_nothing
    simp [bindLocals, Declaration.scalars, localWarnings, arrayNames, hsame, hn]
  | cons d rest ih =>
    cases d with
    -- arrays are noted and have no slot
    | arrays line names type first last =>
      rw [bindLocals, yields_dropArrays_bind, Declaration.scalars_arrays, arrayNames, localWarnings,
        ih (by exact hs) hopen hn, declare_declare]
    | vars line names type =>
      have hopen' := scope.isClosed_laidOut .local names (Nat.le_refl _) hopen
      rw [bindLocals, yields_warnReal, Declaration.scalars_vars, ← Scope.laidOut_append,
        ← List.append_assoc, localWarnings, arrayNames, ← scope.names_laidOut .local]
      constructor
      · intro h
        obtain ⟨slots₁, s₁, _, _, ha, hr, rfl⟩ := yields_bind.1 h
        obtain ⟨hn₁, rfl, rfl, rfl⟩ := (yields_addSlots (by exact hs) hopen hn).1 ha
        rw [← scope.names_laidOut .local] at hn₁
        obtain ⟨hnodup, rfl, rfl⟩ := (ih rfl hopen' hn₁).1 hr
        exact ⟨hnodup, by simp [declare_declare], rfl⟩
      · rintro ⟨hnodup, rfl, rfl⟩
        have hn₁ := (List.nodup_append.1 hnodup).1
        refine yields_bind.2 ⟨_, _, [], [],
          (yields_addSlots (by exact hs) hopen hn).2 ⟨?_, rfl, rfl, rfl⟩, ?_, rfl⟩
        · rwa [← scope.names_laidOut .local]
        · refine (ih rfl hopen' hn₁).2 ⟨hnodup, ?_, rfl⟩
          simp [declare_declare]

end Gen

end Lowering

/-! ## One routine -/

namespace Lowering.Gen

variable {s s' : State} {u : Unit} {c : List Inst}

theorem yields_leaveScope_bind {β : Type} {k : Unit → Gen β} {b : β} :
    (leaveScope >>= k).Yields s b s' c ↔ ∃ scope outer, s.scopes = scope :: outer ∧
      (k ()).Yields { s with scopes := outer, arrays := s.arrays.tail } b s' c := by
  rw [leaveScope, bind_assoc, yields_get_bind, bind_assoc, yields_ofExcept_bind]
  cases h : s.scopes with
  | nil => simp [Scopes.leave, mapError_error]
  | cons scope outer => simp [Scopes.leave, mapError_ok, yields_modify_bind]

/-- What is asked for the frame does not matter before it is known that a body was made. -/
theorem yields_frameSize_bind {β : Type} {k : Except LoweringError Nat → Gen β} {b : β} :
    (attempt frameSize >>= k).Yields s b s' c ↔
      (k ((s.scopes.innermost.mapError .frameLayout).map (·.frameSize))).Yields s b s' c := by
  have hrun : (attempt frameSize).Yields s
      ((s.scopes.innermost.mapError .frameLayout).map (·.frameSize)) s [] := by
    cases s with
    | mk scopes => cases scopes <;> rfl
  simp [hrun.bind_iff]

end Lowering.Gen

namespace Routine

/-- The scope in which the body of a routine is made: its parameters, then its variables. -/
def entry (r : Routine) : Scope :=
  (Scope.empty.laidOut .argument r.parameters).laidOut .local r.locals

/-- The slot that holds the result at the end, if there is a result. It is named after the function
and lies behind all other variables. -/
def resultSlots (r : Routine) : List Slot :=
  Region.local.slots (r.parameters.length + (Declaration.scalars r.declarations).length)
    (if r.returnsValue then [r.name] else [])

/-- The instructions before the body, which store the parameters. There is a register for each of
them, since their number was checked before. -/
def storing (r : Routine) : List Inst := paramStores 0 (Region.argument.slots 0 r.parameters)

/-- The instructions after the body, which load the result. A procedure has no result, and nothing
is loaded then. -/
def loading (r : Routine) : List Inst :=
  r.resultSlots.map fun slot => .movl slot.operand (.reg Convention.resultReg)

theorem straight_storing (r : Routine) : Straight r.storing := by
  intro i hi
  rw [storing, paramStores, ← List.map_uncurry_zip_eq_zipWith, List.mem_map] at hi
  obtain ⟨p, -, rfl⟩ := hi
  rfl

theorem straight_loading (r : Routine) : Straight r.loading := by
  intro i hi
  obtain ⟨slot, -, rfl⟩ := List.mem_map.1 hi
  rfl

/-- The state in which what is nested in a routine is made. Its variables are laid out before, so
what is nested in it sees them as names of an enclosing scope. -/
def entered (r : Routine) (s : State) : State :=
  { s with
    scopes := r.entry :: s.scopes
    arrays := arrayNames r.declarations :: s.arrays
    warnings := s.warnings ++ (paramWarnings r.params ++ localWarnings r.declarations) }

/-- The state after a routine is completed. The scope is closed, its arrays are forgotten, and the
function is added behind those that were finished. -/
def completed (r : Routine) (scope : Scope) (outer : Scopes) (body : List Inst) (s : State) :
    State :=
  { s with
    scopes := outer
    arrays := s.arrays.tail
    finished := s.finished ++ [{ name := r.name, frameSize := scope.frameSize, body }] }

variable {r : Routine} {comments : Bool} {nested : Gen Unit} {s s' : State} {u : Unit}
  {c : List Inst}

/-- The result is one more variable, if there is one. In this form the slots of all variables are
made by one operation on names. -/
theorem lowerBody_eq (hcount : ¬ Convention.maxArguments < r.paramCount) :
    r.lowerBody comments nested = (do
      let params ← bindParams r.params
      bindLocals r.declarations
      let result ← addSlots .local (if r.returnsValue then [r.name] else [])
      nested
      emit (paramStores 0 params)
      r.body.lower comments
      emit (result.map fun slot => .movl slot.operand (.reg Convention.resultReg))) := by
  rw [lowerBody_eq_stores, if_neg hcount]
  cases r.returnsValue <;> simp [addSlots]

/-- The variables of a routine are laid out, if they can be. `Sized` is made of the three
conditions, on number, kind and names. -/
theorem yields_variables {β : Type} {k : List Slot → List Slot → Gen β} {b : β} {outer : Scopes}
    (hs : s.scopes = Scope.empty :: outer) :
    (do let params ← bindParams r.params
        bindLocals r.declarations
        let result ← addSlots .local (if r.returnsValue then [r.name] else [])
        k params result).Yields s b s' c ↔
      (∀ d ∈ r.params, ∃ line names type, d = .vars line names type) ∧ r.varNames.Nodup ∧
        (k (Region.argument.slots 0 r.parameters) r.resultSlots).Yields
          (s.declare (r.entry :: outer) (arrayNames r.declarations)
            (paramWarnings r.params ++ localWarnings r.declarations)) b s' c := by
  let params := Scope.empty.laidOut .argument r.parameters
  let scalars := params.laidOut .local (Declaration.scalars r.declarations)
  -- a region stays open until a later one has begun
  have hparams : params.isClosed .local = false :=
    Scope.empty.isClosed_laidOut .argument r.parameters (by decide) rfl
  have hscalars : scalars.isClosed .local = false :=
    params.isClosed_laidOut .local _ (Nat.le_refl _) hparams
  have hempty : (Scope.empty.slots.map (·.name)).Nodup := .nil
  have hnames : (scalars.slots.map (·.name) ++ if r.returnsValue then [r.name] else []) =
      r.varNames := by
    simp [scalars, params, Routine.varNames, locals, Scope.empty]
  have hentry : scalars.laidOut .local (if r.returnsValue then [r.name] else []) = r.entry :=
    params.laidOut_append ..
  have hslots : Region.local.slots scalars.slots.length
      (if r.returnsValue then [r.name] else []) = r.resultSlots := by
    simp [resultSlots, scalars, params, Scope.laidOut, Scope.empty]
  have hwarnings : ∀ S T U, ((s.declare S [] (paramWarnings r.params)).declare T
      (arrayNames r.declarations) (localWarnings r.declarations)).declare U [] [] =
      s.declare U (arrayNames r.declarations)
        (paramWarnings r.params ++ localWarnings r.declarations) := by
    intro S T U
    simp [declare_declare]
  -- if no two names of the routine are equal, then neither are those that come first
  have hwhole (hn : r.varNames.Nodup) : (params.slots.map (·.name)).Nodup ∧
      (scalars.slots.map (·.name)).Nodup := by
    rw [← hnames, List.nodup_append] at hn
    have hn₂ := hn.1
    rw [Scope.names_laidOut, List.nodup_append] at hn₂
    exact ⟨hn₂.1, hn.1⟩
  constructor
  · intro h
    obtain ⟨slots, s₁, _, _, hp, h₁, rfl⟩ := yields_bind.1 h
    obtain ⟨hvars, hn₁, rfl, rfl, rfl⟩ := (yields_bindParams hs rfl hempty).1 hp
    obtain ⟨_, s₂, _, _, hl, h₂, rfl⟩ := yields_bind.1 h₁
    rw [← Scope.empty.names_laidOut .argument] at hn₁
    obtain ⟨hn₂, rfl, rfl⟩ := (yields_bindLocals rfl hparams hn₁).1 hl
    obtain ⟨result, s₃, _, _, ha, h₃, rfl⟩ := yields_bind.1 h₂
    rw [← params.names_laidOut .local] at hn₂
    obtain ⟨hn₃, rfl, rfl, rfl⟩ := (yields_addSlots rfl hscalars hn₂).1 ha
    refine ⟨hvars, hnames ▸ hn₃, ?_⟩
    rwa [hslots, hwarnings, hentry] at h₃
  · rintro ⟨hvars, hn, h⟩
    obtain ⟨hn₁, hn₂⟩ := hwhole hn
    have hp : (Scope.empty.slots.map (·.name) ++ r.parameters).Nodup := by
      rwa [← Scope.empty.names_laidOut .argument]
    have hl : (params.slots.map (·.name) ++ Declaration.scalars r.declarations).Nodup := by
      rwa [← params.names_laidOut .local]
    refine yields_bind.2 ⟨_, _, [], c,
      (yields_bindParams hs rfl hempty).2 ⟨hvars, hp, rfl, rfl, rfl⟩, ?_, rfl⟩
    refine yields_bind.2 ⟨(), _, [], c, (yields_bindLocals rfl hparams hn₁).2 ⟨hl, rfl, rfl⟩, ?_, rfl⟩
    refine yields_bind.2 ⟨_, _, [], c,
      (yields_addSlots rfl hscalars hn₂).2 ⟨hnames ▸ hn, rfl, rfl, rfl⟩, ?_, rfl⟩
    rwa [hslots, hwarnings, hentry]

/-- What is nested in a routine comes first in its body, and is no code. Parameters are stored and
the result is loaded by straight code around that of the body. -/
theorem yields_lowerBody {outer : Scopes} (hs : s.scopes = Scope.empty :: outer) :
    (r.lowerBody comments nested).Yields s u s' c ↔ r.Sized ∧ ∃ s₁ c₁ c₂,
      nested.Yields (s.declare (r.entry :: outer) (arrayNames r.declarations)
        (paramWarnings r.params ++ localWarnings r.declarations)) () s₁ c₁ ∧
      (r.body.lower comments).Yields s₁ () s' c₂ ∧
      c = c₁ ++ (r.storing ++ (c₂ ++ r.loading)) := by
  -- The count of the parameters is checked first; `Sized` contains it.
  by_cases hcount : Convention.maxArguments < r.paramCount
  · have hsized : ¬ r.Sized := fun h => Nat.not_lt.2 h.count hcount
    simp [lowerBody, hcount, hsized, yields_bind]
  rw [lowerBody_eq hcount, yields_variables hs]
  constructor
  · rintro ⟨hvars, hnodup, h⟩
    obtain ⟨_, s₁, c₁, _, hnested, h₁, rfl⟩ := yields_bind.1 h
    obtain ⟨_, h₂, rfl⟩ := yields_emit_bind.1 h₁
    obtain ⟨_, s₂, c₂, _, hbody, h₃, rfl⟩ := yields_bind.1 h₂
    obtain ⟨rfl, rfl⟩ := yields_emit.1 h₃
    exact ⟨⟨Nat.not_lt.1 hcount, hvars, hnodup⟩, s₁, c₁, c₂, hnested, hbody, rfl⟩
  · rintro ⟨hsized, s₁, c₁, c₂, hnested, hbody, rfl⟩
    refine ⟨hsized.scalar, hsized.nodup, yields_bind.2 ⟨(), s₁, c₁, _, hnested, ?_, rfl⟩⟩
    refine yields_emit_bind.2 ⟨_, yields_bind.2 ⟨(), s', c₂, _, hbody, ?_, rfl⟩, rfl⟩
    exact yields_emit.2 ⟨rfl, rfl⟩

/-- A routine is completed if it can be laid out, what is nested in it can be made, and so can its
body. -/
theorem yields_lower : (r.lower comments nested).Yields s u s' c ↔ r.Sized ∧
    ∃ s₁ s₂ c₁ c₂ scope outer, nested.Yields (r.entered s) () s₁ c₁ ∧
      (r.body.lower comments).Yields s₁ () s₂ c₂ ∧ s₂.scopes = scope :: outer ∧
      s' = r.completed scope outer (c₁ ++ (r.storing ++ (c₂ ++ r.loading))) s₂ ∧ c = [] := by
  let opened : State := { s with scopes := s.scopes.enter, arrays := [] :: s.arrays }
  -- the state in which what is nested in the routine begins
  have hentered : opened.declare (r.entry :: s.scopes) (arrayNames r.declarations)
      (paramWarnings r.params ++ localWarnings r.declarations) = r.entered s := rfl
  rw [lower, enterScope, yields_modify_bind]
  constructor
  · intro h
    obtain ⟨result, s₂, c₀, _, hb, h₁, rfl⟩ := yields_bind.1 h
    obtain ⟨scope, outer, hs, h₂⟩ := yields_leaveScope_bind.1 (yields_frameSize_bind.1 h₁)
    obtain ⟨body, rfl, h₃⟩ := yields_ofExcept_bind.1 h₂
    obtain ⟨size, hsize, h₄⟩ := yields_ofExcept_bind.1 h₃
    obtain ⟨rfl, rfl⟩ := yields_modify.1 h₄
    -- the body is collected, and the frame is measured when it is complete
    obtain ⟨hbody, rfl⟩ := yields_collect.1 (yields_attempt_ok.1 hb)
    obtain ⟨hsized, s₁, c₁, c₂, hnested, hlower, rfl⟩ := (yields_lowerBody rfl).1 hbody
    rw [hs] at hsize
    obtain rfl : scope.frameSize = size := Except.ok.inj hsize
    exact ⟨hsized, s₁, s₂, c₁, c₂, scope, outer, hnested, hlower, hs, rfl, rfl⟩
  · rintro ⟨hsized, s₁, s₂, c₁, c₂, scope, outer, hnested, hlower, hs, rfl, rfl⟩
    have hbody := (yields_lowerBody (r := r) (u := ()) (s := opened) rfl).2
      ⟨hsized, s₁, c₁, c₂, hentered ▸ hnested, hlower, rfl⟩
    have hcollect := yields_attempt_ok.2 (yields_collect.2 ⟨hbody, rfl⟩)
    refine yields_bind.2 ⟨_, s₂, [], [], hcollect, ?_, rfl⟩
    refine yields_frameSize_bind.2 (yields_leaveScope_bind.2 ⟨scope, outer, hs, ?_⟩)
    refine yields_ofExcept_bind.2 ⟨_, rfl, yields_ofExcept_bind.2 ⟨scope.frameSize, ?_, ?_⟩⟩
    · rw [hs]
      rfl
    · exact yields_modify.2 ⟨rfl, rfl⟩

end Routine

/-! ## All routines of a program -/

/-- What is known of the function of a routine: its body was made with the variables of the routine
in scope, all registers free, and no call under way. -/
structure Routine.Compiled (r : Routine) (comments : Bool) (f : Function) : Prop where
  name : f.name = r.name
  aligned : f.frameSize % Convention.stackAlignment = 0
  sized : r.Sized
  body : ∃ s s' c outer, s.scopes = r.entry :: outer ∧ s.callDepth = 0 ∧ s.pool.Idle ∧
    (r.body.lower comments).Yields s () s' c ∧ f.body = r.storing ++ (c ++ r.loading)

/-- Routines were completed: their functions are new, and everything else is as it was, but for the
labels and warnings. -/
structure Lowering.State.Completed (comments : Bool) (rs : List Routine) (s s' : State) : Prop where
  scopes : s'.scopes = s.scopes
  arrays : s'.arrays = s.arrays
  callDepth : s'.callDepth = s.callDepth
  pool : s.pool.Even s'.pool
  labels : s.labels ≤ s'.labels
  functions : ∃ fs, s'.finished = s.finished ++ fs ∧
    List.Forall₂ (fun r f => r.Compiled comments f) rs fs

namespace Lowering.State.Completed

variable {comments : Bool} {rs qs : List Routine} {s s₁ s' : State}

theorem refl (s : State) : Completed comments [] s s :=
  ⟨rfl, rfl, rfl, .refl _, Nat.le_refl _, [], by simp, .nil⟩

theorem trans (h : Completed comments rs s s₁) (h' : Completed comments qs s₁ s') :
    Completed comments (rs ++ qs) s s' := by
  obtain ⟨fs, hfs, hrs⟩ := h.functions
  obtain ⟨gs, hgs, hqs⟩ := h'.functions
  refine ⟨h'.scopes.trans h.scopes, h'.arrays.trans h.arrays, h'.callDepth.trans h.callDepth,
    h.pool.trans h'.pool, Nat.le_trans h.labels h'.labels, fs ++ gs, ?_, List.rel_append hrs hqs⟩
  rw [hgs, hfs, List.append_assoc]

end Lowering.State.Completed

section

variable {comments : Bool}

/-- A routine is completed after those that are nested in it. The hypothesis on what is nested is
the same statement for the subprograms, so that the two recursions can be joined. -/
theorem Routine.completed_of_lower {r : Routine} {rs : List Routine} {nested : Gen Unit}
    (hnested : ∀ {s s' : State} {c : List Inst}, s.callDepth = 0 → s.pool.Idle →
      nested.Yields s () s' c → c = [] ∧ s.Completed comments rs s')
    {s s' : State} {u : Unit} {c : List Inst} (hdepth : s.callDepth = 0) (hidle : s.pool.Idle)
    (h : (r.lower comments nested).Yields s u s' c) :
    c = [] ∧ s.Completed comments (rs ++ [r]) s' := by
  obtain ⟨hsized, s₁, s₂, c₁, c₂, scope, outer, hn, hbody, hscopes, rfl, rfl⟩ :=
    Routine.yields_lower.1 h
  obtain ⟨rfl, hcompleted⟩ := hnested (s := r.entered s) hdepth hidle hn
  have hmade := Stmt.lower_made hbody
  have hdepth₁ : s₁.callDepth = 0 := hcompleted.callDepth.trans hdepth
  have hidle₁ : s₁.pool.Idle := hidle.even hcompleted.pool
  have hscopes₁ : s₁.scopes = r.entry :: s.scopes := hcompleted.scopes
  have harrays₁ : s₁.arrays = arrayNames r.declarations :: s.arrays := hcompleted.arrays
  obtain ⟨fs, hfs, hrs⟩ := hcompleted.functions
  let f : Function := ⟨r.name, scope.frameSize, r.storing ++ (c₂ ++ r.loading)⟩
  have hf : r.Compiled comments f :=
    ⟨rfl, align_mod _, hsized, s₁, s₂, c₂, s.scopes, hscopes₁, hdepth₁, hidle₁, hbody, rfl⟩
  refine ⟨rfl, ?_, ?_, ?_, hcompleted.pool.trans hmade.pool, ?_, fs ++ [f], ?_,
    List.rel_append hrs (.cons hf .nil)⟩
  · -- the body has only added slots to its own scope
    show outer = s.scopes
    rcases hmade.advanced.scopes.slots with heq | ⟨_, _, outer', _, h₁, h₂, -⟩
    · rw [← heq, hscopes₁] at hscopes
      exact (List.cons.inj hscopes).2.symm
    · rw [hscopes₁] at h₁
      rw [hscopes] at h₂
      rw [(List.cons.inj h₂).2, ← (List.cons.inj h₁).2]
  · show s₂.arrays.tail = s.arrays
    rw [hmade.advanced.arrays, harrays₁, List.tail_cons]
  · exact hmade.advanced.callDepth.trans hcompleted.callDepth
  · exact Nat.le_trans hcompleted.labels hmade.advanced.labels
  · show s₂.finished ++ [f] = _
    rw [hmade.advanced.finished, hfs]
    simp [Routine.entered]

mutual

theorem Subprogram.completed_of_lower : ∀ {p : Subprogram} {s s' : State} {u : Unit}
    {c : List Inst}, s.callDepth = 0 → s.pool.Idle → (p.lower comments).Yields s u s' c →
    c = [] ∧ s.Completed comments p.routines s'
  | .mk _ _ _ _ subprograms _ _, _, _, _, _, hdepth, hidle, h => by
    rw [Subprogram.lower] at h
    exact Routine.completed_of_lower Subprogram.completed_of_lowerAll hdepth hidle h

/-- Subprograms are completed in order. Each of them starts outside of any call and with an idle
pool, and leaves it so. -/
theorem Subprogram.completed_of_lowerAll : ∀ {ps : List Subprogram} {s s' : State} {u : Unit}
    {c : List Inst}, s.callDepth = 0 → s.pool.Idle →
    (Subprogram.lowerAll comments ps).Yields s u s' c →
    c = [] ∧ s.Completed comments (Subprogram.routinesAll ps) s'
  | [], _, _, _, _, _, _, h => by
    obtain ⟨-, rfl, rfl⟩ := yields_pure.1 (by simpa only [Subprogram.lowerAll] using h)
    exact ⟨rfl, .refl _⟩
  | p :: rest, s, s', _, _, hdepth, hidle, h => by
    rw [Subprogram.lowerAll] at h
    obtain ⟨_, s₁, c₁, c₂, hp, hrest, rfl⟩ := yields_bind.1 h
    obtain ⟨rfl, hfirst⟩ := Subprogram.completed_of_lower hdepth hidle hp
    -- What the first one completes leaves depth and pool as they have to be for the rest.
    obtain ⟨rfl, hothers⟩ := Subprogram.completed_of_lowerAll (hfirst.callDepth.trans hdepth)
      (hidle.even hfirst.pool) hrest
    exact ⟨rfl, hfirst.trans hothers⟩

end

/-- The routines of a program are completed, its own the last. The program is a routine like any
other one, with the subprograms nested in it. -/
theorem Program.completed_of_lower {p : Program} {s s' : State} {u : Unit} {c : List Inst}
    (hdepth : s.callDepth = 0) (hidle : s.pool.Idle) (h : (p.lower comments).Yields s u s' c) :
    c = [] ∧ s.Completed comments p.routines s' :=
  Routine.completed_of_lower Subprogram.completed_of_lowerAll hdepth hidle h

end

end PascalAsm
