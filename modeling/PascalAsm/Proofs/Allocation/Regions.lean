import PascalAsm.Proofs.Allocation.Slots

/-!
# A list for each region

A scope can be kept in two ways: as one list of all slots, whose length says how many bytes they take;
or as a list for each region, with a counter for the bytes of each. Code generation uses the first
way, because a slot is then found and measured by its place in one list. `Regions` is the second one,
in which it is a matter of invariants, and not of definition, that the counters fit the lists and that
offsets grow from one region to the next.

* **`Regions.Counted`** — the invariant: the counters fit, and slots are in the list of their region.
* **`Regions.add_scope`** — an addition gives the same slot or the same error in both ways.
* **`Regions.addEach_eq`** — so do all additions of a run, refused ones among them, and the frame that
  is measured at its end has the same size.
-/

namespace PascalAsm.Lowering

open Assembly

/-- The slots of one function body by their region, and the bytes that are taken in each region. -/
structure Regions where
  arguments : List Slot := []
  locals : List Slot := []
  temporaries : List Slot := []
  argumentBytes : Nat := 0
  localBytes : Nat := 0
  temporaryBytes : Nat := 0

namespace Regions

/-- Nothing was added yet. -/
def empty : Regions := {}

/-- The bytes that are taken in all regions. It is a sum of counters, which are not compared with
the lists. -/
def usedBytes (s : Regions) : Nat := s.argumentBytes + s.localBytes + s.temporaryBytes

/-- The slot of a name. Arguments are searched before locals, and temporaries at last. Each list is
searched from its beginning. -/
def find? (s : Regions) (name : String) : Option Slot :=
  (s.arguments ++ s.locals ++ s.temporaries).find? (·.name = name)

/-- Whether there are slots in a region that comes later in the layout. Such a region must not grow
any more, since its next slot would come below those of a later one. -/
def hasLater (s : Regions) : Region → Bool
  | .argument => !s.locals.isEmpty || !s.temporaries.isEmpty
  | .local => !s.temporaries.isEmpty
  | .temporary => false

/-- Puts a slot at the end of its region. The counter of the region is moved along, and that of the
others stays. -/
def push (s : Regions) (slot : Slot) : Regions :=
  match slot.region with
  | .argument =>
    { s with argumentBytes := s.argumentBytes + slotSize, arguments := s.arguments ++ [slot] }
  | .local => { s with localBytes := s.localBytes + slotSize, locals := s.locals ++ [slot] }
  | .temporary =>
    { s with temporaryBytes := s.temporaryBytes + slotSize, temporaries := s.temporaries ++ [slot] }

/-- Gives a name a slot that lies below all others. Both refusals leave everything as it was. -/
def add (s : Regions) (region : Region) (name : String) : Except LayoutError (Slot × Regions) :=
  if s.hasLater region then .error (.regionClosed region name)
  else if (s.find? name).isSome then .error (.alreadyBound name)
  else
    let slot : Slot := ⟨name, s.usedBytes + slotSize, region⟩
    .ok (slot, s.push slot)

/-- What the function takes off the stack pointer for its slots. -/
def frameSize (s : Regions) : Nat := align (s.usedBytes + Convention.reservedBytes)

/-- The scope with the same slots, region after region. By this every slot of the three lists is a
slot of the one. -/
def scope (s : Regions) : Scope := ⟨s.arguments ++ s.locals ++ s.temporaries⟩

/-! ### The counters -/

/-- The counters fit the lists, and every slot is in the list of its region. It holds at the
beginning, `counted_empty`, and every addition keeps it, `Counted.add`. -/
structure Counted (s : Regions) : Prop where
  argumentBytes : s.argumentBytes = slotSize * s.arguments.length
  localBytes : s.localBytes = slotSize * s.locals.length
  temporaryBytes : s.temporaryBytes = slotSize * s.temporaries.length
  arguments : ∀ slot ∈ s.arguments, slot.region = .argument
  locals : ∀ slot ∈ s.locals, slot.region = .local
  temporaries : ∀ slot ∈ s.temporaries, slot.region = .temporary

variable {s t : Regions} {region : Region} {name : String} {slot : Slot}

theorem counted_empty : empty.Counted := by constructor <;> simp [empty]

theorem Counted.push (h : s.Counted) (slot : Slot) : (s.push slot).Counted := by
  obtain ⟨hargumentBytes, hlocalBytes, htemporaryBytes, harguments, hlocals, htemporaries⟩ := h
  -- the list and the counter of one region change, by one slot and its size
  have hbytes {n : Nat} {slots : List Slot} (hn : n = slotSize * slots.length) :
      n + slotSize = slotSize * (slots ++ [slot]).length := by
    rw [hn, List.length_append, List.length_singleton, Nat.mul_succ]
  have hslots {region : Region} {slots : List Slot} (hregion : slot.region = region)
      (hs : ∀ other ∈ slots, other.region = region) :
      ∀ other ∈ slots ++ [slot], other.region = region := by
    intro other hother
    rcases List.mem_append.1 hother with hother | hother
    · exact hs other hother
    · rwa [List.mem_singleton.1 hother]
  cases hregion : slot.region with
  | argument =>
    simp only [Regions.push, hregion]
    exact ⟨hbytes hargumentBytes, hlocalBytes, htemporaryBytes, hslots hregion harguments, hlocals,
      htemporaries⟩
  | «local» =>
    simp only [Regions.push, hregion]
    exact ⟨hargumentBytes, hbytes hlocalBytes, htemporaryBytes, harguments, hslots hregion hlocals,
      htemporaries⟩
  | temporary =>
    simp only [Regions.push, hregion]
    exact ⟨hargumentBytes, hlocalBytes, hbytes htemporaryBytes, harguments, hlocals,
      hslots hregion htemporaries⟩

/-- An addition that is not refused puts one slot at the end of its region. Which slot that is does
not matter for the invariant. -/
theorem eq_push_of_add (hadd : s.add region name = .ok (slot, t)) : t = s.push slot := by
  unfold add at hadd
  split at hadd
  · cases hadd
  · split at hadd
    · cases hadd
    · obtain ⟨rfl, rfl⟩ := Prod.mk.inj (Except.ok.inj hadd)
      rfl

theorem Counted.add (h : s.Counted) (hadd : s.add region name = .ok (slot, t)) : t.Counted := by
  rw [eq_push_of_add hadd]
  exact h.push slot

/-! ### The same scope -/

theorem find?_scope (s : Regions) (name : String) : s.scope.find? name = s.find? name := rfl

theorem Counted.usedBytes_scope (h : s.Counted) : s.scope.usedBytes = s.usedBytes := by
  rw [Scope.usedBytes, scope, usedBytes, h.argumentBytes, h.localBytes, h.temporaryBytes,
    List.length_append, List.length_append, Nat.mul_add, Nat.mul_add]

theorem Counted.frameSize_scope (h : s.Counted) : s.scope.frameSize = s.frameSize := by
  rw [Scope.frameSize, frameSize, h.usedBytes_scope]

/-- That a later region has begun is seen by its list being nonempty. The one list is searched for a
slot of a later region instead. -/
theorem Counted.isClosed_scope (h : s.Counted) (region : Region) :
    s.scope.isClosed region = s.hasLater region := by
  have hany {slots : List Slot} {own : Region} (hslots : ∀ slot ∈ slots, slot.region = own) :
      slots.any (fun slot => region.rank < slot.region.rank) =
        (decide (region.rank < own.rank) && !slots.isEmpty) := by
    cases slots with
    | nil => simp
    | cons first rest =>
      rw [List.forall_mem_cons] at hslots
      obtain ⟨hfirst, hrest⟩ := hslots
      -- all slots of the list say the same, so the first one decides
      have hsame : ∀ slot ∈ rest, decide (region.rank < slot.region.rank) = true →
          region.rank < own.rank := by
        intro slot hslot hlt
        rw [hrest slot hslot, decide_eq_true_eq] at hlt
        exact hlt
      by_cases hlt : region.rank < own.rank
      · simp [hfirst, hlt]
      · have hnone : rest.any (fun slot => region.rank < slot.region.rank) = false := by
          rw [List.any_eq_false]
          exact fun slot hslot htrue => hlt (hsame slot hslot htrue)
        simp [hfirst, hlt, hnone]
  rw [Scope.isClosed, scope, List.any_append, List.any_append, hany h.arguments, hany h.locals,
    hany h.temporaries]
  cases region <;> simp [hasLater, Region.rank]

/-- If no later region has begun, the end of a region is the end of the scope. -/
theorem slots_scope_push (hlater : s.hasLater slot.region = false) :
    (s.push slot).scope.slots = s.scope.slots ++ [slot] := by
  -- `hlater` empties the lists behind the one that grows.
  cases hregion : slot.region with
  | argument =>
    rw [hregion, hasLater, Bool.or_eq_false_iff, Bool.not_eq_false', Bool.not_eq_false',
      List.isEmpty_iff, List.isEmpty_iff] at hlater
    simp [push, scope, hregion, hlater]
  | «local» =>
    rw [hregion, hasLater, Bool.not_eq_false', List.isEmpty_iff] at hlater
    simp [push, scope, hregion, hlater]
  | temporary => simp [push, scope, hregion]

/-- **An addition comes to the same** in both ways: the slot, what is there afterwards, and the
error. -/
theorem Counted.add_scope (h : s.Counted) (region : Region) (name : String) :
    s.scope.add region name = (s.add region name).map fun (slot, t) => (slot, t.scope) := by
  rw [Scope.add, Regions.add, h.isClosed_scope, Scope.binds, find?_scope]
  -- Both ask whether a later region has begun, and whether the name is bound, in this order.
  by_cases hlater : s.hasLater region = true
  · rw [if_pos hlater, if_pos hlater]
    rfl
  · rw [if_neg hlater, if_neg hlater]
    by_cases hfound : (s.find? name).isSome = true
    · rw [if_pos hfound, if_pos hfound]
      rfl
    · rw [if_neg hfound, if_neg hfound]
      -- The new offset is where `Counted` is needed: the counters give the length of the list.
      have hslot : s.scope.nextSlot region name = ⟨name, s.usedBytes + slotSize, region⟩ := by
        rw [Scope.nextSlot, h.usedBytes_scope]
      have hscope : (s.push ⟨name, s.usedBytes + slotSize, region⟩).scope.slots =
          s.scope.slots ++ [⟨name, s.usedBytes + slotSize, region⟩] :=
        slots_scope_push (eq_false_of_ne_true hlater)
      rw [hslot, ← hscope]
      rfl

end Regions

/-! ### Many additions -/

/-- Additions one after another, and what each of them gives. One that is refused changes nothing. -/
def addEach {S : Type} (add : S → Region → String → Except LayoutError (Slot × S)) :
    S → List (Region × String) → List (Except LayoutError Slot) × S
  | s, [] => ([], s)
  | s, (region, name) :: rest =>
    match add s region name with
    | .ok (slot, t) => (.ok slot :: (addEach add t rest).1, (addEach add t rest).2)
    | .error e => (.error e :: (addEach add s rest).1, (addEach add s rest).2)

namespace Regions

theorem Counted.addEach_scope {s : Regions} (h : s.Counted) (additions : List (Region × String)) :
    addEach Scope.add s.scope additions =
        ((addEach Regions.add s additions).1, (addEach Regions.add s additions).2.scope) ∧
      (addEach Regions.add s additions).2.Counted := by
  induction additions generalizing s with
  | nil => exact ⟨rfl, h⟩
  | cons addition rest ih =>
    obtain ⟨region, name⟩ := addition
    rw [addEach, addEach, h.add_scope]
    -- A refusal leaves both alone; an addition keeps the counters right, `h.add`.
    cases hadd : s.add region name with
    | error e =>
      obtain ⟨hsame, hcounted⟩ := ih h
      exact ⟨by simp only [Except.map, hsame], hcounted⟩
    | ok p =>
      obtain ⟨slot, t⟩ := p
      obtain ⟨hsame, hcounted⟩ := ih (h.add hadd)
      exact ⟨by simp only [Except.map, hsame], hcounted⟩

/-- **The two ways of keeping a scope are the same to whoever uses it.** Whatever is added, accepted or
refused, the answers are the same; and afterwards the same names are found, the same bytes are used
and the same frame is measured. The slots of the one are those of the three lists of the other. -/
theorem addEach_eq (additions : List (Region × String)) :
    let scope := (addEach Scope.add Scope.empty additions).2
    let regions := (addEach Regions.add empty additions).2
    (addEach Scope.add Scope.empty additions).1 = (addEach Regions.add empty additions).1 ∧
      scope.slots = regions.arguments ++ regions.locals ++ regions.temporaries ∧
      (∀ name, scope.find? name = regions.find? name) ∧
      scope.usedBytes = regions.usedBytes ∧ scope.frameSize = regions.frameSize := by
  obtain ⟨hsame, hcounted⟩ := counted_empty.addEach_scope additions
  have hempty : empty.scope = Scope.empty := rfl
  rw [hempty] at hsame
  rw [hsame]
  exact ⟨rfl, rfl, find?_scope _, hcounted.usedBytes_scope, hcounted.frameSize_scope⟩

end Regions

end PascalAsm.Lowering
