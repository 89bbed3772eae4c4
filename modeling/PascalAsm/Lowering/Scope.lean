import PascalAsm.Assembly.Frame

/-!
# Scopes and their stack slots

The variables of one function body. Every slot is a doubleword; slots are laid out downward from
the frame pointer in the order in which they are added, arguments before locals before
temporaries, so a slot never moves once it has been handed out. A scope is therefore the list of
its slots in order of creation, and the sizes follow from the length of that list.

Scopes nest as subprograms do. Only the innermost one is searched or extended: a body has no way
to address the variables of the body around it.
-/

namespace PascalAsm.Lowering

open Assembly

/-- The part of a frame that a slot belongs to, in the order of layout. -/
inductive Region where
  | argument
  | local
  | temporary
deriving DecidableEq

/-- The word for a region in a message. -/
def Region.text : Region → String
  | .argument => "argument"
  | .local => "local"
  | .temporary => "temporary"

/-- The place of a region in the order of layout. -/
def Region.rank : Region → Nat
  | .argument => 0
  | .local => 1
  | .temporary => 2

/-- The size of every slot: only 32-bit integers are laid out. -/
def slotSize : Nat := 4

/-- A named doubleword that lies `offset` bytes below the frame pointer. Its region is remembered
for the order of layout only. -/
structure Slot where
  name : String
  offset : Nat
  region : Region
deriving DecidableEq

/-- The slot as an operand. -/
def Slot.operand (s : Slot) : Operand := .frameSlot s.offset

/-- Why the layout of a frame fails. -/
inductive LayoutError where
  /-- A scope is left where none is open. -/
  | nothingToLeave
  /-- The innermost scope is asked for where none is open. -/
  | noScope
  /-- A slot is added where no scope is open. -/
  | noScopeFor (name : String)
  /-- A slot is added to a region after a later region has begun. -/
  | regionClosed (region : Region) (name : String)
  /-- A name is given a second slot in one scope. -/
  | alreadyBound (name : String)
  /-- A failure in the caller's own words. -/
  | other (detail : String)
deriving DecidableEq

/-- What is said about a failed layout. -/
def LayoutError.message : LayoutError → String
  | .nothingToLeave => "pop with no open scope"
  | .noScope => "no open scope"
  | .noScopeFor name => "no open scope for " ++ name
  | .regionClosed region name =>
    region.text ++ " slot " ++ name ++ " added after a later region was laid out"
  | .alreadyBound name => name ++ " is already bound in this scope"
  | .other detail => detail

/-! ### One scope -/

/-- The slots of one function body, in order of creation. Sizes and offsets follow from the list, so
they cannot contradict it. -/
structure Scope where
  slots : List Slot := []
deriving DecidableEq

namespace Scope

/-- The scope without slots. -/
def empty : Scope := {}

/-- The bytes that the slots take. -/
def usedBytes (s : Scope) : Nat := slotSize * s.slots.length

/-- The slot of a name. At most one slot has the name, by the way they are added. -/
def find? (s : Scope) (name : String) : Option Slot := s.slots.find? (·.name = name)

/-- Whether a name has a slot. -/
def binds (s : Scope) (name : String) : Bool := (s.find? name).isSome

/-- Whether a region that comes later in the layout has begun. -/
def isClosed (s : Scope) (region : Region) : Bool :=
  -- regions follow one another, so a later slot closes the region for good
  s.slots.any fun slot => region.rank < slot.region.rank

/-- The next slot: it lies just below all others. -/
def nextSlot (s : Scope) (region : Region) (name : String) : Slot :=
  ⟨name, s.usedBytes + slotSize, region⟩

/-- Gives a name the next slot. -/
def add (s : Scope) (region : Region) (name : String) : Except LayoutError (Slot × Scope) :=
  if s.isClosed region then .error (.regionClosed region name)
  else if s.binds name then .error (.alreadyBound name)
  -- slots are added at the end and never removed, so offsets stay as they are
  else .ok (s.nextSlot region name, ⟨s.slots ++ [s.nextSlot region name]⟩)

/-- What the function takes off the stack pointer for its slots, at least: the slots and the bytes
between two frames, rounded up to the stack alignment. -/
def frameSize (s : Scope) : Nat := align (s.usedBytes + Convention.reservedBytes)

end Scope

/-! ### Nested scopes -/

/-- The open scopes, innermost first. -/
abbrev Scopes := List Scope

namespace Scopes

/-- Opens a scope inside the others. -/
def enter (s : Scopes) : Scopes := Scope.empty :: s

/-- Closes the innermost scope and gives it back. -/
def leave : Scopes → Except LayoutError (Scope × Scopes)
  | [] => .error .nothingToLeave
  | scope :: outer => .ok (scope, outer)

/-- The innermost scope. -/
def innermost : Scopes → Except LayoutError Scope
  | [] => .error .noScope
  | scope :: _ => .ok scope

/-- Gives a name the next slot of the innermost scope. -/
def add (region : Region) (name : String) : Scopes → Except LayoutError (Slot × Scopes)
  | [] => .error (.noScopeFor name)
  | scope :: outer => (scope.add region name).map fun (slot, scope) => (slot, scope :: outer)

/-- The slot of a name in the innermost scope. -/
def find? (name : String) : Scopes → Option Slot
  | [] => none
  | scope :: _ => scope.find? name

/-- Whether a scope around the innermost one gives the name a slot. It only serves to tell such a
variable from one that is not declared at all. -/
def bindsOutside (name : String) : Scopes → Bool
  | [] => false
  | _ :: outer => outer.any (·.binds name)

end Scopes

end PascalAsm.Lowering
