import PascalAsm.Json.Numeral
import PascalAsm.Json.Value

/-!
# Records and variants in JSON

How structured data is laid out in JSON. A record is an object with a member for each field, or an
array of the fields in their order. A variant is an object with one member, named for the variant;
a variant without content is also written as its name alone.

Members that are no fields are ignored, but a field may not be given twice. Containers may not nest
too deep: each reader is told how many levels are left, and a container uses one of them up. What is
ignored does not count.
-/

namespace PascalAsm.Json

/-! ### Writing -/

/-- A variant with its content. -/
def variant (name : String) (content : Json) : Json := record [(name, content)]

/-- A node of a tree: what it is, and its line. -/
def node (kind : Json) (line : UInt32) : Json :=
  record [("kind", kind), ("line", int line.toNat)]

/-- An array of texts. -/
def strs (texts : List String) : Json := .array (texts.map str)

/-! ### Reading -/

/-- The text of a string literal. -/
def text? : Json → Option String
  | string text => text
  | _ => none

/-- The integer, if the value is one that lies in a range. -/
def integerIn? (low high : Int) : Json → Option Int
  | number spelling => do
    let i ← (← Numeral.ofString? spelling).integer?
    if low ≤ i ∧ i ≤ high then some i else none
  | _ => none

/-- A 32-bit natural number. -/
def nat32? (v : Json) : Option UInt32 :=
  (v.integerIn? 0 (UInt32.size - 1 : Nat)).map fun i => .ofNat i.toNat

/-- A signed 32-bit integer. -/
def int32? (v : Json) : Option Int32 :=
  (v.integerIn? Int32.minValue.toInt Int32.maxValue.toInt).map .ofInt

/-- A single-precision number. -/
def single? : Json → Option Single
  | number spelling => do (← Numeral.ofString? spelling).single?
  | _ => none

/-- The values of the members that have a name. -/
def valuesOf (name : String) (members : List (Option String × Json)) : List Json :=
  (members.filter (·.1 = some name)).map (·.2)

/-- The value of a field: none if it is missing, and no answer if it is given twice. -/
def field? (members : List (Option String × Json)) (name : String) : Option (Option Json) :=
  match valuesOf name members with
  | [] => some none
  | [v] => some (some v)
  | _ => none

/-- The fields of a record. A missing field is told apart from one that is `null`. -/
def fields? (names : List String) : Json → Option (List (Option Json))
  -- without names, the fields are told by their order
  | array items => if items.length = names.length then some (items.map some) else none
  | object members =>
    -- a name that denotes no text makes the whole object unreadable
    if members.all (·.1.isSome) then names.mapM (field? members) else none
  | _ => none

/-- The fields of a record that has them all. They are given in the order of the names, whatever the
order in the object is. -/
def record? (names : List String) (v : Json) : Option (List Json) := do
  (← v.fields? names).mapM id

/-- The name of a variant and its content, which may be missing. -/
def variant? : Json → Option (String × Option Json)
  | string (some name) => some (name, none)
  | object [(some name, content)] => some (name, some content)
  | _ => none

/-- The name of a variant without content; `levels` are left. -/
def bare? (levels : Nat) (v : Json) : Option String :=
  match v.variant?, levels with
  | some (name, none), _ => some name
  | some (name, some null), _ + 1 => some name
  | _, _ => none

/-- The line of a node, the name of its variant, and the variant's content. -/
def node? (v : Json) : Option (UInt32 × String × Json) :=
  match v.record? ["kind", "line"] with
  | some [kind, line] =>
    match line.nat32?, kind.variant? with
    | some line, some (name, some content) => some (line, name, content)
    | _, _ => none
  | _ => none

/-- An array of values that are read one by one; `levels` are left. -/
def list? {α : Type} (read : Nat → Json → Option α) (levels : Nat) (v : Json) : Option (List α) :=
  match levels, v with
  | levels + 1, array items => items.mapM (read levels)
  | _, _ => none

/-- An array of texts; `levels` are left. -/
def texts? : Nat → Json → Option (List String) := list? fun _ => text?

end PascalAsm.Json
