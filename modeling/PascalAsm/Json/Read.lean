import PascalAsm.Json.Token
import PascalAsm.Json.Value

/-!
# Reading JSON

A `Reader` goes over the tokens of a text and keeps the containers that are open, innermost first,
each with the items that it has so far. There is no limit on how deep containers nest.
-/

namespace PascalAsm.Json

/-- A container that is still open, with what it holds last first. An object whose member is not
complete keeps the name of that member. -/
inductive Container where
  | array (items : List Json)
  | object (members : List (Option String × Json))
  /-- An object and the name of the member whose value comes next. -/
  | member (members : List (Option String × Json)) (name : Option String)

/-- What may come next in the innermost container. -/
inductive Phase where
  /-- A value. -/
  | value
  /-- The first item or name of a container, or its end. -/
  | first
  /-- A name. -/
  | name
  /-- The colon after a name. -/
  | colon
  /-- A comma, or the end of the container. -/
  | more

/-- How far a text has been read. -/
inductive Reader where
  /-- Inside of some containers. -/
  | within (containers : List Container) (phase : Phase)
  /-- The text is one value, and that is complete. -/
  | complete (value : Json)

namespace Reader

/-- The reader before a text. -/
def start : Reader := .within [] .value

/-- Puts a value where one is wanted. -/
def supply (v : Json) : List Container → Option Reader
  | [] => some (.complete v)
  | .array items :: outer => some (.within (.array (v :: items) :: outer) .more)
  | .member members name :: outer => some (.within (.object ((name, v) :: members) :: outer) .more)
  -- a member needs its name first
  | .object _ :: _ => none

/-- Reads a token that begins a value. -/
def beginValue (containers : List Container) : Token → Option Reader
  | .beginObject => some (.within (.object [] :: containers) .first)
  | .beginArray => some (.within (.array [] :: containers) .first)
  | .null => supply .null containers
  | .bool b => supply (.bool b) containers
  | .number spelling => supply (.number spelling) containers
  | .string text => supply (.string text) containers
  | _ => none

/-- Closes the innermost container. -/
def close : List Container → Token → Option Reader
  | .array items :: outer, .endArray => supply (.array items.reverse) outer
  | .object members :: outer, .endObject => supply (.object members.reverse) outer
  | _, _ => none

/-- Reads the name of a member. -/
def beginMember : List Container → Token → Option Reader
  | .object members :: outer, .string name => some (.within (.member members name :: outer) .colon)
  | _, _ => none

/-- Reads a token. -/
def step : Reader → Token → Option Reader
  | .complete _, _ => none
  | .within containers .value, t => beginValue containers t
  | .within containers .name, t => beginMember containers t
  | .within containers .colon, .colon => some (.within containers .value)
  | .within _ .colon, _ => none
  | .within containers .more, .comma =>
    match containers with
    | .array _ :: _ => some (.within containers .value)
    | .object _ :: _ => some (.within containers .name)
    | _ => none
  | .within containers .more, t => close containers t
  -- an empty container may end here; otherwise the first item or name begins
  | .within containers .first, t =>
    match close containers t with
    | some r => some r
    | none =>
      match containers with
      | .array _ :: _ => beginValue containers t
      | _ => beginMember containers t

/-- Reads some tokens. -/
def run (r : Reader) : List Token → Option Reader
  | [] => some r
  | t :: rest =>
    match r.step t with
    | some r => r.run rest
    | none => none

theorem run_append (r : Reader) (ts us : List Token) :
    r.run (ts ++ us) = (r.run ts).bind fun q => q.run us := by
  induction ts generalizing r with
  | nil => rfl
  | cons t rest ih =>
    simp only [List.cons_append, run]
    cases r.step t with
    | none => rfl
    | some q => exact ih q

end Reader

/-- The value that some tokens spell. -/
def ofTokens? (tokens : List Token) : Option Json :=
  match Reader.start.run tokens with
  | some (.complete v) => some v
  | _ => none

/-- The value of a text that is one JSON value with blanks around it. Text after the value is
refused, unless it is blank. -/
def parse? (s : String) : Option Json := do ofTokens? (← Token.scan s)

end PascalAsm.Json
