/-!
# JSON values

A JSON value as a text holds it: numbers are kept as they are spelled, and the members of an object
are kept in order, repeated names included. A string literal may use escapes for halves of surrogate
pairs; if they do not pair, it denotes no text, and its text is none.

`Json.render` writes a value with one item or member a line, two columns further in for each level.
-/

namespace PascalAsm

/-- A JSON value. -/
inductive Json where
  | null
  | bool (b : Bool)
  /-- A number, by its spelling. -/
  | number (spelling : String)
  /-- A string literal and the text that it denotes, if it denotes one. -/
  | string (text : Option String)
  | array (items : List Json)
  | object (members : List (Option String × Json))

namespace Json

/-- A string literal for a text. -/
def str (s : String) : Json := .string (some s)

/-- A number that is an integer. -/
def int (i : Int) : Json := .number (toString i)

/-- An object with texts for names. -/
def record (members : List (String × Json)) : Json :=
  .object (members.map fun (name, value) => (some name, value))

/-! ### Strings -/

/-- A hexadecimal digit, in lower case. -/
def hexDigit (n : Nat) : Char := Nat.digitChar n

/-- A character inside a string literal: quotes, backslashes and control characters are escaped. -/
def escape (c : Char) : List Char :=
  if c = '"' then ['\\', '"']
  else if c = '\\' then ['\\', '\\']
  else if c = '\x08' then ['\\', 'b']
  else if c = '\x0c' then ['\\', 'f']
  else if c = '\n' then ['\\', 'n']
  else if c = '\r' then ['\\', 'r']
  else if c = '\t' then ['\\', 't']
  else if c.toNat < 32 then
    ['\\', 'u', '0', '0', hexDigit (c.toNat / 16), hexDigit (c.toNat % 16)]
  else [c]

/-- A string literal. Half a surrogate pair stands for a literal without a text. -/
def quote : Option String → String
  | some s => "\"" ++ String.ofList (s.toList.flatMap escape) ++ "\""
  | none => "\"\\ud800\""

/-! ### Layout -/

/-- The start of a line at a level. -/
def newline (level : Nat) : String := "\n" ++ String.ofList (List.replicate (2 * level) ' ')

mutual

/-- The text of a value whose first line is at a level. -/
def renderAt (level : Nat) : Json → String
  | null => "null"
  | bool b => if b then "true" else "false"
  | number spelling => spelling
  | string text => quote text
  | array [] => "[]"
  | array (item :: rest) =>
    "[" ++ newline (level + 1) ++ item.renderAt (level + 1) ++ renderItems (level + 1) rest
      ++ newline level ++ "]"
  | object [] => "\x7b\x7d"
  | object ((name, value) :: rest) =>
    "\x7b" ++ newline (level + 1) ++ quote name ++ ": " ++ value.renderAt (level + 1)
      ++ renderMembers (level + 1) rest ++ newline level ++ "\x7d"

/-- The further items of an array. -/
def renderItems (level : Nat) : List Json → String
  | [] => ""
  | item :: rest => "," ++ newline level ++ item.renderAt level ++ renderItems level rest

/-- The further members of an object. -/
def renderMembers (level : Nat) : List (Option String × Json) → String
  | [] => ""
  | (name, value) :: rest =>
    "," ++ newline level ++ quote name ++ ": " ++ value.renderAt level ++ renderMembers level rest

end

/-- The text of a value. -/
def render (v : Json) : String := v.renderAt 0

end Json

end PascalAsm
