import PascalAsm.Json.Numeral

/-!
# JSON tokens

The tokens of a JSON text. A `Scanner` goes over the text one character at a time and remembers what
it is in the middle of: nothing, a word that is neither punctuation nor a string literal, or a
string literal. A word ends where a blank, a quote or punctuation follows; only then is it known
whether it is a number, a name of a constant, or no token at all.
-/

namespace PascalAsm

/-- A token of a JSON text. -/
inductive Token where
  | beginObject
  | endObject
  | beginArray
  | endArray
  | colon
  | comma
  | null
  | bool (b : Bool)
  /-- A number, by its spelling. -/
  | number (spelling : String)
  /-- A string literal and the text that it denotes, if it denotes one. -/
  | string (text : Option String)
deriving DecidableEq

/-! ### String literals -/

/-- A unit of a string literal: a character, or half a surrogate pair given by an escape. -/
inductive CodeUnit where
  | char (c : Char)
  | surrogate (half : Nat)
deriving DecidableEq

namespace CodeUnit

/-- The unit that a hexadecimal escape gives. -/
def ofHex (n : Nat) : CodeUnit :=
  if 0xd800 ≤ n ∧ n < 0xe000 then surrogate n else char (Char.ofNat n)

/-- The character of two halves, if the first may come first and the second second. -/
def pair? (first second : Nat) : Option Char :=
  if first < 0xdc00 ∧ 0xdc00 ≤ second then
    some (Char.ofNat (0x10000 + (first - 0xd800) * 0x400 + (second - 0xdc00)))
  else none

/-- The text of units that are given last first, before a text that is known already. -/
def textBefore (known : List Char) : List CodeUnit → Option String
  | [] => some (String.ofList known)
  | char c :: rest => textBefore (c :: known) rest
  | surrogate second :: surrogate first :: rest =>
    match pair? first second with
    | some c => textBefore (c :: known) rest
    | none => none
  -- half a pair on its own denotes no text
  | surrogate _ :: _ => none

end CodeUnit

/-- How far an escape has come. -/
inductive Escape where
  /-- There is no escape. -/
  | none
  /-- The backslash was read. -/
  | begun
  /-- Some hexadecimal digits were read. -/
  | hex (count value : Nat)
deriving DecidableEq

/-- The character that an escape letter stands for. -/
def Escape.letter? : Char → Option Char
  | '"' => some '"'
  | '\\' => some '\\'
  | '/' => some '/'
  | 'b' => some '\x08'
  | 'f' => some '\x0c'
  | 'n' => some '\n'
  | 'r' => some '\r'
  | 't' => some '\t'
  | _ => Option.none

/-- The value of a hexadecimal digit. -/
def Escape.hexValue? (c : Char) : Option Nat :=
  if '0' ≤ c ∧ c ≤ '9' then some (c.toNat - '0'.toNat)
  else if 'a' ≤ c ∧ c ≤ 'f' then some (c.toNat - 'a'.toNat + 10)
  else if 'A' ≤ c ∧ c ≤ 'F' then some (c.toNat - 'A'.toNat + 10)
  else Option.none

/-! ### Words -/

/-- The characters that may stand between tokens. -/
def isBlank (c : Char) : Bool := c = ' ' || c = '\t' || c = '\n' || c = '\r'

namespace Token

/-- The token that is a single character. -/
def punctuation? : Char → Option Token
  | '{' => some .beginObject
  | '}' => some .endObject
  | '[' => some .beginArray
  | ']' => some .endArray
  | ':' => some .colon
  | ',' => some .comma
  | _ => Option.none

/-- The token that is a word. -/
def word? (word : String) : Option Token :=
  if word = "null" then some .null
  else if word = "true" then some (.bool true)
  else if word = "false" then some (.bool false)
  else (Numeral.ofString? word).map fun _ => .number word

end Token

/-- Whether a word ends before the character. So two words cannot stand next to each other without
something in between. -/
def endsWord (c : Char) : Bool := isBlank c || c = '"' || (Token.punctuation? c).isSome

/-! ### Scanning -/

/-- What a scanner is in the middle of. What was read so far is kept last first. Only at its end is
it known what a word is. -/
inductive Pending where
  | nothing
  | word (chars : List Char)
  | literal (units : List CodeUnit) (escape : Escape)

/-- The tokens that were read, last first, and what is pending. -/
structure Scanner where
  tokens : List Token
  pending : Pending

namespace Scanner

/-- The scanner before a text. -/
def start : Scanner := ⟨[], .nothing⟩

/-- Reads a character where a token may start. -/
def begin (tokens : List Token) (c : Char) : Scanner :=
  if isBlank c then ⟨tokens, .nothing⟩
  else if c = '"' then ⟨tokens, .literal [] .none⟩
  else match Token.punctuation? c with
    | some t => ⟨t :: tokens, .nothing⟩
    | none => ⟨tokens, .word [c]⟩

/-- Reads a character of a string literal. -/
def literalStep (tokens : List Token) (units : List CodeUnit) (c : Char) : Escape → Option Scanner
  | .none =>
    if c = '"' then some ⟨.string (CodeUnit.textBefore [] units) :: tokens, .nothing⟩
    else if c = '\\' then some ⟨tokens, .literal units .begun⟩
    -- control characters have to be escaped
    else if c.toNat < 32 then none
    else some ⟨tokens, .literal (.char c :: units) .none⟩
  | .begun =>
    if c = 'u' then some ⟨tokens, .literal units (.hex 0 0)⟩
    else (Escape.letter? c).map fun d => ⟨tokens, .literal (.char d :: units) .none⟩
  | .hex count value =>
    (Escape.hexValue? c).map fun d =>
      let value := 16 * value + d
      -- the fourth digit completes the escape
      if count = 3 then ⟨tokens, .literal (.ofHex value :: units) .none⟩
      else ⟨tokens, .literal units (.hex (count + 1) value)⟩

/-- Reads a character. -/
def step (s : Scanner) (c : Char) : Option Scanner :=
  match s.pending with
  | .nothing => some (begin s.tokens c)
  | .word chars =>
    -- the character that ends the word is read at once, as it may be a token itself
    if endsWord c then
      (Token.word? (String.ofList chars.reverse)).map fun t => begin (t :: s.tokens) c
    else some ⟨s.tokens, .word (c :: chars)⟩
  | .literal units escape => literalStep s.tokens units c escape

/-- Reads a text. -/
def run (s : Scanner) : List Char → Option Scanner
  | [] => some s
  | c :: rest =>
    match s.step c with
    | some s => s.run rest
    | none => none

/-- The tokens of a text that ends here. A literal that is not closed is no token, and neither is a
word that spells nothing. -/
def finish (s : Scanner) : Option (List Token) :=
  match s.pending with
  | .nothing => some s.tokens.reverse
  | .word chars =>
    (Token.word? (String.ofList chars.reverse)).map fun t => (t :: s.tokens).reverse
  | .literal .. => none

theorem run_append (s : Scanner) (cs ds : List Char) :
    s.run (cs ++ ds) = (s.run cs).bind fun t => t.run ds := by
  induction cs generalizing s with
  | nil => rfl
  | cons c rest ih =>
    simp only [List.cons_append, run]
    cases s.step c with
    | none => rfl
    | some t => exact ih t

end Scanner

/-- The tokens of a text, if it consists of tokens and blanks. -/
def Token.scan (s : String) : Option (List Token) := do
  let scanner ← Scanner.start.run s.toList
  scanner.finish

end PascalAsm
