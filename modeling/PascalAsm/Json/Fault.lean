import PascalAsm.Json.Token

/-!
# Faults in JSON texts

A word that is no token and cannot begin one either is a fault, and a fault has a place: the line
and the byte at which a reader notices that nothing can follow. For most words that is their first
character; after a sign it is the next one, since a digit is wanted there.

Words that begin as a number or as the name of a constant does are no faults in this sense, and
neither are string literals.
-/

namespace PascalAsm.Json

/-- A place in a text: the number of a line, and how many of its bytes stand before the place. -/
structure Place where
  line : Nat := 1
  bytesBefore : Nat := 0
deriving DecidableEq

/-- The place after a character. -/
def Place.after (p : Place) (c : Char) : Place :=
  if c = '\n' then ⟨p.line + 1, 0⟩ else ⟨p.line, p.bytesBefore + c.utf8Size⟩

/-- What is wrong with a word. -/
inductive Fault.Cause where
  /-- No value begins in this way. -/
  | noValue
  /-- A sign stands before no digit. -/
  | noDigit
deriving DecidableEq

/-- A fault and where it is noticed. Lines and columns count from one, columns in bytes. -/
structure Fault where
  cause : Fault.Cause
  line : Nat
  column : Nat
deriving DecidableEq

namespace Fault

/-- What is wrong. -/
def Cause.text : Cause → String
  | noValue => "expected value"
  | noDigit => "invalid number"

/-- A fault in words. -/
def text (f : Fault) : String :=
  f.cause.text ++ " at line " ++ toString f.line ++ " column " ++ toString f.column

/-- The fault of a word that begins after a place. -/
def ofWord? (p : Place) : List Char → Option Fault
  | '-' :: rest =>
    if rest.head?.any Char.isDigit then none else some ⟨.noDigit, p.line, p.bytesBefore + 2⟩
  | c :: _ =>
    if c.isDigit || c = 't' || c = 'f' || c = 'n' then none
    else some ⟨.noValue, p.line, p.bytesBefore + 1⟩
  | [] => none

/-- The fault of the word that a scanner is in the middle of, at the place where the word ends. -/
def ofPending? (s : Scanner) (p : Place) : Option Fault :=
  match s.pending with
  | .word chars =>
    let size := (String.ofList chars).utf8ByteSize
    ofWord? ⟨p.line, p.bytesBefore - size⟩ chars.reverse
  | _ => none

/-- The fault at which a scanner stops on a text. -/
def find? (s : Scanner) (p : Place) : List Char → Option Fault
  | [] => if s.finish.isSome then none else ofPending? s p
  | c :: rest =>
    match s.step c with
    | some t => find? t (p.after c) rest
    | none => ofPending? s p

/-- Where a scanner comes through, there is no fault. -/
theorem find?_eq_none_of_run {s t : Scanner} (p : Place) {chars : List Char}
    (h : s.run chars = some t) (ht : t.finish.isSome) : find? s p chars = none := by
  induction chars generalizing s p with
  | nil =>
    rw [Scanner.run, Option.some_inj] at h
    rw [find?, h, if_pos ht]
  | cons c rest ih =>
    rw [Scanner.run] at h
    rw [find?]
    cases hs : s.step c with
    | none => rw [hs] at h; exact absurd h (by simp)
    | some u => rw [hs] at h; exact ih _ h

end Fault

/-- The first fault of a text. -/
def fault? (s : String) : Option Fault := Fault.find? Scanner.start {} s.toList

/-- A text that consists of tokens has no fault. -/
theorem fault?_eq_none_of_scan {s : String} {tokens : List Token}
    (h : Token.scan s = some tokens) : fault? s = none := by
  obtain ⟨t, ht, hfinish⟩ := Option.bind_eq_some_iff.1 h
  exact Fault.find?_eq_none_of_run _ ht (by rw [hfinish]; rfl)

end PascalAsm.Json
