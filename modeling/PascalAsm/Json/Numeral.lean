import PascalAsm.Single.Basic

/-!
# Numerals

Numbers as JSON spells them: an optional minus sign, digits without a superfluous leading zero, then
perhaps a fraction and perhaps an exponent. A numeral is kept as it is spelled, because integers and
reals are told apart by spelling: `1.0` and `1e0` are no integers, and neither is `-0`.

`Numeral.integer?` and `Numeral.single?` are the two ways to read one. A real is read in double
precision first: the digits that fit 64 bits are taken as an integer, and that is scaled by a power
of ten, each step rounded. An integer that fits 64 bits is rounded once.
-/

namespace PascalAsm

/-- A number as it is spelled. Digits are given by their values. -/
structure Numeral where
  negative : Bool
  whole : List Nat
  fraction : Option (List Nat)
  exponent : Option Int
deriving DecidableEq

namespace Numeral

/-! ### Spelling -/

/-- The value of a decimal digit. -/
def digitValue (c : Char) : Nat := c.toNat - '0'.toNat

/-- The digits at the start of a text, by value. -/
def leadingDigits (cs : List Char) : List Nat := (cs.takeWhile Char.isDigit).map digitValue

/-- What follows the digits at the start of a text. -/
def afterDigits (cs : List Char) : List Char := cs.dropWhile Char.isDigit

/-- The number that some digits denote. -/
def ofDigits (ds : List Nat) : Nat := ds.foldl (fun n d => 10 * n + d) 0

/-- Some digits; there must be one. -/
def digits? (cs : List Char) : Option (List Nat × List Char) :=
  match leadingDigits cs with
  | [] => none
  | ds => some (ds, afterDigits cs)

/-- The digits before the point: a zero stands alone. -/
def whole? (cs : List Char) : Option (List Nat × List Char) :=
  match digits? cs with
  -- digits after a zero at the start are refused
  | some (0 :: _ :: _, _) => none
  | r => r

/-- The fraction, if a point follows. -/
def fraction? : List Char → Option (Option (List Nat) × List Char)
  | '.' :: cs => (digits? cs).map fun (ds, rest) => (some ds, rest)
  | cs => some (none, cs)

/-- The exponent after its letter. -/
def signedExponent? : List Char → Option (Int × List Char)
  | '-' :: cs => (digits? cs).map fun (ds, rest) => (-(ofDigits ds : Int), rest)
  | '+' :: cs => (digits? cs).map fun (ds, rest) => ((ofDigits ds : Int), rest)
  | cs => (digits? cs).map fun (ds, rest) => ((ofDigits ds : Int), rest)

/-- The exponent, if its letter follows. -/
def exponent? : List Char → Option (Option Int × List Char)
  | 'e' :: cs | 'E' :: cs => (signedExponent? cs).map fun (e, rest) => (some e, rest)
  | cs => some (none, cs)

/-- The numeral without its sign, which must be the whole text. -/
def unsigned? (negative : Bool) (cs : List Char) : Option Numeral := do
  let (whole, cs) ← whole? cs
  let (fraction, cs) ← fraction? cs
  let (exponent, cs) ← exponent? cs
  match cs with
  | [] => some { negative, whole, fraction, exponent }
  | _ => none

/-- The numeral that a text spells. -/
def ofChars? : List Char → Option Numeral
  | '-' :: cs => unsigned? true cs
  | cs => unsigned? false cs

/-- The numeral that a text spells. -/
def ofString? (s : String) : Option Numeral := ofChars? s.toList

/-! ### Integers -/

/-- The integer, if it is spelled as one. -/
def integer? (n : Numeral) : Option Int :=
  match n.fraction, n.exponent with
  | none, none =>
    let value := ofDigits n.whole
    -- a zero with a sign is a real
    if n.negative then if value = 0 then none else some (-value) else some value
  | _, _ => none

/-! ### Reals -/

/-- Takes digits into an integer as long as it fits 64 bits, and gives the digits left over. -/
def absorb (n : Nat) : List Nat → Nat × List Nat
  | [] => (n, [])
  -- the first digit that does not fit ends it, and none after it is taken
  | d :: ds => if 10 * n + d < UInt64.size then absorb (10 * n + d) ds else (n, d :: ds)

/-- The integer of the leading digits and the power of ten that it is to be scaled by. Digits of the
fraction count even where digits before the point were left over. -/
def significand (n : Numeral) : Nat × Int :=
  let fraction := n.fraction.getD []
  let (value, left) := absorb 0 n.whole
  let (value, unread) := absorb value fraction
  -- the digits of the fraction that were taken move the point
  let taken : Int := fraction.length - unread.length
  (value, n.exponent.getD 0 + left.length - taken)

/-- A power of ten in double precision. -/
def powerOfTen (k : Nat) : Option Dyadic := FloatFormat.double.round (Nat.pow 10 k) 1

/-- The greatest power of ten that double precision has. -/
def maxPower : Nat := 308

/-- A number times a power of ten, in double precision. -/
def scaleUp (d : Dyadic) (k : Nat) : Option Dyadic := do
  let p ← powerOfTen k
  FloatFormat.double.round (d.num * p.num) (d.den * p.den)

/-- A number divided by a power of ten, in double precision. -/
def scaleDown (d : Dyadic) (k : Nat) : Option Dyadic := do
  let p ← powerOfTen k
  FloatFormat.double.round (d.num * p.den) (d.den * p.num)

/-- A number divided some times by the greatest power of ten. Once it is zero it stays zero. -/
def shrink (d : Dyadic) : Nat → Option Dyadic
  | 0 => some d
  | steps + 1 =>
    if d.mantissa = 0 then some d
    else match scaleDown d maxPower with
      | some smaller => shrink smaller steps
      | none => none

/-- A number scaled by a power of ten, in double precision; none if that is out of range. A power
too small for double precision takes several steps. -/
def scale (d : Dyadic) (k : Int) : Option Dyadic :=
  if 0 ≤ k then
    if k.toNat ≤ maxPower then scaleUp d k.toNat
    -- zero stays zero whatever the exponent is; all else is out of range
    else if d.mantissa = 0 then some d
    else none
  else do
    let steps := (k.natAbs - 1) / maxPower
    let smaller ← shrink d steps
    scaleDown smaller (k.natAbs - steps * maxPower)

/-- The magnitude of the numeral in double precision. -/
def double? (n : Numeral) : Option Dyadic := do
  let (value, k) := n.significand
  let d ← FloatFormat.double.round value 1
  scale d k

/-- Whether the numeral is spelled as an integer that fits 64 bits with its sign. -/
def fitsWord (n : Numeral) : Bool :=
  match n.integer? with
  | some i => Int64.minValue.toInt ≤ i ∧ i < UInt64.size
  | none => false

/-- The number in single precision, or none if double precision does not reach so far. -/
def single? (n : Numeral) : Option Single :=
  -- rounded once, and not by way of double precision
  if n.fitsWord then some (.ofRatio n.negative (ofDigits n.whole) 1)
  else n.double?.map fun d => .ofRatio n.negative d.num d.den

end Numeral

end PascalAsm
