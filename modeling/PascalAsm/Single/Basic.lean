import PascalAsm.Single.Rounding

/-!
# Single-precision numbers

The values of real literals. A number is its 32-bit pattern, so two are equal exactly when their
patterns are; `decode` says what a pattern stands for. All arithmetic on them is exact arithmetic
on integers followed by one rounding.
-/

namespace PascalAsm

/-- A single-precision number, given by its bit pattern: a sign bit, eight bits of exponent and
23 bits of mantissa. -/
structure Single where
  bits : UInt32
deriving DecidableEq

/-- What a bit pattern stands for. -/
inductive Single.Decoded where
  | nan
  | infinite (negative : Bool)
  | finite (negative : Bool) (magnitude : Dyadic)
deriving DecidableEq

namespace Single

/-- The place value of the sign bit. -/
def signWeight : Nat := 0x80000000

/-- The place value of the lowest bit of the exponent. -/
def exponentWeight : Nat := 0x800000

/-- The pattern with a sign and the other 31 bits. -/
def ofMagnitudeBits (negative : Bool) (bits : Nat) : Single :=
  ⟨UInt32.ofNat ((if negative then signWeight else 0) + bits)⟩

/-- Not a number. -/
def nan : Single := ⟨0x7fc00000⟩

/-- An infinity of either sign. -/
def infinity (negative : Bool) : Single := ofMagnitudeBits negative 0x7f800000

/-- The number of a sign and a magnitude in single precision. A full mantissa carries into the
exponent bits, which is why the two can simply be added. -/
def ofDyadic (negative : Bool) (d : Dyadic) : Single :=
  ofMagnitudeBits negative ((d.exponent + 149).toNat * exponentWeight + d.mantissa)

/-- The number nearest to a ratio with a sign; above the range that is an infinity. -/
def ofRatio (negative : Bool) (num den : Nat) : Single :=
  match FloatFormat.single.round num den with
  | some d => ofDyadic negative d
  | none => infinity negative

/-- What the pattern stands for. Exponent bits of zero mean a mantissa without its leading bit. -/
def decode (x : Single) : Decoded :=
  let negative : Bool := signWeight ≤ x.bits.toNat
  let field := x.bits.toNat % signWeight / exponentWeight
  let fraction := x.bits.toNat % exponentWeight
  if field = 255 then (if fraction = 0 then .infinite negative else .nan)
  else if field = 0 then .finite negative ⟨fraction, -149⟩
  else .finite negative ⟨exponentWeight + fraction, (field : Int) - 150⟩

/-- The nearest 32-bit integer to an integer. -/
def saturate (i : Int) : Int32 :=
  if i < Int32.minValue.toInt then .minValue
  else if Int32.maxValue.toInt < i then .maxValue
  else .ofInt i

/-- The number without its fraction as a 32-bit integer. Numbers out of range give the nearest
integer in range, and what is no number gives zero. -/
def truncate (x : Single) : Int32 :=
  match x.decode with
  | .nan => 0
  | .infinite negative => if negative then .minValue else .maxValue
  | .finite negative d => saturate (if negative then -(d.floor : Int) else d.floor)

end Single

end PascalAsm
