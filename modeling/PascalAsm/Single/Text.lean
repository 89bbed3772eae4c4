import PascalAsm.Single.Shortest

/-!
# Real numbers as text

Two ways to write the shortest decimal of a number. Messages and listings write every number out
without an exponent. Serialized trees write it out within a range of exponents, always with a
point, and use scientific notation elsewhere; what is not finite has no text there.
-/

namespace PascalAsm

/-- A number of zeros. -/
def zeros (n : Nat) : String := String.ofList (List.replicate n '0')

namespace Decimal

/-- The digits of the coefficient. -/
def digits (d : Decimal) : List Char := Nat.toDigits 10 d.coefficient

/-- The exponent that the number has when it is written with one digit before the point. -/
def magnitude (d : Decimal) : Int := d.digits.length - 1 + d.exponent

/-- The number written out in full; `whole` follows a number without a fraction. -/
def plain (whole : String) (d : Decimal) : String :=
  let point : Int := d.digits.length + d.exponent
  if 0 ≤ d.exponent then String.ofList d.digits ++ zeros d.exponent.toNat ++ whole
  else if 0 < point then
    String.ofList (d.digits.take point.toNat) ++ "." ++ String.ofList (d.digits.drop point.toNat)
  else "0." ++ zeros (-point).toNat ++ String.ofList d.digits

/-- The number with one digit before the point and an exponent, whose sign is always written. -/
def scientific (d : Decimal) : String :=
  let mantissa := match d.digits with
    | first :: second :: rest => String.ofList (first :: '.' :: second :: rest)
    | digits => String.ofList digits
  let sign := if d.magnitude < 0 then "-" else "+"
  mantissa ++ "e" ++ sign ++ toString d.magnitude.natAbs

end Decimal

namespace Single

/-- The minus sign of a negative number. -/
def signText (negative : Bool) : String := if negative then "-" else ""

/-- The text in messages: written out in full, integers without a point. Of two equally near
decimals the greater one is written. -/
def text (x : Single) : String :=
  match x.decode with
  | .nan => "NaN"
  | .infinite negative => signText negative ++ "inf"
  | .finite negative d =>
    signText negative ++ if d.mantissa = 0 then "0" else (d.shortest .up).plain ""

/-- The least exponent that a serialized number is written out with. -/
def minPlainExponent : Int := -6

/-- The greatest exponent that a serialized number is written out with. -/
def maxPlainExponent : Int := 12

/-- The text of a finite number in a serialized tree: it always shows that it is no integer. Of two
equally near decimals the even one is written. -/
def numeral? (x : Single) : Option String :=
  match x.decode with
  | .finite negative d =>
    let decimal := d.shortest .even
    some <| signText negative ++
      if d.mantissa = 0 then "0.0"
      else if minPlainExponent ≤ decimal.magnitude ∧ decimal.magnitude ≤ maxPlainExponent then
        decimal.plain ".0"
      else decimal.scientific
  | _ => none

end Single

end PascalAsm
