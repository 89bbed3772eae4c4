import PascalAsm.Single.Basic

/-!
# Shortest decimals

The decimal with the fewest digits that reads back to a given number. The decimals that read back
lie in an interval around the number, half way to its neighbours; the interval holds its ends when
the mantissa is even, since a tie is read as the even neighbour.

The search goes over grids of decimals, each ten times finer than the one before. On a grid only
the two neighbours of the number can be the wanted decimal: if any point of the grid lies in the
interval, one of these does. The first grid with a hit gives the fewest digits, and of two hits
the nearer one is taken. What happens on an exact tie is up to the caller.
-/

namespace PascalAsm

/-- The decimal `coefficient · 10 ^ exponent`. -/
structure Decimal where
  coefficient : Nat
  exponent : Int
deriving DecidableEq

/-- What to do when two decimals are equally near. -/
inductive Tie where
  /-- Take the greater one. -/
  | up
  /-- Take the one with the even last digit. -/
  | even
deriving DecidableEq

/-- The numbers that are read as one and the same value, all in the unit `2 ^ unit`. -/
structure ReadingInterval where
  low : Nat
  value : Nat
  high : Nat
  closed : Bool
  unit : Int
deriving DecidableEq

namespace ReadingInterval

/-- The interval of a positive number of the format: its ends lie half way to the neighbours. Below
a power of two the neighbour is only half as far away, unless exponents end there. -/
def ofDyadic (f : FloatFormat) (d : Dyadic) : ReadingInterval where
  low := 4 * d.mantissa -
    if d.mantissa = f.leadingBit ∧ f.minExponent < d.exponent then 1 else 2
  value := 4 * d.mantissa
  high := 4 * d.mantissa + 2
  closed := d.mantissa % 2 = 0
  unit := d.exponent - 2

/-- How many points of the grid `10 ^ k` an amount of units is, as a ratio's numerator. -/
def scaled (i : ReadingInterval) (k : Int) (amount : Nat) : Nat :=
  (amount <<< i.unit.toNat) * Nat.pow 10 (-k).toNat

/-- The denominator that goes with `scaled`. -/
def scale (i : ReadingInterval) (k : Int) : Nat :=
  (1 <<< (-i.unit).toNat) * Nat.pow 10 k.toNat

/-- Whether `c · 10 ^ k` lies in the interval. -/
def holds (i : ReadingInterval) (k : Int) (c : Nat) : Bool :=
  let point := c * i.scale k
  if i.closed then i.scaled k i.low ≤ point ∧ point ≤ i.scaled k i.high
  else i.scaled k i.low < point ∧ point < i.scaled k i.high

/-- The point of the grid `10 ^ k` in the interval that is nearest to the value. -/
def nearest? (i : ReadingInterval) (tie : Tie) (k : Int) : Option Nat :=
  let below := i.scaled k i.value / i.scale k
  let twice := 2 * (i.scaled k i.value % i.scale k)
  match i.holds k below, i.holds k (below + 1) with
  | true, true =>
    if twice < i.scale k then some below
    else if i.scale k < twice then some (below + 1)
    else match tie with
      | .up => some (below + 1)
      | .even => some (below + below % 2)
  | true, false => some below
  | false, true => some (below + 1)
  | false, false => none

/-- The hit on the coarsest of the grids `10 ^ k`, `10 ^ (k - 1)`, …, of which `steps` are tried. -/
def search (i : ReadingInterval) (tie : Tie) : Nat → Int → Decimal
  | 0, k => ⟨i.scaled k i.value / i.scale k, k⟩
  | steps + 1, k =>
    match i.nearest? tie k with
    | some c => ⟨c, k⟩
    | none => search i tie steps (k - 1)

end ReadingInterval

/-- The decimal of fewest digits that reads back to a positive single-precision number. Such
numbers lie between `10 ^ -46` and `10 ^ 39`, and nine digits are enough for each of them. -/
def Dyadic.shortest (tie : Tie) (d : Dyadic) : Decimal :=
  (ReadingInterval.ofDyadic .single d).search tie 95 39

end PascalAsm
