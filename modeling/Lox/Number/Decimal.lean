import Lox.Number.Binary

/-!
# Shortest decimals

Among the decimals that read back as a given double, `Decimal.shortest` is one with the fewest
digits, and among those the nearest to the double, the larger of two that are equally near.

The numbers that read back as `m * 2 ^ q` form an interval around it whose ends lie half way to the
neighbouring doubles and belong to it exactly if `m` is even. On the grid of decimals with a given
number of digits it is enough to test the two neighbours of the double itself.
-/

namespace Lox.Number

/-- The number `digits * 10 ^ exponent`. -/
structure Decimal where
  digits : Nat
  exponent : Int
  deriving DecidableEq

namespace Decimal

/-- A positive double together with the numbers that read back as it, all in quarters of the unit
of its last place: the double is `centre`, the ends are `low` and `high`. -/
structure Neighbourhood where
  low : Nat
  centre : Nat
  high : Nat
  closed : Bool
  exponent : Int

/-- Below a power of two the doubles lie twice as dense, so the lower end is nearer there. -/
def Neighbourhood.ofFinite (mantissa : Nat) (exponent : Int) : Neighbourhood :=
  let atPower := mantissa = Binary.leadingBit ∧ Binary.leastExponent < exponent
  { low := 4 * mantissa - (if atPower then 1 else 2)
    centre := 4 * mantissa
    high := 4 * mantissa + 2
    closed := mantissa % 2 == 0
    exponent := exponent - 2 }

def powerRatio (base : Nat) (exponent : Int) : Nat × Nat :=
  if exponent < 0 then (1, Nat.pow base (-exponent).toNat) else (Nat.pow base exponent.toNat, 1)

/-- A grid of decimals laid over a neighbourhood: `d` steps of the grid and `x` quarter units are
the same number exactly if `d * step = x * quarter`. -/
structure Grid where
  step : Nat
  quarter : Nat

def Grid.at (place binaryExponent : Int) : Grid :=
  let (ten, tenth) := powerRatio 10 place
  let (two, half) := powerRatio 2 binaryExponent
  { step := ten * half, quarter := two * tenth }

def Grid.readsBack (grid : Grid) (around : Neighbourhood) (count : Nat) : Bool :=
  let position := count * grid.step
  let low := around.low * grid.quarter
  let high := around.high * grid.quarter
  if around.closed then low ≤ position && position ≤ high else low < position && position < high

/-- The point of the grid that reads back as the double and is nearest to it, if there is one. -/
def Grid.nearest? (grid : Grid) (around : Neighbourhood) : Option Nat :=
  let centre := around.centre * grid.quarter
  let below := centre / grid.step
  let above := below + 1
  match grid.readsBack around below, grid.readsBack around above with
  | true, true =>
    some (if 2 * (centre % grid.step) < grid.step then below else above)
  | true, false => some below
  | false, true => some above
  | false, false => none

/-- The exponent of ten of the leading digit of a positive number `mantissa * 2 ^ exponent`. -/
def leadingPlace (mantissa : Nat) (exponent : Int) : Int :=
  let reaches (place : Int) : Bool :=
    let grid := Grid.at place exponent
    grid.step ≤ mantissa * grid.quarter
  let estimate := (mantissa.log2 + exponent) * 30103 / 100000
  if !reaches estimate then estimate - 1
  else if reaches (estimate + 1) then estimate + 1
  else estimate

def search (around : Neighbourhood) : (count : Nat) → (place : Int) → Decimal
  | 0, place => ⟨around.centre * (Grid.at place around.exponent).quarter
      / (Grid.at place around.exponent).step, place⟩
  | count + 1, place =>
    match (Grid.at place around.exponent).nearest? around with
    | some digits => ⟨digits, place⟩
    | none => search around count (place - 1)

/-- Every double is told from its neighbours by this many digits. -/
def enoughDigits : Nat := 17

/-- Moves the zeros at the end of the digits into the exponent, at most `count` of them. -/
def dropZeros : (count : Nat) → Decimal → Decimal
  | 0, decimal => decimal
  | count + 1, decimal =>
    if decimal.digits % 10 = 0 then dropZeros count ⟨decimal.digits / 10, decimal.exponent + 1⟩
    else decimal

/-- The shortest decimal that reads back as the positive double `mantissa * 2 ^ exponent`. -/
def shortest (mantissa : Nat) (exponent : Int) : Decimal :=
  dropZeros enoughDigits
    (search (.ofFinite mantissa exponent) enoughDigits (leadingPlace mantissa exponent))

end Decimal

end Lox.Number
