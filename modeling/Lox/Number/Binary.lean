/-!
# Doubles as exact numbers

A finite double is a sign, a mantissa and a power of two. `Binary.ofFloat` takes a double apart and
`Binary.nearest` goes back: it rounds a quotient of natural numbers to the nearest double, ties to
the even mantissa. All that reads or writes decimal numbers stands on these two and on `Nat`.
-/

namespace Lox.Number

/-- What a double stands for. A finite one has the magnitude `mantissa * 2 ^ exponent`. -/
inductive Binary where
  | nan
  | infinite (negative : Bool)
  | finite (negative : Bool) (mantissa : Nat) (exponent : Int)
  deriving DecidableEq

namespace Binary

/-- The mantissa of a normal double has this leading bit. -/
def leadingBit : Nat := 1 <<< 52

/-- The least exponent, shared by the least normal doubles and all subnormal ones. -/
def leastExponent : Int := -1074

/-- The biased exponent field that marks infinities and what is not a number. -/
def specialField : Nat := 2047

def ofBits (bits : Nat) : Binary :=
  let negative := bits >>> 63 % 2 == 1
  let field := bits / leadingBit % 2048
  let fraction := bits % leadingBit
  if field = specialField then
    if fraction = 0 then .infinite negative else .nan
  else if field = 0 then .finite negative fraction leastExponent
  else .finite negative (leadingBit + fraction) (leastExponent + (field - 1 : Nat))

def ofFloat (x : Float) : Binary :=
  ofBits x.toBits.toNat

/-- The quotient rounded to the nearest natural number, a half to the even neighbour. -/
def roundQuotient (numerator denominator : Nat) : Nat :=
  let quotient := numerator / denominator
  let twice := 2 * (numerator % denominator)
  if twice < denominator then quotient
  else if denominator < twice then quotient + 1
  else quotient + quotient % 2

/-- The quotient divided by a power of two, rounded. -/
def scaledQuotient (numerator denominator : Nat) (exponent : Int) : Nat :=
  if exponent < 0 then roundQuotient (numerator <<< (-exponent).toNat) denominator
  else roundQuotient numerator (denominator <<< exponent.toNat)

/-- The exponent at which the mantissa of a positive quotient fills its 53 bits, or the least. -/
def fittingExponent (numerator denominator : Nat) : Int :=
  let estimate : Int := numerator.log2 - denominator.log2 - 52
  let fills : Bool :=
    if estimate < 0 then leadingBit * denominator ≤ numerator <<< (-estimate).toNat
    else leadingBit * (denominator <<< estimate.toNat) ≤ numerator
  max leastExponent (if fills then estimate else estimate - 1)

/-- The bits of a positive double whose mantissa may have been rounded up to the next power of two,
which then carries into the exponent. -/
def encode (mantissa : Nat) (exponent : Int) : Nat :=
  let field := (exponent - leastExponent).toNat
  let bits := if mantissa < leadingBit then mantissa else field * leadingBit + mantissa
  min bits (specialField * leadingBit)

def nearestBits (numerator denominator : Nat) : Nat :=
  if numerator = 0 then 0
  else
    let exponent := fittingExponent numerator denominator
    encode (scaledQuotient numerator denominator exponent) exponent

def nearest (numerator denominator : Nat) : Float :=
  Float.ofBits (nearestBits numerator denominator).toUInt64

end Binary

end Lox.Number
