import Lox.Number.Binary

/-!
# Reading numerals

A numeral is decimal digits with an optional fraction, an optional sign and an optional exponent,
or a name of infinity or of what is not a number. It is read as the nearest double.
-/

namespace Lox.Number

def digitsValue (start : Nat) (digits : List Char) : Nat :=
  digits.foldl (fun value digit => 10 * value + (digit.toNat - '0'.toNat)) start

def spanDigits (characters : List Char) : List Char × List Char :=
  characters.span Char.isDigit

/-- The double nearest to `digits * 10 ^ exponent`. Magnitudes far outside of the range of doubles
are recognised by the place of their leading digit, before any large power is computed. -/
def ofDecimal (digits : Nat) (exponent : Int) : Float :=
  let place : Int := digits.log2 * 30103 / 100000 + exponent
  if digits = 0 then Binary.nearest 0 1
  else if place > 400 then Binary.nearest (1 <<< 1024) 1
  else if place < -400 then Binary.nearest 0 1
  else if exponent < 0 then Binary.nearest digits (Nat.pow 10 (-exponent).toNat)
  else Binary.nearest (digits * Nat.pow 10 exponent.toNat) 1

/-- The exponent of a numeral, nothing being the exponent zero. -/
def readExponent? : List Char → Option Int
  | [] => some 0
  | mark :: rest =>
    if mark = 'e' || mark = 'E' then
      let (negative, digits) : Bool × List Char := match rest with
        | '-' :: digits => (true, digits)
        | '+' :: digits => (false, digits)
        | digits => (false, digits)
      if !digits.isEmpty && digits.all Char.isDigit then
        let value : Int := digitsValue 0 digits
        some (if negative then -value else value)
      else none
    else none

/-- A numeral without a sign: digits on at least one side of an optional point, and an exponent. -/
def readUnsigned? (characters : List Char) : Option Float :=
  let (whole, rest) := spanDigits characters
  let (fraction, rest) := match rest with
    | '.' :: rest => spanDigits rest
    | rest => ([], rest)
  if whole.isEmpty && fraction.isEmpty then none
  else (readExponent? rest).map fun exponent =>
    ofDecimal (digitsValue (digitsValue 0 whole) fraction) (exponent - fraction.length)

/-- The values that have a name, in any case of letters. -/
def readNamed? (characters : List Char) : Option Float :=
  match String.ofList (characters.map Char.toLower) with
  | "inf" | "infinity" => some (Binary.nearest (1 <<< 1024) 1)
  | "nan" => some (0.0 / 0.0)
  | _ => none

def read? (text : String) : Option Float :=
  let (negative, characters) : Bool × List Char := match text.toList with
    | '-' :: rest => (true, rest)
    | '+' :: rest => (false, rest)
    | characters => (false, characters)
  (readNamed? characters <|> readUnsigned? characters).map fun magnitude =>
    if negative then -magnitude else magnitude

end Lox.Number
