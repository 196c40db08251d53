import Lox.Number.Decimal

/-!
# Numbers as text

A number is written in one of two forms, both with the shortest digits that read back. The plain
form never has an exponent and shows whole numbers without a point. The exact form, used where a
value shows its structure, always tells a number from an integer: whole numbers end in `.0`, and
magnitudes below `10 ^ -4` or from `10 ^ 16` on have an exponent.
-/

namespace Lox.Number

/-- A decimal written out by place: the digits before the point and those after it. -/
def Decimal.places (decimal : Decimal) : String × String :=
  let digits := toString decimal.digits
  if 0 ≤ decimal.exponent then
    (digits ++ String.ofList (List.replicate decimal.exponent.toNat '0'), "")
  else
    let after := (-decimal.exponent).toNat
    let padded := List.replicate (after + 1 - digits.length) '0' ++ digits.toList
    (String.ofList (padded.take (padded.length - after)),
      String.ofList (padded.drop (padded.length - after)))

def Decimal.leading (decimal : Decimal) : Int :=
  decimal.exponent + (toString decimal.digits).length - 1

def Decimal.scientific (decimal : Decimal) : String :=
  let exponent := "e" ++ toString decimal.leading
  match (toString decimal.digits).toList with
  | [] => exponent
  | [digit] => String.singleton digit ++ exponent
  | digit :: digits => String.singleton digit ++ "." ++ String.ofList digits ++ exponent

def signed (negative : Bool) (text : String) : String :=
  if negative then "-" ++ text else text

def magnitude (mantissa : Nat) (exponent : Int) : Decimal :=
  if mantissa = 0 then ⟨0, 0⟩ else .shortest mantissa exponent

/-- A double in the form of program output. -/
def plain (x : Float) : String :=
  match Binary.ofFloat x with
  | .nan => "NaN"
  | .infinite negative => signed negative "inf"
  | .finite negative mantissa exponent =>
    let (whole, fraction) := (magnitude mantissa exponent).places
    signed negative (if fraction.isEmpty then whole else whole ++ "." ++ fraction)

/-- Magnitudes outside of these powers of ten are written with an exponent in the exact form. -/
def positional (decimal : Decimal) : Bool :=
  decimal.digits = 0 || (-4 ≤ decimal.leading && decimal.leading < 16)

/-- A double in the form of inspection text. -/
def exact (x : Float) : String :=
  match Binary.ofFloat x with
  | .nan => "NaN"
  | .infinite negative => signed negative "inf"
  | .finite negative mantissa exponent =>
    let decimal := magnitude mantissa exponent
    let (whole, fraction) := decimal.places
    signed negative (
      if !positional decimal then decimal.scientific
      else whole ++ "." ++ (if fraction.isEmpty then "0" else fraction))

end Lox.Number
