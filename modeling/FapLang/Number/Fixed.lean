import FapLang.Number.Shortest

/-!
Numbers with a fixed count of decimal places. The exact binary value is rounded once, a half going to the
even last digit.
-/

namespace FapLang.Number

/-- The size of a finite number in units of the last of so many places. -/
def unitsOf (places : Nat) (x : Float) : Nat :=
  let ratio := toRatio x
  roundHalfEven (ratio.1.natAbs * Nat.pow 10 places) ratio.2

/-- The number nearest to `x` rounded to so many places. -/
def roundPlaces (places : Nat) (x : Float) : Float :=
  if isNaN x || isInfinite x then x
  else ofRatio (isNegative x) (unitsOf places x) (Nat.pow 10 places)

/-- The number nearest to `x` rounded to so many significant digits. -/
def roundSignificant (digits : Nat) (x : Float) : Float :=
  if isNaN x || isInfinite x || x == 0 then x
  else
    let places : Int := (digits : Int) - 1 - truncate (Float.log10 x.abs).floor
    if 0 ≤ places then roundPlaces places.toNat x
    else
      let ratio := toRatio x
      let unit := Nat.pow 10 (-places).toNat
      ofRatio (isNegative x) (roundHalfEven ratio.1.natAbs (ratio.2 * unit) * unit) 1

/-- Writes units of the last of so many places with the point before these places. -/
def pointText (places units : Nat) : List Char :=
  let whole := digitText (units / Nat.pow 10 places)
  let part := digitText (units % Nat.pow 10 places)
  if places = 0 then whole
  else whole ++ '.' :: List.replicate (places - part.length) '0' ++ part

def fixedText (places : Nat) (x : Float) : String :=
  let magnitude := if isNaN x || isInfinite x then magnitudeText true x
    else pointText places (unitsOf places x)
  String.ofList (signed x magnitude)

end FapLang.Number
