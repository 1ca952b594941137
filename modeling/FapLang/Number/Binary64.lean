/-!
Exact views of floating-point numbers. A finite number is a significand times a power of two; going
back, every positive ratio has one nearest number, a tie going to the even significand.
-/

namespace FapLang.Number

/-- `significand · 2 ^ exponent`, with a sign of its own so that the two zeros differ. -/
structure Dyadic where
  negative : Bool
  significand : Nat
  exponent : Int
  deriving Repr, DecidableEq

def Dyadic.ofFloat (x : Float) : Dyadic :=
  let bits : Nat := x.toBits.toNat
  let field : Nat := bits / Nat.pow 2 52 % 2048
  let fraction : Nat := bits % Nat.pow 2 52
  { negative := Nat.pow 2 63 ≤ bits
    significand := if field = 0 then fraction else fraction + Nat.pow 2 52
    exponent := if field = 0 then -1074 else (field : Int) - 1075 }

def isNaN (x : Float) : Bool :=
  x != x

def isInfinite (x : Float) : Bool :=
  !isNaN x && isNaN (x - x)

def isNegative (x : Float) : Bool :=
  Nat.pow 2 63 ≤ x.toBits.toNat

def infinity : Float :=
  Float.ofBits 0x7FF0000000000000

def notANumber : Float :=
  Float.ofBits 0x7FF8000000000000

/-- Rounds a ratio to a whole number, a half going to the even neighbour. -/
def roundHalfEven (num den : Nat) : Nat :=
  let floor := num / den
  let rest := 2 * (num % den)
  if rest < den then floor
  else if den < rest then floor + 1
  else if floor % 2 = 0 then floor else floor + 1

def bitLength (n : Nat) : Nat :=
  if n = 0 then 0 else Nat.log2 n + 1

/-- `num / (den · 2 ^ exponent)` as a ratio of whole numbers. -/
def scaleRatio (num den : Nat) (exponent : Int) : Nat × Nat :=
  if 0 ≤ exponent then (num, den * Nat.pow 2 exponent.toNat)
  else (num * Nat.pow 2 (-exponent).toNat, den)

/-- The pattern of the number nearest to a positive ratio; infinity if it is too large. -/
def nearestBits (num den : Nat) : Nat :=
  let guess := max ((bitLength num : Int) - bitLength den - 53) (-1074)
  let scaled := scaleRatio num den guess
  let exponent := if Nat.pow 2 53 ≤ scaled.1 / scaled.2 then guess + 1 else guess
  let final := scaleRatio num den exponent
  let significand := roundHalfEven final.1 final.2
  let carried := significand = Nat.pow 2 53
  let significand := if carried then Nat.pow 2 52 else significand
  let exponent := if carried then exponent + 1 else exponent
  if 971 < exponent then 0x7FF0000000000000
  else if significand < Nat.pow 2 52 then significand
  else (exponent + 1075).toNat * Nat.pow 2 52 + (significand - Nat.pow 2 52)

/-- The number nearest to `± num / den`. -/
def ofRatio (negative : Bool) (num den : Nat) : Float :=
  let bits := if num = 0 then 0 else nearestBits num den
  Float.ofBits (UInt64.ofNat (if negative then bits + Nat.pow 2 63 else bits))

/-- The nearest number to an integer; infinite if the integer is out of range. -/
def ofInt (n : Int) : Float :=
  ofRatio (n < 0) n.natAbs 1

/-- The least integer without a finite number near it. -/
def leastInfinite : Nat :=
  Nat.pow 2 1024 - Nat.pow 2 970

def isWhole (x : Float) : Bool :=
  !isNaN x && !isInfinite x &&
    let d := Dyadic.ofFloat x
    0 ≤ d.exponent || d.significand % Nat.pow 2 (-d.exponent).toNat = 0

/-- The integer part of a finite number. -/
def truncate (x : Float) : Int :=
  let d := Dyadic.ofFloat x
  let size := if 0 ≤ d.exponent then d.significand * Nat.pow 2 d.exponent.toNat
    else d.significand / Nat.pow 2 (-d.exponent).toNat
  if d.negative then -size else size

/-- A finite number as an exact ratio. -/
def toRatio (x : Float) : Int × Nat :=
  let d := Dyadic.ofFloat x
  let scaled := scaleRatio d.significand 1 (-d.exponent)
  (if d.negative then -scaled.1 else scaled.1, scaled.2)

/-- Compares an integer with a number exactly; `none` if the number is not a number. -/
def compareInt (n : Int) (x : Float) : Option Ordering :=
  if isNaN x then none
  else if isInfinite x then some (if isNegative x then .gt else .lt)
  else
    let ratio := toRatio x
    some (compare (n * ratio.2) ratio.1)

/-- Compares two numbers; `none` if either is not a number. -/
def compareFloat (x y : Float) : Option Ordering :=
  if x < y then some .lt else if x > y then some .gt else if x == y then some .eq else none

end FapLang.Number
