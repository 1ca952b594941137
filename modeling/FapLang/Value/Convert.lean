import FapLang.Value.Text

/-!
Conversion of values to the three declared types.
-/

namespace FapLang.Value

def ofReading (s : String) : Number.IntReading → Except Fault Value
  | .value n => .ok (int n)
  | .tooLong digits => .error (.numeralTooLong digits)
  | .malformed => .error (.intText s)

/-- The integer part of a number, or the integer that a text spells. -/
def toInt (v : Value) : Except Fault Value :=
  match v with
  | bool b => .ok (int (if b then 1 else 0))
  | int n => .ok (int n)
  | float x =>
    if Number.isNaN x then .error .notANumberToInt
    else if Number.isInfinite x then .error .infiniteToInt
    else .ok (int (Number.truncate x))
  | text s => ofReading s (Number.readInt s)
  | v => .error (.notIntegral v.typeName)

def isDigits (cs : List Char) : Bool :=
  !cs.isEmpty && cs.all Text.isDigit

/-- A sign and digits, nothing else. -/
def looksIntegral (s : String) : Bool :=
  match s.toList with
  | '-' :: rest => isDigits rest
  | cs => isDigits cs

/-- Only whole numbers and texts of digits become integers. -/
def castInt (v : Value) : Except Fault Value :=
  match v with
  | text s => if looksIntegral s then v.toInt else .error (.textNotInt s)
  | float x => if Number.isWhole x then v.toInt else .error (.floatNotInt (Number.floatText x))
  | v => v.toInt

def castFloat (v : Value) : Except Fault Value :=
  match v with
  | bool b => .ok (float (if b then 1 else 0))
  | int n => return float (← Numeric.intToFloat n)
  | float x => .ok (float x)
  | text s =>
    match Number.readFloat s with
    | some x => .ok (float x)
    | Option.none => .error (.textNotFloat s)
  | v => .error (.notReal v.typeName)

end FapLang.Value
