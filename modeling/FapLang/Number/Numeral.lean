import FapLang.Number.Shortest
import FapLang.Text.Blank
import FapLang.Text.Digit

/-!
Numerals. Integers are written and read in decimal with at most 4300 digits. A numeral may stand
between blanks, carry a sign, take its digits from any script and have single underscores between
digits.
-/

namespace FapLang.Number

/-- The largest number of decimal digits that passes between an integer and a text. -/
def digitLimit : Nat := 4300

/-- Whether an integer has at most `digitLimit` decimal digits. -/
def isWritable (n : Int) : Bool :=
  n.natAbs < Nat.pow 10 digitLimit

def intText (n : Int) : String :=
  String.ofList (if n < 0 then '-' :: digitText n.natAbs else digitText n.natAbs)

/-- Reads digits with single underscores between them; the state is whether a digit came last. -/
def readDigits : Bool → List Char → List Nat × List Char
  | _, [] => ([], [])
  | afterDigit, c :: rest =>
    match Text.digitValue? c with
    | some d => let (ds, left) := readDigits true rest; (d :: ds, left)
    | none =>
      match afterDigit, c, rest with
      | true, '_', next :: _ =>
        if (Text.digitValue? next).isSome then readDigits false rest else ([], c :: rest)
      | _, _, _ => ([], c :: rest)

def ofDigits (ds : List Nat) : Nat :=
  ds.foldl (fun n d => 10 * n + d) 0

def readSign : List Char → Bool × List Char
  | '-' :: rest => (true, rest)
  | '+' :: rest => (false, rest)
  | cs => (false, cs)

inductive IntReading
  | value (n : Int)
  | tooLong (digits : Nat)
  | malformed
  deriving DecidableEq

/-- Reads an integer numeral, and judges the length of its digits first. -/
def readInt (s : String) : IntReading :=
  let (negative, body) := readSign (Text.trim s.toList)
  let (ds, rest) := readDigits false body
  if digitLimit < ds.length then .tooLong ds.length
  else if ds.isEmpty || !rest.isEmpty then .malformed
  else .value (if negative then -(ofDigits ds : Int) else ofDigits ds)

/-- The nearest number to `digits · 10 ^ exponent`. -/
def ofDecimal (negative : Bool) (digits : Nat) (exponent : Int) : Float :=
  let size := exponent + (if digits = 0 then 0 else log10 digits)
  if digits = 0 then ofRatio negative 0 1
  else if 400 < size then (if negative then -infinity else infinity)
  else if size < -400 then ofRatio negative 0 1
  else if 0 ≤ exponent then ofRatio negative (digits * Nat.pow 10 exponent.toNat) 1
  else ofRatio negative digits (Nat.pow 10 (-exponent).toNat)

def lowerAscii (c : Char) : Char :=
  if 'A' ≤ c && c ≤ 'Z' then Char.ofNat (c.toNat + 32) else c

/-- The exponent part of a numeral, if there is a complete one. -/
def readExponent (cs : List Char) : Int × List Char :=
  match cs with
  | c :: rest =>
    if lowerAscii c = 'e' then
      let (negative, body) := readSign rest
      let (ds, left) := readDigits false body
      if ds.isEmpty then (0, cs)
      else (if negative then -(ofDigits ds : Int) else ofDigits ds, left)
    else (0, cs)
  | [] => (0, cs)

def readFraction (cs : List Char) : List Nat × List Char :=
  match cs with
  | '.' :: rest => readDigits false rest
  | _ => ([], cs)

/-- Reads a floating-point numeral: a decimal with an optional exponent, an infinity or a NaN. -/
def readFloat (s : String) : Option Float :=
  let (negative, body) := readSign (Text.trim s.toList)
  let word := String.ofList (body.map lowerAscii)
  if word = "inf" || word = "infinity" then some (if negative then -infinity else infinity)
  else if word = "nan" then some notANumber
  else
    let (whole, afterWhole) := readDigits false body
    let (fraction, afterFraction) := readFraction afterWhole
    let (exponent, rest) := readExponent afterFraction
    if (whole.isEmpty && fraction.isEmpty) || !rest.isEmpty then none
    else some (ofDecimal negative (ofDigits (whole ++ fraction)) (exponent - fraction.length))

end FapLang.Number
