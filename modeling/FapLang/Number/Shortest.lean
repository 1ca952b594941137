import FapLang.Number.Binary64

/-!
The shortest decimal that reads back, closest to the number among those with the fewest digits. Its
text is positional while the decimal exponent lies between -4 and 15, and otherwise scientific.
-/

namespace FapLang.Number

/-- `digits · 10 ^ exponent`. -/
structure Decimal where
  digits : Nat
  exponent : Int
  deriving Repr, DecidableEq

/-- The reals that round to a positive number, times four over a denominator. -/
structure Interval where
  low : Nat
  value : Nat
  high : Nat
  den : Nat
  closed : Bool

/-- The gap below a power of two is half the gap above it. -/
def Interval.ofDyadic (d : Dyadic) : Interval :=
  let narrow := d.significand = Nat.pow 2 52 && -1074 < d.exponent
  let value := 4 * d.significand
  let scale := fun n => (scaleRatio n 4 (-d.exponent)).1
  { low := scale (value - if narrow then 1 else 2)
    value := scale value
    high := scale (value + 2)
    den := (scaleRatio 0 4 (-d.exponent)).2
    closed := d.significand % 2 = 0 }

def Interval.holds (i : Interval) (num den : Nat) : Bool :=
  let below := compare (i.low * den) (num * i.den)
  let above := compare (num * i.den) (i.high * den)
  (below == .lt || (i.closed && below == .eq)) && (above == .lt || (i.closed && above == .eq))

/-- The largest `k` up to the bound with `10 ^ k ≤ n`, for `n ≠ 0`. -/
def log10From : Nat → Nat → Nat
  | 0, _ => 0
  | bound + 1, n => if Nat.pow 10 (bound + 1) ≤ n then bound + 1 else log10From bound n

def log10 (n : Nat) : Nat :=
  log10From (n.log2 * 1234 / 4096 + 1) n

/-- The `point` for which `10 ^ (point - 1) ≤ num / den < 10 ^ point`. -/
def decimalPoint (num den : Nat) : Int :=
  if den ≤ num then (log10 (num / den) : Int) + 1
  else -(log10 ((den - 1) / num) : Int)

/-- The multiple of `10 ^ exponent` inside the interval that is closest to its value. -/
def Interval.pick? (i : Interval) (exponent : Int) : Option Nat :=
  let num := if 0 ≤ exponent then 1 else Nat.pow 10 (-exponent).toNat
  let unit := if 0 ≤ exponent then Nat.pow 10 exponent.toNat else 1
  let floor := i.value * num / (i.den * unit)
  let fits := fun d => i.holds (d * unit) num
  let gapDown := i.value * num - floor * unit * i.den
  let gapUp := (floor + 1) * unit * i.den - i.value * num
  match fits floor, fits (floor + 1) with
  | true, true =>
    some (if gapDown < gapUp then floor else if gapUp < gapDown then floor + 1
      else if floor % 2 = 0 then floor else floor + 1)
  | true, false => some floor
  | false, true => some (floor + 1)
  | false, false => none

/-- Tries finer and finer decimal grids; the second argument counts the grids left. -/
def Interval.search (i : Interval) (exponent : Int) : Nat → Decimal
  | 0 => { digits := 0, exponent := exponent }
  | left + 1 =>
    match i.pick? exponent with
    | some digits => { digits := digits, exponent := exponent }
    | none => i.search (exponent - 1) left

/-- Drops trailing zeros; the first argument bounds their number. -/
def Decimal.dropZeros : Nat → Decimal → Decimal
  | 0, d => d
  | bound + 1, d =>
    if d.digits % 10 = 0 && d.digits ≠ 0 then
      Decimal.dropZeros bound { digits := d.digits / 10, exponent := d.exponent + 1 }
    else d

/-- The shortest decimal of a finite number; seventeen digits always suffice. -/
def shortest (d : Dyadic) : Decimal :=
  let i := Interval.ofDyadic d
  (i.search (decimalPoint i.value i.den - 1) 17).dropZeros 20

/-- The digits of a natural number, most significant first. -/
def digitText (n : Nat) : List Char :=
  Nat.toDigits 10 n

/-- Writes an exponent with its sign and at least two digits. -/
def exponentText (e : Int) : List Char :=
  let digits := digitText e.natAbs
  (if e < 0 then '-' else '+') :: (if digits.length < 2 then '0' :: digits else digits)

/-- Decimals from `10 ^ -4` up to below `10 ^ 16` are positional. `keepPoint` asks for a digit after
the point. -/
def Decimal.text (keepPoint : Bool) (d : Decimal) : List Char :=
  let ds := digitText d.digits
  -- Zero needs no exponent.
  let exponent := if d.digits = 0 then 0 else d.exponent
  let lead := (ds.length : Int) - 1 + exponent
  if lead < -4 || 16 ≤ lead then
    let mantissa := match ds with
      | first :: second :: rest => first :: '.' :: second :: rest
      | short => short
    mantissa ++ 'e' :: exponentText lead
  else if 0 ≤ exponent then
    ds ++ List.replicate exponent.toNat '0' ++ (if keepPoint then ['.', '0'] else [])
  else if 0 ≤ lead then
    ds.take (lead.toNat + 1) ++ '.' :: ds.drop (lead.toNat + 1)
  else
    '0' :: '.' :: List.replicate (-lead - 1).toNat '0' ++ ds

/-- The text of a number without its sign. -/
def magnitudeText (keepPoint : Bool) (x : Float) : List Char :=
  if isNaN x then ['n', 'a', 'n']
  else if isInfinite x then ['i', 'n', 'f']
  else (shortest (Dyadic.ofFloat x)).text keepPoint

def signed (x : Float) (magnitude : List Char) : List Char :=
  if isNegative x && !isNaN x then '-' :: magnitude else magnitude

def floatText (x : Float) : String :=
  String.ofList (signed x (magnitudeText true x))

end FapLang.Number
