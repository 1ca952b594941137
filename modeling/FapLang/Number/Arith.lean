import FapLang.Fault
import FapLang.Number.Complex

/-!
Arithmetic on integers, floating-point and complex numbers. Two integers stay exact except under
division and negative powers; otherwise both sides move to the wider of the two kinds first.
-/

namespace FapLang

open Number

/-- A number of one of the three kinds. -/
inductive Numeric
  | int (n : Int)
  | float (x : Float)
  | complex (z : Number.Complex)

namespace Numeric

def intToFloat (n : Int) : Except Fault Float :=
  if leastInfinite ≤ n.natAbs then .error .intTooLarge else .ok (ofInt n)

def toComplex : Numeric → Except Fault Number.Complex
  | int n => return ⟨← intToFloat n, 0⟩
  | float x => return ⟨x, 0⟩
  | complex z => return z

def isZero : Numeric → Bool
  | int n => n == 0
  | float x => x == 0
  | complex z => z.re == 0 && z.im == 0

/-- A number below zero, but not infinitely so. -/
def isFiniteNegative : Numeric → Bool
  | int n => n < 0
  | float x => x < 0 && !isInfinite x
  | complex _ => false

/-- Applies the operation of the wider kind of the two operands. -/
def lift (onInt : Int → Int → Int) (onFloat : Float → Float → Float)
    (onComplex : Number.Complex → Number.Complex → Number.Complex) :
    Numeric → Numeric → Except Fault Numeric
  | int a, int b => return int (onInt a b)
  | int a, float y => return float (onFloat (← intToFloat a) y)
  | float x, int b => return float (onFloat x (← intToFloat b))
  | float x, float y => return float (onFloat x y)
  | a, b => return complex (onComplex (← a.toComplex) (← b.toComplex))

def add : Numeric → Numeric → Except Fault Numeric :=
  lift (· + ·) (· + ·) Number.Complex.add

def sub : Numeric → Numeric → Except Fault Numeric :=
  lift (· - ·) (· - ·) Number.Complex.sub

def mul : Numeric → Numeric → Except Fault Numeric :=
  lift (· * ·) (· * ·) Number.Complex.mul

/-- The quotient of two integers, rounded once. -/
def divInt (a b : Int) : Except Fault Float :=
  let x := ofRatio ((a < 0) != (b < 0)) a.natAbs b.natAbs
  if b = 0 then .error (.zeroDivisor .int)
  else if isInfinite x then .error .quotientTooLarge else .ok x

def divFloat (x y : Float) : Except Fault Float :=
  if y == 0 then .error (.zeroDivisor .float) else .ok (x / y)

/-- Division in the arithmetic of the wider kind. -/
def div : Numeric → Numeric → Except Fault Numeric
  | int a, int b => return float (← divInt a b)
  | int a, float y => do return float (← divFloat (← intToFloat a) y)
  | float x, int b =>
    if b = 0 then .error (.zeroDivisor .float) else return float (x / (← intToFloat b))
  | float x, float y => return float (← divFloat x y)
  | a, b => do
    let z ← a.toComplex
    if b.isZero then .error (.zeroDivisor .complex) else return complex (z.div (← b.toComplex))

def isOddWhole (x : Float) : Bool :=
  isWhole x && truncate x % 2 != 0

/-- Powers of finite nonzero numbers by finite nonzero exponents. -/
def powFinite (x y : Float) : Except Fault Numeric :=
  if x < 0 && !isWhole y then
    match Number.Complex.pow ⟨x, 0⟩ y with
    | some z => .ok (complex z)
    | none => .error .complexPower
  else
    let flip := x < 0 && isOddWhole y
    let size := x.abs.pow y
    if x.abs == 1 then .ok (float (if flip then -1 else 1))
    else if isInfinite size then .error .powerOutOfRange
    else .ok (float (if flip then -size else size))

/-- Anything to the power zero, and one to any power, is one. -/
def powFloat (x y : Float) : Except Fault Numeric :=
  if y == 0 then .ok (float 1)
  else if isNaN x then .ok (float x)
  else if isNaN y then .ok (float (if x == 1 then 1 else y))
  else if isInfinite y then
    .ok (float (if x.abs == 1 then 1
      else if (0 < y) == (1 < x.abs) then infinity else 0))
  else if isInfinite x then
    let odd := isOddWhole y
    .ok (float (if 0 < y then (if odd then x else infinity)
      else if odd && x < 0 then -0.0 else 0))
  else if x == 0 then .ok (float (if isOddWhole y then x else 0))
  else powFinite x y

/-- Zero has no negative powers, but for the infinite one. -/
def powReal (a b : Numeric) : Except Fault Numeric := do
  let x := (← a.toComplex).re
  let y := (← b.toComplex).re
  if a.isZero && b.isFiniteNegative then .error .zeroToNegativePower else powFloat x y

/-- Powers of real numbers; a negative number to a broken power is complex. -/
def pow : Numeric → Numeric → Except Fault Numeric
  | int a, int b =>
    if b < 0 then powReal (int a) (int b) else return int (Int.pow a b.toNat)
  | complex z, b => do
    let exponent ← b.toComplex
    match Number.Complex.pow z exponent.re with
    | some w => .ok (complex w)
    | none => .error .complexPower
  | a, complex w => do
    let base ← a.toComplex
    match Number.Complex.pow base w.re with
    | some z => .ok (complex z)
    | none => .error .complexPower
  | a, b => powReal a b

/-- Exact order; `none` if either side is not a number, or one is complex. -/
def compare? : Numeric → Numeric → Option Ordering
  | int a, int b => some (compare a b)
  | int a, float y => compareInt a y
  | float x, int b => (compareInt b x).map Ordering.swap
  | float x, float y => compareFloat x y
  | _, _ => none

/-- Exact equality across the kinds. -/
def equal : Numeric → Numeric → Bool
  | complex z, complex w => z.re == w.re && z.im == w.im
  | complex z, b => z.im == 0 && compare? (float z.re) b == some .eq
  | a, complex w => w.im == 0 && compare? a (float w.re) == some .eq
  | a, b => compare? a b == some .eq

/-- The square root of a real number that is not negative. -/
def sqrt : Numeric → Except Fault Float
  | int n => return (← intToFloat n).sqrt
  | float x => return x.sqrt
  | complex z => return z.length.sqrt

end Numeric

end FapLang
