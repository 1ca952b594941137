import FapLang.Number.Shortest

/-!
Complex numbers in rectangular form. A power goes through the polar form of its base.
-/

namespace FapLang.Number

structure Complex where
  re : Float
  im : Float

namespace Complex

def add (a b : Complex) : Complex :=
  ⟨a.re + b.re, a.im + b.im⟩

def sub (a b : Complex) : Complex :=
  ⟨a.re - b.re, a.im - b.im⟩

def mul (a b : Complex) : Complex :=
  ⟨a.re * b.re - a.im * b.im, a.re * b.im + a.im * b.re⟩

/-- Divides both sides by the larger part of the divisor first. The divisor is not zero. -/
def div (a b : Complex) : Complex :=
  if b.re.abs ≥ b.im.abs then
    let ratio := b.im / b.re
    let den := b.re + b.im * ratio
    ⟨(a.re + a.im * ratio) / den, (a.im - a.re * ratio) / den⟩
  else if b.im.abs ≥ b.re.abs then
    let ratio := b.re / b.im
    let den := b.re * ratio + b.im
    ⟨(a.re * ratio + a.im) / den, (a.im * ratio - a.re) / den⟩
  else ⟨notANumber, notANumber⟩

/-- The length of `a`, rounded once from the exact sum of squares. -/
def length (a : Complex) : Float :=
  if isInfinite a.re || isInfinite a.im then infinity
  else if isNaN a.re || isNaN a.im then notANumber
  else if a.im == 0 then a.re.abs
  else if a.re == 0 then a.im.abs
  else
    let (p, q) := toRatio a.re
    let (r, s) := toRatio a.im
    let den := q * s
    let across := p.natAbs * s
    let upward := r.natAbs * q
    let square := across * across + upward * upward
    ofRatio false (Nat.sqrt (square * Nat.pow 4 120)) (den * Nat.pow 2 120)

/-- A real power; `none` if the result is out of range. -/
def pow (a : Complex) (exponent : Float) : Option Complex :=
  if exponent == 0 then some ⟨1, 0⟩
  else if a.re == 0 && a.im == 0 then some ⟨0, 0⟩
  else
    let size := a.length.pow exponent
    let angle := Float.atan2 a.im a.re * exponent
    let z : Complex := ⟨size * angle.cos, size * angle.sin⟩
    if isInfinite z.re || isInfinite z.im then none else some z

/-- A real part of plus zero is left out; otherwise the two parts stand in parentheses. -/
def text (a : Complex) : String :=
  let part := fun x => signed x (magnitudeText false x)
  if a.re == 0 && !isNegative a.re then String.ofList (part a.im ++ ['j'])
  else
    let im := part a.im
    let im := if isNegative a.im && !isNaN a.im then im else '+' :: im
    String.ofList ('(' :: part a.re ++ im ++ ['j', ')'])

end Complex

end FapLang.Number
