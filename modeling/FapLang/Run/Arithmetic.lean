import FapLang.Run.Atom

/-!
Sums, products and the built-in functions. A division by zero gives zero and is recorded.
-/

namespace FapLang.Run

def compute (op : Cells → Except Fault Computed) : Interp Value := do
  commit (← Interp.ofExcept (op (← get).cells))

/-- A text on either side makes a sum of texts. -/
def addValues (left right : Value) : Interp Value := do
  if left.isText || right.isText then
    let l ← strOf left
    let r ← strOf right
    return .text (l ++ r)
  else compute fun cells => left.add cells right

/-- What an operator did: a value to go on with, or the end of the whole expression. -/
inductive Progress
  | more (v : Value)
  | done (v : Value)

def divideValues (left right : Value) : Interp Progress := do
  if right.isZero then
    report "Division by zero"
    return .done (.int 0)
  else return .more (← compute fun _ => left.div right)

/-- Operators between terms; an unknown operator changes nothing. -/
def applyInSum (op left right : Value) : Interp Progress :=
  match op with
  | .text "+" => do return .more (← addValues left right)
  | .text "-" => do return .more (← compute fun _ => left.sub right)
  | .text "*" => do return .more (← compute fun cells => left.mul cells right)
  | .text "/" => divideValues left right
  | _ => return .more left

/-- Operators between factors. -/
def applyInProduct (op left right : Value) : Interp Progress :=
  match op with
  | .text "*" => do return .more (← compute fun cells => left.mul cells right)
  | .text "/" => divideValues left right
  | _ => return .more left

/-- Runs through operators and operands from the left. -/
def foldOperators (visit : Visit) (apply : Value → Value → Value → Interp Progress) :
    Value → List Node → Interp Value
  | left, [] => return left
  | _, [op] => do
    let _ ← visit op
    Interp.fail .childMissing
  | left, op :: operand :: rest => do
    let op ← visit op
    let right ← visit operand
    match ← apply op left right with
    | .more v => foldOperators visit apply v rest
    | .done v => return v

def visitChain (step : String) (apply : Value → Value → Value → Interp Progress) (visit : Visit)
    (n : Node) : Interp Value := do
  noteStep step
  match ← childrenOf n with
  | [] => Interp.fail .childMissing
  | [only] => visit only
  | first :: rest => do
    let left ← visit first
    foldOperators visit apply left rest

def visitExpr : Visit → Node → Interp Value :=
  visitChain "visit_expr" applyInSum

def visitTerm : Visit → Node → Interp Value :=
  visitChain "visit_term" applyInProduct

/-- A failed computation gives zero and is recorded. -/
def zeroWith (message : String) : Interp Value := do
  report message
  return .int 0

/-- Whole results are integers. -/
def wholeOrSelf (x : Float) : Value :=
  if Number.isWhole x then .int (Number.truncate x) else .float x

def wholeResult (v : Value) : Value :=
  match v with
  | .float x => wholeOrSelf x
  | v => v

def powerOf (base exponent : Value) : Interp Value := do
  let result ← Interp.ofExcept (base.pow exponent)
  note ["[RUNTIME] squFor result: ", base, "^", exponent, " = ", result]
  return wholeResult result

def visitPower (visit : Visit) (n : Node) : Interp Value := do
  note ["[RUNTIME] Handling squFor function"]
  match ← childrenOf n with
  | _ :: base :: exponent :: _ => do
    let base ← visit base
    let exponent ← visit exponent
    note ["[RUNTIME] squFor arguments: base=", base, ", exponent=", exponent]
    if base.isNone || exponent.isNone then zeroWith "squFor function arguments cannot be None"
    else if !base.isReal || !exponent.isReal then
      zeroWith "squFor function requires numeric arguments"
    else
      Interp.recover (powerOf base exponent) fun f =>
        zeroWith ("Power calculation error: " ++ f.message)
  | _ => zeroWith "squFor function requires two arguments: base and exponent"

def squareRoot (v : Value) : Interp Value := do
  let negative ← Interp.ofExcept (v.order (← get).cells .less (.int 0))
  if negative then zeroWith "Cannot calculate square root of negative number"
  else
    match v.numeric? with
    | none => Interp.fail (.notReal v.typeName)
    | some m => do
      let root ← Interp.ofExcept m.sqrt
      note ["[RUNTIME] Square root of ", v, " = ", Value.float root]
      return wholeOrSelf root

/-- The exponent that takes cube roots, as near as a number comes to a third. -/
def oneThird : Float := 1 / 3

def cubeRoot (v : Value) : Interp Value := do
  let root ← Interp.ofExcept (v.pow (.float oneThird))
  note ["[RUNTIME] Cube root of ", v, " = ", root]
  match root with
  | .float x => return wholeOrSelf x
  | root => Interp.fail (.noMember root.typeName "is_integer")

/-- The degree of a root as a number, if it is or spells one. -/
def rootDegree (degree : Value) : Except Fault Value :=
  if degree.isReal then .ok degree else degree.toInt

def visitRoot (visit : Visit) (n : Node) : Interp Value := do
  note ["[RUNTIME] Handling rootFor function"]
  match ← childrenOf n with
  | _ :: v :: degree :: _ => do
    let v ← visit v
    let degree ← visit degree
    note ["[RUNTIME] rootFor arguments: value=", v, ", root_type=", degree]
    if v.isNone || degree.isNone then zeroWith "rootFor function arguments cannot be None"
    else
      match rootDegree degree with
      | .error _ => do zeroWith (← format ["Root type must be a number, got: ", degree])
      | .ok degree =>
        let cells := (← get).cells
        if degree.equal cells (.int 2) then squareRoot v
        else if degree.equal cells (.int 3) then cubeRoot v
        else do
          zeroWith (← format ["Unsupported root type: ", degree,
            ". Use 2 for square root or 3 for cube root."])
  | _ => zeroWith "rootFor function requires two arguments: value and root_type"

def visitSquareRoot (visit : Visit) (n : Node) : Interp Value := do
  note ["[RUNTIME] Handling d.root function"]
  match ← childrenOf n with
  | _ :: v :: _ => do
    let v ← visit v
    if v.isNone then zeroWith "d.root function argument cannot be None" else squareRoot v
  | _ => zeroWith "d.root function requires one argument"

def visitCubeRoot (visit : Visit) (n : Node) : Interp Value := do
  note ["[RUNTIME] Handling t.root function"]
  match ← childrenOf n with
  | _ :: v :: _ => do
    let v ← visit v
    if v.isNone then zeroWith "t.root function argument cannot be None" else cubeRoot v
  | _ => zeroWith "t.root function requires one argument"

def absolute (v : Value) : Value :=
  match v with
  | .bool b => .int (if b then 1 else 0)
  | .int n => .int n.natAbs
  | .float x => .float x.abs
  | v => v

def visitAbs (visit : Visit) (n : Node) : Interp Value := do
  noteStep "visit_abs_expr"
  match ← childrenOf n with
  | [] => zeroWith "Absolute value expression missing inner expression"
  | inner :: _ => do
    let v ← visit inner
    note ["[RUNTIME] Absolute value of ", v]
    if v.isNone then zeroWith "Absolute value expression cannot have None value"
    else if !v.isReal then
      zeroWith ("Absolute value requires numeric argument, got " ++ v.typeName)
    else
      let result := absolute v
      note ["[RUNTIME] Absolute value result: |", v, "| = ", result]
      return result

end FapLang.Run
