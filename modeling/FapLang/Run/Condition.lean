import FapLang.Run.Atom

/-!
Conditions and chains of them. The operator of a chain is read off the current line of the source where
that names one. A chain stops early once an `and` is false or an `or` is true.
-/

namespace FapLang.Run

def compareValues (op left right : Value) : Interp Value := do
  let cells := (← get).cells
  let ordered := fun r => do return Value.bool (← Interp.ofExcept (left.order cells r right))
  match op with
  | .text "?" => return .bool (left.equal cells right)
  | .text "!" => return .bool (!left.equal cells right)
  | .text ">" => ordered .greater
  | .text "<" => ordered .less
  | .text ">=" => ordered .greaterEqual
  | .text "<=" => ordered .lessEqual
  | op => do
    reportPieces ["Unknown comparison operator: ", op]
    return .bool false

/-- Values that have no order compare as false, which is recorded. -/
def visitCondition (visit : Visit) (n : Node) : Interp Value := do
  noteStep "visit_condition"
  let cs ← childrenOf n
  let left ← visit (← child cs 0)
  let op ← visit (← child cs 1)
  let right ← visit (← child cs 2)
  note ["[RUNTIME] Condition: ", left, " ", op, " ", right]
  Interp.recover (compareValues op left right) fun f =>
    match f.kind with
    | .typing => do
      report ("Comparison failed between " ++ left.typeName ++ " and " ++ right.typeName ++ ": " ++
        f.message)
      return .bool false
    | _ => Interp.fail f

/-- The line of the source that is the current one, as it stands. -/
def Session.currentLine? (s : Session) : Option String :=
  if 0 < s.line then s.source[(s.line - 1).toNat]? else none

def noteContent : Option String → Interp Unit
  | some content => note ["[RUNTIME] Current line content: ", content]
  | none => pure ()

/-- The operator that a line names, or else the one that the node spells. -/
def logicWord (content : Option String) (n : Node) : Interp Value := do
  if content.any (Text.contains · " and ") then return .text "and"
  else if content.any (Text.contains · " or ") then return .text "or"
  else
    match ← childrenOf n with
    | .token _ text :: _ => do
      let word := Text.lower text
      note ["[RUNTIME] Logic op token value: ", word]
      return .text word
    | _ => return .text "and"

def visitLogicOp (n : Node) : Interp Value := do
  noteStep "visit_logic_op"
  let content := (← get).currentLine?
  noteContent content
  logicWord content n

def truth (v : Value) : Interp Bool := do
  return v.isTruthy (← get).cells

/-- The first false value, or the last one. -/
def conjunction : Value → List Value → Interp Value
  | v, [] => return v
  | v, next :: rest => do
    if ← truth v then
      if ← truth next then conjunction next rest else return next
    else return v

/-- Applies operators from the left until one settles the outcome of its own pair. -/
def chainOperators : Value → List (Value × Value) → Interp Value
  | v, [] => return v
  | v, (op, next) :: rest =>
    match op with
    | .text "and" => do
      let w := if ← truth v then next else v
      if ← truth w then chainOperators w rest else return w
    | .text "or" => do
      let w := if ← truth v then v else next
      if ← truth w then return w else chainOperators w rest
    | op => do
      reportPieces ["Unknown logical operator: '", op, "'"]
      return .bool false

/-- The values of the conditions and of the operators among the children. -/
def visitConditionParts (visit : Visit) : List Node → List Value → List Value →
    Interp (List Value × List Value)
  | [], results, ops => return (results, ops)
  | n :: rest, results, ops =>
    match n.rule? with
    | some "condition" => do
      let v ← visit n
      let results := results ++ [v]
      note ["[RUNTIME] Condition ", toString results.length, ": ", v]
      visitConditionParts visit rest results ops
    | some "logic_op" => do
      let v ← visit n
      let ops := ops ++ [v]
      note ["[RUNTIME] Logic op ", toString ops.length, ": ", v]
      visitConditionParts visit rest results ops
    | _ => visitConditionParts visit rest results ops

def combineConditions (results ops : List Value) : Interp Value :=
  match results, ops with
  | first :: second :: rest, [] => do
    note ["[RUNTIME] No logic ops found, defaulting to AND"]
    conjunction first (second :: rest)
  | first :: rest, ops =>
    if rest.length = ops.length then chainOperators first (ops.zip rest)
    else do
      report "Mismatch between conditions and logic operators"
      return .bool false
  | [], _ => do
    report "Mismatch between conditions and logic operators"
    return .bool false

def visitConditions (visit : Visit) (n : Node) : Interp Value := do
  noteStep "visit_conditions"
  let cs ← childrenOf n
  note ["[RUNTIME] Conditions node has ", toString cs.length, " children"]
  match cs with
  | [] => return .bool false
  | [only] => do
    let v ← visit only
    note ["[RUNTIME] Single condition result: ", v]
    return v
  | cs => do
    let (results, ops) ← visitConditionParts visit cs [] []
    combineConditions results ops

end FapLang.Run
