import FapLang.Run.Call
import FapLang.Run.Channels
import FapLang.Run.Condition
import FapLang.Run.Lists

/-!
Statements: definitions, assignments, branches, loops and blocks. A block stops at a statement once the
loop around it is to be left or the call is to return.
-/

namespace FapLang.Run

def visitAll_ (visit : Visit) : List Node → Interp Unit
  | [] => pure ()
  | n :: rest => do
    let _ ← visit n
    visitAll_ visit rest

def visitStart (visit : Visit) (n : Node) : Interp Value := do
  noteStep "visit_start"
  visitAll_ visit (← childrenOf n)
  return .none

def visitStatement (visit : Visit) (n : Node) : Interp Value := do
  noteStep "visit_statement"
  match ← childrenOf n with
  | [] => return .none
  | first :: _ => do
    let _ ← visit first
    return .none

/-- Runs the statements among the nodes until one asks to leave. -/
def runStatements (visit : Visit) : List Node → Interp Unit
  | [] => pure ()
  | n :: rest =>
    if n.hasRule "statement" then do
      let s ← get
      if s.returning || s.breaking then pure ()
      else
        let _ ← visit n
        runStatements visit rest
    else runStatements visit rest

def visitBlock (visit : Visit) (n : Node) : Interp Value := do
  noteStep "visit_block"
  match n with
  | .tree "block" cs => do
    runStatements visit cs
    return .none
  | _ => return .none

/-- The type that a definition names. -/
def declaredType (n : Node) : Interp String :=
  match n with
  | .token _ text => pure text
  | n => do
    match ← childrenOf n with
    | [] => return "int"
    | first :: _ => textOf first

def isTypeName (type : String) : Bool :=
  type = "int" || type = "float" || type = "str"

def defaultOf (type : String) : Value :=
  match type with
  | "int" => .int 0
  | "float" => .float 0
  | "str" => .text ""
  | _ => .none

/-- A number keeps its own type, other values take the declared one. -/
def castInitial (v : Value) (type name : String) : Interp Value :=
  if v.isInt then cast v "int" name
  else if v.isFloat then cast v "float" name
  else cast v type name

def initVar (visit : Visit) (type name : String) (value : Node) : Interp Unit := do
  let v ← visit value
  note ["[RUNTIME] Variable ", name, " assigned value: ", v]
  let w ← castInitial v type name
  if w.isNone then pure ()
  else
    define name w
    markAssigned name
    markDefined name
    note ["[RUNTIME] Successfully defined variable ", name, " = ", w]

def declareVar (type name : String) : Interp Unit := do
  let v := defaultOf type
  define name v
  markDefined name
  note ["[RUNTIME] Defined variable ", name, " with default value: ", v]

def visitVarDef (visit : Visit) (n : Node) : Interp Value := do
  noteStep "visit_var_def"
  let cs ← childrenOf n
  let type ← declaredType (← child cs 0)
  note ["[RUNTIME] Variable definition: type=", type]
  if !isTypeName type then
    report ("Invalid type name: '" ++ type ++ "'")
    return .none
  else
    let name ← nameOf visit (← child cs 1)
    if ← isFaulty name then return .none
    else if ← isDefined name then
      report ("Variable '" ++ name ++ "' is already defined")
      blame name
      return .none
    else
      match cs with
      | _ :: _ :: value :: _ => initVar visit type name value
      | _ => declareVar type name
      return .none

def initConst (visit : Visit) (type name : String) (value : Node) : Interp Unit := do
  let v ← visit value
  note ["[RUNTIME] Constant ", name, " assigned value: ", v]
  let w ← castInitial v type name
  if w.isNone then pure ()
  else
    defineConst (← get).current name w
    markAssigned name
    markDefined name
    note ["[RUNTIME] Successfully defined constant ", name, " = ", w]

def visitConstDef (visit : Visit) (n : Node) : Interp Value := do
  noteStep "visit_const_def"
  match ← childrenOf n with
  | typeNode :: target :: value :: _ => do
    let type ← declaredType typeNode
    note ["[RUNTIME] Constant definition: type=", type]
    if !isTypeName type then
      report ("Invalid type name: '" ++ type ++ "'")
      return .none
    else
      let name ← nameOf visit target
      if ← isFaulty name then return .none
      else if ← isDefined name then
        report ("Constant '" ++ name ++ "' is already defined")
        blame name
        return .none
      else
        initConst visit type name value
        return .none
  | _ => do
    report "Constant definition must include an initial value"
    return .none

/-- The type that a variable keeps over assignments. -/
def keptType (v : Value) : String :=
  if v.isInt then "int" else v.typeName

def reassign (name : String) (v : Value) : Interp Unit := do
  if ← isConstant name then
    report ("Cannot assign values to constants afterward: '" ++ name ++ "'")
  else
    let old ← valueOf name
    if old.isNone then report ("Variable '" ++ name ++ "' has no value")
    else
      let w ← cast v (keptType old) name
      if w.isNone then pure ()
      else
        setValue name w
        markAssigned name
        note ["[RUNTIME] Successfully assigned ", name, " = ", w]

def visitAssignment (visit : Visit) (n : Node) : Interp Value := do
  noteStep "visit_assignment"
  let cs ← childrenOf n
  let target ← child cs 0
  let value ← child cs 1
  let name ← nameOf visit target
  let v ← visit value
  note ["[RUNTIME] Assignment: ", name, " = ", v]
  if ← isFaulty name then return .none
  else if ← isDefined name then
    reassign name v
    return .none
  else
    define name v
    markDefined name
    markAssigned name
    note ["[RUNTIME] Auto-defined variable ", name, " = ", v]
    return .none

def visitCause (visit : Visit) (n : Node) : Interp Value := do
  noteStep "visit_cause_stmt"
  let cs ← childrenOf n
  let conditions ← child cs 0
  let block ← child cs 1
  let other := cs[2]?
  if conditions.hasRule "conditions" then
    let v ← visit conditions
    note ["[RUNTIME] Conditions result: ", v]
    if ← truth v then
      note ["[RUNTIME] Executing if block"]
      let _ ← visitBlock visit block
      return .none
    else
      match other with
      | some other =>
        if other.isTruthy then
          note ["[RUNTIME] Executing else block"]
          let _ ← visitBlock visit other
          return .none
        else return .none
      | none => return .none
  else
    report "Invalid conditions structure"
    return .none

def setBreaking (b : Bool) : Interp Unit :=
  modify fun s => { s with breaking := b }

/-- The parts of a loop: its count, its repeat variable, its block. -/
structure LoopParts where
  times : Node
  var : String
  block : Node

/-- The parts that the children of a loop give, or what is wrong with them. -/
def LoopParts.of : List Node → Except String LoopParts
  | [] | [_] => .error "Invalid Again statement: missing required parts"
  | [times, block] => checked times "" block
  | [times, .token "IDENT" var, block] => checked times var block
  | [times, _, block] => checked times "" block
  | _ => .error "Invalid Again statement structure"
where
  checked (times : Node) (var : String) (block : Node) : Except String LoopParts :=
    if block.hasRule "block" then .ok ⟨times, var, block⟩
    else .error "Invalid Again statement: missing or invalid block"

/-- Runs the block once; gives whether the loop goes on. -/
def runIteration (visit : Visit) (parts : LoopParts) (i : Nat) : Interp Bool := do
  note ["[RUNTIME] Loop iteration: ", toString i]
  if parts.var.isEmpty then pure ()
  else
    define parts.var (.int i)
    note ["[RUNTIME] Set repeat variable '", parts.var, "' = ", toString i]
  let _ ← visitBlock visit parts.block
  if (← get).breaking then
    note ["[RUNTIME] Loop break at iteration ", toString i]
    return false
  else return true

/-- Runs the iterations from number `i` on; the first argument counts those left. -/
def runIterations (visit : Visit) (parts : LoopParts) : Nat → Nat → Interp Unit
  | 0, _ => pure ()
  | left + 1, i => do
    if ← runIteration visit parts i then runIterations visit parts left (i + 1) else pure ()

/-- The repeat variable goes away with its loop. -/
def dropRepeatVar (name : String) : Interp Unit := do
  if name.isEmpty then pure ()
  else if ← isDefined name then
    let s ← get
    setScope s.current fun scope => { scope with vars := scope.vars.erase name }
  else pure ()

def isLoopCount (v : Value) : Interp Bool := do
  if v.isReal then
    return !(← Interp.ofExcept (v.order (← get).cells .less (.int 0)))
  else return false

def runLoop (visit : Visit) (parts : LoopParts) : Interp Unit := do
  let times ← visit parts.times
  if ← isLoopCount times then
    note ["[RUNTIME] Starting loop: ", times, " iterations"]
    setBreaking false
    match ← Interp.ofExcept times.toInt with
    | .int count => runIterations visit parts count.toNat 1
    | _ => pure ()
    dropRepeatVar parts.var
    setBreaking false
  else report "Loop times must be a non-negative number"

def visitAgain (visit : Visit) (n : Node) : Interp Value := do
  noteStep "visit_again_stmt"
  match LoopParts.of (← childrenOf n) with
  | .error message => do
    report message
    return .none
  | .ok parts => do
    runLoop visit parts
    return .none

def visitStop : Interp Value := do
  noteStep "visit_rep_stop"
  setBreaking true
  note ["[RUNTIME] Loop break requested via rep.stop"]
  return .none

/-- A factor runs some of its rules by their own step, without that of a visit. -/
def visitFactor (visit : Visit) (n : Node) : Interp Value := do
  noteStep "visit_factor"
  match ← childrenOf n with
  | [only] =>
    match only.rule? with
    | some "math_func_call" => visitMathCall visit only
    | some "input_call" => visitInputExpr visit only
    | some "member_access_expr" => visitMemberExpr only
    | some "list_literal" => visitListLiteral visit only
    | some "list_access" => visitListAccess visit only
    | some "abs_expr" => visitAbs visit only
    | some "func_call" => visitFuncCall visit only
    | _ => visit only
  | cs => do visit (← child cs 1)

end FapLang.Run
