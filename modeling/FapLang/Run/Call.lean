import FapLang.Run.Arithmetic

/-!
Functions: definition, call and return. A call runs the body in a new scope inside the scope of the
definition, and gives back the scope, the result and the return flag of its caller whatever happens.
-/

namespace FapLang.Run

def paramType (n : Node) : String :=
  match n.rule? with
  | some "type_float" => "float"
  | some "type_str" => "str"
  | _ => "int"

def paramRecord (name type : String) : Value :=
  .record [("name", .text name), ("type", .text type)]

/-- A well-formed parameter: a type and a name. -/
def param? : Node → Option Value
  | .tree "param" (type :: .token _ name :: _) => some (paramRecord name (paramType type))
  | _ => none

def declaredParams : Node → List Value
  | .tree "params" cs => cs.filterMap param?
  | _ => []

def visitFuncDef (visit : Visit) (n : Node) : Interp Value := do
  noteStep "visit_func_def"
  match ← childrenOf n with
  | target :: params :: body :: _ => do
    let name ← nameOf visit target
    if ← isFaulty name then return .none
    else if ← isDefined name then
      report ("Function '" ++ name ++ "' is already defined")
      blame name
      return .none
    else
      let cell := (← get).cells.size
      let list ← newList (declaredParams params).toArray
      let current := (← get).current
      defineFunc current name { params := cell, body := body, scope := current }
      markDefined name
      note ["[RUNTIME] Defined function ", name, " with typed params ", list]
      return .none
  | _ => do
    report "Invalid function definition"
    return .none

/-- Parameters written as pairs of tokens. -/
def tokenParams : List Node → Interp (List Value)
  | [] => return []
  | n :: rest =>
    match n with
    | .tree "type_and_name" cs => do
      let type ← child cs 0
      let name ← child cs 1
      let others ← tokenParams rest
      match type, name with
      | .token _ type, .token _ name => return paramRecord name type :: others
      | _, _ => return others
    | _ => tokenParams rest

def visitFuncParams (n : Node) : Interp Value := do
  noteStep "visit_func_params"
  let params ← tokenParams (← childrenOf n)
  newList params.toArray

def visitFuncArgs (visit : Visit) (n : Node) : Interp Value := do
  noteStep "visit_func_args"
  newList (← visitAll visit (← childrenOf n)).toArray

/-- The argument nodes of a call: those of its argument list, or all nodes after the name. -/
def callArgs : List Node → List Node
  | _ :: .tree "func_args" args :: _ => args
  | _ :: args => args
  | [] => []

/-- The names and types of the parameters; of two parameters of one name the later type counts. -/
def signature (params : List Value) : Except Fault (List (Value × Value)) := do
  let names ← params.mapM (·.member "name")
  let types ← params.mapM (·.member "type")
  return names.zip types

def lastType (cells : Cells) (name : Value) : List (Value × Value) → Value
  | [] => .none
  | (other, type) :: rest =>
    if rest.any fun pair => pair.1.equal cells name then lastType cells name rest
    else if other.equal cells name then type else lastType cells name rest

/-- Casts arguments to the types of their parameters, from position `i` on. -/
def castArgs (function : String) (sig : List (Value × Value)) :
    Nat → List (Value × Value) → Interp (Option (List (String × Value)))
  | _, [] => return some []
  | i, (param, arg) :: rest => do
    let type ← strOf (lastType (← get).cells param sig)
    let v ← cast arg type (function ++ " argument " ++ toString i)
    if v.isNone then
      report ("Argument " ++ toString i ++ " of function '" ++ function ++
        "' cannot be cast to type '" ++ type ++ "'")
      return none
    else
      let name ← nameOfValue param
      match ← castArgs function sig (i + 1) rest with
      | none => return none
      | some others => return some ((name, v) :: others)

def bindAll (scope : Nat) : List (String × Value) → Interp Unit
  | [] => pure ()
  | (name, v) :: rest => do
    defineVar scope name v
    bindAll scope rest

/-- Puts back what a call has set aside. -/
def restore (scope : Nat) (result : Value) (returning : Bool) : Interp Unit :=
  modify fun s => { s with current := scope, result := result, returning := returning }

/-- Runs a body in a scope of its own and gives its result. -/
def runBody (visit : Visit) (body : Node) (scope : Nat) : Interp Value := do
  let caller ← get
  restore scope .none false
  Interp.recover (do let _ ← visit body) fun f => do
    restore caller.current caller.result caller.returning
    Interp.fail f
  let result := (← get).result
  restore caller.current caller.result caller.returning
  return result

/-- Runs the body of a function in a new scope that holds the arguments. -/
def runCall (visit : Visit) (f : Function) (bound : List (String × Value)) : Interp Value := do
  let scope ← newScope f.scope
  bindAll scope bound
  runBody visit f.body scope

def enter (visit : Visit) (name : String) (f : Function) (bound : List (String × Value)) :
    Interp Value := do
  note ["[RUNTIME] Calling function ", name, " with args ", .all (bound.map (·.2))]
  let result ← runCall visit f bound
  note ["[RUNTIME] Function ", name, " returned: ", result]
  return result

def callFunction (visit : Visit) (name : String) (f : Function) (cs : List Node) :
    Interp Value := do
  let args ← visitAll visit (callArgs cs)
  let sig ← Interp.ofExcept (signature (← itemsOf f.params).toList)
  if args.length ≠ sig.length then
    report ("Function '" ++ name ++ "' expects " ++ toString sig.length ++ " arguments but got " ++
      toString args.length)
    return .none
  else
    match ← castArgs name sig 1 ((sig.map (·.1)).zip args) with
    | none => return .none
    | some bound => enter visit name f bound

def visitFuncCall (visit : Visit) (n : Node) : Interp Value := do
  noteStep "visit_func_call"
  let cs ← childrenOf n
  let name ← nameOf visit (← child cs 0)
  markUsed name
  if ← isFaulty name then return .none
  else if ← isFunction name then
    match ← function? name with
    | some f => callFunction visit name f cs
    | none => do
      report ("Function '" ++ name ++ "' not found")
      return .none
  else
    report ("Function '" ++ name ++ "' is not defined")
    blame name
    return .none

def visitFuncCallStmt (visit : Visit) (n : Node) : Interp Value := do
  noteStep "visit_func_call_stmt"
  let _ ← visitFuncCall visit n
  return .none

/-- Calls of built-in functions, and of others with arguments. -/
def visitMathCall (visit : Visit) (n : Node) : Interp Value := do
  noteStep "visit_math_func_call"
  let cs ← childrenOf n
  note ["[RUNTIME] Math function call node has ", toString cs.length, " children"]
  match cs with
  | [] => zeroWith "Math function call missing function name"
  | .token _ name :: _ => do
    note ["[RUNTIME] Function name: ", name]
    markUsed name
    match name with
    | "squFor" => visitPower visit n
    | "rootFor" => visitRoot visit n
    | "d.root" => visitSquareRoot visit n
    | "t.root" => visitCubeRoot visit n
    | _ => visitFuncCall visit n
  | _ => zeroWith "Invalid math function call syntax"

/-- Sets the result of the call and asks its body to end. -/
def visitBack (visit : Visit) (n : Node) : Interp Value := do
  noteStep "visit_back_stmt"
  match ← childrenOf n with
  | value :: _ => do
    let v ← visit value
    modify fun s => { s with result := v }
  | [] => modify fun s => { s with result := .none }
  modify fun s => { s with returning := true }
  note ["[RUNTIME] Return statement with value: ", (← get).result]
  return .none

end FapLang.Run
