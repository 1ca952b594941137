import FapLang.Run.Shape
import FapLang.Text.Case

/-!
Tokens and the simplest expressions: literals, names, members of objects, operators.
-/

namespace FapLang.Run

/-- The text between the quotes. -/
def visitQuoted (n : Node) : Interp Value := do
  noteStep "visit_STRING"
  let s ← textOf n
  return .text (String.ofList (s.toList.drop 1).dropLast)

def numberOf (s : String) : Except Fault Value :=
  if s.toList.contains '.' then
    match Number.readFloat s with
    | some x => .ok (.float x)
    | none => .error (.floatText s)
  else Value.toInt (.text s)

def visitNumber (n : Node) : Interp Value := do
  noteStep "visit_NUMBER"
  let s ← textOf n
  Interp.ofExcept (numberOf s)

/-- Whether reading a name deserves a warning: it was declared and never given a value. -/
def Session.isUnassigned (s : Session) (name : String) : Bool :=
  s.defined.contains name && !s.assigned.contains name

def warnUnassigned (name : String) (v : Value) : Interp Unit := do
  let s ← get
  if s.isUnassigned name then
    if !(← isConstant name) && !s.warned.contains name && !s.faulty.contains name then
      let message ← format
        ["Variable '", name, "' used without assignment, using default value: ", v]
      if s.modes.any then note ["[WARN] ", message]
      else writeLine .err (colour "93" ("[WARN] " ++ message))
      markWarned name
    else pure ()
  else pure ()

def visitIdent (n : Node) : Interp Value := do
  noteStep "visit_IDENT"
  let name ← textOf n
  markUsed name
  note ["[RUNTIME] Variable access: ", name]
  if ← isDefined name then
    let v ← valueOf name
    warnUnassigned name v
    return v
  else
    report ("Variable '" ++ name ++ "' not defined")
    if ← isFaulty name then pure () else blame name
    return .none

/-- Operators and the like stand for their text. -/
def visitText (step : String) (n : Node) : Interp Value := do
  noteStep step
  return .text (← textOf n)

/-- The object and the member that an access names, if both exist. -/
def accessed (n : Node) : Interp (String × String × Option Value) := do
  let cs ← childrenOf n
  let object ← child cs 0
  let member ← child cs 1
  let object ← textOf object
  let member ← textOf member
  if ← isDefined object then
    let v ← valueOf object
    if ← Interp.ofExcept (v.holds (← get).cells member) then return (object, member, some v)
    else
      report ("Object '" ++ object ++ "' has no member '" ++ member ++ "'")
      return (object, member, none)
  else
    report ("Object '" ++ object ++ "' is not defined")
    return (object, member, none)

/-- The full name of a member, empty if there is no such member. -/
def visitMemberAccess (n : Node) : Interp Value := do
  noteStep "visit_member_access"
  match ← accessed n with
  | (object, member, some _) => return .text (object ++ "." ++ member)
  | (_, _, none) => return .text ""

/-- The value of a member; `now.repeat` is the variable `repeat`. -/
def visitMemberExpr (n : Node) : Interp Value := do
  noteStep "visit_member_access_expr"
  match ← accessed n with
  | (object, member, some v) =>
    if object = "now" && member = "repeat" then
      if ← isDefined "repeat" then valueOf "repeat"
      else
        report ("'now.repeat' can only be used inside an Again loop that provides " ++
          "a repeat parameter")
        return .none
    else Interp.ofExcept (v.member member)
  | (_, _, none) => return .none

def visitTypeName (n : Node) : Interp Value := do
  noteStep "visit_type_name"
  return .text (match n.rule? with
    | some "type_float" => "float"
    | some "type_str" => "str"
    | _ => "int")

def firstToken? : List Node → Option String
  | [] => none
  | .token _ text :: _ => some text
  | _ :: rest => firstToken? rest

def visitListMethod (n : Node) : Interp Value := do
  noteStep "visit_list_method"
  return .text (((firstToken? (← childrenOf n)).map Text.lower).getD "")

/-- Rules that may come up without a step of their own. -/
def silentRules : List String :=
  ["start", "condition", "type_name", "math_func", "conditions", "list_method", "func_params",
    "func_args"]

/-- What a node is called in a message: a tree by its rule, any other node by its class. -/
def kindText (n : Node) : String :=
  match n with
  | .tree rule _ => rule
  | .token _ _ => "<class 'lark.lexer.Token'>"
  | n => "<class '" ++ n.typeName ++ "'>"

def visitUnknown (n : Node) : Interp Value := do
  noteStep "visit_unknown"
  if silentRules.contains (kindText n) then pure ()
  else report ("Unknown statement type: " ++ kindText n)
  return .none

end FapLang.Run
