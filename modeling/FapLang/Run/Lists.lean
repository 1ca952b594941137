import FapLang.Run.Atom

/-!
Lists: literals, definitions, element access and the two methods. Which method a statement calls is read
off the current line of the source.
-/

namespace FapLang.Run

def visitListLiteral (visit : Visit) (n : Node) : Interp Value := do
  noteStep "visit_list_literal"
  newList (← visitAll visit (← childrenOf n)).toArray

def visitListDef (visit : Visit) (n : Node) : Interp Value := do
  noteStep "visit_list_def"
  let cs ← childrenOf n
  let target ← child cs 0
  let literal ← child cs 1
  let name ← nameOf visit target
  if ← isFaulty name then return .none
  else if ← isDefined name then
    report ("List '" ++ name ++ "' is already defined")
    blame name
    return .none
  else
    let v ← visit literal
    define name v
    markDefined name
    markAssigned name
    note ["[RUNTIME] Defined list ", name, " = ", v]
    return .none

/-- The list that a name is bound to, if there is one. -/
def namedList? (name : String) : Interp (Option Nat) := do
  if ← isDefined name then
    match ← valueOf name with
    | .list cell => return some cell
    | _ => do
      report ("'" ++ name ++ "' is not a list")
      return none
  else
    report ("List '" ++ name ++ "' is not defined")
    blame name
    return none

def elementAt (cell : Nat) (index : Value) : Interp Value := do
  let items ← itemsOf cell
  match index.isInt, index.numeric? with
  | true, some (.int i) =>
    if i < 0 || (items.size : Int) ≤ i then
      reportPieces ["List index ", index, " out of range for list of length ", toString items.size]
      return .none
    else return items.getD i.toNat .none
  | _, _ => do
    report ("List index must be an integer, got " ++ index.typeName)
    return .none

def visitListAccess (visit : Visit) (n : Node) : Interp Value := do
  noteStep "visit_list_access"
  let cs ← childrenOf n
  let target ← child cs 0
  let index ← child cs 1
  let name ← nameOf visit target
  let index ← visit index
  if ← isFaulty name then return .none
  else
    match ← namedList? name with
    | some cell => elementAt cell index
    | none => return .none

inductive ListMethod
  | add
  | clear

/-- The method that a line of the source calls. -/
def ListMethod.ofLine? (line : String) : Option ListMethod :=
  if Text.contains line ".add(" then some .add
  else if Text.contains line ".clear(" then some .clear
  else none

def currentMethod? : Interp (Option ListMethod) := do
  let s ← get
  return (s.sourceLine? s.line).bind ListMethod.ofLine?

def addElement (visit : Visit) (name : String) (cell : Nat) (cs : List Node) : Interp Unit :=
  match cs with
  | _ :: _ :: element :: _ => do
    let v ← visit element
    setItems cell (·.push v)
    setValue name (.list cell)
    markAssigned name
    note ["[RUNTIME] Added element ", v, " to list ", name]
  | _ => report "List.add method requires an element to add"

def clearElements (name : String) (cell : Nat) (cs : List Node) : Interp Unit :=
  match cs with
  | _ :: _ :: _ :: _ => report "List.clear method should not have arguments"
  | _ => do
    setItems cell fun _ => #[]
    setValue name (.list cell)
    markAssigned name
    note ["[RUNTIME] Cleared list ", name]

def visitListMethodCall (visit : Visit) (n : Node) : Interp Value := do
  noteStep "visit_list_method_call"
  match ← currentMethod? with
  | none => do
    report "Invalid list method call: could not extract method name"
    return .none
  | some method => do
    let cs ← childrenOf n
    let name ← nameOf visit (← child cs 0)
    if ← isFaulty name then return .none
    else
      match ← namedList? name with
      | none => return .none
      | some cell => do
        match method with
        | .add => addElement visit name cell cs
        | .clear => clearElements name cell cs
        return .none

end FapLang.Run
