import FapLang.Run.Trace

/-!
Names in scopes. A name is looked up in a scope, then in the scopes around it. In a scope with a trace
mode on, every question and every change is announced.
-/

namespace FapLang.Run

def chainFrom (scopes : Array Scope) : Nat → Nat → List Nat
  | 0, _ => []
  | fuel + 1, id =>
    match scopes[id]? with
    | none => []
    | some scope =>
      match scope.parent with
      | some parent => id :: chainFrom scopes fuel parent
      | none => [id]

/-- A scope and the scopes around it, from the inside out. -/
def Session.chain (s : Session) (id : Nat) : List Nat :=
  chainFrom s.scopes s.scopes.size id

def scopeOf (id : Nat) : Interp Scope := do
  return (← get).scope id

def setScope (id : Nat) (f : Scope → Scope) : Interp Unit :=
  modify fun s => s.setScope id f

/-- Announces a question or change with its arguments. -/
def announce (id : Nat) (step : String) (args : List Piece) : Interp Unit := do
  if (← scopeOf id).modes.full then
    checkWritable args
    let s ← get
    writeLine .out (colour "38;2;255;165;0" ("[ENV] [METHOD CALL] Environment." ++ step ++ "(" ++
      String.intercalate ", " (args.map (·.shown s.cells)) ++ ")"))
  else pure ()

/-- Announces an outcome. -/
def announceOutcome (id : Nat) (message : List Piece) : Interp Unit := do
  if (← scopeOf id).modes.any then
    writeLine .out (colour "90" ("[ENV] " ++ (← format message)))
  else pure ()

def defineVar (id : Nat) (name : String) (v : Value) : Interp Unit := do
  announce id "define_var" [name, v]
  setScope id fun scope => { scope with vars := scope.vars.insert name v }
  announceOutcome id ["Defined variable: ", name, " = ", v]

def defineConst (id : Nat) (name : String) (v : Value) : Interp Unit := do
  announce id "define_const" [name, v]
  setScope id fun scope => { scope with constants := scope.constants.insert name v }
  announceOutcome id ["Defined constant: ", name, " = ", v]

/-- A parameter as its type and name. -/
def paramPieces (p : Value) : Except Fault (List Piece) :=
  return [.val (← p.member "type"), .lit " ", .val (← p.member "name")]

def separated (separator : Piece) : List (List Piece) → List Piece
  | [] => []
  | [piece] => piece
  | piece :: rest => piece ++ separator :: separated separator rest

/-- Announces the definition of a function with its parameters. -/
def announceFunc (id : Nat) (name : String) (f : Function) : Interp Unit := do
  if (← scopeOf id).modes.any then
    let params ← (← itemsOf f.params).toList.mapM fun p => Interp.ofExcept (paramPieces p)
    announceOutcome id
      (.lit "Defined function: " :: .lit name :: .lit "(" :: separated ", " params ++ [.lit ")"])
  else pure ()

def defineFunc (id : Nat) (name : String) (f : Function) : Interp Unit := do
  announce id "define_func" [name, Value.list f.params]
  setScope id fun scope => { scope with functions := scope.functions.insert name f }
  announceFunc id name f

def isDefinedIn (name : String) : List Nat → Interp Bool
  | [] => pure false
  | id :: outer => do
    announce id "is_defined" [name]
    if (← scopeOf id).binds name then pure true else isDefinedIn name outer

/-- Only the scope itself is asked. -/
def isConstantIn (id : Nat) (name : String) : Interp Bool := do
  announce id "is_constant" [name]
  return (← scopeOf id).constants.has name

def isFunctionIn (name : String) : List Nat → Interp Bool
  | [] => pure false
  | id :: outer => do
    announce id "is_function" [name]
    if (← scopeOf id).functions.has name then pure true else isFunctionIn name outer

def functionIn (name : String) : List Nat → Interp (Option Function)
  | [] => pure none
  | id :: outer => do
    announce id "get_func" [name]
    match (← scopeOf id).functions.get? name with
    | some f => pure (some f)
    | none => functionIn name outer

/-- Constants come before variables, variables before functions. -/
def valueIn (name : String) : List Nat → Interp Value
  | [] => Interp.fail (.unbound name)
  | id :: outer => do
    announce id "get_value" [name]
    let scope ← scopeOf id
    match scope.constants.get? name with
    | some v => do
      announceOutcome id ["Retrieved constant: ", name, " = ", v]
      pure v
    | none =>
      match scope.vars.get? name with
      | some v => do
        announceOutcome id ["Retrieved variable: ", name, " = ", v]
        pure v
      | none =>
        match scope.functions.get? name with
        | some f => do
          announceOutcome id ["Retrieved function: ", name]
          pure (.function f)
        | none => valueIn name outer

/-- Changes the nearest variable of a name; a constant on the way is a fault. -/
def setIn (name : String) (v : Value) : List Nat → Interp Unit
  | [] => Interp.fail (.unbound name)
  | id :: outer => do
    announce id "set_value" [name, v]
    let scope ← scopeOf id
    if scope.constants.has name then Interp.fail (.constant name)
    else
      match scope.vars.get? name with
      | some old => do
        setScope id fun scope => { scope with vars := scope.vars.insert name v }
        announceOutcome id ["Updated variable: ", name, " = ", v, " (was: ", old, ")"]
      | none =>
        if ← isDefinedIn name outer then setIn name v outer else Interp.fail (.unbound name)

/-- A new scope inside another one, with both trace modes off. -/
def newScope (parent : Nat) : Interp Nat :=
  modifyGet fun s =>
    (s.scopes.size, { s with scopes := s.scopes.push (Scope.empty (some parent)) })

/-! The same questions asked from the current scope. -/

def currentChain : Interp (List Nat) := do
  let s ← get
  return s.chain s.current

def isDefined (name : String) : Interp Bool := do
  isDefinedIn name (← currentChain)

def isConstant (name : String) : Interp Bool := do
  isConstantIn (← get).current name

def isFunction (name : String) : Interp Bool := do
  isFunctionIn name (← currentChain)

def function? (name : String) : Interp (Option Function) := do
  functionIn name (← currentChain)

def valueOf (name : String) : Interp Value := do
  valueIn name (← currentChain)

def setValue (name : String) (v : Value) : Interp Unit := do
  setIn name v (← currentChain)

def define (name : String) (v : Value) : Interp Unit := do
  defineVar (← get).current name v

end FapLang.Run
