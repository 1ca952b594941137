import FapLang.Grammar.Parse
import FapLang.Run.Collect
import FapLang.Run.Visit

/-!
Running a program text. The text is parsed, its defined names are collected, and each top-level statement
is visited; a fault in one is recorded and does not keep the next from running. At the end unused names
are pointed out.
-/

namespace FapLang.Run

def debugLine (message : String) : Interp Unit :=
  writeLine .out (colour "95" ("[DEBUG] " ++ message))

def debugIf (on : Bool) (message : String) : Interp Unit :=
  if on then debugLine message else pure ()

def insertName (name : String) : List String → List String
  | [] => [name]
  | other :: rest => if name ≤ other then name :: other :: rest else other :: insertName name rest

/-- Names in ascending order. -/
def sortNames (names : List String) : List String :=
  names.foldr insertName []

def warnUnused (name : String) : Interp Unit := do
  let message := "'" ++ name ++ "' is defined but not used"
  if (← get).modes.any then note ["[WARN] ", message]
  else writeLine .err (colour "93" ("[WARN] " ++ message))

def warnAllUnused : List String → Interp Unit
  | [] => pure ()
  | name :: rest => do
    if ← isFaulty name then pure () else warnUnused name
    warnAllUnused rest

def checkUnused : Interp Unit := do
  noteStep "check_unused_vars"
  let s ← get
  warnAllUnused (sortNames (s.defined.filter fun name => !s.used.contains name))

/-- Records a fault of the top-level statement with number `i`, unless it shows the inside. -/
def statementFault (i : Nat) (f : Fault) : Interp Unit := do
  let s ← get
  if isInternal f.message then
    debugIf s.modes.any ("Internal error in statement " ++ toString i ++ ": " ++ f.message)
  else reportAt s.line f.message

def runTop (visit : Visit) (i : Nat) (n : Node) : Interp Unit := do
  modify fun s => { s with line := i }
  debugIf (← get).modes.full ("Visiting statement " ++ toString i ++ " at line " ++ toString i)
  Interp.recover (do let _ ← visit n) fun f => statementFault i f

/-- Runs top-level nodes, the first of which has number `i`. -/
def runProgram (visit : Visit) : Nat → List Node → Interp Unit
  | _, [] => pure ()
  | i, n :: rest => do
    runTop visit i n
    runProgram visit (i + 1) rest

def flushNotes : List String → Interp Unit
  | [] => pure ()
  | line :: rest => do
    writeLine .out line
    flushNotes rest

def runTree (visit : Visit) (program : Node) : Interp Unit := do
  let on := (← get).modes.any
  let statements ← childrenOf program
  debugIf on ("Parser successful, AST has " ++ toString statements.length ++ " children")
  collect program
  debugIf on ("Starting to visit " ++ toString statements.length ++ " statements")
  modify fun s => { s with line := 1 }
  runProgram visit 1 statements
  checkUnused
  flushNotes (← get).notes.toList

/-- Records what kept a program from running to its end. -/
def programFailure (message : String) : Interp Unit := do
  let s ← get
  debugIf s.modes.any ("Global runtime error: " ++ message)
  if isInternal message then pure () else reportAt s.line message

/-- Runs a program text whose nodes are visited by `visit`. -/
def executeWithin (visit : Visit) (code : String) : Interp Unit := do
  modify fun s => { s with notes := #[] }
  debugIf (← get).modes.any "Parsing code..."
  match Grammar.parse code with
  | .error e => programFailure e.message
  | .ok program =>
    Interp.recover (runTree visit program) fun f => programFailure f.message

def execute (code : String) : Interp Unit :=
  executeWithin (visit depthLimit) code

end FapLang.Run
