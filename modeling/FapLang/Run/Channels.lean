import FapLang.Run.Atom

/-!
Talking to the user: output statements and input calls.
-/

namespace FapLang.Run

/-- Why there is no line to read. -/
inductive InputFailure
  | ended
  | lost

/-- Takes the next line; the text after the last line end counts as a line if it is not empty. -/
def takeLine : List Char → Option (List Char × List Char)
  | [] => none
  | cs =>
    match cs.dropWhile (· ≠ '\n') with
    | [] => some (cs, [])
    | _ :: rest => some (cs.takeWhile (· ≠ '\n'), rest)

def writePrompt (prompt : String) : Interp Unit :=
  modify fun s =>
    { s with events := s.events.push { channel := .out, text := prompt, isPrompt := true } }

/-- Writes a prompt and reads a line. Without input not even the prompt is written. -/
def readLine (prompt : String) : Interp (Except InputFailure String) := do
  match (← get).input with
  | none => return .error .lost
  | some text => do
    writePrompt prompt
    match takeLine text with
    | none => return .error .ended
    | some (line, rest) => do
      modify fun s => { s with input := some rest }
      return .ok (String.ofList line)

def visitInputExpr (visit : Visit) (n : Node) : Interp Value := do
  noteStep "visit_input_call_as_expr"
  match ← childrenOf n with
  | [] => do
    report "Input call missing prompt string"
    return .text ""
  | promptNode :: _ => do
    let prompt ← visit promptNode
    note ["[RUNTIME] Input call with prompt: ", prompt]
    let shown ← strOf prompt
    match ← readLine (colour "94" ("[INFO] " ++ shown)) with
    | .ok line => do
      note ["[RUNTIME] User input: ", line]
      return .text line
    | .error .ended => do
      report "Unexpected end of input"
      return .text ""
    | .error .lost => do
      report "Input error: input(): lost sys.stdin"
      return .text ""

def visitInput (visit : Visit) (n : Node) : Interp Value := do
  noteStep "visit_input_call"
  let _ ← visitInputExpr visit n
  return .none

/-- The text of an argument of an output statement; the lack of one is recorded but for lists. -/
def argumentText (v : Value) : Interp (Option String) := do
  if v.isList then return some (← strOf v)
  else
    match v.str (← get).cells with
    | .ok s => return some s
    | .error f => do
      report ("Error formatting argument: " ++ f.message)
      return none

/-- The texts of the arguments from position `i` on; nothing if one of them is missing. -/
def outputTexts (visit : Visit) : Nat → List Node → Interp (Option (List String))
  | _, [] => return some []
  | i, n :: rest =>
    match n with
    | .absent => do
      report "Invalid argument in output function: empty argument"
      return none
    | n => do
      let v ← visit n
      if v.isNone then
        report ("Invalid argument at position " ++ toString i ++ " in output function")
        return none
      else
        match ← argumentText v with
        | none => return none
        | some s => do
          match ← outputTexts visit (i + 1) rest with
          | none => return none
          | some texts => return some (s :: texts)

inductive Severity
  | info
  | warn
  | error
  deriving DecidableEq, Repr

def Severity.ofName? : String → Option Severity
  | "out.Info" => some .info
  | "out.Warn" => some .warn
  | "out.Error" => some .error
  | _ => none

def Severity.channel : Severity → Channel
  | info => .out
  | warn | error => .err

def Severity.line (message : String) : Severity → String
  | info => colour "94" ("[INFO] " ++ message)
  | warn => colour "93" ("[WARN] " ++ message)
  | error => colour "91" ("[ERROR] " ++ message)

def Severity.write (severity : Severity) (message : String) : Interp Unit :=
  let event : Event :=
    { channel := severity.channel, text := severity.line message ++ "\n", isOutput := true }
  modify fun s => { s with events := s.events.push event }

/-- The nodes of the arguments, if there are any. -/
def argumentNodes (cs : List Node) : List Node :=
  match cs with
  | _ :: .tree _ args :: _ => args
  | _ => []

def writeMessage (severity : Severity) (message : String) : Interp Unit := do
  modify fun s => { s with hasOutput := true }
  note ["[RUNTIME] Output message: ", message]
  severity.write message

def outputTo (visit : Visit) (name : String) (cs : List Node) : Interp Unit := do
  if name.isEmpty || !Text.contains name "." then report ("Invalid member access: " ++ name)
  else
    match Severity.ofName? name with
    | none => report ("Invalid output function: " ++ name)
    | some severity => do
      match ← outputTexts visit 1 (argumentNodes cs) with
      | none => pure ()
      | some texts => writeMessage severity (String.join texts)

def visitOutput (visit : Visit) (n : Node) : Interp Value := do
  noteStep "visit_output_stmt"
  let cs ← childrenOf n
  let target ← child cs 0
  if target.hasRule "member_access" then
    let name ← visit target
    note ["[RUNTIME] Output statement: ", name]
    outputTo visit (← strOf name) cs
    return .none
  else
    report "Expected member access in output statement"
    return .none

/-- The values of output arguments, lists as their texts; empty if one is missing. -/
def outputArgs (visit : Visit) : List Node → List Value → Interp (List Value)
  | [], args => return args
  | .absent :: _, _ => do
    report "Invalid argument in output function: empty argument"
    return []
  | n :: rest, args => do
    let v ← visit n
    if v.isNone then
      report "Invalid argument in output function"
      return []
    else
      let v ← if v.isList then do pure (Value.text (← strOf v)) else pure v
      outputArgs visit rest (args ++ [v])

def visitOutputArgs (visit : Visit) (n : Node) : Interp Value := do
  noteStep "visit_output_args"
  let args ← outputArgs visit (← childrenOf n) []
  newList args.toArray

end FapLang.Run
