import FapLang.Check.Pattern
import FapLang.Text.Line

/-!
Which lines can stand in a program. Each line is judged by itself, by its shape; the rules are tried in
a fixed order and the first that applies decides.
-/

namespace FapLang.Check

inductive Verdict
  /-- What the line is. -/
  | valid (what : String)
  /-- What is wrong with it. -/
  | invalid (message : String)
  deriving DecidableEq, Repr

def Verdict.isValid : Verdict → Bool
  | valid _ => true
  | invalid _ => false

/-- Lines that are statements, or parts of some, word for word. -/
def wholeLine? (line : String) : Option Verdict :=
  match line with
  | "rep.stop" => some (.valid "Valid rep.stop statement")
  | "]" => some (.valid "Valid block end")
  | "or" => some (.valid "Valid 'or' keyword")
  | "or [" => some (.valid "Valid 'or' with block start")
  | "] or" => some (.valid "Valid block end with 'or'")
  | "] or [" => some (.valid "Valid block end with 'or' and block start")
  | _ => none

def quote (cs : List Char) : String :=
  "'" ++ String.ofList cs ++ "'"

/-- Single words, numbers and texts are no statements. -/
def loneExpression? (cs : List Char) : Option Verdict :=
  let reject := fun why => some (Verdict.invalid ("Invalid statement: " ++ quote cs ++ " - " ++ why))
  if fits aName cs then reject "looks like a variable name but not used in assignment"
  else if fits aNumber cs then reject "number literal not used in expression"
  else if fits aQuotedText cs then reject "string literal not used in expression"
  else none

def judgeListDef (cs : List Char) : Verdict :=
  match Text.cutAt? "=>".toList cs with
  | none => .invalid ("List definition must include '=>': " ++ quote cs)
  | some (before, after) =>
    let name := Text.trim (before.drop 9)
    let items := Text.trim after
    if !fits aName name then .invalid ("Invalid list name: " ++ quote name)
    else if !Text.startsWith items "[" || !Text.endsWith items "]" then
      .invalid ("List definition must be followed by list literal: " ++ quote cs)
    else .valid "Valid list definition"

def judgeListMethod (cs : List Char) : Verdict :=
  if Text.occursIn ".add(".toList cs then
    if fits anAdd cs then .valid "Valid list method call"
    else .invalid ("Invalid list.add call: " ++ quote cs)
  else if Text.occursIn ".clear(".toList cs then
    if fits aClear cs then .valid "Valid list method call"
    else .invalid ("Invalid list.clear call: " ++ quote cs)
  else .valid "Valid list method call"

/-- The first parameter that is not a type and a name; parameters over several lines do not count.
-/
def badParameter? (params : List Char) : Option (List Char) :=
  if params.contains '\n' || (Text.trim params).isEmpty then none
  else
    ((Text.splitAtChar ',' (Text.trim params)).map Text.trim).find? fun p =>
      !p.isEmpty && !fits aTypedName p

def judgeFunction (cs : List Char) : Verdict :=
  if !fits aFunction cs then .invalid ("Invalid function definition: " ++ quote cs)
  else
    match badParameter? (parameterText cs) with
    | some p => .invalid ("Invalid function parameter: " ++ quote p ++ " in " ++ quote cs)
    | none => .valid "Valid function definition"

def judgeReturn (cs : List Char) : Verdict :=
  if fits aReturn cs then .valid "Valid return statement"
  else .invalid ("Invalid return statement: " ++ quote cs)

def judgeConst (cs : List Char) : Verdict :=
  if (Text.words cs).length < 4 then
    .invalid ("Constant definition must include type, name, and initial value: " ++ quote cs)
  else
    match Text.cutAt? "->".toList cs with
    | none => .invalid ("Constant definition must include '->': " ++ quote cs)
    | some (before, after) =>
      if !fits aTypedName (Text.trim (before.drop 6)) then
        .invalid ("Invalid constant declaration format: " ++ quote cs)
      else if (Text.trim after).isEmpty then
        .invalid "Constant definition must include initial value after '->'"
      else .valid "Valid constant definition"

def judgeVar (cs : List Char) : Verdict :=
  if (Text.words cs).length < 3 then
    .invalid ("Variable definition must include type and name: " ++ quote cs)
  else
    let before := ((Text.cutAt? "->".toList cs).map (·.1)).getD cs
    if fits aTypedName (Text.trim (before.drop 4)) then .valid "Valid variable definition"
    else .invalid ("Invalid variable declaration format: " ++ quote cs)

def isComment (cs : List Char) : Bool :=
  Text.startsWith (Text.trim cs) "@"

def assignment? (cs : List Char) : Option Verdict :=
  match Text.splitAtAll "->".toList cs with
  | [left, _] =>
    let left := Text.trim left
    if isComment cs then none
    else if fits aName left then some (.valid "Valid assignment")
    else if fits aTypedName left then some (.valid "Valid variable definition with assignment")
    else none
  | _ => none

/-- Calls that are recognised by how they start. -/
def knownStarts : List String :=
  ["out.Info(", "out.Warn(", "out.Error(", "getInputFor(", "rootFor(", "squFor(", "d.root(",
    "t.root("]

def knownStart? (cs : List Char) : Option Verdict :=
  (knownStarts.find? (Text.startsWith cs)).map fun start =>
    .valid ("Valid statement starting with '" ++ start ++ "'")

def absolute? (cs : List Char) : Option Verdict :=
  let bars := cs.count '|'
  if bars < 2 || isComment cs then none
  else if bars = 2 && (Text.splitAtAll "->".toList cs).length = 2 then
    some (.valid "Valid assignment with absolute value")
  else some (.valid "Valid expression with absolute values")

/-- Rules for lines that begin with no keyword. -/
def judgeOther (cs : List Char) : Verdict :=
  match assignment? cs with
  | some v => v
  | none =>
    match knownStart? cs with
    | some v => v
    | none => (absolute? cs).getD (.invalid ("Invalid statement: " ++ quote cs))

def isPlainCall (cs : List Char) : Bool :=
  fits aCall cs && !Text.startsWith cs "getInputFor" && !Text.startsWith cs "out."

/-- The verdict on a line. -/
def judge (line : String) : Verdict :=
  let cs := line.toList
  if Text.startsWith cs "Again(" then .valid "Valid again statement"
  else
    match (wholeLine? line).orElse fun _ => loneExpression? cs with
    | some v => v
    | none =>
      if Text.startsWith cs "New List " then judgeListDef cs
      else if fits aListMethod cs then judgeListMethod cs
      else if fits aListAccess cs then .valid "Valid list access"
      else if Text.startsWith cs "Fuc " then judgeFunction cs
      else if isPlainCall cs then .valid "Valid function call"
      else if Text.startsWith cs "back.value(" then judgeReturn cs
      else if Text.startsWith cs "Const " then judgeConst cs
      else if Text.startsWith cs "New " then judgeVar cs
      else if Text.startsWith cs "Cause " then .valid "Valid cause statement"
      else judgeOther cs

end FapLang.Check
