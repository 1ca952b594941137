import FapLang.Check.Checker
import FapLang.Folder
import FapLang.Run.Execute

/-!
Running a program file from start to end: directives, preparation, check, run, and one line that sums
up.
-/

namespace FapLang.Program

open Run (Channel Event Modes Session colour)
open Check (Checker)

def printed (s : String) : Event :=
  { channel := .out, text := s ++ "\n" }

def debugLine (message : String) : Event :=
  printed (colour "95" ("[DEBUG] " ++ message))

def errorLine (error : String) : Event :=
  printed (colour "91" error)

def banner : Event :=
  printed (colour "96" "=== FAP Language Interpreter ===")

def modeLines (modes : Modes) : List Event :=
  if modes.debug then [debugLine "Debug mode: debug (ENV mode)"]
  else if modes.full then [debugLine "Debug mode: debugPL (Full stack trace)"]
  else []

/-- The lines with their numbers, quoted. -/
def numbered : Nat → List String → List Event
  | _, [] => []
  | n, line :: rest =>
    debugLine ("Line " ++ toString n ++ ": " ++ Text.quoted line) :: numbered (n + 1) rest

def summary (errors : Nat) (hasOutput : Bool) : Event :=
  if 0 < errors then printed (colour "91" ("Total errors: " ++ toString errors))
  else if hasOutput then printed (colour "92" "Execution completed successfully!")
  else printed (colour "93" "[WARN] The project ran successfully, but there was no output")

/-- A program text after the check. -/
structure Checked where
  modes : Modes
  source : Array String
  /-- What has been written so far. -/
  opening : List Event
  errors : Nat
  /-- The code to run; absent if there are errors or there is nothing to run. -/
  code : Option String

def checkText (text : String) : Checked :=
  let source := (Text.lines text).toArray
  let (modes, code) := Check.extractDirectives text
  let (checker, prepared) := (Checker.start modes source).prepare code
  let checker := checker.check code
  let listing := if modes.any then debugLine "Processed code:" :: numbered 1 (Text.lines prepared)
    else []
  { modes := modes
    source := source
    opening := banner :: modeLines modes ++ listing ++ checker.notes.map printed ++
      checker.errors.map errorLine
    errors := checker.errors.length
    code := if (Text.trim prepared.toList).isEmpty || !checker.errors.isEmpty then none
      else some prepared }

/-- Runs prepared code in a fresh session. -/
def runCode (modes : Modes) (source : Array String) (code : String) (input : Option (List Char)) :
    Session :=
  let session := { Session.fresh.setModes modes source with input := input }
  ((Run.execute code).run.run session).2

/-- All that a program text writes, in order. -/
def run (text : String) (input : Option (List Char)) : List Event :=
  let checked := checkText text
  let shown := fun events => if checked.modes.any then events else []
  match checked.code with
  | none =>
    checked.opening ++ shown [debugLine "No code to execute or syntax errors found"] ++
      [summary checked.errors false]
  | some code =>
    let session := runCode checked.modes checked.source code input
    checked.opening ++ shown [debugLine "Starting runtime execution..."] ++ session.events.toList ++
      session.errors.toList.map errorLine ++
      shown [debugLine ("Runtime execution completed. Has output: " ++
        (if session.hasOutput then "True" else "False"))] ++
      [summary session.errors.size session.hasOutput]

def usage : List Event :=
  [printed (colour "91" "[ERROR] Please provide a FAP file to execute"),
    printed "Usage: python main.py <fap_file>"]

def unreadable (e : ReadError) : List Event :=
  let verb := match e with
    | .notFound _ => "find"
    | _ => "read"
  [errorLine ("[ERROR] Failed to " ++ verb ++ " the file: '" ++ e.message ++ "'")]

/-- The events up to the prompt for a further line, after so many lines were read. -/
def upToPrompt : Nat → List Event → List Event
  | _, [] => []
  | lines, event :: rest =>
    match event.isPrompt, lines with
    | true, 0 => [event]
    | true, lines + 1 => event :: upToPrompt lines rest
    | false, lines => event :: upToPrompt lines rest

/-- Runs what was read from a file, or tells why there is nothing to run. -/
def runFile (content : Except ReadError (List UInt8)) (input : Option (List Char)) : List Event :=
  match content.bind decodeFile with
  | .ok text => run text input
  | .error e => unreadable e

/-- The command: its first argument is the path of a program in the folder. -/
def command (folder : Folder) (args : List String) (input : Option (List Char)) : List Event :=
  match args with
  | [] => usage
  | path :: _ => runFile (folder.open? path) input

def written (events : List Event) (channel : Channel) : String :=
  String.join ((events.filter (·.channel = channel)).map (·.text))

end FapLang.Program
