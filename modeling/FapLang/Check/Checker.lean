import FapLang.Check.Balance
import FapLang.Check.Directive
import FapLang.Check.Statement
import FapLang.Run.Trace

/-!
The check of a program text before it runs. Errors are kept once each, in the order they are found;
trace lines quote the line of the source with the same number.
-/

namespace FapLang.Check

open Run (Modes colour errorText)

structure Checker where
  modes : Modes
  source : Array String
  errors : List String
  notes : List String

namespace Checker

def start (modes : Modes) (source : Array String) : Checker :=
  { modes := modes, source := source, errors := [], notes := [] }

/-- The line of the source with a number, without the blanks at its end. -/
def sourceLine? (c : Checker) (line : Int) : Option String :=
  if 0 < line then (c.source[(line - 1).toNat]?).map Text.dropTrailingBlanks else none

def note (c : Checker) (line : Int) (message : String) : Checker :=
  match c.modes.full, c.sourceLine? line with
  | true, some content =>
    let text := colour "33"
      ("[Line " ++ toString line ++ ": " ++ content ++ "] [SYNTAX_CHECK] " ++ message)
    { c with notes := c.notes ++ [text] }
  | _, _ => c

def report (c : Checker) (line : Int) (message : String) : Checker :=
  let text := errorText c.modes ((c.sourceLine? line).getD "") line message
  if c.errors.contains text then c else { c with errors := c.errors ++ [text] }

def reportAll (c : Checker) (problems : List Problem) : Checker :=
  problems.foldl (fun c p => c.report p.line p.message) c

/-- Prepares a text and records what is wrong with its comments. -/
def prepare (c : Checker) (code : String) : Checker × String :=
  let prepared := Check.prepare code
  (c.reportAll prepared.problems, prepared.text)

/-- Judges one line and records the verdict. -/
def checkLine (c : Checker) (line : Int) (text : String) : Checker × Bool :=
  let c := c.note line ("Checking syntax: " ++ text)
  match judge text with
  | .valid what => (c.note line what, true)
  | .invalid message => (c.report line message, false)

def checkLines : Checker → Nat → List String → Checker
  | c, _, [] => c
  | c, n, line :: rest =>
    let text := Text.dropOuterBlanks line
    let c :=
      if text.isEmpty then c.note n "Skipping empty line"
      else ((c.note n "Processing line").checkLine n text).1
    checkLines c (n + 1) rest

def noteLines : Checker → Nat → List String → Checker
  | c, _, [] => c
  | c, n, line :: rest =>
    let c := if (Text.trim line.toList).isEmpty then c else c.note n "Checking symbol integrity"
    noteLines c (n + 1) rest

/-- Checks brackets and quotes, in the full trace mode only. -/
def checkBalance (c : Checker) (lines : List String) : Checker :=
  if c.modes.full then (c.noteLines 1 lines).reportAll (balanceProblems lines) else c

/-- Checks a text from scratch; the trace lines of the check are in its notes. -/
def check (c : Checker) (code : String) : Checker :=
  let (c, text) := { c with errors := [], notes := [] }.prepare code
  if (Text.trim text.toList).isEmpty then c
  else
    let lines := Text.lines text
    let c := c.checkLines 1 lines
    if c.errors.isEmpty then c.checkBalance lines else c

end Checker

end FapLang.Check
