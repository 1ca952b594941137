import FapLang.Text.Blank
import FapLang.Text.Line

/-!
Preparing a program text: blank lines, comment lines and block comments go, and so do blanks at the end
of a line. A block comment reaches from a line that starts with `#X` to one that starts with `#Y`.
-/

namespace FapLang.Check

/-- What is wrong at a line. -/
structure Problem where
  line : Nat
  message : String
  deriving DecidableEq, Repr

structure Prepared where
  lines : List String
  problems : List Problem

inductive LineKind
  | blank
  | comment
  | blockStart
  | blockEnd
  | code
  deriving DecidableEq, Repr

def LineKind.of (line : String) : LineKind :=
  let cs := Text.trim line.toList
  if cs.isEmpty then .blank
  else if Text.startsWith cs "@None" then .comment
  else if Text.startsWith cs "#X" then .blockStart
  else if Text.startsWith cs "#Y" then .blockEnd
  else .code

def Prepared.keep (line : String) (p : Prepared) : Prepared :=
  { p with lines := Text.dropTrailingBlanks line :: p.lines }

def Prepared.complain (problem : Problem) (p : Prepared) : Prepared :=
  { p with problems := problem :: p.problems }

/-- Prepares the lines from number `n` on, with the line where a block comment is open, if one is.
-/
def prepareFrom : Nat → Option Nat → List String → Prepared
  | _, none, [] => ⟨[], []⟩
  | _, some start, [] =>
    ⟨[], [⟨start, "Unclosed block comment starting at line " ++ toString start⟩]⟩
  | n, opened, line :: rest =>
    match LineKind.of line, opened with
    | .blank, _ | .comment, _ => prepareFrom (n + 1) opened rest
    | .blockStart, none => prepareFrom (n + 1) (some n) rest
    | .blockEnd, some _ => prepareFrom (n + 1) none rest
    | .blockEnd, none =>
      (prepareFrom (n + 1) none rest).complain ⟨n, "Unexpected block comment end '#Y'"⟩
    | .code, none => (prepareFrom (n + 1) none rest).keep line
    | .code, some start | .blockStart, some start => prepareFrom (n + 1) (some start) rest

def prepare (code : String) : Prepared :=
  prepareFrom 1 none (Text.lines code)

def Prepared.text (p : Prepared) : String :=
  Text.unlines p.lines

end FapLang.Check
