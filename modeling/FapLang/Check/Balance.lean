import FapLang.Check.Prepare

/-!
Balance of brackets and quotes over the lines of a program. Each kind of bracket is counted by itself,
quoted text is passed over, and a quote may reach over the end of a line. Lines of blanks are not
looked at.
-/

namespace FapLang.Check

inductive Bracket
  | square
  | curly
  | round
  deriving DecidableEq, Repr

namespace Bracket

def opening : Bracket → Char
  | square => '['
  | curly => '\x7b'
  | round => '('

def closing : Bracket → Char
  | square => ']'
  | curly => '\x7d'
  | round => ')'

def all : List Bracket := [square, curly, round]

def ofOpening? (c : Char) : Option Bracket :=
  all.find? (·.opening = c)

def ofClosing? (c : Char) : Option Bracket :=
  all.find? (·.closing = c)

end Bracket

/-- The lines of the brackets still open, the last first, and of the open quote. -/
structure Balance where
  square : List Nat
  curly : List Nat
  round : List Nat
  quote : Option Nat
  problems : List Problem

namespace Balance

def start : Balance := ⟨[], [], [], none, []⟩

def stack (b : Balance) : Bracket → List Nat
  | .square => b.square
  | .curly => b.curly
  | .round => b.round

def setStack (b : Balance) (kind : Bracket) (stack : List Nat) : Balance :=
  match kind with
  | .square => { b with square := stack }
  | .curly => { b with curly := stack }
  | .round => { b with round := stack }

def complain (b : Balance) (line : Nat) (message : String) : Balance :=
  { b with problems := b.problems ++ [⟨line, message⟩] }

def close (b : Balance) (line : Nat) (kind : Bracket) : Balance :=
  match b.stack kind with
  | _ :: rest => b.setStack kind rest
  | [] => b.complain line ("Unexpected '" ++ kind.closing.toString ++ "'")

def feed (line : Nat) (b : Balance) (c : Char) : Balance :=
  if c = '"' then { b with quote := if b.quote.isSome then none else some line }
  else if b.quote.isSome then b
  else
    match Bracket.ofOpening? c, Bracket.ofClosing? c with
    | some kind, _ => b.setStack kind (line :: b.stack kind)
    | none, some kind => b.close line kind
    | none, none => b

def feedLine (b : Balance) (line : Nat) (text : String) : Balance :=
  if (Text.trim text.toList).isEmpty then b else text.toList.foldl (feed line) b

def feedLines : Balance → Nat → List String → Balance
  | b, _, [] => b
  | b, n, line :: rest => feedLines (b.feedLine n line) (n + 1) rest

/-- What is left open at the end is a problem of the line where it was opened. -/
def finish (b : Balance) : List Problem :=
  let unclosed := fun (mark : Char) (line : Nat) =>
    (⟨line, "Unclosed '" ++ mark.toString ++ "'"⟩ : Problem)
  b.problems ++
    (Bracket.all.flatMap fun kind => (b.stack kind).reverse.map (unclosed kind.opening)) ++
    b.quote.toList.map (unclosed '"')

end Balance

/-- What the balance of some lines, numbered from 1, leaves to complain about. -/
def balanceProblems (lines : List String) : List Problem :=
  (Balance.start.feedLines 1 lines).finish

end FapLang.Check
