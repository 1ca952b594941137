import FapLang.Grammar.Token
import FapLang.Text.Line

/-!
Why a text is no program: a character that begins no token here, or a token that cannot stand here.
-/

namespace FapLang.Grammar

inductive ParseError
  /-- `before` and `after` are the text around the place, `previous` the last token. -/
  | character (char : Char) (line column : Nat) (before after : List Char) (expected : List Terminal)
      (previous : Option Token)
  /-- A token that could be read only by looking at all terminals. -/
  | foreign (token : Token) (expected : List Terminal) (previous : Option Token)
  /-- A token, or the end of the text, that the parser has no use for. -/
  | misplaced (token : Token) (expected : List Terminal)
  | exhausted
  deriving Repr

namespace ParseError

def insertSorted (s : String) : List String → List String
  | [] => [s]
  | t :: ts => if s ≤ t then s :: t :: ts else t :: insertSorted s ts

/-- One bullet a name, in ascending order. -/
def bullets (names : List String) : String :=
  "Expected one of: \n" ++
    String.join ((names.foldr insertSorted []).map fun name => "\t* " ++ name ++ "\n")

def lastPart (cs : List Char) : List Char :=
  (cs.reverse.takeWhile (· ≠ '\n')).reverse

def firstPart (cs : List Char) : List Char :=
  cs.takeWhile (· ≠ '\n')

/-- The column after a text that starts at a column, with a tab stop every eight. -/
def widthFrom : Nat → List Char → Nat
  | column, [] => column
  | column, c :: rest => widthFrom (if c = '\t' then (column / 8 + 1) * 8 else column + 1) rest

/-- The line around a place, up to forty characters either way, with a caret below it. -/
def context (before after : List Char) : String :=
  let left := lastPart before
  String.ofList (left ++ firstPart after) ++ "\n" ++
    String.ofList (List.replicate (widthFrom 0 left) ' ') ++ "^\n"

def message : ParseError → String
  | character char line column before after expected previous =>
    "No terminal matches '" ++ char.toString ++ "' in the current parser context, at line " ++
      toString line ++ " col " ++ toString column ++ "\n\n" ++ context before after ++
      bullets (expected.map Terminal.shown) ++
      match previous with
      | some t => "\nPrevious tokens: " ++ t.node.text ++ "\n"
      | none => ""
  | foreign token expected previous =>
    "Unexpected token " ++ token.node.text ++ " at line " ++ toString token.line ++ ", column " ++
      toString token.column ++ ".\n" ++ bullets (expected.map Terminal.shown) ++
      "Previous tokens: [" ++ ((previous.map fun t => t.node.text).getD "None") ++ "]\n"
  | misplaced token expected =>
    "Unexpected token " ++ token.node.text ++ " at line " ++ toString token.line ++ ", column " ++
      toString token.column ++ ".\n" ++ bullets (expected.map Terminal.name)
  | exhausted => ""

end ParseError

end FapLang.Grammar
