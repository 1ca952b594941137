import FapLang.Grammar.Node
import FapLang.Grammar.Terminal

/-!
Tokens and how the next one is found. Only some terminals are candidates at a time. While
identifiers are among them, an identifier whose whole text is a candidate keyword becomes that
keyword.
-/

namespace FapLang.Grammar

structure Token where
  terminal : Terminal
  text : String
  line : Nat
  column : Nat
  deriving DecidableEq, Repr

def Token.node (t : Token) : Node :=
  .token t.terminal.name t.text

/-- A place in a text with what is left from there. -/
structure Cursor where
  offset : Nat
  line : Nat
  column : Nat
  rest : List Char

namespace Cursor

def start (cs : List Char) : Cursor :=
  { offset := 0, line := 1, column := 1, rest := cs }

/-- Moves over a lexeme; only a line feed begins a new line. -/
def advance (c : Cursor) (lexeme rest : List Char) : Cursor :=
  { offset := c.offset + lexeme.length
    line := c.line + lexeme.count '\n'
    column := if lexeme.contains '\n' then (lexeme.reverse.takeWhile (· ≠ '\n')).length + 1
      else c.column + lexeme.length
    rest := rest }

end Cursor

/-- The terminals to try at a place, in order, and the keywords an identifier can turn into. -/
structure Candidates where
  tried : List Terminal
  keywords : List Terminal

namespace Candidates

def isWord (t : Terminal) : Bool :=
  match t.pattern with
  | .word _ | .anyCase _ => true
  | _ => false

/-- Keywords in one case hide behind identifiers. -/
def isHidden (t : Terminal) : Bool :=
  match t.pattern with
  | .word _ => true
  | _ => false

/-- Blanks may stand before every token. -/
def of (wanted : List Terminal) : Candidates :=
  let here := Terminal.all.filter fun t => t = .blank || wanted.contains t
  if here.contains .ident then
    { tried := here.filter fun t => !isHidden t, keywords := here.filter isWord }
  else { tried := here, keywords := [] }

/-- All that a text could hold at a place. -/
def everything : Candidates :=
  of Terminal.all

def expected (c : Candidates) : List Terminal :=
  c.tried.filter (· ≠ .blank)

def spells (word : List Char) (t : Terminal) : Bool :=
  match t.pattern with
  | .word text => word = text.toList
  | .anyCase text => word.map Number.lowerAscii = text.toList
  | _ => false

/-- The terminal of a lexeme that was matched as `t`. -/
def classify (c : Candidates) (t : Terminal) (lexeme : List Char) : Terminal :=
  if t = .ident then (c.keywords.find? (spells lexeme)).getD .ident else t

def match? (c : Candidates) (cs : List Char) : Option (Terminal × Cut) :=
  c.tried.findSome? fun t => (t.pattern.take? cs).map fun cut => (t, cut)

end Candidates

inductive Scan
  | token (t : Token) (after : Cursor)
  | finished (place : Cursor)
  | stuck (place : Cursor)

/-- Finds the next token, passing over blanks; the first argument bounds the number of lexemes. -/
def scanFrom (c : Candidates) : Nat → Cursor → Scan
  | 0, cursor => .finished cursor
  | fuel + 1, cursor =>
    if cursor.rest.isEmpty then .finished cursor
    else
      match c.match? cursor.rest with
      | none => .stuck cursor
      | some (t, lexeme, rest) =>
        let after := cursor.advance lexeme rest
        if t = .blank then scanFrom c fuel after
        else .token ⟨c.classify t lexeme, String.ofList lexeme, cursor.line, cursor.column⟩ after

def scan (c : Candidates) (cursor : Cursor) : Scan :=
  scanFrom c (cursor.rest.length + 1) cursor

end FapLang.Grammar
