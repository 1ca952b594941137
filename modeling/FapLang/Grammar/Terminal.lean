import FapLang.Number.Numeral

/-!
Terminals of the language and the texts they match. The list `Terminal.all` is the order in which
terminals are tried at a position: the first that matches wins, also if a later one would match more.
-/

namespace FapLang.Grammar

inductive Terminal
  | ident
  | number
  | newline
  | blank
  | quotedText
  | readInputLong
  | readInput
  | again
  | cause
  | clear
  | const
  | floatType
  | value
  | back
  | list
  | stop
  | add
  | and
  | function
  | intType
  | new
  | rep
  | strType
  | comparison
  | listArrow
  | otherwise
  | arrow
  | or
  | addOp
  | mulOp
  | comma
  | dot
  | openParen
  | openBracket
  | closeParen
  | closeBracket
  | bar
  | finish
  deriving DecidableEq, Repr

inductive Pattern
  | identifier
  | numeral
  | lineEnds
  | blankRun
  | quotedText
  /-- A keyword of letters. -/
  | word (text : String)
  /-- A keyword of letters in any mixture of cases. -/
  | anyCase (text : String)
  | oneOf (texts : List String)

namespace Terminal

def all : List Terminal := [
  ident, number, newline, blank, quotedText, readInputLong, readInput, again, cause, clear, const,
  floatType, value, back, list, stop, add, and, function, intType, new, rep, strType, comparison,
  listArrow, otherwise, arrow, or, addOp, mulOp, comma, dot, openParen, openBracket, closeParen,
  closeBracket, bar]

def name : Terminal → String
  | ident => "IDENT"
  | number => "NUMBER"
  | newline => "NEWLINE"
  | blank => "WS"
  | quotedText => "STRING"
  | readInputLong => "__ANON_2"
  | readInput => "GETINPUTFOR"
  | again => "AGAIN"
  | cause => "CAUSE"
  | clear => "CLEAR"
  | const => "CONST"
  | floatType => "FLOAT"
  | value => "VALUE"
  | back => "BACK"
  | list => "LIST"
  | stop => "STOP"
  | add => "ADD"
  | and => "AND"
  | function => "FUC"
  | intType => "INT"
  | new => "NEW"
  | rep => "REP"
  | strType => "STR"
  | comparison => "COMPARISON_OP"
  | listArrow => "LIST_ARROW"
  | otherwise => "OR"
  | arrow => "__ANON_0"
  | or => "__ANON_1"
  | addOp => "ADD_OP"
  | mulOp => "MUL_OP"
  | comma => "COMMA"
  | dot => "DOT"
  | openParen => "LPAR"
  | openBracket => "LSQB"
  | closeParen => "RPAR"
  | closeBracket => "RSQB"
  | bar => "VBAR"
  | finish => "$END"

/-- Terminals without a name of their own are shown by what they match. -/
def shown : Terminal → String
  | readInputLong => "\"st.getInputFor\""
  | arrow => "\"->\""
  | or => "\"or\"i"
  | t => t.name

def pattern : Terminal → Pattern
  | ident => .identifier
  | number => .numeral
  | newline => .lineEnds
  | blank => .blankRun
  | quotedText => .quotedText
  | readInputLong => .oneOf ["st.getInputFor"]
  | readInput => .word "getInputFor"
  | again => .word "Again"
  | cause => .word "Cause"
  | clear => .anyCase "clear"
  | const => .word "Const"
  | floatType => .word "float"
  | value => .word "value"
  | back => .word "back"
  | list => .word "List"
  | stop => .word "stop"
  | add => .anyCase "add"
  | and => .anyCase "and"
  | function => .word "Fuc"
  | intType => .word "int"
  | new => .word "New"
  | rep => .word "rep"
  | strType => .word "str"
  | comparison => .oneOf [">=", "<=", "?", "!", ">", "<"]
  | listArrow => .oneOf ["=>"]
  | otherwise => .word "or"
  | arrow => .oneOf ["->"]
  | or => .anyCase "or"
  | addOp => .oneOf ["+", "-"]
  | mulOp => .oneOf ["*", "/"]
  | comma => .oneOf [","]
  | dot => .oneOf ["."]
  | openParen => .oneOf ["("]
  | openBracket => .oneOf ["["]
  | closeParen => .oneOf [")"]
  | closeBracket => .oneOf ["]"]
  | bar => .oneOf ["|"]
  | finish => .oneOf []

/-- Whether a token of this terminal stays in the tree; the others are only punctuation. -/
def isKept : Terminal → Bool
  | ident | number | newline | quotedText | comparison | addOp | mulOp => true
  | _ => false

end Terminal

def isLetter (c : Char) : Bool :=
  ('a' ≤ c && c ≤ 'z') || ('A' ≤ c && c ≤ 'Z') || c = '_'

def isNameChar (c : Char) : Bool :=
  isLetter c || isAsciiDigit c

/-- The blanks between tokens; fewer characters than the blanks of other texts. -/
def isGap (c : Char) : Bool :=
  c = ' ' || c = '\t' || c = '\x0c' || c = '\r' || c = '\n'

/-- A lexeme and the text after it. -/
abbrev Cut := List Char × List Char

/-- The longest run of a class at the front, if there is one. -/
def takeRun (p : Char → Bool) (cs : List Char) : Option Cut :=
  let run := cs.takeWhile p
  if run.isEmpty then none else some (run, cs.dropWhile p)

def takeLiteral (text : String) (cs : List Char) : Option Cut :=
  if text.toList.isPrefixOf cs then some (text.toList, cs.drop text.length) else none

def takeAnyCase (text : String) (cs : List Char) : Option Cut :=
  let front := cs.take text.length
  if front.map Number.lowerAscii = text.toList then some (front, cs.drop text.length) else none

def takeIdentifier : List Char → Option Cut
  | c :: rest =>
    if isLetter c then some (c :: rest.takeWhile isNameChar, rest.dropWhile isNameChar) else none
  | [] => none

/-- A fraction belongs to a numeral only if a digit follows the point. -/
def takeFraction (whole rest : List Char) : Cut :=
  match rest with
  | '.' :: after =>
    match takeRun isAsciiDigit after with
    | some (digits, left) => (whole ++ '.' :: digits, left)
    | none => (whole, rest)
  | _ => (whole, rest)

def takeNumeral (cs : List Char) : Option Cut :=
  match cs with
  | '-' :: rest => (takeRun isAsciiDigit rest).map fun (ds, left) => takeFraction ('-' :: ds) left
  | _ => (takeRun isAsciiDigit cs).map fun (ds, left) => takeFraction ds left

/-- Line ends, each with an optional carriage return before it. -/
def lineEndRun : List Char → Cut
  | '\r' :: '\n' :: rest => let (run, left) := lineEndRun rest; ('\r' :: '\n' :: run, left)
  | '\n' :: rest => let (run, left) := lineEndRun rest; ('\n' :: run, left)
  | cs => ([], cs)

def takeLineEnds (cs : List Char) : Option Cut :=
  match lineEndRun cs with
  | ([], _) => none
  | cut => some cut

def takeQuoted : List Char → Option Cut
  | '"' :: rest =>
    match rest.dropWhile (· ≠ '"') with
    | '"' :: left => some ('"' :: rest.takeWhile (· ≠ '"') ++ ['"'], left)
    | _ => none
  | _ => none

/-- The lexeme of a pattern at the front of a text. -/
def Pattern.take? : Pattern → List Char → Option Cut
  | identifier, cs => takeIdentifier cs
  | numeral, cs => takeNumeral cs
  | lineEnds, cs => takeLineEnds cs
  | blankRun, cs => takeRun isGap cs
  | quotedText, cs => takeQuoted cs
  | word text, cs => takeLiteral text cs
  | anyCase text, cs => takeAnyCase text cs
  | oneOf texts, cs => texts.findSome? (takeLiteral · cs)

end FapLang.Grammar
