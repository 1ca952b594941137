import FapLang.Json.Basic

/-!
Reading JSON. The reader gives back what it has read with the rest of the characters. A failure
names what was wrong and how many characters were left, from which follow its line and column.
-/

namespace FapLang.Json

inductive Flaw
  | value
  | name
  | colon
  | comma
  | extra
  | byteOrderMark
  | openText
  | controlChar
  | badEscape
  | badUnit
  /-- An integer of so many digits. -/
  | tooLong (digits : Nat)
  deriving DecidableEq, Repr

namespace Flaw

def wording : Flaw → String
  | value => "Expecting value"
  | name => "Expecting property name enclosed in double quotes"
  | colon => "Expecting ':' delimiter"
  | comma => "Expecting ',' delimiter"
  | extra => "Extra data"
  | byteOrderMark => "Unexpected UTF-8 BOM (decode using utf-8-sig)"
  | openText => "Unterminated string starting at"
  | controlChar => "Invalid control character at"
  | badEscape => "Invalid \\escape"
  | badUnit => "Invalid \\uXXXX escape"
  | tooLong _ => ""

end Flaw

/-- A flaw and the number of characters from its place to the end of the text. -/
structure Misread where
  flaw : Flaw
  left : Nat
  deriving DecidableEq, Repr

def misread {α : Type} (flaw : Flaw) (rest : List Char) : Except Misread α :=
  .error ⟨flaw, rest.length⟩

def isSpace (c : Char) : Bool :=
  c = ' ' || c = '\t' || c = '\n' || c = '\r'

def skipSpaces (cs : List Char) : List Char :=
  cs.dropWhile isSpace

def hexValue? (c : Char) : Option Nat :=
  if '0' ≤ c && c ≤ '9' then some (c.toNat - 48)
  else if 'a' ≤ c && c ≤ 'f' then some (c.toNat - 87)
  else if 'A' ≤ c && c ≤ 'F' then some (c.toNat - 55)
  else none

/-- Four hexadecimal digits that are not the last characters of the text. -/
def readUnit? : List Char → Option (Nat × List Char)
  | a :: b :: c :: d :: e :: rest => do
    let unit := ((← hexValue? a) * 16 + (← hexValue? b)) * 256 + (← hexValue? c) * 16 + (← hexValue? d)
    return (unit, e :: rest)
  | _ => none

def isHighUnit (unit : Nat) : Bool :=
  0xD800 ≤ unit && unit < 0xDC00

def isLowUnit (unit : Nat) : Bool :=
  0xDC00 ≤ unit && unit < 0xE000

/-- A code unit as a character. A unit that needs a partner and has none is replaced. -/
def unitChar (unit : Nat) : Char :=
  if isHighUnit unit || isLowUnit unit then Char.ofNat 0xFFFD else Char.ofNat unit

/-- The character that a letter after a backslash stands for. -/
def escaped? (letter : Char) : Option Char :=
  if letter = '/' then some '/' else (shortEscapes.find? (·.2 = letter)).map (·.1)

/-- The character of an escaped unit, joined with a second escaped unit if the two make a pair. -/
def readEscapedUnit (rest : List Char) : Except Nat (Char × List Char) :=
  match readUnit? rest with
  | none => .error (rest.length + 1)
  | some (unit, rest) =>
    match isHighUnit unit, rest with
    | true, '\\' :: 'u' :: more =>
      if more.length ≤ 4 then .ok (unitChar unit, rest)
      else
        match readUnit? more with
        | none => .error (more.length + 1)
        | some (second, after) =>
          if isLowUnit second then
            .ok (Char.ofNat (65536 + (unit - 0xD800) * 1024 + (second - 0xDC00)), after)
          else .ok (unitChar unit, rest)
    | _, _ => .ok (unitChar unit, rest)

/-- Reads up to the closing quote, in so many steps at most. `opened` counts from the opening quote.
-/
def readText (opened : Nat) : Nat → List Char → Except Misread (List Char × List Char)
  | 0, _ => .error ⟨.openText, opened⟩
  | _, [] => .error ⟨.openText, opened⟩
  | steps + 1, c :: rest =>
    if c = '"' then .ok ([], rest)
    else if c = '\\' then
      match rest with
      | [] => .error ⟨.openText, opened⟩
      | 'u' :: more =>
        match readEscapedUnit more with
        | .error left => .error ⟨.badUnit, left⟩
        | .ok (d, more) => do
          let (ds, left) ← readText opened steps more
          return (d :: ds, left)
      | letter :: more =>
        match escaped? letter with
        | none => misread .badEscape (c :: rest)
        | some d => do
          let (ds, left) ← readText opened steps more
          return (d :: ds, left)
    else if c.toNat < 32 then misread .controlChar (c :: rest)
    else do
      let (ds, left) ← readText opened steps rest
      return (c :: ds, left)

/-- A run of digits and the rest. -/
def spanDigits (cs : List Char) : List Char × List Char :=
  cs.span isAsciiDigit

/-- The digits before the point: no zero stands in front of others. -/
def readWhole : List Char → List Char × List Char
  | '0' :: rest => (['0'], rest)
  | cs => spanDigits cs

/-- A point with at least one digit after it. -/
def readPoint : List Char → List Char × List Char
  | '.' :: rest =>
    let (ds, left) := spanDigits rest
    if ds.isEmpty then ([], '.' :: rest) else ('.' :: ds, left)
  | cs => ([], cs)

/-- The mark of an exponent, an optional sign and at least one digit. -/
def readPower (cs : List Char) : List Char × List Char :=
  match cs with
  | mark :: rest =>
    if mark = 'e' || mark = 'E' then
      let (sign, body) := match rest with
        | '-' :: more => (['-'], more)
        | '+' :: more => (['+'], more)
        | _ => ([], rest)
      let (ds, left) := spanDigits body
      if ds.isEmpty then ([], cs) else (mark :: sign ++ ds, left)
    else ([], cs)
  | [] => ([], cs)

/-- The integer that digits with their sign stand for; `cs` starts with them and goes on with `rest`. -/
def integerOf (digits cs rest : List Char) : Except Misread (Json × List Char) :=
  match hread : Number.readInt (String.ofList digits) with
  | .value n => .ok (int ⟨n, Number.isWritable_of_readInt hread⟩, rest)
  | .tooLong count => misread (.tooLong count) cs
  | .malformed => misread .value cs

def readNumber (cs : List Char) : Except Misread (Json × List Char) :=
  let (sign, body) := match cs with
    | '-' :: rest => (['-'], rest)
    | _ => ([], cs)
  let (whole, afterWhole) := readWhole body
  let (fraction, afterFraction) := readPoint afterWhole
  let (power, rest) := readPower afterFraction
  if whole.isEmpty then misread .value cs
  else if fraction.isEmpty && power.isEmpty then integerOf (sign ++ whole) cs rest
  else
    -- What has this form always spells a number.
    let numeral := String.ofList (sign ++ (whole ++ (fraction ++ power)))
    .ok (float ((Number.readFloat numeral).getD 0), rest)

/-- The words that stand for a value. -/
def words : List (List Char × Json) := [
  ("null".toList, null), ("true".toList, bool true), ("false".toList, bool false),
  ("NaN".toList, float Number.notANumber), ("Infinity".toList, float Number.infinity),
  ("-Infinity".toList, float (-Number.infinity))]

def readWord? (cs : List Char) : Option (Json × List Char) :=
  (words.find? fun (word, _) => word.isPrefixOf cs).map fun (word, j) => (j, cs.drop word.length)

def readQuoted (cs : List Char) : Except Misread (List Char × List Char) :=
  readText (cs.length + 1) (cs.length + 1) cs

mutual

/-- Reads a value; the first argument bounds the number of steps. -/
def readValue : Nat → List Char → Except Misread (Json × List Char)
  | 0, cs => misread .value cs
  | steps + 1, cs =>
    match cs with
    | '"' :: rest => do
      let (s, left) ← readQuoted rest
      return (text (String.ofList s), left)
    | '[' :: rest =>
      match skipSpaces rest with
      | ']' :: left => .ok (list [], left)
      | inner => do
        let (items, left) ← readItems steps inner
        return (list items, left)
    | '{' :: rest =>
      match skipSpaces rest with
      | '}' :: left => .ok (object [], left)
      | inner => do
        let (fields, left) ← readFields steps [] inner
        return (object fields, left)
    | cs =>
      match readWord? cs with
      | some found => .ok found
      | none => readNumber cs

/-- Reads the items of a list up to its closing bracket. -/
def readItems : Nat → List Char → Except Misread (List Json × List Char)
  | 0, cs => misread .value cs
  | steps + 1, cs => do
    let (item, rest) ← readValue steps cs
    match skipSpaces rest with
    | ']' :: left => return ([item], left)
    | ',' :: more =>
      let (items, left) ← readItems steps (skipSpaces more)
      return (item :: items, left)
    | other => misread .comma other

/-- Reads the fields of an object up to its closing brace. A name met again takes the new value. -/
def readFields : Nat → Run.Table Json → List Char → Except Misread (Run.Table Json × List Char)
  | 0, _, cs => misread .value cs
  | steps + 1, before, cs =>
    match cs with
    | '"' :: rest => do
      let (name, afterName) ← readQuoted rest
      match skipSpaces afterName with
      | ':' :: more =>
        let (value, afterValue) ← readValue steps (skipSpaces more)
        let fields := before.insert (String.ofList name) value
        match skipSpaces afterValue with
        | '}' :: left => return (fields, left)
        | ',' :: next => readFields steps fields (skipSpaces next)
        | other => misread .comma other
      | other => misread .colon other
    | other => misread .name other

end

/-- Where a flaw is: its line and column from one, and its position from zero. -/
structure JsonError where
  flaw : Flaw
  line : Nat
  column : Nat
  position : Nat
  deriving DecidableEq, Repr

def JsonError.ofMisread (cs : List Char) (m : Misread) : JsonError :=
  let position := cs.length - m.left
  let before := cs.take position
  { flaw := m.flaw
    line := before.count '\n' + 1
    column := (before.reverse.takeWhile (· != '\n')).length + 1
    position := position }

def JsonError.message (e : JsonError) : String :=
  s!"{e.flaw.wording}: line {e.line} column {e.column} (char {e.position})"

def readDocument (cs : List Char) : Except Misread Json :=
  if cs.head? = some (Char.ofNat 0xFEFF) then misread .byteOrderMark cs
  else
    match readValue (2 * cs.length + 1) (skipSpaces cs) with
    | .error m => .error m
    | .ok (j, rest) =>
      if (skipSpaces rest).isEmpty then .ok j else misread .extra (skipSpaces rest)

def parse (s : String) : Except JsonError Json :=
  (readDocument s.toList).mapError (JsonError.ofMisread s.toList)

end FapLang.Json
