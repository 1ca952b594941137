import FapLang.Number.Complex
import FapLang.Number.Numeral
import FapLang.Text.Quoted

/-!
What a bench gives back: a plain datum or a container of such. Lists and tuples keep their order and
repetitions; sets and the keys of a mapping do not, and are listed here in some order.
-/

namespace FapLang.Measure

inductive Outcome
  | none
  | bool (b : Bool)
  | int (n : Int)
  | float (x : Float)
  | complex (z : Number.Complex)
  | text (s : String)
  | bytes (bs : List UInt8)
  | byteArray (bs : List UInt8)
  | range (n : Int)
  | list (items : List Outcome)
  | tuple (items : List Outcome)
  | set (items : List Outcome)
  | frozenSet (items : List Outcome)
  | mapping (entries : List (Outcome × Outcome))
  deriving Inhabited

namespace Outcome

def typeName : Outcome → String
  | none => "NoneType"
  | bool _ => "bool"
  | int _ => "int"
  | float _ => "float"
  | complex _ => "complex"
  | text _ => "str"
  | bytes _ => "bytes"
  | byteArray _ => "bytearray"
  | range _ => "range"
  | list _ => "list"
  | tuple _ => "tuple"
  | set _ => "set"
  | frozenSet _ => "frozenset"
  | mapping _ => "dict"

/-- One inside so many lists. -/
def nested : Nat → Outcome
  | 0 => int 1
  | depth + 1 => list [nested depth]

/-- The list of the integers below a bound. -/
def upTo (bound : Nat) : Outcome :=
  list ((List.range bound).map fun (n : Nat) => int n)

/-- Bytes as a quoted text of their ASCII characters. -/
def bytesText (bs : List UInt8) : String :=
  let cs := bs.map fun b => Char.ofNat b.toNat
  let mark := Text.quoteMark cs
  let written := fun (c : Char) =>
    if c.toNat < 128 then Text.escapeChar mark c else '\\' :: 'x' :: Text.hexDigits 2 c.toNat
  String.ofList ('b' :: mark :: cs.flatMap written ++ [mark])

def braced (items : String) : String :=
  "\x7b" ++ items ++ "\x7d"

mutual

/-- The text of an outcome inside a container. -/
def shown : Outcome → String
  | none => "None"
  | bool b => if b then "True" else "False"
  | int n => Number.intText n
  | float x => Number.floatText x
  | complex z => z.text
  | text s => Text.quoted s
  | bytes bs => bytesText bs
  | byteArray bs => "bytearray(" ++ bytesText bs ++ ")"
  | range n => "range(0, " ++ Number.intText n ++ ")"
  | list items => "[" ++ shownAll items ++ "]"
  | tuple items =>
    match items with
    | [item] => "(" ++ shown item ++ ",)"
    | items => "(" ++ shownAll items ++ ")"
  | set items => if items.isEmpty then "set()" else braced (shownAll items)
  | frozenSet items =>
    if items.isEmpty then "frozenset()" else "frozenset(" ++ braced (shownAll items) ++ ")"
  | mapping entries => braced (shownEntries entries)

def shownAll : List Outcome → String
  | [] => ""
  | [item] => shown item
  | item :: rest => shown item ++ ", " ++ shownAll rest

def shownEntries : List (Outcome × Outcome) → String
  | [] => ""
  | [(key, value)] => shown key ++ ": " ++ shown value
  | (key, value) :: rest => shown key ++ ": " ++ shown value ++ ", " ++ shownEntries rest

end

/-- The text of an outcome by itself: a text stands for itself. -/
def str : Outcome → String
  | text s => s
  | o => o.shown

end Outcome

end FapLang.Measure
