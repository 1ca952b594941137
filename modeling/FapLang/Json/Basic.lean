import FapLang.Number.Writable
import FapLang.Run.Table

/-!
Documents of the JSON format. Numbers without a fraction and an exponent are integers, which have few enough
digits to be written, and the fields of an object keep their order.
-/

namespace FapLang

inductive Json
  | null
  | bool (b : Bool)
  | int (n : Number.Writable)
  | float (x : Float)
  | text (s : String)
  | list (items : List Json)
  | object (fields : List (String × Json))
  deriving Inhabited

namespace Json

def typeName : Json → String
  | null => "NoneType"
  | bool _ => "bool"
  | int _ => "int"
  | float _ => "float"
  | text _ => "str"
  | list _ => "list"
  | object _ => "dict"

/-- Whether a document counts as absent: zero, an empty text or an empty container, among others. -/
def isEmpty : Json → Bool
  | null => true
  | bool b => !b
  | int n => n.val == 0
  | float x => x == 0
  | text s => s == ""
  | list items => items.isEmpty
  | object fields => fields.isEmpty

/-- A count as a document, if it can be written. -/
def ofNat? (n : Nat) : Option Json :=
  if h : Number.isWritable n = true then some (int ⟨n, h⟩) else none

/-- The characters with an escape of their own, and the letters after its backslash. -/
def shortEscapes : List (Char × Char) := [
  ('"', '"'), ('\\', '\\'), ('\n', 'n'), ('\r', 'r'), ('\t', 't'), (Char.ofNat 8, 'b'),
  (Char.ofNat 12, 'f')]

end Json

end FapLang
