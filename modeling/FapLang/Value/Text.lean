import FapLang.Number.Numeral
import FapLang.Value.Basic

/-!
Texts of values. A text stands for itself, but inside a list or a record it is quoted. A list met again
inside itself is cut short. An integer of too many digits has no text, and neither has any value that
holds one.
-/

namespace FapLang.Value

/-- Whether every integer inside a value can be written. `path` holds the lists already entered. -/
def isWritableWithin (cells : Cells) : Nat → List Nat → Value → Bool
  | 0, _, _ => true
  | _ + 1, _, int n => Number.isWritable n
  | fuel + 1, path, list cell =>
    path.contains cell ||
      (cells.getD cell #[]).all fun item => isWritableWithin cells fuel (cell :: path) item
  | fuel + 1, path, record fields =>
    fields.all fun field => isWritableWithin cells fuel path field.2
  | fuel + 1, path, function f => isWritableWithin cells fuel path (list f.params)
  | _ + 1, _, _ => true

def isWritable (cells : Cells) (v : Value) : Bool :=
  isWritableWithin cells nestingLimit [] v

def atomText : Value → String
  | none => "None"
  | bool true => "True"
  | bool false => "False"
  | int n => Number.intText n
  | float x => Number.floatText x
  | complex z => z.text
  | text s => Text.quoted s
  | node n => n.text
  | scope _ => "<scope>"
  | list _ | record _ | function _ => "..."

def fieldsText (fields : List (String × String)) : String :=
  "\x7b" ++ String.intercalate ", " (fields.map fun field => Text.quoted field.1 ++ ": " ++ field.2) ++
    "\x7d"

/-- The text of a value inside another one. -/
def inner (cells : Cells) : Nat → List Nat → Value → String
  | 0, _, v => atomText v
  | fuel + 1, path, list cell =>
    if path.contains cell then "[...]"
    else
      "[" ++ String.intercalate ", "
        ((cells.getD cell #[]).toList.map (inner cells fuel (cell :: path))) ++ "]"
  | fuel + 1, path, record fields =>
    fieldsText (fields.map fun field => (field.1, inner cells fuel path field.2))
  | fuel + 1, path, function f =>
    fieldsText [("params", inner cells fuel path (list f.params)), ("body", f.body.text),
      ("env", "<scope>")]
  | _ + 1, _, v => atomText v

/-- The text of a value by itself, as if every integer could be written. -/
def shown (cells : Cells) : Value → String
  | text s => s
  | node (.plain s) | node (.token _ s) => s
  | v => inner cells nestingLimit [] v

/-- The text of a value. -/
def str (cells : Cells) (v : Value) : Except Fault String :=
  if v.isWritable cells then .ok (v.shown cells) else .error .tooManyDigits

end FapLang.Value
