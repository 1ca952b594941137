import FapLang.Grammar.Node
import FapLang.Number.Arith

/-!
Values of running programs. A list value is the number of a cell in a store, so lists are shared. A
function carries its parameters, its body and the scope it was defined in, and answers to those
three names like a record.
-/

namespace FapLang

structure Function where
  /-- The cell of the list of parameters. -/
  params : Nat
  body : Node
  /-- The scope of the definition. -/
  scope : Nat

inductive Value
  | none
  | bool (b : Bool)
  | int (n : Int)
  | float (x : Float)
  | complex (z : Number.Complex)
  | text (s : String)
  | list (cell : Nat)
  | record (fields : List (String × Value))
  | function (f : Function)
  | node (n : Node)
  | scope (id : Nat)
  deriving Inhabited

/-- The items of every list, by cell. -/
abbrev Cells := Array (Array Value)

/-- Values are looked into at most this deep. -/
def nestingLimit : Nat := 1000

def Node.typeName : Node → String
  | .tree _ _ => "Tree"
  | .token _ _ => "Token"
  | .absent => "NoneType"
  | .plain _ => "str"

namespace Value

def typeName : Value → String
  | none => "NoneType"
  | bool _ => "bool"
  | int _ => "int"
  | float _ => "float"
  | complex _ => "complex"
  | text _ => "str"
  | list _ => "list"
  | record _ | function _ => "dict"
  | node n => n.typeName
  | scope _ => "Environment"

def isNone : Value → Bool
  | none | node .absent => true
  | _ => false

/-- Truth values count as integers. -/
def isInt : Value → Bool
  | bool _ | int _ => true
  | _ => false

def isFloat : Value → Bool
  | float _ => true
  | _ => false

def isReal (v : Value) : Bool :=
  v.isInt || v.isFloat

def isText : Value → Bool
  | text _ => true
  | _ => false

def isList : Value → Bool
  | list _ => true
  | _ => false

def numeric? : Value → Option Numeric
  | bool b => some (.int (if b then 1 else 0))
  | int n => some (.int n)
  | float x => some (.float x)
  | complex z => some (.complex z)
  | _ => Option.none

def ofNumeric : Numeric → Value
  | .int n => int n
  | .float x => float x
  | .complex z => complex z

/-- The fields of values that have some. -/
def fields? : Value → Option (List (String × Value))
  | record fields => some fields
  | function f => some [("params", list f.params), ("body", node f.body), ("env", scope f.scope)]
  | _ => Option.none

def isTruthy (cells : Cells) : Value → Bool
  | none => false
  | bool b => b
  | int n => n != 0
  | float x => x != 0
  | complex z => z.re != 0 || z.im != 0
  | text s => !s.isEmpty
  | list cell => !(cells.getD cell #[]).isEmpty
  | record fields => !fields.isEmpty
  | function _ => true
  | node .absent => false
  | node (.token _ s) | node (.plain s) => !s.isEmpty
  | node (.tree _ _) => true
  | scope _ => true

end Value

end FapLang
