import FapLang.Text.Line
import FapLang.Value.Order

/-!
Operators on values. Besides numbers, lists can be joined, and texts and lists repeated a whole number of
times; a count below one gives the empty text or list.
-/

namespace FapLang

/-- The outcome of an operator: a value, or the items of a list that has no cell yet. -/
inductive Computed
  | value (v : Value)
  | items (vs : Array Value)

namespace Value

def numericOp (operator : String) (op : Numeric → Numeric → Except Fault Numeric) (a b : Value) :
    Except Fault Computed :=
  match a.numeric?, b.numeric? with
  | some m, some n => return .value (ofNumeric (← op m n))
  | _, _ => .error (.operands operator a.typeName b.typeName)

def add (cells : Cells) (a b : Value) : Except Fault Computed :=
  match a, b with
  | list x, list y => .ok (.items (cells.getD x #[] ++ cells.getD y #[]))
  | list _, b => .error (.joinList b.typeName)
  | a, b => numericOp "+" Numeric.add a b

def sub (a b : Value) : Except Fault Computed :=
  numericOp "-" Numeric.sub a b

/-- The number of repetitions that a value stands for. -/
def repeatCount (v : Value) : Except Fault Nat :=
  match v.isInt, v.numeric? with
  | true, some (.int n) =>
    if n.natAbs < Nat.pow 2 63 then .ok n.toNat else .error .repeatTooLarge
  | _, _ => .error (.repeatCount v.typeName)

def repeatText (s : String) (count : Nat) : String :=
  String.join (List.replicate count s)

def repeatItems (items : Array Value) (count : Nat) : Array Value :=
  (List.replicate count items.toList).flatten.toArray

def mul (cells : Cells) (a b : Value) : Except Fault Computed :=
  match a, b with
  | text s, b => return .value (text (repeatText s (← b.repeatCount)))
  | list x, b => return .items (repeatItems (cells.getD x #[]) (← b.repeatCount))
  | a, text s => return .value (text (repeatText s (← a.repeatCount)))
  | a, list x => return .items (repeatItems (cells.getD x #[]) (← a.repeatCount))
  | a, b => numericOp "*" Numeric.mul a b

def div (a b : Value) : Except Fault Computed :=
  numericOp "/" Numeric.div a b

def isZero (v : Value) : Bool :=
  (v.numeric?).any Numeric.isZero

/-- Powers, for numbers of any kind. -/
def pow (a b : Value) : Except Fault Value :=
  match a.numeric?, b.numeric? with
  | some m, some n => return ofNumeric (← Numeric.pow m n)
  | _, _ => .error (.operands "** or pow()" a.typeName b.typeName)

/-- Whether a name is one of the keys, items or parts of a value. -/
def holds (cells : Cells) (v : Value) (name : String) : Except Fault Bool :=
  match v with
  | text s => .ok (Text.contains s name)
  | list cell => .ok ((cells.getD cell #[]).any fun item => equal cells item (text name))
  | v =>
    match v.fields? with
    | some fields => .ok (fields.any (·.1 == name))
    | Option.none => .error (.notContainer v.typeName)

/-- The member of a value under a name. -/
def member (v : Value) (name : String) : Except Fault Value :=
  match v with
  | text _ => .error .textIndex
  | list _ => .error .listIndex
  | v =>
    match v.fields? with
    | some fields =>
      match fields.lookup name with
      | some w => .ok w
      | Option.none => .error (.keyMissing name)
    | Option.none => .error (.notIndexable v.typeName)

end Value

end FapLang
