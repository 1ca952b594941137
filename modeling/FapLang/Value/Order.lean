import FapLang.Value.Basic

/-!
Equality and order of values. Numbers compare by their exact values whatever their kind, texts by code
points, lists item by item; other pairs are different and have no order.
-/

namespace FapLang

inductive Relation
  | less
  | lessEqual
  | greater
  | greaterEqual
  deriving DecidableEq, Repr

namespace Relation

def symbol : Relation → String
  | less => "<"
  | lessEqual => "<="
  | greater => ">"
  | greaterEqual => ">="

def holds : Relation → Ordering → Bool
  | less, o => o == .lt
  | lessEqual, o => o != .gt
  | greater, o => o == .gt
  | greaterEqual, o => o != .lt

end Relation

namespace Value

/-- Two values in lists are one and the same; a number which differs from itself is one with itself.
-/
def isSame : Value → Value → Bool
  | float x, float y => x.toBits == y.toBits
  | list a, list b => a == b
  | _, _ => false

def equalWithin (cells : Cells) : Nat → Value → Value → Bool
  | 0, _, _ => false
  | fuel + 1, a, b =>
    match a, b with
    | none, none => true
    | text s, text t => s == t
    | list x, list y =>
      let xs := (cells.getD x #[]).toList
      let ys := (cells.getD y #[]).toList
      x == y || (xs.length == ys.length && (xs.zip ys).all fun pair =>
        isSame pair.1 pair.2 || equalWithin cells fuel pair.1 pair.2)
    | node m, node n => m == n
    | scope x, scope y => x == y
    | a, b =>
      match a.numeric?, b.numeric? with
      | some m, some n => m.equal n
      | _, _ =>
        match a.fields?, b.fields? with
        | some fs, some gs => fs.length == gs.length && fs.all fun field =>
            match gs.lookup field.1 with
            | some v => isSame field.2 v || equalWithin cells fuel field.2 v
            | Option.none => false
        | _, _ => false

def equal (cells : Cells) (a b : Value) : Bool :=
  equalWithin cells nestingLimit a b

def orderWithin (cells : Cells) (r : Relation) : Nat → Value → Value → Except Fault Bool
  | 0, a, b => .error (.unordered r.symbol a.typeName b.typeName)
  | fuel + 1, a, b =>
    match a, b with
    | text s, text t => .ok (r.holds (compare s t))
    | list x, list y =>
      let xs := (cells.getD x #[]).toList
      let ys := (cells.getD y #[]).toList
      match (xs.zip ys).find? fun pair => !(isSame pair.1 pair.2 || equal cells pair.1 pair.2) with
      | some (u, v) => orderWithin cells r fuel u v
      | Option.none => .ok (r.holds (compare xs.length ys.length))
    | a, b =>
      match a.numeric?, b.numeric? with
      | some (.complex _), some _ | some _, some (.complex _) =>
        .error (.unordered r.symbol a.typeName b.typeName)
      | some m, some n => .ok ((m.compare? n).any r.holds)
      | _, _ => .error (.unordered r.symbol a.typeName b.typeName)

def order (cells : Cells) (r : Relation) (a b : Value) : Except Fault Bool :=
  orderWithin cells r nestingLimit a b

end Value

end FapLang
