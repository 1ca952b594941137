import FapLang.Run.Cast

/-!
Access to the parts of a node. Nodes need not have the shape of the grammar; asking for a part that is
not there is a fault.
-/

namespace FapLang

namespace Node

/-- The rule of a tree; other nodes have none. -/
def rule? : Node → Option String
  | tree rule _ => some rule
  | _ => none

def isTree (n : Node) : Bool :=
  n.rule?.isSome

def hasRule (n : Node) (rule : String) : Bool :=
  n.rule? == some rule

def children : Node → Except Fault (List Node)
  | tree _ cs => .ok cs
  | n => .error (.noMember n.typeName "children")

/-- The text of a token. -/
def tokenText : Node → Except Fault String
  | token _ text => .ok text
  | n => .error (.noMember n.typeName "value")

def tokenKind : Node → Except Fault String
  | token kind _ => .ok kind
  | n => .error (.noMember n.typeName "type")

def childAt (cs : List Node) (i : Nat) : Except Fault Node :=
  match cs[i]? with
  | some c => .ok c
  | none => .error .childMissing

def isTruthy : Node → Bool
  | tree _ _ => true
  | token _ text | plain text => !text.isEmpty
  | absent => false

end Node

namespace Run

/-- How a step runs the nodes below its own. -/
abbrev Visit := Node → Interp Value

def childrenOf (n : Node) : Interp (List Node) :=
  Interp.ofExcept n.children

def child (cs : List Node) (i : Nat) : Interp Node :=
  Interp.ofExcept (Node.childAt cs i)

def textOf (n : Node) : Interp String :=
  Interp.ofExcept n.tokenText

/-- A value used as a name. -/
def nameOfValue (v : Value) : Interp String :=
  match v with
  | .text s => pure s
  | .list _ | .record _ | .function _ => Interp.fail (.notHashable v.typeName)
  | v => strOf v

/-- A name given by a token, or by the value of another node. -/
def nameOf (visit : Visit) (n : Node) : Interp String :=
  match n with
  | .token _ text => pure text
  | n => do nameOfValue (← visit n)

/-- Runs nodes in order and collects their values. -/
def visitAll (visit : Visit) : List Node → Interp (List Value)
  | [] => pure []
  | n :: rest => do
    let v ← visit n
    return v :: (← visitAll visit rest)

end Run

end FapLang
