import FapLang.Text.Quoted

/-!
Trees of programs. A node is a tree with the name of its rule, a token with the name of its terminal, an
absent optional part, or a plain text.
-/

namespace FapLang

inductive Node
  | tree (rule : String) (children : List Node)
  | token (terminal : String) (text : String)
  | absent
  | plain (text : String)
  deriving Inhabited, Repr

namespace Node

mutual

def beq : Node → Node → Bool
  | tree r cs, tree s ds => r == s && beqAll cs ds
  | token _ a, token _ b => a == b
  | token _ a, plain b => a == b
  | plain a, token _ b => a == b
  | absent, absent => true
  | plain a, plain b => a == b
  | _, _ => false

def beqAll : List Node → List Node → Bool
  | [], [] => true
  | c :: cs, d :: ds => beq c d && beqAll cs ds
  | _, _ => false

end

instance : BEq Node := ⟨beq⟩

mutual

/-- The text of a node as a constructor expression. -/
def text : Node → String
  | tree rule children =>
    let label := if rule.startsWith "type_" then Text.quoted rule
      else "Token('RULE', " ++ Text.quoted rule ++ ")"
    "Tree(" ++ label ++ ", [" ++ String.intercalate ", " (textAll children) ++ "])"
  | token terminal text => "Token(" ++ Text.quoted terminal ++ ", " ++ Text.quoted text ++ ")"
  | absent => "None"
  | plain text => Text.quoted text

def textAll : List Node → List String
  | [] => []
  | c :: cs => text c :: textAll cs

end

end Node

end FapLang
