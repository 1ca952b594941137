import FapLang.Run.Statement

/-!
Visiting a node: the step of its rule or terminal runs, with visits one level less deep for the nodes
below. A fault whose text shows the inside of the interpreter becomes a plain one at every level.
-/

namespace FapLang.Run

/-- Marks of the inside of the interpreter. -/
def markers : List String := ["Tree(", "Token(", "visit_"]

def isInternal (message : String) : Bool :=
  markers.any (Text.contains message ·)

/-- The step of a token by the name of its terminal. -/
def tokenStep (kind : String) : Option (Node → Interp Value) :=
  match kind with
  | "STRING" => some visitQuoted
  | "NUMBER" => some visitNumber
  | "IDENT" => some visitIdent
  | "TYPE" => some (visitText "visit_TYPE")
  | "COMPARISON_OP" => some (visitText "visit_COMPARISON_OP")
  | "ADD_OP" => some (visitText "visit_ADD_OP")
  | "MUL_OP" => some (visitText "visit_MUL_OP")
  | "LOGIC_OP" => some (visitText "visit_LOGIC_OP")
  | "unknown_token" => some (visitText "visit_unknown_token")
  | _ => none

/-- The step of a tree by the name of its rule. -/
def treeStep (visit : Visit) (rule : String) : Option (Node → Interp Value) :=
  match rule with
  | "start" => some (visitStart visit)
  | "statement" => some (visitStatement visit)
  | "func_def" => some (visitFuncDef visit)
  | "func_params" => some visitFuncParams
  | "func_call_stmt" => some (visitFuncCallStmt visit)
  | "func_call" => some (visitFuncCall visit)
  | "back_stmt" => some (visitBack visit)
  | "func_args" => some (visitFuncArgs visit)
  | "block" => some (visitBlock visit)
  | "factor" => some (visitFactor visit)
  | "math_func_call" => some (visitMathCall visit)
  | "abs_expr" => some (visitAbs visit)
  | "member_access" => some visitMemberAccess
  | "output_args" => some (visitOutputArgs visit)
  | "expr" => some (visitExpr visit)
  | "term" => some (visitTerm visit)
  | "type_name" => some visitTypeName
  | "unknown" => some visitUnknown
  | "list_def" => some (visitListDef visit)
  | "list_literal" => some (visitListLiteral visit)
  | "list_method_call" => some (visitListMethodCall visit)
  | "list_method" => some visitListMethod
  | "list_access" => some (visitListAccess visit)
  | "assignment" => some (visitAssignment visit)
  | "again_stmt" => some (visitAgain visit)
  | "member_access_expr" => some visitMemberExpr
  | "rep_stop" => some fun _ => visitStop
  | "input_call" => some (visitInput visit)
  | "input_call_as_expr" => some (visitInputExpr visit)
  | "var_def" => some (visitVarDef visit)
  | "const_def" => some (visitConstDef visit)
  | "cause_stmt" => some (visitCause visit)
  | "conditions" => some (visitConditions visit)
  | "logic_op" => some visitLogicOp
  | "condition" => some (visitCondition visit)
  | "output_stmt" => some (visitOutput visit)
  | _ => none

/-- The step with a name, whether of a rule or of a terminal. -/
def namedStep (visit : Visit) (name : String) : Option (Node → Interp Value) :=
  (treeStep visit name).orElse fun _ => tokenStep name

/-- Shows the result of a step in the full trace. -/
def noteResult (label : List Piece) (v : Value) : Interp Unit := do
  if (← get).modes.full then note (label ++ [.lit " -> ", .val v]) else pure ()

def visitToken (visit : Visit) (n : Node) : Interp Value := do
  let kind ← Interp.ofExcept n.tokenKind
  let text ← textOf n
  noteStep ("visit_" ++ kind)
  let v ← ((namedStep visit kind).getD (visitText "visit_unknown_token")) n
  noteResult [.lit "[RUNTIME] Visited token ", .lit kind, .lit " '", .lit text, .lit "'"] v
  return v

def visitTree (visit : Visit) (rule : String) (n : Node) : Interp Value := do
  noteStep ("visit_" ++ rule)
  let step := if rule = "token" then visitToken visit
    else (namedStep visit rule).getD visitUnknown
  let v ← step n
  noteResult [.lit "[RUNTIME] Visited ", .lit rule] v
  return v

/-- One visit; nodes that are neither trees nor tokens stand for themselves. -/
def visitNode (visit : Visit) (n : Node) : Interp Value :=
  match n with
  | .token _ _ => visitToken visit n
  | .tree rule _ => visitTree visit rule n
  | .absent => return .none
  | .plain s => return .text s

def hideInternal (f : Fault) : Fault :=
  if isInternal f.message then .invalidStatement else f

/-- Visits a node, at most as many levels deep as the first argument says. -/
def visit : Nat → Node → Interp Value
  | 0, _ => throw .exhausted
  | depth + 1, n =>
    Interp.recover (visitNode (visit depth) n) fun f => Interp.fail (hideInternal f)

/-- Visits may be nested this deep. -/
def depthLimit : Nat := 1000

end FapLang.Run
