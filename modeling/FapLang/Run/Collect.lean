import FapLang.Run.Shape

/-!
The names that a program defines anywhere, collected before it runs.
-/

namespace FapLang.Run

/-- Notes a name that a node defines, unless it is faulty. -/
def collectName (what : String) (n : Node) : Interp Unit :=
  match n with
  | .token "IDENT" name => do
    if ← isFaulty name then pure ()
    else
      markDefined name
      note ["[RUNTIME] Defined ", what, ": ", name]
  | _ => pure ()

/-- The name that a definition defines. -/
def collectTarget (rule : String) (cs : List Node) : Interp Unit :=
  match rule with
  | "var_def" => do collectName "variable" (← child cs 1)
  | "const_def" => do collectName "constant" (← child cs 1)
  | "list_def" => do collectName "list" (← child cs 0)
  | "assignment" => do collectName "variable via assignment" (← child cs 0)
  | "func_def" => do collectName "function" (← child cs 0)
  | _ => pure ()

/-- Statements that may stand in a block without a node of their own around them. -/
def bareStatements : List String :=
  ["var_def", "const_def", "list_def", "assignment", "output_stmt", "cause_stmt", "input_call",
    "again_stmt", "list_method_call", "func_def", "func_call_stmt", "back_stmt"]

def isBareStatement (n : Node) : Bool :=
  n.rule?.any bareStatements.contains

mutual

def collect : Node → Interp Unit
  | .tree rule cs => do
    collectTarget rule cs
    match rule with
    | "cause_stmt" => do
      let _ ← child cs 1
      collectBlockAt 1 cs
      match cs[2]? with
      | none => pure ()
      | some (.tree _ _) => collectBlockAt 2 cs
      | some other => Interp.fail (.noMember other.typeName "data")
    | "again_stmt" =>
      if 2 < cs.length then collectBlockAt 2 cs
      else do
        let _ ← child cs 1
        collectBlockAt 1 cs
    | _ => pure ()
    collectTrees cs
  | _ => pure ()

/-- Collects from all trees among the nodes. -/
def collectTrees : List Node → Interp Unit
  | [] => pure ()
  | n :: rest => do
    if n.isTree then collect n else pure ()
    collectTrees rest

/-- Collects from the bare statements of the block at a position. -/
def collectBlockAt : Nat → List Node → Interp Unit
  | _, [] => pure ()
  | 0, n :: _ => collectBlock n
  | i + 1, _ :: rest => collectBlockAt i rest

def collectBlock : Node → Interp Unit
  | .tree rule cs => if rule = "block" then collectBare cs else pure ()
  | _ => pure ()

def collectBare : List Node → Interp Unit
  | [] => pure ()
  | n :: rest => do
    if isBareStatement n then collect n else pure ()
    collectBare rest

end

end FapLang.Run
