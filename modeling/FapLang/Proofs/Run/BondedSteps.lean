import FapLang.Proofs.Grammar.Orderly
import FapLang.Proofs.Run.Bonds

/-!
Steps that visit. A lawful bond between the visits of the nodes below a node holds between its
steps, if all else that a step leads to, such as the bodies of functions, is backed (`Bond.Backs`,
`Bond.Supports`).
-/

namespace FapLang

variable {c n : Node} {ns rest : List Node}

namespace Node

/-- If the first child is a token, it spells the name. -/
def Heads (n : Node) (name : String) : Prop :=
  ∀ kind text rest, n.kids = .token kind text :: rest → text = name

/-- The functions that are built in. -/
def builtinFunctions : List String := ["squFor", "rootFor", "d.root", "t.root"]

/-- The nodes below a node that are visited with it: of a function definition only the name is. -/
def inner : Node → List Node
  | tree rule cs => if rule = "func_def" then cs.take 1 else cs
  | _ => []

theorem inner_eq_kids (h : n.rule? ≠ some "func_def") : n.inner = n.kids := by
  cases n with
  | tree rule cs => exact if_neg fun hrule => h (congrArg some hrule)
  | token | absent | plain => rfl

theorem mem_inner_of_head {target : Node} (h : n.kids = target :: rest) : target ∈ n.inner := by
  cases n with
  | tree rule cs =>
    obtain rfl : cs = target :: rest := h
    rw [inner]
    split
    · exact .head _
    · exact .head _
  | token | absent | plain => exact absurd h (List.cons_ne_nil _ _).symm

theorem mem_kids_of_mem_inner (h : c ∈ n.inner) : c ∈ n.kids := by
  cases n with
  | tree rule cs =>
    rw [inner] at h
    split at h
    · exact List.mem_of_mem_take h
    · exact h
  | token | absent | plain => exact h

theorem exists_of_mem_argumentNodes (h : c ∈ Run.argumentNodes ns) : ∃ n ∈ ns, c ∈ n.kids := by
  unfold Run.argumentNodes at h
  split at h
  · exact ⟨_, List.mem_cons_of_mem _ (.head _), h⟩
  · cases h

/-- A node that a visit of the second one may come to without a call. -/
inductive Within : Node → Node → Prop
  | refl (n : Node) : Within n n
  | inner {m c n : Node} (hc : c ∈ n.inner) (hm : Within m c) : Within m n

theorem Within.trans {k m : Node} (h : k.Within m) (hm : m.Within n) : k.Within n := by
  induction hm with
  | refl => exact h
  | inner hc _ ih => exact .inner hc ih

/-- What the nodes that are visited with a node take over from it, all those below take over. -/
theorem Within.takesOver {P : Node → Prop} (hP : ∀ n, P n → ∀ c ∈ n.inner, P c) {m : Node} (h : m.Within n)
    (hn : P n) : P m := by
  induction h with
  | refl => exact hn
  | inner hc _ ih => exact ih (hP _ hn _ hc)

end Node

namespace Run

open Interp
open Node (activeRules)

/-- The name of a definition is bound to its function. -/
def settleFunction (name : String) (params body : Node) : Interp Value := do
  let cell := (← get).cells.size
  let list ← newList (declaredParams params).toArray
  let current := (← get).current
  defineFunc current name { params := cell, body := body, scope := current }
  markDefined name
  note ["[RUNTIME] Defined function ", name, " with typed params ", list]
  return .none

/-- A call of a list method, once the method is known. -/
def callMethod (visit : Visit) (n : Node) (method : ListMethod) : Interp Value := do
  let cs ← childrenOf n
  let name ← nameOf visit (← child cs 0)
  if ← isFaulty name then return .none
  else
    match ← namedList? name with
    | none => return .none
    | some cell => do
      match method with
      | .add => addElement visit name cell cs
      | .clear => clearElements name cell cs
      return .none

/-- What a loop does with a count that it accepts: it gives the number of iterations. -/
def openLoop (times : Value) : Interp Nat := do
  note ["[RUNTIME] Starting loop: ", times, " iterations"]
  setBreaking false
  match ← Interp.ofExcept times.toInt with
  | .int count => return count.toNat
  | _ => return 0

/-- What a loop does before its iterations: it gives their number, unless it is refused. -/
def beginLoop (visit : Visit) (parts : LoopParts) : Interp (Option Nat) := do
  let times ← visit parts.times
  if ← isLoopCount times then
    return some (← openLoop times)
  else
    report "Loop times must be a non-negative number"
    return none

/-- What an iteration does before its block. -/
def beginLap (parts : LoopParts) (i : Nat) : Interp Unit := do
  note ["[RUNTIME] Loop iteration: ", toString i]
  if parts.var.isEmpty then pure ()
  else
    define parts.var (.int i)
    note ["[RUNTIME] Set repeat variable '", parts.var, "' = ", toString i]

/-- What a loop does after its iterations. -/
def endLoop (name : String) : Interp Unit := do
  dropRepeatVar name
  setBreaking false

/-- Whether the loop goes on after a block. -/
def endLap (i : Nat) : Interp Bool := do
  if (← get).breaking then
    note ["[RUNTIME] Loop break at iteration ", toString i]
    return false
  else return true

/-- What a request to return does with its value. -/
def giveBack (v : Value) : Interp Value := do
  modify fun s => { s with result := v }
  modify fun s => { s with returning := true }
  note ["[RUNTIME] Return statement with value: ", (← get).result]
  return .none

theorem runIteration_eq (visit : Visit) (parts : LoopParts) (i : Nat) : runIteration visit parts i = (do
      beginLap parts i
      let _ ← visitBlock visit parts.block
      endLap i) := by
  unfold runIteration beginLap endLap
  split <;> simp [bind_assoc]

/-- The iterations of a loop that is not refused. -/
def runLaps (visit : Visit) (parts : LoopParts) : Option Nat → Interp Unit
  | some count => do
    runIterations visit parts count 1
    endLoop parts.var
  | none => pure ()

theorem runLoop_eq (visit : Visit) (parts : LoopParts) :
    runLoop visit parts = beginLoop visit parts >>= runLaps visit parts := by
  unfold runLoop beginLoop openLoop
  simp only [bind_assoc]
  refine bind_congr fun times => bind_congr fun counts => ?_
  cases counts with
  | false => simp [runLaps]
  | true =>
    simp only [if_true, bind_assoc]
    refine bind_congr fun _ => bind_congr fun _ => bind_congr fun count => ?_
    cases count <;> simp [runLaps, runIterations, endLoop]

theorem heads_of_cons {target : Node} {name : String} (hkids : n.kids = target :: rest)
    (hname : ∀ kind text, target = .token kind text → text = name) : n.Heads name := by
  intro kind text others hheads
  rw [hkids] at hheads
  exact hname kind text (List.cons.inj hheads).1

theorem exists_cons_of_getElem?_zero (h : ns[0]? = some n) : ∃ rest, ns = n :: rest := by
  cases ns with
  | nil => cases h
  | cons first rest => exact ⟨rest, congrArg (· :: rest) (Option.some.inj h)⟩

theorem mem_of_loopParts {parts : LoopParts} (h : LoopParts.of ns = .ok parts) :
    parts.times ∈ ns ∧ parts.block ∈ ns := by
  have hchecked : ∀ {times block : Node} {var : String}, LoopParts.of.checked times var block = .ok parts →
      parts.times = times ∧ parts.block = block := by
    intro times block var hparts
    unfold LoopParts.of.checked at hparts
    split at hparts
    · rw [← Except.ok.inj hparts]
      exact ⟨rfl, rfl⟩
    · cases hparts
  unfold LoopParts.of at h
  split at h
  · cases h
  · cases h
  iterate 3
    · obtain ⟨htimes, hblock⟩ := hchecked h
      simp [htimes, hblock]
  · cases h

namespace Bond

variable {B : Bond} {first second : Visit} {n : Node}

/-! ### Expressions -/

namespace Lawful

variable (hB : B.Lawful)

include hB

/-- The name that a token gives is its text. -/
theorem nameOf (h : B.rel B.admits (first n) (second n)) :
    B.rel (fun name => ∀ kind text, n = .token kind text → text = name) (nameOf first n) (nameOf second n) := by
  cases n with
  | token kind text => exact hB.pure fun _ _ heq => (Node.token.inj heq).2.symm
  | tree | absent | plain =>
    exact hB.after h fun v => hB.weaken (hB.nameOfValue v) fun _ _ _ _ heq => absurd heq (by simp)

theorem visitAll (h : B.Visits first second ns) :
    B.rel (fun vs => ∀ v ∈ vs, B.admits v) (visitAll first ns) (visitAll second ns) := by
  induction ns with
  | nil => exact hB.pure (by simp)
  | cons n rest ih =>
    obtain ⟨hn, hrest⟩ := List.forall_mem_cons.mp h
    exact hB.bind hn fun v hv => hB.bind (ih hrest) fun vs hvs => hB.pure (List.forall_mem_cons.mpr ⟨hv, hvs⟩)

theorem foldOperators {apply : Value → Value → Value → Interp Progress}
    (happly : ∀ op left right, B.Keeps (apply op left right)) (h : B.Visits first second ns)
    (left : Value) : B.Agrees (foldOperators first apply left ns) (foldOperators second apply left ns) := by
  induction ns using List.twoStepInduction generalizing left with
  | nil => exact hB.done
  | singleton op => exact hB.after (h op (.head _)) fun _ => hB.fail _
  | cons_cons op operand rest ih _ =>
    obtain ⟨hop, hrest⟩ := List.forall_mem_cons.mp h
    obtain ⟨hopd, hrest⟩ := List.forall_mem_cons.mp hrest
    refine hB.after hop fun _ => hB.after hopd fun _ => hB.after (happly _ _ _) fun progress => ?_
    cases progress with
    | more v => exact ih hrest v
    | done v => exact hB.done

variable (h : B.Visits first second n.kids)

include h

theorem visitChain (step : String) {apply : Value → Value → Value → Interp Progress}
    (happly : ∀ op left right, B.Keeps (apply op left right)) :
    B.Agrees (visitChain step apply first n) (visitChain step apply second n) := by
  refine hB.begins <| hB.kids h fun cs h => ?_
  split
  · exact hB.fail _
  · exact hB.agrees (h _ (.head _))
  · obtain ⟨hfirst, hrest⟩ := List.forall_mem_cons.mp h
    exact hB.after hfirst fun left => hB.foldOperators happly hrest left

theorem visitPower : B.Agrees (visitPower first n) (visitPower second n) := by
  refine hB.noted <| hB.kids h fun cs h => ?_
  split
  · refine hB.after (h _ (by simp)) fun _ => hB.after (h _ (by simp)) fun _ => hB.noted ?_
    refine either (hB.zeroWith _) (either (hB.zeroWith _) ?_)
    exact hB.recover (hB.powerOf _ _) fun _ => hB.zeroWith _
  · exact hB.zeroWith _

theorem visitRoot : B.Agrees (visitRoot first n) (visitRoot second n) := by
  refine hB.noted <| hB.kids h fun cs h => ?_
  split
  · refine hB.after (h _ (by simp)) fun v => hB.after (h _ (by simp)) fun degree => hB.noted ?_
    refine either (hB.zeroWith _) ?_
    split
    · exact hB.after (hB.format _) fun _ => hB.zeroWith _
    · refine hB.look fun s t hst => ?_
      rw [hst.cells]
      refine either (hB.squareRoot v) (either (hB.cubeRoot v) ?_)
      exact hB.after (hB.format _) fun _ => hB.zeroWith _
  · exact hB.zeroWith _

theorem visitSquareRoot : B.Agrees (visitSquareRoot first n) (visitSquareRoot second n) := by
  refine hB.noted <| hB.kids h fun cs h => ?_
  split
  · exact hB.after (h _ (by simp)) fun v => either (hB.zeroWith _) (hB.squareRoot v)
  · exact hB.zeroWith _

theorem visitCubeRoot : B.Agrees (visitCubeRoot first n) (visitCubeRoot second n) := by
  refine hB.noted <| hB.kids h fun cs h => ?_
  split
  · exact hB.after (h _ (by simp)) fun v => either (hB.zeroWith _) (hB.cubeRoot v)
  · exact hB.zeroWith _

theorem visitAbs : B.Agrees (visitAbs first n) (visitAbs second n) := by
  refine hB.begins <| hB.kids h fun cs h => ?_
  split
  · exact hB.zeroWith _
  · refine hB.after (h _ (by simp)) fun v => hB.noted ?_
    refine either (hB.zeroWith _) (either (hB.zeroWith _) ?_)
    exact hB.last hB.notes

theorem visitListLiteral : B.Agrees (visitListLiteral first n) (visitListLiteral second n) :=
  hB.begins <| hB.kids h fun _ h => hB.bind (hB.visitAll h) fun _ hvs => hB.listOf hvs

theorem visitFuncArgs : B.Agrees (visitFuncArgs first n) (visitFuncArgs second n) :=
  hB.begins <| hB.kids h fun _ h => hB.bind (hB.visitAll h) fun _ hvs => hB.listOf hvs

theorem visitListAccess : B.Agrees (visitListAccess first n) (visitListAccess second n) := by
  refine hB.begins <| hB.kids h fun cs h => ?_
  refine hB.child fun target _ htarget => hB.child fun index _ hindex => ?_
  refine hB.after (hB.nameOf (h target htarget)) fun name => hB.after (h index hindex) fun v => ?_
  refine hB.unlessFaulty <| hB.after (hB.namedList? name) fun cell? => ?_
  cases cell? with
  | some cell => exact hB.elementAt cell v
  | none => exact hB.done

theorem visitCondition : B.Agrees (visitCondition first n) (visitCondition second n) := by
  refine hB.begins <| hB.kids h fun cs h => ?_
  refine hB.child fun left _ hleft => hB.after (h left hleft) fun _ => ?_
  refine hB.child fun op _ hop => hB.after (h op hop) fun _ => ?_
  refine hB.child fun right _ hright => hB.after (h right hright) fun _ => ?_
  refine hB.noted <| hB.recover (hB.compareValues _ _ _) fun f => ?_
  split
  · exact hB.last (hB.report _)
  · exact hB.fail f

omit h in
theorem visitConditionParts (h : B.Visits first second ns) (results ops : List Value) :
    B.Agrees (visitConditionParts first ns results ops) (visitConditionParts second ns results ops) := by
  induction ns generalizing results ops with
  | nil => exact hB.done
  | cons n rest ih =>
    obtain ⟨hn, hrest⟩ := List.forall_mem_cons.mp h
    unfold Run.visitConditionParts
    split
    · exact hB.after hn fun _ => hB.noted <| ih hrest _ _
    · exact hB.after hn fun _ => hB.noted <| ih hrest _ _
    · exact ih hrest _ _

theorem visitConditions : B.Agrees (visitConditions first n) (visitConditions second n) := by
  refine hB.begins <| hB.kids h fun cs h => hB.noted ?_
  split
  · exact hB.done
  · exact hB.after (h _ (by simp)) fun _ => hB.last hB.notes
  · exact hB.after (hB.visitConditionParts h [] []) fun parts => hB.combineConditions parts.1 parts.2

/-! ### Input and output -/

theorem visitInputExpr : B.Agrees (visitInputExpr first n) (visitInputExpr second n) := by
  refine hB.begins <| hB.kids h fun cs h => ?_
  split
  · exact hB.last (hB.report _)
  · refine hB.after (h _ (by simp)) fun prompt => hB.noted ?_
    refine hB.after (hB.strOf prompt) fun shown => hB.after (hB.readLine shown) fun outcome => ?_
    split
    · exact hB.last hB.notes
    · exact hB.last (hB.report _)
    · exact hB.last (hB.report _)

theorem visitInput : B.Agrees (visitInput first n) (visitInput second n) :=
  hB.begins <| hB.last (hB.visitInputExpr h)

omit h in
theorem outputTexts (h : B.Visits first second ns) (i : Nat) :
    B.Agrees (outputTexts first i ns) (outputTexts second i ns) := by
  induction ns generalizing i with
  | nil => exact hB.done
  | cons n rest ih =>
    obtain ⟨hn, hrest⟩ := List.forall_mem_cons.mp h
    unfold Run.outputTexts
    split
    · exact hB.last (hB.report _)
    · refine hB.after hn fun v => either (hB.last (hB.report _)) ?_
      refine hB.after (hB.argumentText v) fun text? => ?_
      cases text? with
      | none => exact hB.done
      | some text =>
        refine hB.after (ih hrest (i + 1)) fun texts? => ?_
        cases texts? with
        | none => exact hB.done
        | some texts => exact hB.done

theorem visitOutput (hargs : ∀ rule, n.rule? = some rule → B.Visits first second (argumentNodes n.kids))
    (hprints : ∀ rule, n.rule? = some rule → ∀ severity message, B.Keeps (writeMessage severity message)) :
    B.Agrees (visitOutput first n) (visitOutput second n) := by
  refine hB.begins <| hB.tree fun rule hrule => hB.child fun target _ htarget => ?_
  refine either ?_ (hB.last (hB.report _))
  refine hB.after (h target htarget) fun v => hB.noted <| hB.after (hB.strOf v) fun name => ?_
  refine hB.next (either (hB.report _) ?_) fun _ => hB.done
  split
  · exact hB.report _
  · refine hB.after (hB.outputTexts (hargs rule hrule) 1) fun texts? => ?_
    cases texts? with
    | none => exact hB.done
    | some texts => exact hprints rule hrule _ _

omit h in
theorem outputArgs (h : B.Visits first second ns) {args : List Value} (hargs : ∀ v ∈ args, B.admits v) :
    B.rel (fun vs => ∀ v ∈ vs, B.admits v) (outputArgs first ns args) (outputArgs second ns args) := by
  induction ns generalizing args with
  | nil => exact hB.pure hargs
  | cons n rest ih =>
    obtain ⟨hn, hrest⟩ := List.forall_mem_cons.mp h
    have hmore : ∀ v, B.admits v → ∀ w ∈ args ++ [v], B.admits w :=
      fun v hv => List.forall_mem_append.mpr ⟨hargs, List.forall_mem_singleton.mpr hv⟩
    rw [Run.outputArgs.eq_def, Run.outputArgs.eq_def]
    split
    · exact hB.pure hargs
    · exact hB.after (hB.report _) fun _ => hB.pure (by simp)
    · next heq =>
      cases heq
      refine hB.bind hn fun v hv => either (hB.after (hB.report _) fun _ => hB.pure (by simp)) (either ?_ ?_)
      · exact hB.after (hB.strOf v) fun text => ih hrest (hmore _ (hB.admits_text text))
      · exact ih hrest (hmore v hv)

theorem visitOutputArgs : B.Agrees (visitOutputArgs first n) (visitOutputArgs second n) :=
  hB.begins <| hB.kids h fun _ h => hB.bind (hB.outputArgs h (by simp)) fun _ hvs => hB.listOf hvs

/-! ### Calls of built-in functions -/

/-- Other functions than those built in are asked for. -/
theorem visitMathCall (hcall : ∀ kind name rest, n.kids = .token kind name :: rest → name ∉ Node.builtinFunctions →
      B.Agrees (visitFuncCall first n) (visitFuncCall second n)) :
    B.Agrees (visitMathCall first n) (visitMathCall second n) := by
  refine hB.begins <| hB.tree fun _ _ => hB.noted ?_
  split
  · exact hB.zeroWith _
  · next kind name rest hkids =>
    refine hB.noted <| hB.after (hB.markUsed name) fun _ => ?_
    split
    · exact hB.visitPower h
    · exact hB.visitRoot h
    · exact hB.visitSquareRoot h
    · exact hB.visitCubeRoot h
    · next hpower hroot hsquare hcube =>
      refine hcall kind name rest hkids ?_
      simpa [Node.builtinFunctions] using ⟨hpower, hroot, hsquare, hcube⟩
  · exact hB.zeroWith _

end Lawful

/-! ### Statements -/

namespace Binding

variable (hB : B.Binding)

include hB

theorem declareVar (type name : String) : B.Keeps (declareVar type name) := by
  have hdefault : B.admits (defaultOf type) := by
    unfold defaultOf
    split
    · exact hB.short (by decide +kernel)
    · exact hB.short rfl
    · exact hB.short rfl
    · exact hB.short rfl
  exact hB.after (hB.define name hdefault) fun _ => hB.after (hB.markDefined name) fun _ => hB.notes

theorem reassign (name : String) {v : Value} (hv : B.admits v) : B.Keeps (reassign name v) := by
  refine hB.after (hB.isConstant name) fun _ => either (hB.report _) (hB.after (hB.valueOf name) fun old => ?_)
  refine either (hB.report _) (hB.bind (hB.cast hv _ name) fun w hw => either hB.done ?_)
  exact hB.after (hB.setValue name hw) fun _ => hB.after (hB.markAssigned name) fun _ => hB.notes

theorem dropRepeatVar (name : String) : B.Keeps (dropRepeatVar name) :=
  either hB.done (hB.after (hB.isDefined name) fun _ => either (hB.dropVar name) hB.done)

theorem visitStop : B.Keeps visitStop :=
  hB.begins <| hB.after (hB.setBreaking true) fun _ => hB.last hB.notes

theorem clearElements (name : String) (cell : Nat) (cs : List Node) : B.Keeps (clearElements name cell cs) := by
  unfold Run.clearElements
  split
  · exact hB.report _
  · refine hB.after (hB.setItems cell (by simp)) fun _ => hB.after (hB.setValue name (hB.short ?_)) fun _ => ?_
    · exact Value.isShort_list cell
    · exact hB.after (hB.markAssigned name) fun _ => hB.notes

theorem addElement {cs : List Node} (h : B.Visits first second cs) (name : String) (cell : Nat) :
    B.Agrees (addElement first name cell cs) (addElement second name cell cs) := by
  unfold Run.addElement
  split
  · refine hB.bind (h _ (by simp)) fun v hv => hB.after (hB.setItems cell fun items hitems w hw => ?_) fun _ => ?_
    · rcases Array.mem_push.mp hw with hold | rfl
      · exact hitems w hold
      · exact hv
    · refine hB.after (hB.setValue name (hB.short (Value.isShort_list cell))) fun _ => ?_
      exact hB.after (hB.markAssigned name) fun _ => hB.notes
  · exact hB.report _

theorem initVar {value : Node} (h : B.rel B.admits (first value) (second value)) (type name : String) :
    B.Agrees (initVar first type name value) (initVar second type name value) := by
  refine hB.bind h fun v hv => hB.noted ?_
  refine hB.bind (hB.castInitial hv type name) fun w hw => either hB.done ?_
  refine hB.after (hB.define name hw) fun _ => hB.after (hB.markAssigned name) fun _ => ?_
  exact hB.after (hB.markDefined name) fun _ => hB.notes

theorem visitAll_ (h : B.Visits first second ns) : B.Agrees (visitAll_ first ns) (visitAll_ second ns) := by
  induction ns with
  | nil => exact hB.done
  | cons n rest ih =>
    obtain ⟨hn, hrest⟩ := List.forall_mem_cons.mp h
    exact hB.after hn fun _ => ih hrest

theorem runStatements (h : B.Visits first second ns) : B.Agrees (runStatements first ns) (runStatements second ns) := by
  induction ns with
  | nil => exact hB.done
  | cons n rest ih =>
    obtain ⟨hn, hrest⟩ := List.forall_mem_cons.mp h
    refine either (hB.look fun s t hst => ?_) (ih hrest)
    rw [hst.returning, hst.breaking]
    exact either hB.done (hB.after hn fun _ => ih hrest)

/-- The steps of two visitors, given that their visits of the children are bonded. -/
theorem visitFuncDef (hhead : ∀ target rest, n.kids = target :: rest → B.rel B.admits (first target) (second target))
    (hsettle : ∀ target params body rest, n.kids = target :: params :: body :: rest → ∀ name, n.Heads name →
      B.Keeps (settleFunction name params body)) : B.Agrees (visitFuncDef first n) (visitFuncDef second n) := by
  refine hB.begins <| hB.tree fun _ _ => ?_
  split
  · next target params body rest hkids =>
    refine hB.bind (hB.nameOf (hhead target _ hkids)) fun name hname => hB.unlessFaulty ?_
    refine hB.after (hB.isDefined name) fun _ => either ?_ ?_
    · exact hB.blamed _ name hB.done
    · exact hsettle target params body rest hkids name (heads_of_cons hkids hname)
  · exact hB.last (hB.report _)

section Loops

variable {parts : LoopParts} (hblock : B.Agrees (visitBlock first parts.block) (visitBlock second parts.block))

include hblock

theorem runIteration {i : Nat} (hi : B.admits (.int i)) :
    B.Agrees (runIteration first parts i) (runIteration second parts i) := by
  refine hB.noted <| either ?_ (hB.after (hB.define parts.var hi) fun _ => ?_)
  on_goal 2 => refine hB.noted ?_
  all_goals
    refine hB.after hblock fun _ => hB.look fun s t hst => ?_
    rw [hst.breaking]
    exact either (hB.last hB.notes) hB.done

theorem runIterations {count left i : Nat} (hcount : ∀ i ≤ count, B.admits (.int i)) (hleft : i + left ≤ count + 1) :
    B.Agrees (runIterations first parts left i) (runIterations second parts left i) := by
  induction left generalizing i with
  | zero => exact hB.done
  | succ left ih =>
    exact hB.after (hB.runIteration hblock (hcount i (by omega))) fun _ => either (ih (by omega)) hB.done

omit hblock in
/-- The numbers of the iterations are admitted. -/
theorem beginLoop (htimes : B.rel B.admits (first parts.times) (second parts.times)) :
    B.rel (fun count? => ∀ count : Nat, count? = some count → ∀ i : Nat, i ≤ count → B.admits (.int i))
      (beginLoop first parts) (beginLoop second parts) := by
  refine hB.bind htimes fun times htimes => hB.after (hB.isLoopCount times) fun _ => either ?_ ?_
  · have hopen : B.rel (fun count => ∀ i : Nat, i ≤ count → B.admits (.int i)) (openLoop times) (openLoop times) := by
      refine hB.noted <| hB.after (hB.setBreaking false) fun _ => ?_
      refine hB.bind (hB.ofExcept fun _ hv => hv) fun v (hv : times.toInt = .ok v) => ?_
      split
      · exact hB.pure fun _ hi => hB.count htimes hv hi
      · refine hB.pure fun i hi => ?_
        rw [Nat.le_zero.mp hi]
        exact hB.short (by decide +kernel)
    exact hB.bind hopen fun count hcount => hB.pure fun _ heq => Option.some.inj heq ▸ hcount
  · exact hB.after (hB.report _) fun _ => hB.pure (by simp)

theorem runLoop (htimes : B.rel B.admits (first parts.times) (second parts.times)) :
    B.Agrees (runLoop first parts) (runLoop second parts) := by
  rw [runLoop_eq, runLoop_eq]
  refine hB.bind (hB.beginLoop htimes) fun count? hcount => ?_
  cases count? with
  | none => exact hB.done
  | some count =>
    refine hB.after (hB.runIterations hblock (hcount count rfl) (by omega)) fun _ => ?_
    exact hB.after (hB.dropRepeatVar parts.var) fun _ => hB.setBreaking false

end Loops

variable (h : B.Visits first second n.kids)

include h

theorem visitStart : B.Agrees (visitStart first n) (visitStart second n) :=
  hB.begins <| hB.kids h fun _ h => hB.last (hB.visitAll_ h)

theorem visitStatement : B.Agrees (visitStatement first n) (visitStatement second n) := by
  refine hB.begins <| hB.kids h fun cs h => ?_
  split
  · exact hB.done
  · exact hB.last (h _ (by simp))

theorem visitBlock : B.Agrees (visitBlock first n) (visitBlock second n) := by
  refine hB.begins ?_
  split
  · exact hB.last (hB.runStatements h)
  · exact hB.done

theorem visitVarDef : B.Agrees (visitVarDef first n) (visitVarDef second n) := by
  refine hB.begins <| hB.kids h fun cs h => hB.child fun typeNode _ _ => ?_
  refine hB.after (hB.declaredType typeNode) fun type => hB.noted ?_
  refine either (hB.last (hB.report _)) (hB.child fun target _ htarget => ?_)
  refine hB.after (hB.nameOf (h target htarget)) fun name => hB.unlessFaulty ?_
  refine hB.after (hB.isDefined name) fun _ => either (hB.blamed _ name hB.done) ?_
  clear htarget
  dsimp only
  split
  · exact hB.last (hB.initVar (h _ (by simp)) type name)
  · exact hB.last (hB.declareVar type name)

theorem visitListDef : B.Agrees (visitListDef first n) (visitListDef second n) := by
  refine hB.begins <| hB.kids h fun cs h => ?_
  refine hB.child fun target _ htarget => hB.child fun literal _ hliteral => ?_
  refine hB.after (hB.nameOf (h target htarget)) fun name => hB.unlessFaulty ?_
  refine hB.after (hB.isDefined name) fun _ => either (hB.blamed _ name hB.done) ?_
  refine hB.bind (h literal hliteral) fun v hv => hB.after (hB.define name hv) fun _ => ?_
  refine hB.after (hB.markDefined name) fun _ => hB.after (hB.markAssigned name) fun _ => ?_
  exact hB.last hB.notes

theorem visitAssignment : B.Agrees (visitAssignment first n) (visitAssignment second n) := by
  refine hB.begins <| hB.kids h fun cs h => ?_
  refine hB.child fun target _ htarget => hB.child fun value _ hvalue => ?_
  refine hB.after (hB.nameOf (h target htarget)) fun name => hB.bind (h value hvalue) fun v hv => ?_
  refine hB.noted <| hB.unlessFaulty ?_
  refine hB.after (hB.isDefined name) fun _ => either (hB.last (hB.reassign name hv)) ?_
  refine hB.after (hB.define name hv) fun _ => hB.after (hB.markDefined name) fun _ => ?_
  exact hB.after (hB.markAssigned name) fun _ => hB.last hB.notes

theorem callMethod (method : ListMethod) : B.Agrees (callMethod first n method) (callMethod second n method) := by
  refine hB.kids h fun cs h => hB.child fun target _ htarget => ?_
  refine hB.after (hB.nameOf (h target htarget)) fun name => hB.unlessFaulty ?_
  refine hB.after (hB.namedList? name) fun cell? => ?_
  cases cell? with
  | none => exact hB.done
  | some cell =>
    cases method with
    | add => exact hB.last (hB.addElement h name cell)
    | clear => exact hB.last (hB.clearElements name cell cs)

theorem visitBack : B.Agrees (visitBack first n) (visitBack second n) := by
  have hgive : ∀ v, B.Keeps (giveBack v) := by
    intro v
    refine hB.after (hB.setResult v) fun _ => hB.after hB.setReturning fun _ => hB.look fun s t hst => ?_
    rw [hst.result]
    exact hB.last hB.notes
  refine hB.begins <| hB.kids h fun cs h => ?_
  dsimp only
  split
  · exact hB.after (h _ (by simp)) hgive
  · exact hgive .none

theorem visitCause (hblocks : ∀ c ∈ n.kids, B.Agrees (Run.visitBlock first c) (Run.visitBlock second c)) :
    B.Agrees (visitCause first n) (visitCause second n) := by
  refine hB.begins <| hB.tree fun _ _ => ?_
  refine hB.child fun conditions _ hconds => hB.child fun block _ hblock => ?_
  refine either ?_ (hB.last (hB.report _))
  refine hB.after (h conditions hconds) fun v => hB.noted <| hB.after (hB.truth v) fun _ => ?_
  refine either (hB.noted <| hB.last (hblocks block hblock)) ?_
  cases hother : n.kids[2]? with
  | none => exact hB.done
  | some other =>
    refine either (hB.noted ?_) hB.done
    exact hB.last (hblocks other (List.mem_of_getElem? hother))

theorem visitAgain (hblocks : ∀ c ∈ n.kids, B.Agrees (Run.visitBlock first c) (Run.visitBlock second c)) :
    B.Agrees (visitAgain first n) (visitAgain second n) := by
  refine hB.begins <| hB.tree fun _ _ => ?_
  split
  · exact hB.last (hB.report _)
  · next parts hparts =>
    obtain ⟨htimes, hblock⟩ := mem_of_loopParts hparts
    exact hB.last (hB.runLoop (hblocks _ hblock) (h _ htimes))

end Binding

/-! ### Constants and calls -/

namespace Calling

variable (hB : B.Calling)

include hB

theorem initConst {value : Node} (h : B.rel B.admits (first value) (second value)) (type name : String) :
    B.Agrees (initConst first type name value) (initConst second type name value) := by
  refine hB.bind h fun v hv => hB.noted ?_
  refine hB.bind (hB.castInitial hv type name) fun w hw => either hB.done (hB.look fun s t hst => ?_)
  rw [hst.current]
  refine hB.after (hB.defineConst _ name hw) fun _ => hB.after (hB.markAssigned name) fun _ => ?_
  exact hB.after (hB.markDefined name) fun _ => hB.notes

theorem visitConstDef (h : B.Visits first second n.kids) :
    B.Agrees (visitConstDef first n) (visitConstDef second n) := by
  refine hB.begins <| hB.kids h fun cs h => ?_
  split
  · refine hB.after (hB.declaredType _) fun type => hB.noted ?_
    refine either (hB.last (hB.report _)) ?_
    refine hB.after (hB.nameOf (h _ (by simp))) fun name => hB.unlessFaulty ?_
    refine hB.after (hB.isDefined name) fun _ => either (hB.blamed _ name hB.done) ?_
    exact hB.last (hB.initConst (h _ (by simp)) type name)
  · exact hB.last (hB.report _)

theorem bindAll (scope : Nat) {bound : List (String × Value)} (hbound : ∀ entry ∈ bound, B.admits entry.2) :
    B.Keeps (bindAll scope bound) := by
  induction bound with
  | nil => exact hB.done
  | cons entry rest ih =>
    obtain ⟨hentry, hrest⟩ := List.forall_mem_cons.mp hbound
    exact hB.after (hB.defineVar scope entry.1 hentry) fun _ => ih hrest

theorem runBody {body : Node} (h : B.rel B.admits (first body) (second body)) (scope : Nat) :
    B.Agrees (runBody first body scope) (runBody second body scope) := by
  refine hB.look fun s t hst => ?_
  rw [hst.current, hst.result, hst.returning]
  refine hB.after (hB.restore _ _ _) fun _ => hB.after (hB.tidy ?_ (hB.restore _ _ _)) fun _ => ?_
  · exact hB.last h
  · refine hB.look fun s' t' hst' => ?_
    rw [hst'.result]
    exact hB.last (hB.restore _ _ _)

theorem callFunction {cs : List Node} {f : Function} (hargs : B.Visits first second (callArgs cs))
    (hbody : B.rel B.admits (first f.body) (second f.body)) (name : String) :
    B.Agrees (callFunction first name f cs) (callFunction second name f cs) := by
  refine hB.bind (hB.visitAll hargs) fun args hadmits => hB.after (hB.itemsOf _) fun params => ?_
  refine hB.after (hB.asks _) fun sig => either (hB.last (hB.report _)) ?_
  have hpairs : ∀ pair ∈ (sig.map (·.1)).zip args, B.admits pair.2 :=
    fun pair hpair => hadmits pair.2 (List.of_mem_zip hpair).2
  refine hB.bind (hB.castArgs name sig hpairs 1) fun bound? hbound => ?_
  cases bound? with
  | none => exact hB.done
  | some bound =>
    refine hB.noted <| hB.next (hB.after (hB.newScope _) fun scope => ?_) fun _ => ?_
    · exact hB.after (hB.bindAll scope (hbound bound rfl)) fun _ => hB.runBody hbody scope
    · exact hB.last hB.notes

theorem visitFuncCall (h : B.Visits first second n.kids) (hargs : B.Visits first second (callArgs n.kids))
    (hcalls : ∀ rule, n.rule? = some rule → ∀ name, n.Heads name → ∀ f, B.knows name f →
      B.rel B.admits (first f.body) (second f.body)) : B.Agrees (visitFuncCall first n) (visitFuncCall second n) := by
  refine hB.begins <| hB.tree fun rule hrule => hB.child fun target hget htarget => ?_
  refine hB.bind (hB.nameOf (h target htarget)) fun name hname => ?_
  obtain ⟨rest, hkids⟩ := exists_cons_of_getElem?_zero hget
  refine hB.after (hB.markUsed name) fun _ => hB.unlessFaulty ?_
  refine hB.after (hB.isFunction name) fun _ => either ?_ (hB.blamed _ name hB.done)
  refine hB.bind (hB.function? name) fun f? hf => ?_
  cases f? with
  | none => exact hB.last (hB.report _)
  | some f => exact hB.callFunction hargs (hcalls rule hrule name (heads_of_cons hkids hname) f (hf f rfl)) name

end Calling

/-! ### Nodes that are backed -/

/-- What the step of a node leads to is bonded. -/
structure Backs (B : Bond) (first second : Visit) (n : Node) : Prop where
  inner : B.Visits first second n.inner
  arguments : n.rule? = some "output_stmt" → B.Visits first second (argumentNodes n.kids)
  prints : n.rule? = some "output_stmt" → ∀ severity message, B.Keeps (writeMessage severity message)
  warns : ∀ name, n = .token "IDENT" name → ∀ v, B.Keeps (warnUnassigned name v)
  calls : n.rule? = some "func_call" ∨ n.rule? = some "func_call_stmt" →
    B.Agrees (visitFuncCall first n) (visitFuncCall second n)
  mathCalls : n.rule? = some "math_func_call" → ∀ kind name rest, n.kids = .token kind name :: rest →
    name ∉ Node.builtinFunctions → B.Agrees (visitFuncCall first n) (visitFuncCall second n)
  consts : n.rule? = some "const_def" → B.Agrees (visitConstDef first n) (visitConstDef second n)
  settles : n.rule? = some "func_def" → ∀ target params body rest, n.kids = target :: params :: body :: rest →
    ∀ name, n.Heads name → B.Keeps (settleFunction name params body)

/-- All that a visit of the node may come to is backed. -/
def Supports (B : Bond) (first second : Visit) (n : Node) : Prop :=
  ∀ m, m.Within n → B.Backs first second m

namespace Supports

variable (h : B.Supports first second n)

include h

theorem backs : B.Backs first second n :=
  h n (.refl n)

theorem of_mem (hn : n.rule? ≠ some "func_def") (hc : c ∈ n.kids) : B.Supports first second c :=
  fun m hm => h m (.inner (Node.inner_eq_kids hn ▸ hc) hm)

theorem kids (hn : n.rule? ≠ some "func_def") : B.Visits first second n.kids :=
  fun c hc => h.backs.inner c (Node.inner_eq_kids hn ▸ hc)

end Supports

/-- The name is the rule or the kind of the node. -/
def Fits (n : Node) (name : String) : Prop :=
  n.rule? = some name ∨ ∃ text, n = .token name text

namespace Fits

variable {name : String} (h : Fits n name)

include h

theorem rule {rule : String} (hrule : n.rule? = some rule) : rule = name := by
  rcases h with h | ⟨text, rfl⟩
  · exact Option.some.inj (hrule.symm.trans h)
  · simp [Node.rule?] at hrule

theorem kind {kind text : String} (hn : n = .token kind text) : kind = name := by
  rcases h with h | ⟨text, rfl⟩
  · simp [hn, Node.rule?] at h
  · exact (Node.token.inj hn).1.symm

theorem rule_eq_of_cons (hkids : n.kids = c :: rest) : n.rule? = some name := by
  rcases h with h | ⟨text, rfl⟩
  · exact h
  · exact absurd hkids (List.cons_ne_nil _ _).symm

end Fits

/-! ### Steps by name -/

namespace Lawful

variable (hB : B.Lawful)

include hB

/-- Without children a step that asks for them fails. -/
theorem childless (hn : n.rule? = none) (step : String) (k k' : List Node → Interp Value) :
    B.Agrees (do Run.noteStep step; k (← Run.childrenOf n)) (do Run.noteStep step; k' (← Run.childrenOf n)) :=
  hB.begins <| hB.tree fun rule hrule => absurd (hn.symm.trans hrule) (by simp)

variable {name : String} (hfits : Fits n name) (h : B.Supports first second n)

include hfits h

theorem visitCallOf (hname : name = "func_call" ∨ name = "func_call_stmt") :
    B.Agrees (visitFuncCall first n) (visitFuncCall second n) := by
  cases hrule : n.rule? with
  | none => exact hB.childless hrule _ _ _
  | some rule =>
    obtain rfl := hfits.rule hrule
    rcases hname with rfl | rfl
    · exact h.backs.calls (.inl hrule)
    · exact h.backs.calls (.inr hrule)

theorem visitMathCallOf (hname : name = "math_func_call") :
    B.Agrees (Run.visitMathCall first n) (Run.visitMathCall second n) := by
  refine hB.visitMathCall (h.kids fun hdef => ?_) fun kind name rest hkids => ?_
  · exact absurd ((hfits.rule hdef).trans hname) (by decide)
  · exact h.backs.mathCalls (hname ▸ hfits.rule_eq_of_cons hkids) kind name rest hkids

omit hfits in
/-- A factor runs some steps of its child itself. -/
theorem visitFactor (hn : n.rule? ≠ some "func_def") : B.Agrees (visitFactor first n) (visitFactor second n) := by
  refine hB.begins <| hB.tree fun _ _ => ?_
  split
  · next only hkids =>
    have honly : only ∈ n.kids := hkids ▸ (.head _)
    have hsupports := h.of_mem hn honly
    have hbelow : ∀ {rule}, only.rule? = some rule → rule ≠ "func_def" → B.Visits first second only.kids :=
      fun hrule hne => hsupports.kids fun hdef => hne (Option.some.inj (hrule.symm.trans hdef))
    split
    · next hrule => exact hB.visitMathCallOf (.inl hrule) hsupports rfl
    · next hrule => exact hB.visitInputExpr (hbelow hrule (by decide))
    · exact hB.visitMemberExpr only
    · next hrule => exact hB.visitListLiteral (hbelow hrule (by decide))
    · next hrule => exact hB.visitListAccess (hbelow hrule (by decide))
    · next hrule => exact hB.visitAbs (hbelow hrule (by decide))
    · next hrule => exact hsupports.backs.calls (.inl hrule)
    · exact hB.agrees (h.kids hn only honly)
  · exact hB.child fun c _ hc => hB.agrees (h.kids hn c hc)

/-- The step of a name that is not active. -/
theorem namedStep (hname : activeRules.contains name = false) {default : Node → Interp Value}
    (hdefault : B.Keeps (default n)) (hlogic : name = "logic_op" → B.Keeps (visitLogicOp n)) :
    B.Agrees ((namedStep first name).getD default n) ((namedStep second name).getD default n) := by
  have hn : n.rule? ≠ some "func_def" := by
    intro hdef
    rw [← hfits.rule hdef] at hname
    exact absurd hname (by decide)
  have hkids := h.kids hn
  unfold Run.namedStep treeStep
  split
  · exact absurd hname (by decide)
  · exact absurd hname (by decide)
  · exact absurd hname (by decide)
  · exact hB.visitFuncParams n
  · refine hB.begins <| hB.last (hB.visitCallOf hfits h (.inr rfl))
  · exact hB.visitCallOf hfits h (.inl rfl)
  · exact absurd hname (by decide)
  · exact hB.visitFuncArgs hkids
  · exact absurd hname (by decide)
  · exact hB.visitFactor h hn
  · exact hB.visitMathCallOf hfits h rfl
  · exact hB.visitAbs hkids
  · exact hB.visitMemberAccess n
  · exact hB.visitOutputArgs hkids
  · exact hB.visitChain hkids _ hB.applyInSum
  · exact hB.visitChain hkids _ hB.applyInProduct
  · exact hB.visitTypeName n
  · exact hB.visitUnknown n
  · exact absurd hname (by decide)
  · exact hB.visitListLiteral hkids
  · exact absurd hname (by decide)
  · exact hB.visitListMethod n
  · exact hB.visitListAccess hkids
  · exact absurd hname (by decide)
  · exact absurd hname (by decide)
  · exact hB.visitMemberExpr n
  · exact absurd hname (by decide)
  · exact hB.visitInput hkids
  · exact hB.visitInputExpr hkids
  · exact absurd hname (by decide)
  · exact absurd hname (by decide)
  · exact absurd hname (by decide)
  · exact hB.visitConditions hkids
  · exact hlogic rfl
  · exact hB.visitCondition hkids
  · refine hB.visitOutput hkids (fun rule hrule => ?_) fun rule hrule => ?_
    · exact h.backs.arguments (hfits.rule hrule ▸ hrule)
    · exact h.backs.prints (hfits.rule hrule ▸ hrule)
  · unfold tokenStep
    split
    · exact hB.visitQuoted n
    · exact hB.visitNumber n
    · exact hB.visitIdent fun kind name heq => h.backs.warns name (hfits.kind heq ▸ heq)
    iterate 6
      · exact hB.visitText _ n
    · exact hdefault

end Lawful

namespace Binding

variable (hB : B.Binding)

include hB

theorem blockOf (h : B.Supports first second n) : B.Agrees (Run.visitBlock first n) (Run.visitBlock second n) := by
  by_cases hn : n.rule? = some "func_def"
  · refine hB.begins ?_
    split
    · simp [Node.rule?] at hn
    · exact hB.done
  · exact hB.visitBlock (h.kids hn)

variable {name : String} (hfits : Fits n name) (h : B.Supports first second n)

include hfits h

/-- The step of any name; those that look at the source are asked for. -/
theorem namedStep {default : Node → Interp Value} (hdefault : B.Keeps (default n))
    (hlogic : name = "logic_op" → B.Keeps (visitLogicOp n))
    (hmeth : name = "list_method_call" → B.Agrees (visitListMethodCall first n) (visitListMethodCall second n)) :
    B.Agrees ((namedStep first name).getD default n) ((namedStep second name).getD default n) := by
  cases hactive : activeRules.contains name with
  | false => exact hB.toLawful.namedStep hfits h hactive hdefault hlogic
  | true =>
    have hn : name ≠ "func_def" → n.rule? ≠ some "func_def" := fun hne hdef => hne (hfits.rule hdef).symm
    have hkids : name ≠ "func_def" → B.Visits first second n.kids := fun hne => h.kids (hn hne)
    have hblocks : name ≠ "func_def" → ∀ c ∈ n.kids, B.Agrees (Run.visitBlock first c) (Run.visitBlock second c) :=
      fun hne c hc => hB.blockOf (h.of_mem (hn hne) hc)
    have hcases := List.contains_iff_mem.mp hactive
    simp only [activeRules, List.mem_cons, List.not_mem_nil, or_false] at hcases
    rcases hcases with rfl | rfl | rfl | rfl | rfl | rfl | rfl | rfl | rfl | rfl | rfl | rfl | rfl | rfl
    · exact hdefault
    · exact hB.visitStart (hkids (by decide))
    · exact hB.visitStatement (hkids (by decide))
    · exact hB.blockOf h
    · exact hB.visitCause (hkids (by decide)) (hblocks (by decide))
    · exact hB.visitAgain (hkids (by decide)) (hblocks (by decide))
    · refine hB.visitFuncDef (fun target rest hcs => h.backs.inner target (Node.mem_inner_of_head hcs)) ?_
      exact fun target params body rest hcs => h.backs.settles (hfits.rule_eq_of_cons hcs) target params body rest hcs
    · cases hrule : n.rule? with
      | none => exact hB.childless hrule _ _ _
      | some rule => exact h.backs.consts (hfits.rule hrule ▸ hrule)
    · exact hB.visitVarDef (hkids (by decide))
    · exact hB.visitListDef (hkids (by decide))
    · exact hB.visitAssignment (hkids (by decide))
    · exact hmeth rfl
    · exact hB.visitStop
    · exact hB.visitBack (hkids (by decide))

end Binding

namespace Plain

variable (hP : B.Plain)

include hP

theorem admitted {m m' : Interp Value} (h : B.Agrees m m') : B.rel B.admits m m' :=
  hP.weaken h fun v _ => hP.any v

theorem visitListMethodCall (hB : B.Binding) (h : B.Visits first second n.kids) :
    B.Agrees (visitListMethodCall first n) (visitListMethodCall second n) := by
  refine hP.begins <| hP.after hP.currentMethod fun method? => ?_
  cases method? with
  | none => exact hP.last (hP.report _)
  | some method => exact hB.callMethod h method

variable (hstep : ∀ name, Fits n name → ∀ default : Node → Interp Value, B.Keeps (default n) →
  B.Agrees ((namedStep first name).getD default n) ((namedStep second name).getD default n))

include hstep

theorem visitToken : B.Agrees (visitToken first n) (visitToken second n) := by
  refine hP.bind (hP.kindOf n) fun kind hkind => hP.after (hP.textOf n) fun text => hP.begins ?_
  obtain ⟨name, rfl⟩ := hkind
  refine hP.after (hstep kind (.inr ⟨name, rfl⟩) _ (hP.visitText _ _)) fun v => ?_
  exact hP.last (hP.noteResult isRuntime_lead _ v)

/-- The visits of a node are bonded if the steps that go with it are. -/
theorem visitNode : B.rel B.admits (visitNode first n) (visitNode second n) := by
  refine hP.admitted ?_
  cases n with
  | tree rule cs =>
    refine hP.begins <| hP.next ?_ fun v => ?_
    · split
      · exact hP.visitToken hstep
      · exact hstep rule (.inl rfl) _ (hP.visitUnknown _)
    · exact hP.last (hP.noteResult isRuntime_lead _ v)
  | token kind text => exact hP.visitToken hstep
  | absent | plain => exact hP.done

end Plain

end Bond

end Run

end FapLang
