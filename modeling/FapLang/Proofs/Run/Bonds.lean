import FapLang.Proofs.Run.Alike
import FapLang.Proofs.Value.Plain
import Mathlib.Data.List.Induction

/-!
Bonds between the steps of two visitors, or of one with itself (`Bond`). A lawful bond
(`Bond.Lawful`) holds between all steps that visit nothing. An invariant, a simulation between two
runs and the independence of a step from the depth of its visits are bonds.
-/

namespace FapLang

theorem Value.isShort_of_isPlain {v : Value} (h : v.isPlain = true) : v.isShort = true :=
  isWritable_of_isPlain h #[]

theorem Value.isShort_function (f : Function) : (function f).isShort = true := by
  rw [isShort, isWritable, nestingLimit, isWritableWithin, isWritableWithin]
  simp

/-- The children of a tree; other nodes have none. -/
def Node.kids : Node → List Node
  | tree _ cs => cs
  | _ => []

namespace Run

open Interp

variable {α β : Type} {n : Node} {m m' : Interp α}
variable {op : Numeric → Numeric → Except Fault Numeric} {k k' : α → Interp β}

/-- Whether a text begins as the trace lines about runs do. -/
def isRuntime (lead : String) : Bool :=
  "[RUNTIME]".toList.isPrefixOf lead.toList

/-- A list of characters, so that it need not be taken apart where a lemma is applied. -/
abbrev runtimeLead (cs : List Char) : String :=
  String.ofList ('[' :: 'R' :: 'U' :: 'N' :: 'T' :: 'I' :: 'M' :: 'E' :: ']' :: cs)

theorem isRuntime_lead {cs : List Char} : isRuntime (runtimeLead cs) = true := by
  rw [isRuntime, String.toList_ofList, String.toList_ofList]
  rfl

/-- A way in which steps may be related. -/
structure Bond where
  /-- What the values are like that visits return and that sessions hold. -/
  admits : Value → Prop
  /-- The functions for which a name may stand. -/
  knows : String → Function → Prop
  /-- The steps are related, and the values that they return are as the predicate says. -/
  rel {α : Type} (ok : α → Prop) (first second : Interp α) : Prop

namespace Bond

/-- Related steps, whatever they return. -/
abbrev Agrees (B : Bond) (first second : Interp α) : Prop :=
  B.rel (fun _ ↦ True) first second

/-- A step that is related to itself. -/
abbrev Keeps (B : Bond) (m : Interp α) : Prop :=
  B.Agrees m m

/-- The visits of some nodes are related. -/
abbrev Visits (B : Bond) (first second : Visit) (ns : List Node) : Prop :=
  ∀ c ∈ ns, B.rel B.admits (first c) (second c)

/-- The values of a piece are admitted. -/
def Shows (B : Bond) : Piece → Prop
  | .lit _ => True
  | .val v => B.admits v
  | .all vs => ∀ v ∈ vs, B.admits v

/-- Two sessions that related steps may look at. -/
structure Seen (B : Bond) (s t : Session) : Prop extends SameRecords s t where
  items : ∀ cell, ∀ v ∈ s.cells.getD cell #[], B.admits v
  vars : ∀ id, ∀ entry ∈ (s.scope id).vars, B.admits entry.2
  constants : ∀ id, ∀ entry ∈ (s.scope id).constants, B.admits entry.2
  functions : ∀ id, ∀ entry ∈ (s.scope id).functions, B.knows entry.1 entry.2

end Bond

/-- A name that is not bound is reported, and becomes faulty once. -/
def lament (message name : String) : Interp Value := do
  report message
  if ← isFaulty name then pure () else blame name
  return .none

/-- A bond between steps if it holds between their visits, as long as nothing is bound or called. -/
structure Bond.Lawful (B : Bond) : Prop where
  pure {α : Type} {ok : α → Prop} {a : α} (ha : ok a) : B.rel ok (pure a) (pure a)
  fail {α : Type} {ok : α → Prop} (f : Fault) : B.rel ok (Interp.fail f) (Interp.fail f)
  bind {α β : Type} {ok : α → Prop} {ok' : β → Prop} {m m' : Interp α} {k k' : α → Interp β} (hm : B.rel ok m m')
    (hk : ∀ a, ok a → B.rel ok' (k a) (k' a)) : B.rel ok' (m >>= k) (m' >>= k')
  recover {α : Type} {m : Interp α} {handler : Fault → Interp α} (hm : B.Keeps m) (hhandler : ∀ f, B.Keeps (handler f)) :
    B.Keeps (Interp.recover m handler)
  look {α : Type} {ok : α → Prop} {k k' : Session → Interp α} (hk : ∀ s t, B.Seen s t → B.rel ok (k s) (k' t)) :
    B.rel ok (get >>= k) (get >>= k')
  noteStep (step : String) : B.Keeps (noteStep step)
  note {lead : String} (h : isRuntime lead = true) (rest : List Piece) : B.Keeps (note (.lit lead :: rest))
  report (message : String) : B.Keeps (report message)
  blaming (message name : String) : B.Keeps (do Run.report message; blame name)
  lament (message name : String) : B.Keeps (lament message name)
  markUsed (name : String) : B.Keeps (markUsed name)
  markDefined (name : String) : B.Keeps (markDefined name)
  newList {items : Array Value} (h : ∀ v ∈ items, B.admits v) : B.Keeps (newList items)
  announce (id : Nat) (step name : String) : B.Keeps (announce id step [.lit name])
  announceOutcome (id : Nat) {message : List Piece} (h : ∀ piece ∈ message, B.Shows piece) :
    B.Keeps (announceOutcome id message)
  readLine (message : String) : B.Keeps (readLine (colour "94" ("[INFO] " ++ message)))
  short {v : Value} (h : v.isShort = true) : B.admits v
  castInt {v w : Value} (hv : B.admits v) (h : v.castInt = .ok w) : B.admits w

/-- A lawful bond that also holds of what statements do. -/
structure Bond.Binding (B : Bond) : Prop extends Bond.Lawful B where
  markAssigned (name : String) : B.Keeps (markAssigned name)
  setItems (cell : Nat) {f : Array Value → Array Value}
    (hf : ∀ items, (∀ v ∈ items, B.admits v) → ∀ v ∈ f items, B.admits v) : B.Keeps (setItems cell f)
  define (name : String) {v : Value} (hv : B.admits v) : B.Keeps (define name v)
  setValue (name : String) {v : Value} (hv : B.admits v) : B.Keeps (setValue name v)
  dropVar (name : String) : B.Keeps (do
    let s ← get
    setScope s.current fun scope => { scope with vars := scope.vars.erase name })
  setBreaking (b : Bool) : B.Keeps (setBreaking b)
  setResult (v : Value) : B.Keeps (modify fun s => { s with result := v })
  setReturning : B.Keeps (modify fun s => { s with returning := true })
  count {v : Value} {n : Int} (hv : B.admits v) (h : v.toInt = .ok (.int n)) {i : Nat} (hi : i ≤ n.toNat) :
    B.admits (.int i)

/-- A bond under which calls are steps like others. -/
structure Bond.Calling (B : Bond) : Prop extends Bond.Binding B where
  defineVar (id : Nat) (name : String) {v : Value} (hv : B.admits v) : B.Keeps (defineVar id name v)
  defineConst (id : Nat) (name : String) {v : Value} (hv : B.admits v) : B.Keeps (defineConst id name v)
  newScope (parent : Nat) : B.Keeps (newScope parent)
  restore (scope : Nat) (result : Value) (returning : Bool) : B.Keeps (restore scope result returning)
  tidy {m m' : Interp Unit} (hm : B.Agrees m m') {rest : Interp Unit} (hrest : B.Keeps rest) :
    B.Agrees (Interp.recover m fun f => do rest; Interp.fail f) (Interp.recover m' fun f => do rest; Interp.fail f)

/-- A lawful bond for which neither values nor what is read off the source matter. -/
structure Bond.Plain (B : Bond) : Prop extends Bond.Lawful B where
  any (v : Value) : B.admits v
  currentMethod : B.Keeps currentMethod?
  visitLogicOp (n : Node) : B.Keeps (visitLogicOp n)
  noteResult {lead : String} (h : isRuntime lead = true) (rest : List Piece) (v : Value) :
    B.Keeps (noteResult (.lit lead :: rest) v)

namespace Bond

variable {B : Bond} {ok : α → Prop} {ok' : β → Prop}

theorem either {c : Prop} [Decidable c] {n n' : Interp α} (hm : B.rel ok m m') (hn : B.rel ok n n') :
    B.rel ok (if c then m else n) (if c then m' else n') := by
  by_cases hc : c
  · rwa [if_pos hc, if_pos hc]
  · rwa [if_neg hc, if_neg hc]

namespace Lawful

variable (hB : B.Lawful)

include hB

/-! ### Ways to build steps -/

theorem after (hm : B.rel ok m m') (hk : ∀ a, B.rel ok' (k a) (k' a)) : B.rel ok' (m >>= k) (m' >>= k') :=
  hB.bind hm fun a _ => hk a

theorem next (hm : B.Agrees m m') (hk : ∀ a, B.rel ok' (k a) (k' a)) : B.rel ok' (m >>= k) (m' >>= k') :=
  hB.after hm hk

theorem done {a : α} : B.Keeps (Pure.pure a) :=
  hB.pure trivial

/-- A step before a value is returned. -/
theorem last (hm : B.rel ok m m') {f : α → β} : B.Agrees (do return f (← m)) (do return f (← m')) :=
  hB.after hm fun _ => hB.pure trivial

theorem begins {step : String} {m m' : Interp α} (hm : B.rel ok m m') :
    B.rel ok (do Run.noteStep step; m) (do Run.noteStep step; m') :=
  hB.after (hB.noteStep step) fun _ => hm

theorem notes {cs : List Char} {rest : List Piece} : B.Keeps (Run.note (.lit (runtimeLead cs) :: rest)) :=
  hB.note isRuntime_lead rest

theorem noted {cs : List Char} {rest : List Piece} (hm : B.rel ok m m') :
    B.rel ok (do Run.note (.lit (runtimeLead cs) :: rest); m) (do Run.note (.lit (runtimeLead cs) :: rest); m') :=
  hB.after hB.notes fun _ => hm

theorem weaken {more : α → Prop} (hm : B.rel ok m m') (h : ∀ a, ok a → more a) : B.rel more m m' := by
  rw [← bind_pure m, ← bind_pure m']
  exact hB.bind hm fun a ha => hB.pure (h a ha)

theorem agrees (hm : B.rel ok m m') : B.Agrees m m' :=
  hB.weaken hm fun _ _ => trivial

theorem ofExcept {e : Except Fault α} (he : ∀ a, e = .ok a → ok a) :
    B.rel ok (Interp.ofExcept e) (Interp.ofExcept e) := by
  cases e with
  | ok a => exact hB.pure (he a rfl)
  | error f => exact hB.fail f

theorem asks (e : Except Fault α) : B.Keeps (Interp.ofExcept e) :=
  hB.ofExcept fun _ _ => trivial

/-- Only trees have children. -/
theorem tree {k k' : List Node → Interp α} (hk : ∀ rule, n.rule? = some rule → B.rel ok (k n.kids) (k' n.kids)) :
    B.rel ok (childrenOf n >>= k) (childrenOf n >>= k') := by
  cases n with
  | tree rule cs => exact hk rule rfl
  | token | absent | plain => exact hB.fail _

theorem kids {first second : Visit} {k k' : List Node → Interp α} (h : B.Visits first second n.kids)
    (hk : ∀ cs, B.Visits first second cs → B.rel ok (k cs) (k' cs)) :
    B.rel ok (childrenOf n >>= k) (childrenOf n >>= k') :=
  hB.tree fun _ _ => hk n.kids h

theorem childrenOf (n : Node) : B.Keeps (childrenOf n) :=
  hB.asks _

theorem child {cs : List Node} {i : Nat} {k k' : Node → Interp α}
    (hk : ∀ c, cs[i]? = some c → c ∈ cs → B.rel ok (k c) (k' c)) :
    B.rel ok (child cs i >>= k) (child cs i >>= k') := by
  refine hB.bind (hB.ofExcept fun c hc => ?_) fun c (hc : cs[i]? = some c) => ?_
  · unfold Node.childAt at hc
    split at hc
    · next hget => exact Except.ok.inj hc ▸ hget
    · cases hc
  · exact hk c hc (List.mem_of_getElem? hc)

/-- Only tokens have a text and a kind. -/
theorem textOf (n : Node) : B.rel (fun text => ∃ kind, n = .token kind text) (textOf n) (textOf n) := by
  refine hB.ofExcept fun text htext => ?_
  cases n with
  | token kind name => exact ⟨kind, congrArg _ (Except.ok.inj htext)⟩
  | tree | absent | plain => simp [Node.tokenText] at htext

theorem kindOf (n : Node) : B.rel (fun kind => ∃ text, n = .token kind text) (Interp.ofExcept n.tokenKind)
    (Interp.ofExcept n.tokenKind) := by
  refine hB.ofExcept fun kind hkind => ?_
  cases n with
  | token other text => exact ⟨text, congrArg (Node.token · text) (Except.ok.inj hkind)⟩
  | tree | absent | plain => simp [Node.tokenKind] at hkind

/-! ### Messages -/

theorem checkWritable (message : List Piece) : B.Keeps (checkWritable message) := by
  refine hB.look fun s t hst => ?_
  rw [hst.cells]
  exact either hB.done (hB.fail _)

theorem format (message : List Piece) : B.Keeps (format message) := by
  refine hB.after (hB.checkWritable message) fun _ => hB.look fun s t hst => ?_
  rw [hst.cells]
  exact hB.done

variable (v : Value) (name : String)

theorem strOf : B.Keeps (strOf v) :=
  hB.format _

theorem reportPieces (message : List Piece) : B.Keeps (reportPieces message) :=
  hB.after (hB.format message) fun text => hB.report text

theorem isFaulty : B.Keeps (isFaulty name) := by
  refine hB.look fun s t hst => ?_
  rw [hst.faulty]
  exact hB.done

/-- A step that leaves a faulty name alone. -/
theorem unlessFaulty {name : String} {a : α} {k k' : Interp α} (hk : B.Agrees k k') :
    B.Agrees (do if ← Run.isFaulty name then return a else k) (do if ← Run.isFaulty name then return a else k') :=
  hB.after (hB.isFaulty name) fun _ => either hB.done hk

/-- A name becomes faulty with an error. -/
theorem blamed (message name : String) {k k' : Interp α} (hk : B.rel ok k k') :
    B.rel ok (do Run.report message; blame name; k) (do Run.report message; blame name; k') := by
  have hboth := hB.after (hB.blaming message name) fun _ => hk
  rwa [bind_assoc, bind_assoc] at hboth

theorem admits_text (text : String) : B.admits (.text text) :=
  hB.short rfl

theorem admits_none : B.admits .none :=
  hB.short rfl

/-! ### Lists -/

theorem itemsOf (cell : Nat) : B.rel (fun items => ∀ v ∈ items, B.admits v) (itemsOf cell) (itemsOf cell) := by
  refine hB.look fun s t hst => ?_
  rw [hst.cells]
  exact hB.pure (hst.items cell)

theorem listOf {vs : List Value} (h : ∀ v ∈ vs, B.admits v) : B.Keeps (Run.newList vs.toArray) :=
  hB.newList fun v hv => h v (List.mem_toArray.mp hv)

/-! ### Questions to scopes -/

theorem scopeOf {id : Nat} {k k' : Scope → Interp α}
    (hk : ∀ s t, B.Seen s t → B.rel ok (k (s.scope id)) (k' (t.scope id))) :
    B.rel ok (scopeOf id >>= k) (scopeOf id >>= k') :=
  hB.look hk

theorem currentChain : B.Keeps currentChain := by
  refine hB.look fun s t hst => ?_
  rw [hst.current, hst.chain]
  exact hB.done

theorem isDefinedIn (ids : List Nat) : B.Keeps (isDefinedIn name ids) := by
  induction ids with
  | nil => exact hB.done
  | cons id outer ih =>
    refine hB.after (hB.announce id _ name) fun _ => hB.scopeOf fun s t hst => ?_
    obtain ⟨hvars, hconsts, hfuns⟩ := Scope.eq_of_still (hst.still_scope id)
    rw [Scope.binds, Scope.binds, hvars, hconsts, hfuns]
    exact either hB.done ih

theorem isDefined : B.Keeps (isDefined name) :=
  hB.after hB.currentChain fun ids => hB.isDefinedIn name ids

theorem isConstant : B.Keeps (isConstant name) := by
  refine hB.look fun s t hst => ?_
  rw [hst.current]
  refine hB.after (hB.announce _ _ name) fun _ => hB.scopeOf fun u w huw => ?_
  rw [(Scope.eq_of_still (huw.still_scope _)).2.1]
  exact hB.done

theorem isFunction : B.Keeps (isFunction name) := by
  refine hB.after hB.currentChain fun ids => ?_
  induction ids with
  | nil => exact hB.done
  | cons id outer ih =>
    refine hB.after (hB.announce id _ name) fun _ => hB.scopeOf fun s t hst => ?_
    rw [(Scope.eq_of_still (hst.still_scope id)).2.2]
    exact either hB.done ih

theorem function? :
    B.rel (fun f? => ∀ f, f? = some f → B.knows name f) (function? name) (function? name) := by
  refine hB.after hB.currentChain fun ids => ?_
  induction ids with
  | nil => exact hB.pure fun f heq => absurd heq (by simp)
  | cons id outer ih =>
    refine hB.after (hB.announce id _ name) fun _ => hB.scopeOf fun s t hst => ?_
    rw [(Scope.eq_of_still (hst.still_scope id)).2.2]
    split
    · next f hf => exact hB.pure fun g heq => Option.some.inj heq ▸ hst.functions id _ (Table.mem_of_get? hf)
    · exact ih

theorem valueIn (ids : List Nat) : B.rel B.admits (valueIn name ids) (valueIn name ids) := by
  have hshow : ∀ {v : Value}, B.admits v → ∀ id (lead : String),
      B.rel B.admits (do Run.announceOutcome id [.lit lead, .lit name, " = ", .val v]; Pure.pure v)
        (do Run.announceOutcome id [.lit lead, .lit name, " = ", .val v]; Pure.pure v) :=
    fun hv id lead => hB.after (hB.announceOutcome id (by simpa [Shows] using hv)) fun _ => hB.pure hv
  induction ids with
  | nil => exact hB.fail _
  | cons id outer ih =>
    refine hB.after (hB.announce id _ name) fun _ => hB.scopeOf fun s t hst => ?_
    obtain ⟨hvars, hconsts, hfuns⟩ := Scope.eq_of_still (hst.still_scope id)
    rw [hvars, hconsts, hfuns]
    split
    · next v hv => exact hshow (hst.constants id _ (Table.mem_of_get? hv)) id _
    split
    · next v hv => exact hshow (hst.vars id _ (Table.mem_of_get? hv)) id _
    split
    · exact hB.after (hB.announceOutcome id (by simp [Shows])) fun _ => hB.pure (hB.short (Value.isShort_function _))
    · exact ih

theorem valueOf : B.rel B.admits (valueOf name) (valueOf name) :=
  hB.after hB.currentChain fun ids => hB.valueIn name ids

/-! ### Casts and names -/

theorem blamedUnlessEmpty (message name : String) {k k' : Interp α} (hk : B.rel ok k k') :
    B.rel ok (do Run.report message; blameUnlessEmpty name; k) (do Run.report message; blameUnlessEmpty name; k') := by
  unfold blameUnlessEmpty
  split
  · exact hB.after (hB.report message) fun _ => hk
  · exact hB.blamed message name hk

theorem castResult (type name : String) {e : Except Fault Value} (he : ∀ w, e = .ok w → B.admits w) :
    B.rel B.admits (castResult v type name e) (castResult v type name e) := by
  cases e with
  | ok w => exact hB.pure (he w rfl)
  | error f =>
    have hfail : B.rel B.admits (castFailure v type name f) (castFailure v type name f) := by
      rw [castFailure, Run.reportPieces, bind_assoc]
      exact hB.after (hB.format _) fun text => hB.blamedUnlessEmpty text name (hB.pure hB.admits_none)
    rw [Run.castResult]
    split
    · exact hfail
    · exact hfail
    · exact hB.fail f

theorem cast {v : Value} (hv : B.admits v) (type name : String) :
    B.rel B.admits (cast v type name) (cast v type name) := by
  refine hB.begins <| hB.after (hB.isFaulty name) fun _ => either (hB.pure hB.admits_none) ?_
  refine hB.look fun s t hst => ?_
  rw [hst.cells]
  dsimp only
  split
  · exact hB.castResult v _ name fun w hw => hB.castInt hv hw
  · exact hB.castResult v _ name fun w hw => hB.short (Value.isShort_of_isPlain (Value.isPlain_of_castFloat hw))
  · refine hB.castResult v _ name fun w hw => ?_
    cases hstr : v.str s.cells with
    | ok text =>
      rw [hstr] at hw
      exact Except.ok.inj hw ▸ hB.admits_text text
    | error f =>
      rw [hstr] at hw
      simp [Except.map] at hw
  · exact hB.blamedUnlessEmpty _ name (hB.pure hB.admits_none)

theorem nameOfValue : B.Keeps (nameOfValue v) := by
  rw [Run.nameOfValue.eq_def]
  split
  · exact hB.done
  · exact hB.fail _
  · exact hB.fail _
  · exact hB.fail _
  · exact hB.strOf v

/-! ### Atoms -/

theorem visitQuoted (n : Node) : B.Keeps (visitQuoted n) :=
  hB.begins <| hB.last (hB.textOf n)

theorem visitNumber (n : Node) : B.Keeps (visitNumber n) :=
  hB.begins <| hB.after (hB.textOf n) fun _ => hB.asks _

theorem visitText (step : String) (n : Node) : B.Keeps (visitText step n) :=
  hB.begins <| hB.last (hB.textOf n)

theorem visitIdent (hwarns : ∀ kind name, n = .token kind name → ∀ v, B.Keeps (warnUnassigned name v)) :
    B.Keeps (visitIdent n) := by
  refine hB.begins <| hB.bind (hB.textOf n) fun name hname => ?_
  obtain ⟨kind, hn⟩ := hname
  refine hB.after (hB.markUsed name) fun _ => hB.noted ?_
  refine hB.after (hB.isDefined name) fun _ => either ?_ (hB.lament _ name)
  exact hB.after (hB.valueOf name) fun v => hB.last (hwarns kind name hn v)

theorem accessed (n : Node) : B.Keeps (accessed n) := by
  refine hB.after (hB.childrenOf n) fun cs => hB.child fun object _ _ => hB.child fun member _ _ => ?_
  refine hB.after (hB.textOf object) fun _ => hB.after (hB.textOf member) fun _ => hB.after (hB.isDefined _) fun _ => ?_
  refine either (hB.after (hB.valueOf _) fun v => hB.look fun s t hst => ?_) ?_
  · rw [hst.cells]
    exact hB.after (hB.asks _) fun _ => either hB.done (hB.last (hB.report _))
  · exact hB.last (hB.report _)

theorem visitMemberAccess (n : Node) : B.Keeps (visitMemberAccess n) := by
  refine hB.begins <| hB.after (hB.accessed n) fun found => ?_
  split
  · exact hB.done
  · exact hB.done

theorem visitMemberExpr (n : Node) : B.Keeps (visitMemberExpr n) := by
  refine hB.begins <| hB.after (hB.accessed n) fun found => ?_
  split
  · refine either (hB.after (hB.isDefined _) fun _ => either (hB.agrees (hB.valueOf _)) ?_) (hB.asks _)
    exact hB.last (hB.report _)
  · exact hB.done

theorem visitTypeName (n : Node) : B.Keeps (visitTypeName n) :=
  hB.last (hB.noteStep _)

theorem visitListMethod (n : Node) : B.Keeps (visitListMethod n) :=
  hB.begins <| hB.last (hB.childrenOf n)

theorem visitUnknown (n : Node) : B.Keeps (visitUnknown n) :=
  hB.begins <| either hB.done (hB.last (hB.report _))

theorem logicWord {content content' : Option String}
    (hand : content'.any (Text.contains · " and ") = content.any (Text.contains · " and "))
    (hor : content'.any (Text.contains · " or ") = content.any (Text.contains · " or ")) (n : Node) :
    B.Agrees (logicWord content n) (logicWord content' n) := by
  rw [Run.logicWord, Run.logicWord, hand, hor]
  refine either hB.done (either hB.done (hB.after (hB.childrenOf n) fun cs => ?_))
  split
  · exact hB.last hB.notes
  · exact hB.done

/-! ### Computations -/

/-- The items that an operator puts into a list come from lists. -/
theorem compute {op : Cells → Except Fault Computed}
    (hop : ∀ cells, (∀ cell, ∀ v ∈ cells.getD cell #[], B.admits v) → ∀ vs, op cells = .ok (.items vs) →
      ∀ v ∈ vs, B.admits v) : B.Keeps (compute op) := by
  refine hB.look fun s t hst => ?_
  rw [hst.cells]
  refine hB.bind (hB.ofExcept fun c hc => hc) fun c (hc : op s.cells = .ok c) => ?_
  cases c with
  | value v => exact hB.done
  | items vs => exact hB.newList (hop s.cells hst.items vs hc)

omit hB in
theorem ne_items_of_numericOp {operator : String} {a b : Value}
    {vs : Array Value} : Value.numericOp operator op a b ≠ .ok (.items vs) := by
  intro h
  unfold Value.numericOp at h
  split at h
  · next m n _ _ =>
    cases hop : op m n with
    | ok r =>
      rw [hop] at h
      cases h
    | error f =>
      rw [hop] at h
      simp [Bind.bind, Except.bind] at h
  · cases h

theorem addValues (left right : Value) : B.Keeps (addValues left right) := by
  refine either (hB.after (hB.strOf left) fun _ => hB.last (hB.strOf right)) ?_
  refine hB.compute fun cells hcells vs hvs => ?_
  unfold Value.add at hvs
  split at hvs
  · next x y =>
    obtain rfl := Computed.items.inj (Except.ok.inj hvs)
    exact fun v hv => (Array.mem_append.mp hv).elim (hcells x v) (hcells y v)
  · cases hvs
  · exact absurd hvs ne_items_of_numericOp

omit hB in
theorem admits_repeatItems {items : Array Value} (hitems : ∀ v ∈ items, B.admits v) (count : Nat) :
    ∀ v ∈ Value.repeatItems items count, B.admits v := by
  intro v hv
  rw [Value.repeatItems, List.mem_toArray, List.mem_flatten] at hv
  obtain ⟨copy, hcopy, hv⟩ := hv
  rw [List.eq_of_mem_replicate hcopy] at hv
  exact hitems v (Array.mem_toList_iff.mp hv)

theorem mulValues (left right : Value) : B.Keeps (Run.compute fun cells => left.mul cells right) := by
  refine hB.compute fun cells hcells vs hvs => ?_
  have hrepeat : ∀ (v : Value) (g : Nat → Computed), (∀ count, g count = .items vs → ∀ v ∈ vs, B.admits v) →
      (do return g (← v.repeatCount)) = (.ok (.items vs) : Except Fault Computed) → ∀ v ∈ vs, B.admits v := by
    intro v g hg hdo
    cases hcount : v.repeatCount with
    | ok count =>
      rw [hcount] at hdo
      exact hg count (Except.ok.inj hdo)
    | error f =>
      rw [hcount] at hdo
      simp [Bind.bind, Except.bind] at hdo
  have hitems : ∀ cell count, Computed.items (Value.repeatItems (cells.getD cell #[]) count) = .items vs →
      ∀ v ∈ vs, B.admits v :=
    fun cell count heq => Computed.items.inj heq ▸ admits_repeatItems (hcells cell) count
  unfold Value.mul at hvs
  split at hvs
  · exact hrepeat _ (fun count => .value _) (by simp) hvs
  · exact hrepeat _ (fun count => .items _) (hitems _) hvs
  · exact hrepeat _ (fun count => .value _) (by simp) hvs
  · exact hrepeat _ (fun count => .items _) (hitems _) hvs
  · exact absurd hvs ne_items_of_numericOp

theorem numeric {operator : String} (a b : Value) : B.Keeps (Run.compute fun _ => Value.numericOp operator op a b) :=
  hB.compute fun _ _ _ hvs => absurd hvs ne_items_of_numericOp

theorem divideValues (left right : Value) : B.Keeps (divideValues left right) :=
  either (hB.last (hB.report _)) (hB.last (hB.numeric left right))

theorem applyInSum (op left right : Value) : B.Keeps (applyInSum op left right) := by
  unfold Run.applyInSum
  split
  · exact hB.last (hB.addValues left right)
  · exact hB.last (hB.numeric left right)
  · exact hB.last (hB.mulValues left right)
  · exact hB.divideValues left right
  · exact hB.done

theorem applyInProduct (op left right : Value) : B.Keeps (applyInProduct op left right) := by
  unfold Run.applyInProduct
  split
  · exact hB.last (hB.mulValues left right)
  · exact hB.divideValues left right
  · exact hB.done

theorem zeroWith (message : String) : B.Keeps (zeroWith message) :=
  hB.last (hB.report message)

theorem powerOf (base exponent : Value) : B.Keeps (powerOf base exponent) :=
  hB.after (hB.asks _) fun _ => hB.last hB.notes

theorem squareRoot : B.Keeps (squareRoot v) := by
  refine hB.look fun s t hst => ?_
  rw [hst.cells]
  refine hB.after (hB.asks _) fun _ => either (hB.zeroWith _) ?_
  split
  · exact hB.fail _
  · exact hB.after (hB.asks _) fun _ => hB.last hB.notes

theorem cubeRoot : B.Keeps (cubeRoot v) := by
  refine hB.after (hB.asks _) fun root => hB.noted ?_
  split
  · exact hB.done
  · exact hB.fail _

/-! ### Conditions -/

theorem compareValues (op left right : Value) : B.Keeps (compareValues op left right) := by
  refine hB.look fun s t hst => ?_
  rw [hst.cells]
  have hord : ∀ r, B.Keeps (do return Value.bool (← Interp.ofExcept (left.order s.cells r right))) :=
    fun r => hB.last (hB.asks _)
  dsimp only
  split
  · exact hB.done
  · exact hB.done
  · exact hord .greater
  · exact hord .less
  · exact hord .greaterEqual
  · exact hord .lessEqual
  · exact hB.last (hB.reportPieces _)

theorem truth : B.Keeps (truth v) := by
  refine hB.look fun s t hst => ?_
  rw [hst.cells]
  exact hB.done

theorem conjunction (rest : List Value) : B.Keeps (conjunction v rest) := by
  induction rest generalizing v with
  | nil => exact hB.done
  | cons next rest ih =>
    refine hB.after (hB.truth v) fun _ => either ?_ hB.done
    exact hB.after (hB.truth next) fun _ => either (ih next) hB.done

theorem chainOperators (rest : List (Value × Value)) : B.Keeps (chainOperators v rest) := by
  induction rest generalizing v with
  | nil => exact hB.done
  | cons pair rest ih =>
    obtain ⟨op, next⟩ := pair
    unfold Run.chainOperators
    split
    · exact hB.after (hB.truth v) fun _ => hB.after (hB.truth _) fun _ => either (ih _) hB.done
    · exact hB.after (hB.truth v) fun _ => hB.after (hB.truth _) fun _ => either hB.done (ih _)
    · exact hB.last (hB.reportPieces _)

theorem combineConditions (results ops : List Value) : B.Keeps (combineConditions results ops) := by
  unfold Run.combineConditions
  split
  · exact hB.noted <| hB.conjunction _ _
  · exact either (hB.chainOperators _ _) (hB.last (hB.report _))
  · exact hB.last (hB.report _)

/-! ### Lists and texts -/

theorem namedList? : B.Keeps (namedList? name) := by
  refine hB.after (hB.isDefined name) fun _ => either (hB.after (hB.valueOf name) fun v => ?_) ?_
  · split
    · exact hB.done
    · exact hB.last (hB.report _)
  · exact hB.blamed _ name hB.done

theorem elementAt (cell : Nat) (index : Value) : B.Keeps (elementAt cell index) := by
  refine hB.after (hB.itemsOf cell) fun items => ?_
  split
  · exact either (hB.last (hB.reportPieces _)) hB.done
  · exact hB.last (hB.report _)

theorem argumentText : B.Keeps (argumentText v) := by
  refine either (hB.last (hB.strOf v)) (hB.look fun s t hst => ?_)
  rw [hst.cells]
  split
  · exact hB.done
  · exact hB.last (hB.report _)

/-! ### Parts of statements -/

theorem declaredType (n : Node) : B.Keeps (declaredType n) := by
  rw [Run.declaredType.eq_def]
  split
  · exact hB.done
  · refine hB.after (hB.childrenOf n) fun cs => ?_
    split
    · exact hB.done
    · exact hB.agrees (hB.textOf _)

theorem castInitial {v : Value} (hv : B.admits v) (type name : String) :
    B.rel B.admits (castInitial v type name) (castInitial v type name) :=
  either (hB.cast hv _ name) (either (hB.cast hv _ name) (hB.cast hv type name))

theorem isLoopCount : B.Keeps (isLoopCount v) := by
  refine either (hB.look fun s t hst => ?_) hB.done
  rw [hst.cells]
  exact hB.last (hB.asks _)

theorem castArgs (function : String) (sig : List (Value × Value)) {pairs : List (Value × Value)}
    (hpairs : ∀ pair ∈ pairs, B.admits pair.2) (i : Nat) :
    B.rel (fun bound? => ∀ bound, bound? = some bound → ∀ entry ∈ bound, B.admits entry.2)
      (castArgs function sig i pairs) (castArgs function sig i pairs) := by
  induction pairs generalizing i with
  | nil => exact hB.pure (by simp)
  | cons pair rest ih =>
    obtain ⟨param, arg⟩ := pair
    obtain ⟨harg, hrest⟩ := List.forall_mem_cons.mp hpairs
    refine hB.look fun s t hst => ?_
    rw [hst.cells]
    refine hB.after (hB.strOf _) fun type => hB.bind (hB.cast harg type _) fun v hv => either ?_ ?_
    · exact hB.after (hB.report _) fun _ => hB.pure (by simp)
    refine hB.after (hB.nameOfValue param) fun name => hB.bind (ih hrest (i + 1)) fun others? hothers => ?_
    cases others? with
    | none => exact hB.pure (by simp)
    | some others =>
      refine hB.pure fun bound heq => ?_
      rw [← Option.some.inj heq]
      exact List.forall_mem_cons.mpr ⟨hv, hothers others rfl⟩

theorem visitFuncParams (n : Node) : B.Keeps (visitFuncParams n) := by
  have hparams : ∀ ns, B.rel (fun vs => ∀ v ∈ vs, B.admits v) (tokenParams ns) (tokenParams ns) := by
    intro ns
    induction ns with
    | nil => exact hB.pure (by simp)
    | cons n rest ih =>
      unfold tokenParams
      split
      · refine hB.child fun type _ _ => hB.child fun name _ _ => hB.bind ih fun vs hvs => ?_
        split
        · exact hB.pure (List.forall_mem_cons.mpr ⟨hB.short rfl, hvs⟩)
        · exact hB.pure hvs
      · exact ih
  exact hB.begins <| hB.after (hB.childrenOf n) fun cs => hB.bind (hparams cs) fun vs hvs => hB.listOf hvs

/-! ### Names that are defined beforehand -/

theorem collectName (what : String) (n : Node) : B.Keeps (collectName what n) := by
  unfold Run.collectName
  split
  · refine hB.unlessFaulty ?_
    exact hB.after (hB.markDefined _) fun _ => hB.notes
  · exact hB.done

theorem collectTarget (rule : String) (cs : List Node) : B.Keeps (collectTarget rule cs) := by
  unfold Run.collectTarget
  split
  iterate 5
    · exact hB.child fun _ _ _ => hB.collectName _ _
  · exact hB.done

mutual

theorem collect (n : Node) : B.Keeps (collect n) := by
  cases n with
  | tree rule cs =>
    rw [Run.collect]
    refine hB.after (hB.collectTarget rule cs) fun _ => ?_
    have hrest := collectTrees cs
    have hblock := collectBlockAt cs
    dsimp only
    split
    · refine hB.child fun _ _ _ => hB.after (hblock 1) fun _ => ?_
      split
      · exact hrest
      · exact hB.after (hblock 2) fun _ => hrest
      · exact hB.next (hB.fail _) fun _ => hrest
    · refine either (hB.after (hblock 2) fun _ => hrest) (hB.child fun _ _ _ => hB.after (hblock 1) fun _ => hrest)
    · exact hrest
  | token | absent | plain => exact hB.done

theorem collectTrees (cs : List Node) : B.Keeps (collectTrees cs) := by
  cases cs with
  | nil => exact hB.done
  | cons c rest =>
    rw [Run.collectTrees]
    exact either (hB.after (collect c) fun _ => collectTrees rest) (collectTrees rest)

theorem collectBlockAt (cs : List Node) (i : Nat) : B.Keeps (collectBlockAt i cs) := by
  cases cs with
  | nil =>
    rw [Run.collectBlockAt]
    exact hB.done
  | cons c rest =>
    cases i with
    | zero =>
      rw [Run.collectBlockAt]
      exact collectBlock c
    | succ i =>
      rw [Run.collectBlockAt]
      exact collectBlockAt rest i

theorem collectBlock (n : Node) : B.Keeps (collectBlock n) := by
  cases n with
  | tree rule cs =>
    rw [Run.collectBlock]
    exact either (collectBare cs) hB.done
  | token | absent | plain => exact hB.done

theorem collectBare (cs : List Node) : B.Keeps (collectBare cs) := by
  cases cs with
  | nil => exact hB.done
  | cons c rest =>
    rw [Run.collectBare]
    exact either (hB.after (collect c) fun _ => collectBare rest) (collectBare rest)

end

end Lawful

end Bond

/-! ### Bonds of invariants -/

/-- Started where the condition holds, the step returns only values as the predicate says. -/
def Interp.Returns (pre : Session → Prop) (ok : α → Prop) (m : Interp α) : Prop :=
  ∀ s a t, pre s → m.exec s = (.ok a, t) → ok a

namespace Interp.Returns

variable {pre : Session → Prop} {ok : α → Prop} {ok' : β → Prop} {m : Interp α} {k : α → Interp β}

protected theorem any : m.Returns pre fun _ => True :=
  fun _ _ _ _ _ => trivial

protected theorem pure {a : α} (ha : ok a) : (pure a : Interp α).Returns pre ok :=
  fun _ _ _ _ h => Except.ok.inj (congrArg Prod.fst h) ▸ ha

protected theorem fail (f : Fault) : (Interp.fail f : Interp α).Returns pre ok :=
  fun _ _ _ _ h => absurd (congrArg Prod.fst h) (by simp [Interp.exec_fail])

protected theorem bind (hm : m.Returns pre ok) (hpre : ∀ s a t, pre s → m.exec s = (.ok a, t) → pre t)
    (hk : ∀ a, ok a → (k a).Returns pre ok') : (m >>= k).Returns pre ok' := by
  intro s b u hs h
  obtain ⟨a, t, hfirst, hsnd⟩ := exec_bind_eq_ok h
  exact hk a (hm s a t hs hfirst) t b u (hpre s a t hs hfirst) hsnd

protected theorem look {k : Session → Interp β} (hk : ∀ s, pre s → (k s).Returns pre ok') :
    (get >>= k).Returns pre ok' :=
  fun s b u hs h => hk s hs s b u hs h

end Interp.Returns

/-- The bond of an invariant of steps, which holds from sessions as the condition says. -/
def Bond.ofInvariant (I : {α : Type} → Interp α → Prop) (pre : Session → Prop) (knows : String → Function → Prop) :
    Bond where
  admits _ := True
  knows := knows
  rel ok m _ := I m ∧ m.Returns pre ok

end Run

end FapLang
