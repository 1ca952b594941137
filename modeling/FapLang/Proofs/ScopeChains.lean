import FapLang.Proofs.Run.History

/-!
Chains of scopes. Each scope lies in an older one (`Built.chained`); a name has the value that the
nearest scope holds for it, and setting it changes the nearest variable, unless a constant is nearer
or a trace cannot be written (`chains_hold_nearest_bindings`).
-/

namespace FapLang.Run

open Interp

variable {s : Session} {id : Nat}

/-- A variable of one scope has a new value in its old place, and nothing else has changed. -/
structure Rebinds (s t : Session) (id : Nat) (name : String) (v : Value) : Prop where
  value : (t.scope id).vars.get? name = some v
  names : (t.scope id).vars.names = (s.scope id).vars.names
  others : ∀ other ≠ name, (t.scope id).vars.get? other = (s.scope id).vars.get? other
  tables : t.scope id = { s.scope id with vars := (t.scope id).vars }
  scopes : ∀ other ≠ id, t.scope other = s.scope other
  size : t.scopes.size = s.scopes.size
  lists : t.cells = s.cells

theorem Rebinds.of_bindVar {t : Session} {name : String} {old : Value}
    (hold : (s.scope id).vars.get? name = some old) (v : Value) (h : Remarks (s.bindVar id name v) t) :
    Rebinds s t id name v := by
  have hself : t.scope id = { s.scope id with vars := (s.scope id).vars.insert name v } := by
    rw [h.scope_eq, Session.bindVar, Session.scope_setScope_self (Session.lt_of_get?_vars hold)]
  have hhas : (s.scope id).vars.has name = true := by rw [Table.has_eq_isSome, hold, Option.isSome_some]
  refine ⟨?_, ?_, fun other hother => ?_, ?_, fun other hother => ?_, ?_, h.cells_eq⟩
  · rw [hself, Table.get?_insert, if_pos rfl]
  · rw [hself, Table.names_insert_of_has hhas]
  · rw [hself, Table.get?_insert, if_neg hother]
  · rw [hself]
  · rw [h.scope_eq, Session.bindVar, Session.scope_setScope_of_ne hother]
  · rw [h.sameFrame.scopes, Session.bindVar, Session.size_setScope]

/-- One thing that is asked of a scope or done to it. -/
inductive ScopeStep
  | child
  | setModes (modes : Modes)
  | defineVar (name : String) (v : Value)
  | defineConst (name : String) (v : Value)
  | defineFunc (name : String) (f : Function)
  | setValue (name : String) (v : Value)
  | value (name : String)
  | function (name : String)
  | isDefined (name : String)
  | isConstant (name : String)
  | isFunction (name : String)

/-- Names are looked up in the scope and in those around it. -/
def ScopeStep.run (id : Nat) (step : ScopeStep) : Interp Unit := do
  let ids := (← get).chain id
  match step with
  | child => discard (newScope id)
  | setModes modes => setScope id fun scope ↦ { scope with modes := modes }
  | defineVar name v => Run.defineVar id name v
  | defineConst name v => Run.defineConst id name v
  | defineFunc name f => Run.defineFunc id name f
  | setValue name v => setIn name v ids
  | value name => discard (valueIn name ids)
  | function name => discard (functionIn name ids)
  | isDefined name => discard (isDefinedIn name ids)
  | isConstant name => discard (isConstantIn id name)
  | isFunction name => discard (isFunctionIn name ids)

/-- The session comes from one empty scope by steps that may fail. Lists may change at any time. -/
inductive Built : Session → Prop
  | root : Built Session.blank
  | step {s : Session} (hs : Built s) {id : Nat} (hid : id < s.scopes.size) (step : ScopeStep) :
    Built ((step.run id).exec s).2
  | lists {s : Session} (hs : Built s) (cells : Cells) : Built { s with cells := cells }

/-- Every scope still lies in an older one after the step. -/
def Interp.Nests {α : Type} (m : Interp α) : Prop :=
  ∀ s, Ordered s.scopes → Ordered (m.exec s).2.scopes

namespace Interp.Nests

variable {α β : Type} {m : Interp α}

theorem of_stays (hm : m.Stays) : m.Nests := fun s hs => (hm s).scopes ▸ hs

theorem of_murmurs (hm : m.Murmurs) : m.Nests := fun s hs => (hm s).1.sameFrame.scopes ▸ hs

protected theorem bind {k : α → Interp β} (hm : m.Nests) (hk : ∀ a, (k a).Nests) : (m >>= k).Nests := by
  intro s hs
  have hfirst := hm s hs
  rcases hexec : m.exec s with ⟨stop | a, t⟩ <;> rw [hexec] at hfirst
  · rwa [exec_bind_error hexec]
  · rw [exec_bind_ok hexec]
    exact hk a t hfirst

protected theorem discard (hm : m.Nests) : (discard m).Nests :=
  .bind hm fun _ => .of_stays (.pure ())

protected theorem setScope (id : Nat) {f : Scope → Scope} (hf : ∀ scope, (f scope).parent = scope.parent) :
    (setScope id f).Nests := by
  intro s hs i scope parent hscope hpar
  change (s.scopes.modify id f)[i]? = some scope at hscope
  rw [Array.getElem?_modify] at hscope
  split at hscope
  · obtain ⟨old, hold, rfl⟩ := Option.map_eq_some_iff.mp hscope
    exact hs i old parent hold (by rwa [hf] at hpar)
  · exact hs i scope parent hscope hpar

/-- What is announced before and after does not matter. -/
theorem announced {step : String} {args : List Piece} {f : Scope → Scope} {after : Interp Unit}
    (hf : ∀ scope, (f scope).parent = scope.parent) (hafter : after.Stays) :
    (do announce id step args; setScope id f; after : Interp Unit).Nests :=
  .bind (.of_stays (stays_announce id step args)) fun _ => .bind (.setScope id hf) fun _ => .of_stays hafter

end Interp.Nests

theorem nests_bindVar (hs : Ordered s.scopes) (id : Nat) (name : String) (v : Value) :
    Ordered (s.bindVar id name v).scopes :=
  Nests.setScope (f := fun scope => { scope with vars := scope.vars.insert name v }) id (fun _ => rfl) s hs

theorem nests_setIn (name : String) (v : Value) (ids : List Nat) : (setIn name v ids).Nests := by
  intro s hs
  rcases exec_setIn_cases name v ids s with ⟨_, t, hexec, -, ht⟩ | ⟨id, _, _, t, -, -, -, hexec, -, ht⟩
  · rw [hexec]
    exact ht.sameFrame.scopes ▸ hs
  · rw [hexec]
    exact ht.sameFrame.scopes ▸ nests_bindVar hs id name v

theorem stays_announceFunc (id : Nat) (name : String) (f : Function) : (announceFunc id name f).Stays :=
  .bind (stays_scopeOf id) fun _ => .ite (.bind (stays_itemsOf f.params) fun _ =>
    .bind (stays_mapM (fun _ => .ofExcept _) _) fun _ => stays_announceOutcome id _) (.pure ())

theorem nests_defineVar (id : Nat) (name : String) (v : Value) : (defineVar id name v).Nests :=
  .announced (fun _ => rfl) (stays_announceOutcome id _)

theorem nests_defineConst (id : Nat) (name : String) (v : Value) : (defineConst id name v).Nests :=
  .announced (fun _ => rfl) (stays_announceOutcome id _)

theorem nests_defineFunc (id : Nat) (name : String) (f : Function) : (defineFunc id name f).Nests :=
  .announced (fun _ => rfl) (stays_announceFunc id name f)

theorem nests_isConstantIn (id : Nat) (name : String) : (isConstantIn id name).Nests :=
  .bind (.of_stays (stays_announce id _ _)) fun _ => .bind (.of_stays (stays_scopeOf id)) fun _ => .of_stays (.pure _)

/-- A scope that is new lies in one that there was. -/
theorem Ordered.push {scopes : Array Scope} (h : Ordered scopes) (hid : id < scopes.size) :
    Ordered (scopes.push (Scope.empty (some id))) := by
  intro i scope parent hscope hpar
  rw [Array.getElem?_push] at hscope
  split at hscope
  · cases hscope
    cases hpar
    omega
  · exact h i scope parent hscope hpar

theorem ordered_step (hs : Ordered s.scopes) (hid : id < s.scopes.size) (step : ScopeStep) :
    Ordered ((step.run id).exec s).2.scopes := by
  rw [ScopeStep.run, exec_get_bind]
  generalize s.chain id = ids
  cases step with
  | child => exact hs.push hid
  | setModes modes =>
    have hmodes : (setScope id fun scope => { scope with modes := modes }).Nests := .setScope id fun _ => rfl
    exact hmodes s hs
  | defineVar name v => exact nests_defineVar id name v s hs
  | defineConst name v => exact nests_defineConst id name v s hs
  | defineFunc name f => exact nests_defineFunc id name f s hs
  | setValue name v => exact nests_setIn name v ids s hs
  | value name =>
    have hnests : (valueIn name ids).Nests := .of_stays (lawful_staying.valueIn name ids).1
    exact hnests.discard s hs
  | function name => exact Nests.discard (.of_murmurs (.of_tells fun t => ⟨_, tells_functionIn name ids t⟩)) s hs
  | isDefined name => exact Nests.discard (.of_stays (stays_isDefinedIn name ids)) s hs
  | isConstant name => exact Nests.discard (nests_isConstantIn id name) s hs
  | isFunction name => exact Nests.discard (.of_murmurs (.of_tells fun t => ⟨_, tells_isFunctionIn name ids t⟩)) s hs

theorem Built.ordered (hs : Built s) : Ordered s.scopes := by
  induction hs with
  | root =>
    intro id scope parent hscope hpar
    obtain ⟨_, rfl⟩ := Array.getElem?_eq_some_iff.mp hscope
    simp [Session.blank, Scope.empty] at hpar
  | step _ hid step ih => exact ordered_step ih hid step
  | lists _ _ ih => exact ih

/-- The scopes around a scope, from the inside out, the last one in none. -/
inductive Chained (s : Session) : Nat → List Nat → Prop
  | root {id : Nat} (hid : id < s.scopes.size) (hroot : (s.scope id).parent = none) : Chained s id [id]
  | inner {id parent : Nat} {ids : List Nat} (hid : id < s.scopes.size) (hparent : (s.scope id).parent = some parent)
    (hrest : Chained s parent ids) : Chained s id (id :: ids)

theorem Built.chained (hs : Built s) (hid : id < s.scopes.size) : Chained s id (s.chain id) := by
  induction id using Nat.strong_induction_on with
  | _ id ih =>
    rw [Session.chain_eq hs.ordered hid]
    cases hpar : (s.scope id).parent with
    | none => exact .root hid hpar
    | some parent =>
      have hlt := hs.ordered id _ parent (Session.getElem?_scopes hid) hpar
      exact .inner hid hpar (ih parent hlt (Nat.lt_trans hlt hid))

/-- What a chain of scopes answers about a name, and what becomes of the name when it is set. -/
structure Resolves (s : Session) (name : String) (ids : List Nat) : Prop where
  /-- A name is defined if a scope binds it. -/
  isDefined : (isDefinedIn name ids).Tells s (s.nearest? name ids).isSome
  /-- A name is a function if there is one to be had. -/
  isFunction : ∃ f?, (functionIn name ids).Tells s f? ∧ (isFunctionIn name ids).Tells s f?.isSome
  /-- A name that is not defined has no value. -/
  unbound : s.nearest? name ids = none →
    ∃ t, (valueIn name ids).exec s = (.error (.fault (.unbound name)), t) ∧ Remarks s t
  /-- A name has the value that the nearest scope holds, if that can show it. -/
  value : ∀ holder, s.nearest? name ids = some holder → ∃ v, (s.scope holder).held? name = some v ∧
    (s.stumbles ((s.scope holder).datum? name).toList holder = false → (valueIn name ids).Tells s v) ∧
    (s.stumbles ((s.scope holder).datum? name).toList holder = true →
      ∃ t, (valueIn name ids).exec s = (.error (.fault .tooManyDigits), t) ∧ Remarks s t)
  /-- A name that is no variable, or first a constant, cannot be set, and nothing changes. -/
  refused : ∀ v, (∀ keeper, s.keeper? name ids = some keeper → (s.scope keeper).constants.has name = true) →
    ∃ f ∈ [Fault.unbound name, .constant name, .tooManyDigits], ∃ t,
      (setIn name v ids).exec s = (.error (.fault f), t) ∧ Remarks s t
  /-- A name that is first a variable is set there. A scope on the way that cannot show the new
  value stops this; the scope itself may fail to show the values after the change. -/
  set : ∀ v keeper, s.keeper? name ids = some keeper → (s.scope keeper).constants.has name = false →
    ∃ old, (s.scope keeper).vars.get? name = some old ∧
      ((s.wayTo name ids).any (s.chokes v) = true →
        ∃ t, (setIn name v ids).exec s = (.error (.fault .tooManyDigits), t) ∧ Remarks s t) ∧
      ((s.wayTo name ids).any (s.chokes v) = false →
        ∃ t, (setIn name v ids).exec s =
            (if s.stumbles [v, old] keeper then .error (.fault .tooManyDigits) else .ok (), t) ∧
          Rebinds s t keeper name v)

theorem Session.resolves (s : Session) (name : String) (ids : List Nat) : Resolves s name ids where
  isDefined := by
    rw [Session.nearest?, List.isSome_find?]
    exact tells_isDefinedIn name ids s
  isFunction := ⟨_, tells_functionIn name ids s, tells_isFunctionIn name ids s⟩
  unbound h := (s.lookup_eq name ids).1 h ▸ says_valueIn name ids s
  value holder h := by
    obtain ⟨v, hheld, hlookup⟩ := (s.lookup_eq name ids).2 holder h
    obtain ⟨t, hexec, ht⟩ := says_valueIn name ids s
    rw [hlookup] at hexec
    refine ⟨v, hheld, fun hquiet => ⟨t, ?_, ht⟩, fun hloud => ⟨t, ?_, ht⟩⟩
    · rwa [hquiet] at hexec
    · rwa [hloud] at hexec
  refused v h := by
    obtain ⟨f, hf, hset⟩ := s.setting_of_refused (v := v) h
    obtain ⟨t, hexec, ht⟩ := exec_setIn name v ids s
    rw [hset] at hexec ht
    exact ⟨f, hf, t, hexec, ht⟩
  set v keeper hkeeper hconst := by
    obtain ⟨old, hold⟩ := s.exists_of_keeper? hkeeper hconst
    obtain ⟨t, hexec, ht⟩ := exec_setIn name v ids s
    rw [Session.setting_of_keeper hkeeper hconst hold] at hexec ht
    refine ⟨old, hold, fun hloud => ⟨t, ?_, ?_⟩, fun hquiet => ⟨t, ?_, .of_bindVar hold v ?_⟩⟩
    · rwa [hloud] at hexec
    · rwa [hloud] at ht
    · rwa [hquiet] at hexec
    · rwa [hquiet] at ht

/-- The scopes around a scope are a chain up to the root, and in this chain every name has the value
of its nearest binding and is set where it is nearest a variable, as far as traces can be written.
-/
theorem chains_hold_nearest_bindings {s : Session} (hs : Built s) {id : Nat} (hid : id < s.scopes.size)
    (name : String) : Chained s id (s.chain id) ∧ Resolves s name (s.chain id) :=
  ⟨hs.chained hid, s.resolves name _⟩

/-- A scope that came to trace its outcomes cannot show a value that it got before. -/
theorem huge_value_is_defined_but_not_shown :
    ∃ s, Built s ∧ (isDefinedIn "x" (s.chain 0)).Tells s true ∧
      ∃ t, (valueIn "x" (s.chain 0)).exec s = (.error (.fault .tooManyDigits), t) ∧ Remarks s t := by
  let v := Value.int (Nat.pow 10 5000)
  let s := (((ScopeStep.setModes ⟨true, false⟩).run 0).exec
    (((ScopeStep.defineVar "x" v).run 0).exec Session.blank).2).2
  have hs : Built s := .step (.step .root (by decide) _) (by decide) _
  obtain ⟨_, hresolves⟩ := @chains_hold_nearest_bindings s hs 0 (by decide) "x"
  have hnearest : s.nearest? "x" (s.chain 0) = some 0 := rfl
  obtain ⟨_, _, _, hstops⟩ := hresolves.value 0 hnearest
  have hdefined := hresolves.isDefined
  rw [hnearest] at hdefined
  refine ⟨s, hs, hdefined, hstops ?_⟩
  have hdatum : (s.scope 0).datum? "x" = some v := rfl
  have hwritable : v.isWritable s.cells = false := by decide +kernel
  rw [hdatum, Session.stumbles, Option.toList_some, List.all_cons, hwritable]
  rfl

end FapLang.Run
