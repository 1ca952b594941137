import FapLang.Proofs.Run.BondedSteps
import FapLang.Proofs.Run.Contract

/-!
Steps obey contracts. To obey a fair contract is a lawful bond of a step with itself
(`Contract.bond`), so the step of a node obeys it if all does that the step leads to.
-/

namespace FapLang.Run

open Interp

variable {C : Contract}

/-- The bond of a contract. -/
def Contract.bond (C : Contract) : Bond :=
  .ofInvariant (fun m ↦ m.Obeys C) C.Pre C.knows

theorem Interp.Obeys.keeps {α : Type} {m : Interp α} (h : m.Obeys C) : C.bond.Keeps m :=
  ⟨h, .any⟩

theorem Interp.Obeys.pre {α : Type} {m : Interp α} (h : m.Obeys C) {s t : Session} {outcome : Except Stop α}
    (hs : C.Pre s) (hexec : m.exec s = (outcome, t)) : C.Pre t := by
  have hpre := (h s hs).1
  rwa [hexec] at hpre

namespace Contract.Fair

variable [hC : C.Fair]

theorem lawful : C.bond.Lawful where
  pure ha := ⟨.pure _, .pure ha⟩
  fail f := ⟨.fail f, .fail f⟩
  bind hm hk := ⟨hm.1.bind_ok fun s a t hs hexec => (hk a (hm.2 s a t hs hexec)).1,
    hm.2.bind (fun _ _ _ hs hexec => hm.1.pre hs hexec) fun a ha => (hk a ha).2⟩
  recover hm hhandler := (hm.1.recover fun f => (hhandler f).1).keeps
  look hk := by
    have hk := fun s (hs : C.Pre s) => hk s s ⟨.refl s, fun _ _ _ => trivial, fun _ _ _ => trivial, fun _ _ _ => trivial,
      hs.functions⟩
    exact ⟨fun s hs => (hk s hs).1 s hs, .look fun s hs => (hk s hs).2⟩
  noteStep step := (obeys_noteStep step).keeps
  note h rest := (obeys_note h rest).keeps
  report message := (obeys_report message).keeps
  blaming message name := Obeys.keeps (.bind (obeys_report message) fun _ => obeys_blame name)
  lament message name := Obeys.keeps (.bind (obeys_report message) fun _ =>
    .bind (.bind .get fun _ => .pure _) fun _ =>
      .ite (.pure _) (.bind (obeys_blame name) fun _ => .pure _))
  markUsed name := (obeys_markUsed name).keeps
  markDefined name := (obeys_markDefined name).keeps
  newList _ := (obeys_newList _).keeps
  announce id step _ := (obeys_announce id step _).keeps
  announceOutcome id _ _ := (obeys_announceOutcome id _).keeps
  readLine message := by
    refine Obeys.keeps (.bind .get fun s => ?_)
    split
    · exact .pure _
    · refine .bind (.modify (fun s => hC.prompt s message) fun _ => rfl) fun _ => ?_
      split
      · exact .pure _
      · exact .bind (.modify (fun _ => hC.aside (.of_update ..)) fun _ => rfl) fun _ => .pure _
  short _ := trivial
  castInt _ _ := trivial

theorem setValue (name : String) (v : Value) : (setValue name v).Obeys C := by
  refine .bind (hC.lawful.currentChain).1 fun ids => ?_
  induction ids with
  | nil => exact .fail _
  | cons id outer ih =>
    refine .bind (obeys_announce _ _ _) fun _ => .bind (obeys_scopeOf id) fun scope => .ite (.fail _) ?_
    cases scope.vars.get? name with
    | some old => exact .bind (obeys_setScope id fun _ _ => .inl) fun _ => obeys_announceOutcome _ _
    | none => exact .bind (hC.lawful.isDefinedIn name outer).1 fun _ => .ite ih (.fail _)

theorem calling : C.bond.Calling where
  toLawful := hC.lawful
  markAssigned name := (obeys_markAssigned name).keeps
  setItems cell _ _ := (obeys_setItems cell _).keeps
  define name _ _ := (obeys_define name _).keeps
  setValue name _ _ := (hC.setValue name _).keeps
  dropVar _ := Obeys.keeps (.bind .get fun _ => obeys_setScope _ fun _ _ => .inl)
  setBreaking _ := Obeys.keeps (.modify (fun _ => hC.aside (.of_update ..)) fun _ => rfl)
  setResult _ := Obeys.keeps (.modify (fun _ => hC.aside (.of_update ..)) fun _ => rfl)
  setReturning := Obeys.keeps (.modify (fun _ => hC.aside (.of_update ..)) fun _ => rfl)
  count _ _ _ _ := trivial
  defineVar id name _ _ := (obeys_defineVar id name _).keeps
  defineConst id name _ _ := (obeys_defineConst id name _).keeps
  newScope parent := (obeys_newScope parent).keeps
  restore _ _ _ := Obeys.keeps (.modify (fun _ => hC.aside (.of_update ..)) fun _ => rfl)
  tidy hm _ hrest := Obeys.keeps (.recover hm.1 fun f => .bind hrest.1 fun _ => .fail f)

theorem plain : C.bond.Plain where
  toLawful := hC.lawful
  any _ := trivial
  currentMethod := Obeys.keeps (.bind .get fun _ => .pure _)
  visitLogicOp n := by
    refine hC.lawful.after (hC.lawful.noteStep _) fun _ => hC.lawful.next (Obeys.keeps .get) fun s => ?_
    refine hC.lawful.next ?_ fun _ => hC.lawful.logicWord rfl rfl n
    cases s.currentLine? with
    | none => exact hC.lawful.pure trivial
    | some content => exact hC.lawful.notes
  noteResult h _ _ := Obeys.keeps (.bind .get fun _ => .ite (obeys_note h _) (.pure ()))

theorem settleFunction {name : String} {params body : Node} (h : ∀ cell scope, C.knows name ⟨cell, body, scope⟩) :
    (settleFunction name params body).Obeys C := by
  refine .bind .get fun _ => .bind (obeys_newList _) fun _ => .bind .get fun _ => ?_
  refine .bind (obeys_defineFunc _ (h _ _)) fun _ => .bind (obeys_markDefined name) fun _ => ?_
  exact .bind (obeys_note isRuntime_lead _) fun _ => .pure _

end Contract.Fair

theorem obeys_isConstant [hC : C.Fair] (name : String) : (isConstant name).Obeys C :=
  (hC.lawful.isConstant name).1

end FapLang.Run
