import FapLang.Proofs.Run.History

/-!
Variables keep their kinds. A variable stays bound in its scope to values of one kind, from any
point of a run to any later one, as long as no loop over its name in that scope binds or removes it
(`variables_keep_their_kinds`).
-/

namespace FapLang.Run

open Interp Grammar

/-- A step that is not one of a loop over the name keeps its kind. -/
theorem Step.kindKept {a : Act} {p q : Point} (h : Step a p q) {name : String} {id : Nat}
    (ha : a ≠ .repeating name id) : KindKept name id p.session q.session := by
  cases h with
  | aside loops hframe => exact .of_vars_eq (by rw [hframe.scope_eq])
  | declare loops hfree v => exact .declare hfree v
  | defineConst | defineFunc => exact .setScope fun _ _ hv => hv
  | assign loops hold hkind => exact .assign hold hkind
  | request | resume | begin | finish => exact .of_vars_eq rfl
  | @enter s _ f _ bound => exact .entered name id s f bound
  | repeats loops _ i => exact .bindVar (fun hname hid => ha (by rw [hname, hid])) (.int i)
  | drops => exact .dropVar fun hname hid => ha (by rw [hname, hid])

theorem History.kindKept {p q : Point} {history : List (Act × Point)} (h : History p history q) {name : String}
    {id : Nat} (hplain : ∀ step ∈ history, step.1 ≠ .repeating name id) : KindKept name id p.session q.session := by
  induction h with
  | nil => exact .refl name id _
  | cons hstep _ ih =>
    exact (hstep.kindKept (hplain _ (.head _))).trans
      (ih fun step hmem => hplain step (.tail _ hmem))

/-- The manner in which a variable of a scope keeps its kind. -/
def Manner.keeping (name : String) (id : Nat) : Manner where
  moves := KindKept name id
  stops s _ t := KindKept name id s t

section Keeping

variable (name : String) (id : Nat)

instance Manner.keeping_lawful : (Manner.keeping name id).Lawful :=
  lawful_of_moves (.refl name id) .trans fun hframe _ => .of_vars_eq (by rw [hframe.scope_eq])

/-- An assignment is to a value of the kind that the variable had before, which is kept. -/
theorem Manner.keeping_binding : (Manner.keeping name id).Binding (Manner.keeping name id) where
  within := .refl _
  declare _ ht hsees v := KindKept.trans ht.2 (.declare (ht.1.sound.binds_eq_false hsees) v)
  defineConst _ ht _ _ _ := KindKept.trans ht.2 (.setScope fun _ _ hv => hv)
  assign {s t bound other old found v} _ ht _ hold hfound hkind := by
    by_cases hsame : bound = name ∧ other = id
    · obtain ⟨rfl, rfl⟩ := hsame
      obtain ⟨w, hw, hkept⟩ := ht.2 old hold
      have hfound' : v.kind = found.kind := by rw [hkind, ← hkept, Option.some.inj (hw.symm.trans hfound)]
      exact KindKept.trans ht.2 (.assign hfound hfound')
    · exact KindKept.trans ht.2 (.bindVar (fun hname hid => hsame ⟨hname, hid⟩) v)

theorem Manner.keeping_acting : (Manner.keeping name id).Acting (Manner.keeping name id) where
  binding := .of_binding (keeping_binding name id)
  naming _ _ _ _ _ _ ht _ _ := KindKept.trans ht.2 (.setScope fun _ _ hv => hv)
  requesting _ _ _ _ := .of_vars_eq rfl

theorem Manner.keeping_calling : (Manner.keeping name id).Calling (Manner.keeping name id) where
  returns _ _ _ h := ((KindKept.entered name id _ _ _).trans h.2).trans (.of_vars_eq rfl)
  fails _ _ _ _ h := ((KindKept.entered name id _ _ _).trans h).trans (.of_vars_eq rfl)
  breaksOff _ _ _ h := (KindKept.entered name id _ _ _).trans h

/-- Where loops over the name are not begun in the scope, its variable keeps its kind. -/
theorem beside_keeping {stops : Node → Session → Bool}
    (hstops : ∀ n s, loopsOver name id n s = true → stops n s = true) (depth : Nat) :
    Beside (Manner.keeping name id) (Manner.keeping name id) (visitUntil stops depth) := by
  refine (Manner.keeping_acting name id).beside_of_loopsOver (Manner.keeping_calling name id)
    (fun _ _ _ => .of_imp fun h => h) (fun hne => ?_) hstops depth
  exact ⟨⟨fun hid i => .bindVar (fun hname => hid ▸ hne hname) (.int i)⟩, fun hid => .dropVar fun hname => hid ▸ hne hname⟩

end Keeping

/-- From the start of a visit of an expression or a statement, or of the run of a text, to its end
or any other point, every variable of every scope stays bound to values of the kind that it had, if
no loop over it was begun in that scope. The run of a text also has a history in which this holds
between any two points. -/
theorem variables_keep_their_kinds {s : Session} (hs : Arising s) :
    (∀ c ∈ phraseForms ++ deedForms, ∀ n, Of c n → ∀ name id stops,
      (∀ m t, loopsOver name id m t = true → stops m t = true) →
      ∀ depth, KindKept name id s ((visitUntil stops depth n).exec s).2) ∧
    ∀ code program, parse code = .ok program →
      (∀ name id stops, (∀ m t, loopsOver name id m t = true → stops m t = true) →
        KindKept name id s ((executeWithin (visitUntil stops depthLimit) code).exec s).2) ∧
      ∃ history, History ⟨s, []⟩ history ⟨((execute code).exec s).2, []⟩ ∧
        ∀ before between after p q, history = before ++ between ++ after →
          History ⟨s, []⟩ before p → History p between q →
          ∀ name id, (∀ step ∈ between, step.1 ≠ .repeating name id) → KindKept name id p.session q.session := by
  refine ⟨fun c hc n hn name id stops hstops depth ↦ ?_, fun code program hparse ↦
    ⟨fun name id stops hstops ↦ ?_, ?_⟩⟩
  · have hbeside := beside_keeping name id hstops depth
    rcases List.mem_append.mp hc with hc | hc
    · exact (hbeside.phrase c hc n hn s hs.formed).moved
    · exact (hbeside.deed c hc n hn s hs.formed).moved
  · exact ((beside_keeping name id hstops depthLimit).goes_executeWithin (Manner.keeping_acting name id) hparse s
      hs.formed).moved
  · obtain ⟨history, hhistory⟩ := exists_history hs hparse
    exact ⟨history, hhistory, fun _ _ _ _ _ _ _ hbetween _ _ hplain ↦ hbetween.kindKept hplain⟩

/-- A variable that holds a number is assigned a text. -/
theorem assigned_text_keeps_kind :
    ∃ s, Arising s ∧ ((s.scope 0).vars.get? "x").map Value.kind = some .int ∧
      ∃ w, ((((executeWithin (visitUntil (loopsOver "x" 0) depthLimit) "x -> \"7\"").exec s).2).scope 0).vars.get? "x" =
        some w ∧ w.kind = .int := by
  let s := ((executeWithin (visitUntil (fun _ _ ↦ false) depthLimit) "x -> 1").exec Session.fresh).2
  have hs : Arising s := .execute (.fresh (some [])) (fun _ _ ↦ false) "x -> 1"
  have hkind : ((s.scope 0).vars.get? "x").map Value.kind = some .int := by decide +kernel
  obtain ⟨v, hv, hint⟩ := Option.map_eq_some_iff.mp hkind
  have hparse : parse "x -> \"7\"" = .ok (.tree "start" [.tree "statement" [.tree "assignment" [.token "IDENT" "x",
      .tree "expr" [.tree "term" [.tree "factor" [.token "STRING" "\"7\""]]]]]]) := by rfl
  obtain ⟨w, hw, hkept⟩ :=
    ((variables_keep_their_kinds hs).2 _ _ hparse).1 "x" 0 (loopsOver "x" 0) (fun _ _ h ↦ h) v hv
  exact ⟨s, hs, hkind, w, hw, hkept.trans hint⟩

end FapLang.Run
