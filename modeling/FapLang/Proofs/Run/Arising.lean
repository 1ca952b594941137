import FapLang.Proofs.Run.Texts

/-!
The sessions of any number of runs, with the trace modes set in between, at their visits
(`Arising`). All of them are formed (`Arising.formed`), so what holds of steps from formed sessions
holds at every visit of every run.
-/

namespace FapLang.Run

open Interp Grammar

variable {s : Session}

/-- A session at the start or at the end of a run, or at one of its visits. -/
inductive Arising : Session → Prop
  | fresh (input : Option (List Char)) : Arising { Session.fresh with input := input }
  | setModes {s : Session} (h : Arising s) (modes : Modes) (source : Array String) :
      Arising (s.setModes modes source)
  | execute {s : Session} (h : Arising s) (stops : Node → Session → Bool) (code : String) :
      Arising ((executeWithin (visitUntil stops depthLimit) code).exec s).2

/-- Parameters that cannot be read lack a member. -/
theorem exists_member_of_signature {params : List Value} {f : Fault} (h : signature params = .error f) :
    ∃ (v : Value) (name : String), (name = "name" ∨ name = "type") ∧ v.member name = .error f := by
  rw [signature] at h
  cases hnames : params.mapM (·.member "name") with
  | error g =>
    rw [hnames] at h
    obtain ⟨v, -, hv⟩ := exists_of_mapM_error hnames
    exact ⟨v, "name", .inl rfl, (Except.error.inj h : g = f) ▸ hv⟩
  | ok names =>
    rw [hnames] at h
    cases htypes : params.mapM (·.member "type") with
    | error g =>
      rw [htypes] at h
      obtain ⟨v, -, hv⟩ := exists_of_mapM_error htypes
      exact ⟨v, "type", .inr rfl, (Except.error.inj h : g = f) ▸ hv⟩
    | ok types =>
      rw [htypes] at h
      simp [bind, Except.bind, pure, Except.pure] at h

/-- The manner in which records are only added. -/
def Manner.growing : Manner where
  moves := Growth
  stops s _ t := Growth s t

instance Manner.growing_lawful : Manner.growing.Lawful :=
  lawful_of_moves .refl .trans fun _ hgrowth => hgrowth

theorem Growth.entered (s : Session) (f : Function) (bound : List (String × Value)) : Growth s (s.entered f bound) :=
  .of_eq rfl rfl rfl

theorem Growth.resumed (t caller : Session) : Growth t (t.resumed caller) :=
  .of_eq rfl rfl rfl

theorem Manner.growing_acting : Manner.growing.Acting Manner.growing where
  binding := .of_binding {
    within := .refl _
    declare := fun _ ht _ _ => ht.2.trans (.of_eq rfl rfl rfl)
    defineConst := fun _ ht _ _ _ => ht.2.trans (.of_eq rfl rfl rfl)
    assign := fun _ ht _ _ _ _ => ht.2.trans (.of_eq rfl rfl rfl) }
  naming _ _ _ _ _ _ ht _ _ := ht.2.trans (.of_eq rfl rfl rfl)
  requesting _ _ _ _ := .of_eq rfl rfl rfl

theorem Manner.growing_calling : Manner.growing.Calling Manner.growing where
  returns _ _ _ h := ((Growth.entered _ _ _).trans h.2).trans (.resumed _ _)
  fails _ _ _ _ h := ((Growth.entered _ _ _).trans h).trans (.resumed _ _)
  breaksOff _ _ _ h := (Growth.entered _ _ _).trans h

/-- A manner in which records are only added says no more of what is bound. -/
theorem Manner.acting_of_growing {stops : Session → Stop → Session → Prop} :
    Manner.Acting { moves := Growth, stops := stops } { moves := Growth, stops := stops } where
  binding := { growing_acting.binding with within := .refl _ }
  naming := growing_acting.naming
  requesting := growing_acting.requesting

theorem beside_growing (stops : Node → Session → Bool) (depth : Nat) :
    Beside Manner.growing Manner.growing (visitUntil stops depth) :=
  Manner.growing_acting.beside_visitUntil Manner.growing_calling stops (fun _ _ _ _ _ => .inr (.of_imp id))
    (fun _ _ _ _ _ => .inr ⟨⟨fun _ _ => .of_eq rfl rfl rfl⟩, fun _ => .of_eq rfl rfl rfl⟩) depth

theorem formed_fresh (input : Option (List Char)) : Formed { Session.fresh with input := input } := by
  refine ⟨sound_fresh.of_sameFrame (.of_eq rfl), fun id hid entry hentry => ?_⟩
  obtain rfl : id = 0 := Nat.lt_one_iff.mp hid
  cases hentry

theorem Formed.setModes (hs : Formed s) (modes : Modes) (source : Array String) :
    Formed (s.setModes modes source) := by
  have hscope : Formed (s.setScope s.current fun scope => { scope with modes := modes }) :=
    hs.setScope (hs.sound.setScope rfl (fun _ => .inl) fun _ => .inl) fun _ => .inl
  exact ⟨hs.sound.setModes modes source, hscope.bodies⟩

/-- The message of a refusal tells of no shape. -/
theorem ordinary_refusal {code : String} {e : ParseError} (hparse : parse code = .error e) : Ordinary e.message := by
  cases e with
  | character char line column before after expected previous =>
    iterate 9 refine .append ?_ _
    exact .lead (by decide)
  | foreign token expected previous =>
    iterate 10 refine .append ?_ _
    exact .lead (by decide)
  | misplaced token expected =>
    iterate 7 refine .append ?_ _
    exact .lead (by decide)
  | exhausted => exact absurd hparse (parse_ne_exhausted code)

/-- Of a text that is refused, nothing is run. -/
theorem quiet_executeWithin {code : String} {e : ParseError} (hparse : parse code = .error e) (visit : Visit) :
    (executeWithin visit code).Quiet := by
  refine .bind quiet_clearNotes fun _ => .bind .get fun _ => .bind (quiet_debugIf _ _) fun _ => ?_
  rw [hparse]
  exact quiet_programFailure (ordinary_refusal hparse)

theorem Manner.Ends.formed {M : Manner} {α : Type} {ending : Except Stop α × Session}
    (h : M.Ends s ending) : Formed ending.2 := by
  obtain ⟨outcome, t⟩ := ending
  cases outcome with
  | ok a => exact h.1
  | error stop => exact h.1

theorem Arising.formed (h : Arising s) : Formed s := by
  induction h with
  | fresh input => exact formed_fresh input
  | setModes _ modes source ih => exact ih.setModes modes source
  | @execute s _ stops code ih =>
    cases hparse : parse code with
    | error e => exact ih.of_sameFrame ((quiet_executeWithin hparse _).stays s)
    | ok program =>
      exact ((beside_growing stops depthLimit).goes_executeWithin Manner.growing_acting hparse s ih).formed

/-- All errors of a run tell of no shape. -/
theorem Arising.isRecord (h : Arising s) : ∀ text ∈ s.errors, IsRecord text := by
  induction h with
  | fresh input => exact fun _ htext => absurd htext (by simp [Session.fresh, Session.blank])
  | setModes _ modes source ih => exact ih
  | @execute s hs stops code ih =>
    have hgrowth : Growth s ((executeWithin (visitUntil stops depthLimit) code).exec s).2 := by
      cases hparse : parse code with
      | error e => exact ((quiet_executeWithin hparse _).mild s).1
      | ok program =>
        exact ((beside_growing stops depthLimit).goes_executeWithin Manner.growing_acting hparse s hs.formed).moved
    exact hgrowth.forall_errors ih

end FapLang.Run
