import FapLang.Proofs.Run.Lockstep

/-!
Trace modes only observe. Two runs of a text under different trace modes end in the same way and
leave the same records, output and input, as long as no integer of too many digits comes up
(`modes_only_observe`).
-/

namespace FapLang.Run

open Interp

theorem Short.setModes {s : Session} (hs : Short s) (modes : Modes) (source : Array String) :
    Short (s.setModes modes source) := by
  have hscope : ∀ id, ((s.setModes modes source).scope id).vars = (s.scope id).vars ∧
      ((s.setModes modes source).scope id).constants = (s.scope id).constants := by
    intro id
    have hcases := s.scope_setScope s.current id fun scope => { scope with modes := modes }
    have hsame : (s.setModes modes source).scope id =
        (s.setScope s.current fun scope => { scope with modes := modes }).scope id := rfl
    rw [hsame]
    rcases hcases with heq | heq
    · rw [heq]
      exact ⟨rfl, rfl⟩
    · rw [heq]
      exact ⟨rfl, rfl⟩
  refine ⟨fun id => ?_, fun id => ?_, hs.cells⟩
  · rw [(hscope id).1]
    exact hs.vars id
  · rw [(hscope id).2]
    exact hs.constants id

theorem blur_setModes (s : Session) (first second : Modes) (source : Array String) :
    Aspect.trace.blur (s.setModes second source) = Aspect.trace.blur (s.setModes first source) := by
  have hscopes : ∀ modes : Modes,
      (s.scopes.modify s.current fun scope => { scope with modes := modes }).map Scope.still =
        s.scopes.map Scope.still := by
    intro modes
    refine Array.ext_getElem? fun i => ?_
    rw [Array.getElem?_map, Array.getElem?_modify, Array.getElem?_map]
    by_cases hi : s.current = i
    · rw [if_pos hi, Option.map_map]
      rfl
    · rw [if_neg hi]
  simp only [Aspect.blur, Session.setModes, Session.setScope, hscopes]

/-- Runs under two settings of the trace modes, neither cut off for too many digits nor for visits
that are nested too deep. -/
theorem modes_only_observe {s : Session} (hs : Short s) (code : String) (source : Array String)
    (first second : Modes)
    (hshort : ((executeWithin (visitShort depthLimit) code).exec (s.setModes first source)).1 ≠
      .error .exhausted) :
    ((execute code).exec (s.setModes second source)).1 = ((execute code).exec (s.setModes first source)).1 ∧
      SameRecords ((execute code).exec (s.setModes first source)).2
        ((execute code).exec (s.setModes second source)).2 := by
  have hwatched := (twins_visitShort depthLimit).executeWithin code (s.setModes first source)
  have hfirst := hs.setModes first source
  have hsecond := hs.setModes second source
  rcases hwatched _ (.refl hfirst) with hexhausted | ⟨hsame, halike, _⟩
  · exact absurd hexhausted hshort
  rcases hwatched _ ⟨blur_setModes s first second source, hfirst, hsecond⟩ with hexhausted | ⟨hsame', halike', _⟩
  · exact absurd hexhausted hshort
  exact ⟨hsame'.trans hsame.symm, (halike.symm.trans halike').records⟩

theorem short_fresh : Short Session.fresh := by
  have hcases : ∀ id, Session.fresh.scope id = { Scope.empty none with vars := Session.builtins } ∨
      Session.fresh.scope id = Scope.empty none := by
    intro id
    cases id with
    | zero => exact .inl rfl
    | succ id => exact .inr rfl
  refine ⟨fun id entry hentry => ?_, fun id entry hentry => ?_, fun items hitems => ?_⟩
  · rcases hcases id with heq | heq
    · rw [heq] at hentry
      have hbuiltins : ∀ entry ∈ Session.builtins, entry.2.isShort = true := by decide
      exact hbuiltins entry hentry
    · rw [heq] at hentry
      cases hentry
  · rcases hcases id with heq | heq
    · rw [heq] at hentry
      cases hentry
    · rw [heq] at hentry
      cases hentry
  · simp [Session.fresh, Session.blank] at hitems

/-- A name without a value is read: in the full trace the warning goes to another place, the output
does not. -/
theorem modes_only_observe_warning :
    ∃ (code : String) (t u : Session), Short Session.fresh ∧
      ((executeWithin (visitShort depthLimit) code).exec (Session.fresh.setModes .quiet #[])).1 ≠
        .error .exhausted ∧
      ((execute code).exec (Session.fresh.setModes .quiet #[])).2 = t ∧
      ((execute code).exec (Session.fresh.setModes ⟨true, true⟩ #[])).2 = u ∧
      (t.hasOutput = true ∧ t.events.size = 2 ∧ u.events.size = 17) ∧ SameRecords t u := by
  let code := "New int a\nout.Info(a)"
  have hshort : ((executeWithin (visitShort depthLimit) code).exec (Session.fresh.setModes .quiet #[])).1 ≠
      .error .exhausted := by decide +kernel
  have hsame := (modes_only_observe short_fresh code #[] .quiet ⟨true, true⟩ hshort).2
  exact ⟨code, _, _, short_fresh, hshort, rfl, rfl, by decide +kernel, hsame⟩

end FapLang.Run
