import FapLang.Proofs.Run.Visits

/-!
The sessions that runs reach: after any number of texts, with the trace modes set in between, at any
visit (`visitUntil`) and any point of a course. All of them are sound (`Reachable.sound`).
-/

namespace FapLang.Run

open Interp

variable {s : Session}

/-- Visits up to the first node that is met in a session as `stops` says. -/
def visitUntil (stops : Node → Session → Bool) : Nat → Node → Interp Value
  | 0, _ => throw .exhausted
  | depth + 1, n => do
    if stops n (← get) then throw .exhausted
    else recover (visitNode (visitUntil stops depth) n) fun f => Interp.fail (hideInternal f)

theorem tame_visitUntil (stops : Node → Session → Bool) (depth : Nat) : Tame (visitUntil stops depth) := by
  induction depth with
  | zero => exact ⟨fun n _ => .throw _, fun n _ => .throw _⟩
  | succ depth ih =>
    exact ⟨fun n hn => .bind .get fun _ => .ite (.throw _) (ih.deeper.calm n hn),
      fun n hn => .bind .get fun _ => .ite (.throw _) (ih.deeper.orderly n hn)⟩

/-- A run that nothing stops is a run as it is. -/
theorem visitUntil_never (depth : Nat) : visitUntil (fun _ _ => false) depth = visit depth := by
  induction depth with
  | zero => rfl
  | succ depth ih =>
    funext n
    rw [visitUntil, visit, ih]
    rfl

/-- The sessions that come after `s`: texts are run, each to its end or up to some point. -/
inductive Later (s : Session) : Session → Prop
  | refl : Later s s
  | setModes {t : Session} (h : Later s t) (modes : Modes) (source : Array String) :
      Later s (t.setModes modes source)
  | execute {t : Session} (h : Later s t) (stops : Node → Session → Bool) (code : String) :
      Later s ((executeWithin (visitUntil stops depthLimit) code).exec t).2
  | point {t u : Session} (h : Later s t) (hpoint : Leads t u) : Later s u

/-- A session to which some sequence of texts leads from a fresh one, on some input. -/
def Reachable (t : Session) : Prop :=
  ∃ input, Later { Session.fresh with input := input } t

theorem sound_fresh : Sound Session.fresh := by
  have hscope : ∀ id < 1, Session.fresh.scope id = { Scope.empty none with vars := Session.builtins } := by
    intro id hid
    obtain rfl : id = 0 := by omega
    rfl
  refine ⟨Nat.zero_lt_one, ?_, ?_, ?_, fun h => absurd rfl h⟩
  · intro id scope parent hget hup
    have hid : id < 1 := (Array.getElem?_eq_some_iff.mp hget).1
    have heq := hscope id hid
    rw [Session.scope_eq, hget, Option.getD_some] at heq
    rw [heq] at hup
    simp [Scope.empty] at hup
  · intro id hid entry hentry
    rw [hscope id hid] at hentry
    cases hentry
  · intro id hid entry hentry
    rw [hscope id hid] at hentry
    cases hentry

theorem Sound.setModes (hs : Sound s) (modes : Modes) (source : Array String) :
    Sound (s.setModes modes source) := by
  have hscope : Sound (s.setScope s.current fun scope => { scope with modes := modes }) :=
    hs.setScope rfl (fun _ => .inl) fun _ => .inl
  exact ⟨hscope.current, hscope.ordered, hscope.functions, hscope.constants, hs.recorded⟩

/-- Whatever the outcome, a run leads to the session that it leaves. -/
theorem Ends.leads {α : Type} {ending : Except Stop α × Session}
    (h : Ends .statement s ending) : Leads s ending.2 := by
  obtain ⟨outcome, t⟩ := ending
  cases outcome with
  | ok a => exact .course h
  | error stop =>
    cases stop with
    | fault f => exact .course h
    | exhausted => exact h

theorem leads_executeWithin (hs : Sound s) (stops : Node → Session → Bool) (code : String) :
    Leads s ((executeWithin (visitUntil stops depthLimit) code).exec s).2 :=
  ((tame_visitUntil stops depthLimit).executeWithin code s hs).leads

theorem Later.sound {t : Session} (h : Later s t) (hs : Sound s) : Sound t := by
  induction h with
  | refl => exact hs
  | setModes _ modes source ih => exact ih.setModes modes source
  | execute _ stops code ih => exact (leads_executeWithin ih stops code).sound ih
  | point _ hpoint ih => exact hpoint.sound ih

theorem Reachable.sound (h : Reachable s) : Sound s := by
  obtain ⟨input, hlater⟩ := h
  exact hlater.sound (sound_fresh.of_sameFrame (.of_eq rfl))

theorem Reachable.execute (h : Reachable s) (code : String) : Reachable ((execute code).exec s).2 := by
  obtain ⟨input, hlater⟩ := h
  have hrun := hlater.execute (fun _ _ => false) code
  rw [visitUntil_never] at hrun
  exact ⟨input, hrun⟩

end FapLang.Run
