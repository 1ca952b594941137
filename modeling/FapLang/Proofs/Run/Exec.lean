import FapLang.Run.Statement

/-!
What a step does to a session: its outcome and the session after it, with one equation for each way to
build a step. Later proofs use these equations and do not look into the monad.
-/

namespace FapLang.Run

namespace Interp

variable {α β : Type} {s : Session} {ending : Except Stop α × Session} {step : Interp α} {next : α → Interp β}

/-- The outcome of a step and the session that it leaves. -/
def exec (step : Interp α) (s : Session) : Except Stop α × Session :=
  step.run.run s

@[simp] theorem exec_pure (a : α) (s : Session) : (pure a : Interp α).exec s = (.ok a, s) := rfl

theorem exec_bind (step : Interp α) (next : α → Interp β) (s : Session) :
    (step >>= next).exec s = match step.exec s with
      | (.ok a, s') => (next a).exec s'
      | (.error stop, s') => (.error stop, s') := by
  simp only [exec, ExceptT.run_bind, StateT.run_bind]
  cases step.run.run s with
  | mk result s' => cases result <;> rfl

@[simp] theorem exec_get (s : Session) : (get : Interp Session).exec s = (.ok s, s) := rfl

theorem exec_get_bind (next : Session → Interp β) (s : Session) : (get >>= next).exec s = (next s).exec s := rfl

@[simp] theorem exec_modify (f : Session → Session) (s : Session) :
    (modify f : Interp Unit).exec s = (.ok (), f s) := rfl

@[simp] theorem exec_modifyGet (f : Session → α × Session) (s : Session) :
    (modifyGet f : Interp α).exec s = (.ok (f s).1, (f s).2) := rfl

theorem exec_itemsOf (cell : Nat) (s : Session) : (itemsOf cell).exec s = (.ok (s.cells.getD cell #[]), s) := rfl

theorem exec_childrenOf (rule : String) (cs : List Node) (s : Session) :
    (childrenOf (.tree rule cs)).exec s = (.ok cs, s) := rfl

theorem exec_nameOf (visit : Visit) (kind name : String) (s : Session) :
    (nameOf visit (.token kind name)).exec s = (.ok name, s) := rfl

theorem exec_setBreaking (b : Bool) (s : Session) : (setBreaking b).exec s = (.ok (), { s with breaking := b }) := rfl

@[simp] theorem exec_throw (stop : Stop) (s : Session) : (throw stop : Interp α).exec s = (.error stop, s) := rfl

@[simp] theorem exec_fail (f : Fault) (s : Session) : (fail f : Interp α).exec s = (.error (.fault f), s) := rfl

@[simp] theorem exec_ofExcept_ok (a : α) (s : Session) : (ofExcept (.ok a)).exec s = (.ok a, s) := rfl

@[simp] theorem exec_ofExcept_error (f : Fault) (s : Session) :
    (ofExcept (.error f : Except Fault α)).exec s = (.error (.fault f), s) := rfl

theorem exec_recover (step : Interp α) (handler : Fault → Interp α) (s : Session) :
    (recover step handler).exec s = match step.exec s with
      | (.error (.fault f), s') => (handler f).exec s'
      | ended => ended := by
  cases hstep : step.exec s with
  | mk result s' =>
    have hrun : StateT.run step s = (result, s') := hstep
    simp only [exec, recover, tryCatch, tryCatchThe, MonadExceptOf.tryCatch, ExceptT.tryCatch,
      ExceptT.run_mk, StateT.run_bind]
    rw [hrun]
    cases result with
    | ok a => rfl
    | error stop => cases stop <;> rfl

/-- A step after which another one follows. -/
theorem exec_bind_ok {s' : Session} {a : α}
    (h : step.exec s = (.ok a, s')) : (step >>= next).exec s = (next a).exec s' := by
  rw [exec_bind, h]

theorem exec_bind_error {s' : Session} {stop : Stop}
    (h : step.exec s = (.error stop, s')) : (step >>= next).exec s = (.error stop, s') := by
  rw [exec_bind, h]

/-- The outcome of two steps in a row is the outcome of the second one. -/
theorem exec_bind_eq_ok {u : Session} {b : β} (h : (step >>= next).exec s = (.ok b, u)) :
    ∃ a t, step.exec s = (.ok a, t) ∧ (next a).exec t = (.ok b, u) := by
  rw [exec_bind] at h
  rcases hexec : step.exec s with ⟨stop | a, t⟩ <;> rw [hexec] at h
  · cases h
  · exact ⟨a, t, rfl, h⟩

/-- What a step leaves that returns. -/
def returned? : Except Stop α × Session → Option Session
  | (.ok _, s) => some s
  | (.error _, _) => none

/-- What a step leaves that fails. -/
def failed? : Except Stop α × Session → Option Session
  | (.error (.fault _), s) => some s
  | _ => none

theorem returned?_eq_some {t : Session} (h : returned? ending = some t) : ∃ a, ending = (.ok a, t) := by
  obtain ⟨outcome, s⟩ := ending
  cases outcome with
  | ok a => exact ⟨a, by rw [Option.some.inj h]⟩
  | error stop => simp [returned?] at h

theorem failed?_eq_some {t : Session} (h : failed? ending = some t) : ∃ f, ending = (.error (.fault f), t) := by
  obtain ⟨outcome, s⟩ := ending
  cases outcome with
  | ok a => simp [failed?] at h
  | error stop =>
    cases stop with
    | fault f => exact ⟨f, by rw [Option.some.inj h]⟩
    | exhausted => simp [failed?] at h

end Interp

open Interp

section Passages

variable {α β : Type}

/-- Why a step ended without a value, if it did. -/
def stopOf : Except Stop α → Option Stop
  | .ok _ => none
  | .error stop => some stop

/-- What may lie between the start of a step and its end. -/
abbrev Passage := Session → Option Stop → Session → Prop

/-- The passages of steps in a row are one passage. -/
class Passage.Chains (R : Passage) : Prop where
  refl (s : Session) : R s none s
  trans {s t u : Session} {stop : Option Stop} (h₁ : R s none t) (h₂ : R t stop u) : R s stop u

/-- In every session the step is such a passage. -/
def Interp.Passes (R : Passage) (m : Interp α) : Prop :=
  ∀ s, R s (stopOf (m.exec s).1) (m.exec s).2

namespace Interp.Passes

variable {R : Passage} {m : Interp α} {k : α → Interp β}

protected theorem modify {g : Session → Session} (hg : ∀ s, R s none (g s)) : (modify g : Interp Unit).Passes R :=
  hg

protected theorem ite {c : Prop} [Decidable c] {m' : Interp α} (hm : m.Passes R) (hm' : m'.Passes R) :
    (if c then m else m').Passes R :=
  iteInduction (fun _ ↦ hm) fun _ ↦ hm'

variable [R.Chains]

protected theorem pure (a : α) : (pure a : Interp α).Passes R :=
  Passage.Chains.refl

protected theorem get : (get : Interp Session).Passes R :=
  Passage.Chains.refl

/-- Two steps in a row, where the second may use what the first found. -/
theorem bind_ok (hm : m.Passes R) (hk : ∀ s a t, m.exec s = (.ok a, t) → (k a).Passes R) : (m >>= k).Passes R := by
  intro s
  have hfirst := hm s
  rw [exec_bind]
  rcases hexec : m.exec s with ⟨stop | a, t⟩ <;> rw [hexec] at hfirst
  · exact hfirst
  · exact Passage.Chains.trans hfirst (hk s a t hexec t)

protected theorem bind (hm : m.Passes R) (hk : ∀ a, (k a).Passes R) : (m >>= k).Passes R :=
  hm.bind_ok fun _ a _ _ ↦ hk a

protected theorem recover {handler : Fault → Interp α} (hm : m.Passes R)
    (hhandler : ∀ s f t, R s (some (.fault f)) t → R s none t ∧ (handler f).Passes R) :
    (Interp.recover m handler).Passes R := by
  intro s
  have hfirst := hm s
  rw [exec_recover]
  rcases hexec : m.exec s with ⟨(f | _) | a, t⟩ <;> rw [hexec] at hfirst
  · obtain ⟨hcaught, hnext⟩ := hhandler s f t hfirst
    exact Passage.Chains.trans hcaught (hnext t)
  · exact hfirst
  · exact hfirst

end Interp.Passes

end Passages

variable {s : Session} {message : List Piece}

/-- All pieces of a message can be written. -/
def Session.Writes (s : Session) (message : List Piece) : Prop :=
  message.all (·.isWritable s.cells) = true

theorem exec_checkWritable (h : s.Writes message) : (checkWritable message).exec s = (.ok (), s) := by
  rw [Session.Writes] at h
  rw [checkWritable, exec_get_bind, if_pos h, exec_pure]

theorem exec_checkWritable_of_not_writes (h : ¬ s.Writes message) :
    (checkWritable message).exec s = (.error (.fault .tooManyDigits), s) := by
  rw [Session.Writes] at h
  rw [checkWritable, exec_get_bind, if_neg h]
  rfl

/-- A trace line changes nothing but the trace lines that wait. -/
theorem exists_notes_addNote (line : Int) (code message : String) (s : Session) :
    ∃ notes, (addNote line code message).exec s = (.ok (), { s with notes := notes }) := by
  rw [addNote, exec_modify]
  split
  · split
    · exact ⟨_, rfl⟩
    · exact ⟨s.notes, rfl⟩
  · exact ⟨s.notes, rfl⟩

theorem exists_notes_noteStep (step : String) (s : Session) :
    ∃ notes, (noteStep step).exec s = (.ok (), { s with notes := notes }) := by
  rw [noteStep, exec_get_bind, callNote]
  exact exists_notes_addNote s.line _ _ s

end FapLang.Run
