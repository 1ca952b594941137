import FapLang.Proofs.Run.BondedSteps
import FapLang.Proofs.Run.Course

/-!
Steps that follow courses from sound sessions (`Interp.Follows`). Steps that only keep the books
even keep the whole frame (`Interp.Stays`). Both are closed under the ways to build steps.
-/

namespace FapLang.Run

variable {α β : Type} {level : Level} {s t : Session} {ending : Except Stop α × Session} {m m' : Interp α}
variable {handler : Fault → Interp α} {k : α → Interp β}

/-- What messages, marks and lists are no part of. -/
def Session.frame (s : Session) :=
  (s.scopes, s.current, s.result, s.returning, s.breaking, s.errors, s.faulty)

theorem SameFrame.of_eq (h : t.frame = s.frame) : SameFrame s t := by
  simp only [Session.frame, Prod.mk.injEq] at h
  exact ⟨h.1, h.2.1, h.2.2.1, h.2.2.2.1, h.2.2.2.2.1, h.2.2.2.2.2.1 ▸ id, .inl h.2.2.2.2.2.2⟩

theorem SameFrame.refl (s : Session) : SameFrame s s :=
  of_eq rfl

theorem SameFrame.trans {u : Session} (h1 : SameFrame s t) (h2 : SameFrame t u) : SameFrame s u :=
  ⟨h2.scopes.trans h1.scopes, h2.current.trans h1.current, h2.result.trans h1.result,
    h2.returning.trans h1.returning, h2.breaking.trans h1.breaking, fun h => h2.errors (h1.errors h),
    h1.faulty.elim (fun h => h ▸ h2.faulty) fun h => .inr (h2.errors h)⟩

theorem SameFrame.scope_eq (h : SameFrame s t) (id : Nat) : t.scope id = s.scope id := by
  rw [Session.scope, Session.scope, h.scopes]

theorem SameFrame.chain_eq (h : SameFrame s t) (id : Nat) : t.chain id = s.chain id := by
  rw [Session.chain, Session.chain, h.scopes]

theorem SameFrame.sees_eq (h : SameFrame s t) (name : String) : t.sees name = s.sees name := by
  simp only [Session.sees, h.chain_eq, h.scope_eq, h.current]

theorem SameFrame.knows (h : SameFrame s t) {f : Function} (hf : s.Knows f) : t.Knows f := by
  rwa [Session.Knows, h.current, h.chain_eq, h.scope_eq]

/-- What expressions may do can be done at every level. -/
theorem Course.lift (h : Course .expression s t) : Course level s t := by
  cases level with
  | expression => exact h
  | statement => exact h.toStatement

/-- How a step may end that started in `s`. -/
def Ends (level : Level) (s : Session) : Except Stop α × Session → Prop
  | (.error .exhausted, t) => Leads s t
  | (_, t) => Course level s t

theorem Course.ends (h : Course level s t) (outcome : Except Stop α) : Ends level s (outcome, t) := by
  cases outcome with
  | ok a => exact h
  | error stop =>
    cases stop with
    | fault f => exact h
    | exhausted => exact .course h.toStatement

theorem SameFrame.ends (h : SameFrame s t) (outcome : Except Stop α) : Ends level s (outcome, t) :=
  (Course.single (.aside h)).ends outcome

/-- A course before a step. -/
theorem Ends.prepend (h : Course level s t) (hend : Ends level t ending) : Ends level s ending := by
  obtain ⟨outcome, u⟩ := ending
  cases outcome with
  | ok a => exact h.trans hend
  | error stop =>
    cases stop with
    | fault f => exact h.trans hend
    | exhausted => exact Leads.prepend h hend

theorem Ends.lift (hend : Ends .expression s ending) : Ends level s ending := by
  obtain ⟨outcome, u⟩ := ending
  cases outcome with
  | ok a => exact Course.lift hend
  | error stop =>
    cases stop with
    | fault f => exact Course.lift hend
    | exhausted => exact hend

/-- What a step that stops leaves does not depend on the kind of its value. -/
theorem Ends.of_error {stop : Stop} (hend : Ends level s ((.error stop : Except Stop α), t)) :
    Ends level s ((.error stop : Except Stop β), t) := by
  cases stop with
  | fault f => exact hend
  | exhausted => exact hend

/-- Two steps in a row, where the second may use what the first found. -/
theorem Ends.bind (hm : Ends level s (m.exec s))
    (hk : ∀ a t, m.exec s = (.ok a, t) → Course level s t → Ends level t ((k a).exec t)) :
    Ends level s ((m >>= k).exec s) := by
  rcases hexec : m.exec s with ⟨stop | a, t⟩ <;> rw [hexec] at hm
  · rw [Interp.exec_bind_error hexec]
    exact hm.of_error
  · rw [Interp.exec_bind_ok hexec]
    exact Ends.prepend hm (hk a t hexec hm)

/-- The first of two steps does what expressions do. -/
theorem Ends.bind_expression (hm : Ends .expression s (m.exec s))
    (hk : ∀ a t, m.exec s = (.ok a, t) → Course .expression s t → Ends level t ((k a).exec t)) :
    Ends level s ((m >>= k).exec s) := by
  refine hm.lift.bind fun a t hexec _ => hk a t hexec ?_
  rwa [hexec] at hm

namespace Interp

/-- The step keeps the scopes and the requests, whatever its outcome. -/
def Stays (m : Interp α) : Prop :=
  m.Passes fun s _ t => SameFrame s t

instance : Passage.Chains fun s _ t => SameFrame s t := ⟨.refl, .trans⟩

/-- The step keeps the frame if there is an error already. -/
def Marks (m : Interp α) : Prop :=
  m.Passes fun s _ t => s.errors ≠ #[] → SameFrame s t

instance : Passage.Chains fun s _ t => s.errors ≠ #[] → SameFrame s t where
  refl s _ := .refl s
  trans h₁ h₂ hs := (h₁ hs).trans (h₂ ((h₁ hs).errors hs))

/-- The step keeps the frame and returns only with an error on record. -/
def Records (m : Interp α) : Prop :=
  m.Stays ∧ ∀ s a t, m.exec s = (.ok a, t) → t.errors ≠ #[]

/-- Started in a sound session, the step ends as courses of the level do. -/
def Follows (level : Level) (m : Interp α) : Prop :=
  ∀ s, Sound s → Ends level s (m.exec s)

namespace Stays

protected theorem fail (f : Fault) : (Interp.fail f : Interp α).Stays :=
  .refl

protected theorem ofExcept (e : Except Fault α) : (Interp.ofExcept e).Stays := by
  cases e with
  | ok a => exact .pure a
  | error f => exact .fail f

protected theorem modify {g : Session → Session} (hg : ∀ s, (g s).frame = s.frame) : (modify g : Interp Unit).Stays :=
  fun s => .of_eq (hg s)

protected theorem recover (hm : m.Stays) (hhandler : ∀ f, (handler f).Stays) : (Interp.recover m handler).Stays :=
  Passes.recover hm fun _ f _ h => ⟨h, hhandler f⟩

theorem sameFrame (hm : m.Stays) {outcome : Except Stop α} (h : m.exec s = (outcome, t)) : SameFrame s t := by
  have hframe := hm s
  rwa [h] at hframe

protected theorem follows (hm : m.Stays) : m.Follows level :=
  fun s _ => (hm s).ends _

theorem marks (hm : m.Stays) : m.Marks :=
  fun s _ => hm s

end Stays

namespace Records

theorem stays (hm : m.Records) : m.Stays :=
  hm.1

theorem errors (hm : m.Records) {a : α} (h : m.exec s = (.ok a, t)) : t.errors ≠ #[] :=
  hm.2 s a t h

/-- A step after one that records. -/
protected theorem bind (hm : m.Records) (hk : ∀ a, (k a).Marks) : (m >>= k).Records := by
  have hboth : ∀ s, SameFrame s ((m >>= k).exec s).2 ∧
      ∀ b u, (m >>= k).exec s = (.ok b, u) → u.errors ≠ #[] := by
    intro s
    have hfirst := hm.stays s
    rw [exec_bind]
    rcases hexec : m.exec s with ⟨stop | a, t⟩ <;> rw [hexec] at hfirst
    · exact ⟨hfirst, fun b u h => absurd (congrArg Prod.fst h) (by simp)⟩
    · have herrs := hm.errors hexec
      have hsnd := hk a t herrs
      refine ⟨hfirst.trans hsnd, fun b u h => ?_⟩
      have h : (k a).exec t = (.ok b, u) := h
      rw [h] at hsnd
      exact hsnd.errors herrs
  exact ⟨fun s => (hboth s).1, fun s => (hboth s).2⟩

/-- A step that records, after another one. -/
theorem after (hm : m.Stays) (hk : ∀ a, (k a).Records) : (m >>= k).Records := by
  refine ⟨.bind hm fun a => (hk a).stays, fun s b u h => ?_⟩
  rw [exec_bind] at h
  rcases hexec : m.exec s with ⟨stop | a, t⟩ <;> rw [hexec] at h
  · cases h
  · exact (hk a).errors h

end Records

namespace Follows

protected theorem lift (hm : m.Follows .expression) : m.Follows level :=
  fun s hs => (hm s hs).lift

protected theorem pure (a : α) : (pure a : Interp α).Follows level :=
  Stays.follows (.pure a)

protected theorem get : (get : Interp Session).Follows level :=
  Stays.follows .get

protected theorem fail (f : Fault) : (Interp.fail f : Interp α).Follows level :=
  (Stays.fail f).follows

protected theorem throw (stop : Stop) : (throw stop : Interp α).Follows level :=
  fun s _ => (SameFrame.refl s).ends _

/-- Two steps in a row, where the second may use what the first found. -/
theorem bind_ok (hm : m.Follows level)
    (hk : ∀ s a t, Sound s → m.exec s = (.ok a, t) → (k a).Follows level) : (m >>= k).Follows level :=
  fun s hs => (hm s hs).bind fun a t hexec hcourse => hk s a t hs hexec t (hcourse.sound hs)

protected theorem bind (hm : m.Follows level) (hk : ∀ a, (k a).Follows level) : (m >>= k).Follows level :=
  hm.bind_ok fun _ a _ _ _ => hk a

theorem sound (hm : m.Follows level) {a : α} (hs : Sound s) (hexec : m.exec s = (.ok a, t)) : Sound t := by
  have hend := hm s hs
  rw [hexec] at hend
  exact Course.sound hend hs

/-- A step after one that keeps the frame. -/
theorem after (hm : m.Stays) (hk : ∀ a, (k a).Follows level) : (m >>= k).Follows level :=
  .bind hm.follows hk

protected theorem ite {c : Prop} [Decidable c] (hm : m.Follows level)
    (hm' : m'.Follows level) : (if c then m else m').Follows level :=
  iteInduction (fun _ => hm) fun _ => hm'

protected theorem recover (hm : m.Follows level)
    (hhandler : ∀ f, (handler f).Follows level) : (Interp.recover m handler).Follows level := by
  intro s hs
  have hend := hm s hs
  rw [exec_recover]
  rcases hexec : m.exec s with ⟨stop | a, t⟩ <;> rw [hexec] at hend
  · cases stop with
    | fault f => exact Ends.prepend hend (hhandler f t (hend.sound hs))
    | exhausted => exact hend
  · exact hend

end Follows

end Interp

/-- A step after one that keeps the frame, in one session. -/
theorem Ends.after (hm : m.Stays) (hk : ∀ a t, m.exec s = (.ok a, t) → SameFrame s t → Ends level t ((k a).exec t)) :
    Ends level s ((m >>= k).exec s) :=
  ((hm s).ends _).bind fun a t hexec _ => hk a t hexec (hm.sameFrame hexec)

open Interp

/-! ### Messages and marks -/

theorem stays_writeLine (channel : Channel) (text : String) : (writeLine channel text).Stays := .modify fun _ => rfl

theorem stays_addNote (line : Int) (code message : String) : (addNote line code message).Stays := by
  intro s
  obtain ⟨notes, hexec⟩ := exists_notes_addNote line code message s
  rw [hexec]
  exact .of_eq rfl

theorem records_reportAt (line : Int) (message : String) : (reportAt line message).Records := by
  have hboth : ∀ s, SameFrame s ((reportAt line message).exec s).2 ∧
      ((reportAt line message).exec s).2.errors ≠ #[] := by
    intro s
    rw [reportAt, exec_modify]
    dsimp only
    split
    · rename_i hknown
      exact ⟨.refl s, Array.ne_empty_of_mem (Array.contains_iff_mem.mp hknown)⟩
    · have hpush : ∀ text, s.errors.push text ≠ #[] := fun _ => Array.push_ne_empty
      exact ⟨⟨rfl, rfl, rfl, rfl, rfl, fun _ => hpush _, .inl rfl⟩, hpush _⟩
  refine ⟨fun s => (hboth s).1, fun s _ t h => ?_⟩
  rw [← (Prod.mk.inj h).2]
  exact (hboth s).2

theorem stays_reportAt (line : Int) (message : String) : (reportAt line message).Stays :=
  (records_reportAt line message).stays

variable (name : String) (message : List Piece)

theorem marks_blame : (blame name).Marks :=
  fun _ h => ⟨rfl, rfl, rfl, rfl, rfl, id, .inr h⟩

theorem stays_markUsed : (markUsed name).Stays := .modify fun _ => rfl

theorem stays_markDefined : (markDefined name).Stays := .modify fun _ => rfl

theorem stays_markAssigned : (markAssigned name).Stays := .modify fun _ => rfl

theorem stays_newList (items : Array Value) : (newList items).Stays := fun _ => .of_eq rfl

theorem stays_setItems (cell : Nat) (f : Array Value → Array Value) : (setItems cell f).Stays := .modify fun _ => rfl

theorem stays_checkWritable : (checkWritable message).Stays :=
  .bind .get fun _ => .ite (.pure ()) (Stays.fail _)

theorem stays_format : (format message).Stays :=
  .bind (stays_checkWritable message) fun _ => .bind .get fun _ => .pure _

theorem stays_note : (note message).Stays :=
  .bind (stays_checkWritable message) fun _ => .bind .get fun _ => .ite (stays_addNote _ _ _) (.pure ())

theorem stays_noteStep (step : String) : (noteStep step).Stays :=
  .bind .get fun _ => stays_addNote _ _ _

theorem records_report (message : String) : (report message).Records :=
  records_reportAt 0 message

theorem stays_report (message : String) : (report message).Stays :=
  (records_report message).stays

theorem records_reportPieces : (reportPieces message).Records :=
  .after (stays_format message) records_report

theorem stays_reportPieces : (reportPieces message).Stays :=
  (records_reportPieces message).stays

/-- A name becomes faulty with an error. -/
theorem records_report_blame (message name : String) (a : α) :
    (do report message; blame name; pure a : Interp α).Records :=
  .bind (records_report message) fun _ => .bind (marks_blame name) fun _ => .pure a

theorem stays_itemsOf (cell : Nat) : (itemsOf cell).Stays :=
  .bind .get fun _ => .pure _

/-! ### Questions to scopes -/

theorem stays_scopeOf (id : Nat) : (scopeOf id).Stays :=
  .bind .get fun _ => .pure _

theorem stays_announce (id : Nat) (step : String) (args : List Piece) : (announce id step args).Stays := by
  refine .bind (stays_scopeOf id) fun _ => .ite ?_ (.pure ())
  exact .bind (stays_checkWritable args) fun _ => .bind .get fun _ => stays_writeLine _ _

theorem stays_announceOutcome (id : Nat) (message : List Piece) : (announceOutcome id message).Stays := by
  refine .bind (stays_scopeOf id) fun _ => .ite ?_ (.pure ())
  exact .bind (stays_format message) fun _ => stays_writeLine _ _

/-! ### Casts and the parts of nodes -/

theorem marks_blameUnlessEmpty : (blameUnlessEmpty name).Marks :=
  .ite (.pure ()) (marks_blame name)

theorem records_castFailure (v : Value) (type name : String) (f : Fault) : (castFailure v type name f).Records :=
  .bind (records_reportPieces _) fun _ => .bind (marks_blameUnlessEmpty name) fun _ => .pure _

theorem records_unsupported (message name : String) :
    (do report message; blameUnlessEmpty name; return .none : Interp Value).Records :=
  .bind (records_report message) fun _ => .bind (marks_blameUnlessEmpty name) fun _ => .pure _

/-! ### The bonds -/

theorem stays_readLine (prompt : String) : (readLine prompt).Stays := by
  refine .bind .get fun s => ?_
  cases s.input with
  | none => exact .pure _
  | some text =>
    refine .bind (Stays.modify fun _ => rfl) fun _ => ?_
    split
    · exact .pure _
    · exact .bind (Stays.modify fun _ => rfl) fun _ => .pure _

/-- The bond of an invariant of all steps that keep the frame is lawful if it is closed under the
ways to build steps. -/
theorem Bond.lawful_ofInvariant {I : {α : Type} → Interp α → Prop} {pre : Session → Prop}
    (hstays : ∀ {α : Type} {m : Interp α}, m.Stays → I m)
    (hbind : ∀ {α β : Type} {m : Interp α} {k : α → Interp β}, I m →
      (∀ s a t, pre s → m.exec s = (.ok a, t) → I (k a)) → I (m >>= k))
    (hpre : ∀ {α : Type} {m : Interp α} {s t : Session} {a : α}, I m → pre s → m.exec s = (.ok a, t) → pre t)
    (hrecover : ∀ {α : Type} {m : Interp α} {handler : Fault → Interp α}, I m → (∀ f, I (handler f)) →
      I (Interp.recover m handler)) : (Bond.ofInvariant I pre fun _ _ => True).Lawful where
  pure ha := ⟨hstays (.pure _), .pure ha⟩
  fail f := ⟨hstays (.fail f), .fail f⟩
  bind hm hk := ⟨hbind hm.1 fun s a t hs hexec => (hk a (hm.2 s a t hs hexec)).1,
    hm.2.bind (fun _ _ _ hs hexec => hpre hm.1 hs hexec) fun a ha => (hk a ha).2⟩
  recover hm hhandler := ⟨hrecover hm.1 fun f => (hhandler f).1, .any⟩
  look hk := by
    have hk := fun s => hk s s ⟨.refl s, fun _ _ _ => trivial, fun _ _ _ => trivial, fun _ _ _ => trivial,
      fun _ _ _ => trivial⟩
    exact ⟨hbind (hstays .get) fun _ s _ _ _ => (hk s).1, .look fun s _ => (hk s).2⟩
  noteStep step := ⟨hstays (stays_noteStep step), .any⟩
  note _ _ := ⟨hstays (stays_note _), .any⟩
  report message := ⟨hstays (stays_report message), .any⟩
  blaming message name := ⟨hstays (Records.bind (records_report message) fun _ => marks_blame name).stays, .any⟩
  lament message name := by
    refine ⟨hstays (Records.bind (records_report message) fun _ => ?_).stays, .any⟩
    refine .bind (.bind .get fun _ => .pure _) fun _ => .ite (.pure _) ?_
    exact .bind (marks_blame name) fun _ => .pure _
  markUsed name := ⟨hstays (stays_markUsed name), .any⟩
  markDefined name := ⟨hstays (stays_markDefined name), .any⟩
  newList _ := ⟨hstays (stays_newList _), .any⟩
  announce id step _ := ⟨hstays (stays_announce id step _), .any⟩
  announceOutcome id _ _ := ⟨hstays (stays_announceOutcome id _), .any⟩
  readLine _ := ⟨hstays (stays_readLine _), .any⟩
  short _ := trivial
  castInt _ _ := trivial

/-- The bond of steps that keep the frame. -/
def staying : Bond :=
  .ofInvariant Stays (fun _ ↦ True) fun _ _ ↦ True

theorem lawful_staying : staying.Lawful :=
  Bond.lawful_ofInvariant id (fun hm hk => hm.bind_ok fun s a t => hk s a t trivial) (fun _ _ _ => trivial) .recover

/-- The bond of steps that follow courses of a level. -/
def following (level : Level) : Bond :=
  .ofInvariant (fun m ↦ m.Follows level) Sound fun _ _ ↦ True

theorem Interp.Follows.keeps (h : m.Follows level) : (following level).Keeps m :=
  ⟨h, .any⟩

theorem lawful_following (level : Level) : (following level).Lawful :=
  Bond.lawful_ofInvariant Stays.follows Follows.bind_ok (fun hm => hm.sound) Follows.recover

/-! ### Steps that keep the frame -/

theorem exec_isFaulty (s : Session) : (isFaulty name).exec s = (.ok (s.faulty.contains name), s) :=
  rfl

theorem stays_isDefinedIn (ids : List Nat) : (isDefinedIn name ids).Stays :=
  (lawful_staying.isDefinedIn name ids).1

theorem stays_isDefined : (isDefined name).Stays :=
  (lawful_staying.isDefined name).1

theorem stays_cast (v : Value) (type name : String) : (cast v type name).Stays :=
  (lawful_staying.cast trivial type name).1

theorem stays_castInitial (v : Value) (type name : String) : (castInitial v type name).Stays :=
  (lawful_staying.castInitial trivial type name).1

theorem stays_castArgs (function : String) (sig pairs : List (Value × Value)) (i : Nat) :
    (castArgs function sig i pairs).Stays :=
  (lawful_staying.castArgs function sig (fun _ _ => trivial) i).1

theorem stays_noteResult (label : List Piece) (v : Value) : (noteResult label v).Stays :=
  .bind .get fun _ => .ite (stays_note _) (.pure ())

theorem stays_visitLogicOp (n : Node) : (visitLogicOp n).Stays := by
  refine .bind (stays_noteStep _) fun _ => .bind .get fun s => .bind ?_ fun _ => (lawful_staying.logicWord rfl rfl n).1
  cases s.currentLine? with
  | some content => exact stays_note _
  | none => exact .pure ()

theorem plain_following (level : Level) : (following level).Plain where
  toLawful := lawful_following level
  any _ := trivial
  currentMethod := (Stays.follows (.bind .get fun _ => .pure _)).keeps
  visitLogicOp n := (stays_visitLogicOp n).follows.keeps
  noteResult _ _ _ := (stays_noteResult _ _).follows.keeps

end FapLang.Run
