import FapLang.Proofs.Run.Follows
import FapLang.Proofs.Value.Faults

/-!
What lookups answer. A question about a name changes nothing but what is written and noted about it
(`Remarks`), and the scopes determine the answer (`Interp.Tells`). A lookup stops where a traced
scope cannot show a value (`says_valueIn`, `exec_setIn`).
-/

namespace FapLang.Run

open Interp

variable {s t : Session} {cs : List Node} {message : List Piece} {vs : List Value} {name rule : String} {v : Value}
variable {ids : List Nat} {step : Node → Interp Value}

/-- Only lines have been written and noted. -/
def Remarks (s t : Session) : Prop :=
  ∃ notes events, t = { s with notes := notes, events := events }

namespace Remarks

variable {s t u : Session}

theorem refl (s : Session) : Remarks s s :=
  ⟨s.notes, s.events, rfl⟩

theorem trans (h1 : Remarks s t) (h2 : Remarks t u) : Remarks s u := by
  obtain ⟨_, _, rfl⟩ := h1
  obtain ⟨notes, events, rfl⟩ := h2
  exact ⟨notes, events, rfl⟩

theorem symm (h : Remarks s t) : Remarks t s := by
  obtain ⟨_, _, rfl⟩ := h
  exact ⟨s.notes, s.events, rfl⟩

theorem scope_eq (h : Remarks s t) (id : Nat) : t.scope id = s.scope id := by
  obtain ⟨_, _, rfl⟩ := h
  rfl

theorem cells_eq (h : Remarks s t) : t.cells = s.cells := by
  obtain ⟨_, _, rfl⟩ := h
  rfl

theorem chain_eq (h : Remarks s t) : t.chain t.current = s.chain s.current := by
  obtain ⟨_, _, rfl⟩ := h
  rfl

theorem faulty_eq (h : Remarks s t) : t.faulty = s.faulty := by
  obtain ⟨_, _, rfl⟩ := h
  rfl

theorem errors_eq (h : Remarks s t) : t.errors = s.errors := by
  obtain ⟨_, _, rfl⟩ := h
  rfl

theorem sameFrame (h : Remarks s t) : SameFrame s t := by
  obtain ⟨_, _, rfl⟩ := h
  exact .of_eq rfl

theorem bindVar (h : Remarks s t) (id : Nat) (name : String) (v : Value) :
    Remarks (s.bindVar id name v) (t.bindVar id name v) := by
  obtain ⟨notes, events, rfl⟩ := h
  exact ⟨notes, events, rfl⟩

end Remarks

/-- The step ends in this way and changes nothing else. -/
def Interp.Says {α : Type} (m : Interp α) (s : Session) (outcome : Except Stop α) : Prop :=
  ∃ t, m.exec s = (outcome, t) ∧ Remarks s t

/-- The step has an answer and changes nothing else. -/
def Interp.Tells {α : Type} (m : Interp α) (s : Session) (a : α) : Prop :=
  ∃ t, m.exec s = (.ok a, t) ∧ Remarks s t

theorem Interp.Tells.of_pure {α : Type} (a : α) (s : Session) : (pure a : Interp α).Tells s a :=
  ⟨s, rfl, .refl s⟩

/-- A step that only reads the session. -/
theorem Interp.Says.after {α β : Type} {m : Interp α} {k : α → Interp β} {a : α}
    {outcome : Except Stop β} (hm : m.exec s = (.ok a, s)) (hk : (k a).Says s outcome) : (m >>= k).Says s outcome := by
  obtain ⟨t, hnext, ht⟩ := hk
  exact ⟨t, by rw [exec_bind_ok hm, hnext], ht⟩

theorem Interp.Tells.after {α β : Type} {m : Interp α} {k : α → Interp β} {a : α} {b : β}
    (hm : m.exec s = (.ok a, s)) (hk : (k a).Tells s b) : (m >>= k).Tells s b :=
  Says.after hm hk

/-- After a step that only tells something, the next starts in the same session, remarks apart. -/
theorem Interp.Tells.says {α β : Type} {m : Interp α} {k : α → Interp β} {a : α}
    {outcome : Except Stop β} (hm : m.Tells s a) (hk : ∀ t, Remarks s t → (k a).Says t outcome) :
    (m >>= k).Says s outcome := by
  obtain ⟨t, hexec, ht⟩ := hm
  obtain ⟨u, hnext, hu⟩ := hk t ht
  exact ⟨u, by rw [exec_bind_ok hexec, hnext], ht.trans hu⟩

theorem Interp.Tells.bind {α β : Type} {m : Interp α} {k : α → Interp β} {a : α} {b : β}
    (hm : m.Tells s a) (hk : ∀ t, Remarks s t → (k a).Tells t b) : (m >>= k).Tells s b :=
  hm.says hk

theorem Interp.Tells.answer_eq {α : Type} {m : Interp α} {a b : α} (hm : m.Tells s a)
    (h : m.exec s = (.ok b, t)) : b = a := by
  obtain ⟨u, hexec, -⟩ := hm
  exact Except.ok.inj (Prod.mk.inj (h.symm.trans hexec)).1

theorem Remarks.writes (h : Remarks s t) (hs : s.Writes message) : t.Writes message := by
  rw [Session.Writes, h.cells_eq]
  exact hs

/-! ### Trace lines -/

theorem exec_scopeOf (id : Nat) (s : Session) : (scopeOf id).exec s = (.ok (s.scope id), s) :=
  rfl

theorem tells_addNote (line : Int) (code message : String) (s : Session) : (addNote line code message).Tells s () := by
  obtain ⟨notes, hexec⟩ := exists_notes_addNote line code message s
  exact ⟨_, hexec, notes, s.events, rfl⟩

theorem tells_noteStep (step : String) (s : Session) : (noteStep step).Tells s () :=
  .after (exec_get s) (tells_addNote _ _ _ s)

theorem tells_note (h : s.Writes message) : (note message).Tells s () := by
  refine .after (exec_checkWritable h) (.after (exec_get s) ?_)
  by_cases hfull : s.modes.full = true
  · rw [if_pos hfull]
    exact tells_addNote _ _ _ s
  · rw [if_neg hfull]
    exact .of_pure () s

theorem exec_note_of_not_writes (h : ¬ s.Writes message) :
    (note message).exec s = (.error (.fault .tooManyDigits), s) :=
  exec_bind_error (exec_checkWritable_of_not_writes h)

theorem tells_format (h : s.Writes message) : (format message).Tells s (String.join (message.map (·.shown s.cells))) :=
  .after (exec_checkWritable h) (.after (exec_get s) (.of_pure _ s))

theorem tells_writeLine (channel : Channel) (text : String) (s : Session) : (writeLine channel text).Tells s () :=
  ⟨_, rfl, s.notes, _, rfl⟩

theorem tells_announce (id : Nat) (step : String) {args : List Piece} (h : s.Writes args) :
    (announce id step args).Tells s () := by
  refine .after (exec_scopeOf id s) ?_
  by_cases hfull : (s.scope id).modes.full = true
  · rw [if_pos hfull]
    exact .after (exec_checkWritable h) (.after (exec_get s) (tells_writeLine _ _ s))
  · rw [if_neg hfull]
    exact .of_pure () s

theorem tells_announceOutcome (id : Nat) (h : s.Writes message) : (announceOutcome id message).Tells s () := by
  refine .after (exec_scopeOf id s) ?_
  by_cases hany : (s.scope id).modes.any = true
  · rw [if_pos hany]
    exact (tells_format h).bind fun t _ => tells_writeLine _ _ t
  · rw [if_neg hany]
    exact .of_pure () s

/-- The message is on record. -/
def Session.Reports (s : Session) (message : String) : Prop :=
  errorText s.modes ((s.sourceLine? 0).getD "") 0 message ∈ s.errors

theorem reports_report (message : String) (s : Session) : ((Run.report message).exec s).2.Reports message := by
  rw [Run.report, reportAt, exec_modify]
  dsimp only
  split
  · exact Array.contains_iff_mem.mp ‹_›
  · exact Array.mem_push_self

theorem Remarks.report (h : Remarks s t) (message : String) :
    Remarks ((Run.report message).exec s).2 ((Run.report message).exec t).2 := by
  obtain ⟨notes, events, rfl⟩ := h
  refine ⟨notes, events, ?_⟩
  rw [Run.report, reportAt, exec_modify, exec_modify]
  let text := errorText s.modes ((s.sourceLine? 0).getD "") 0 message
  by_cases hseen : s.errors.contains text = true
  · exact (if_pos hseen).trans (by rw [if_pos hseen])
  · exact (if_neg hseen).trans (by rw [if_neg hseen]; rfl)

/-! ### Steps that may fail -/

/-- What ends a step, if anything, is a fault that is not grave. -/
def Slight (stop : Option Stop) : Prop :=
  ∀ cause, stop = some cause → ∃ f, cause = .fault f ∧ f.isGrave = false

theorem slight_none : Slight none := by
  simp [Slight]

/-- The step changes nothing else, and fails for no grave fault. -/
def Interp.Murmurs {α : Type} (m : Interp α) : Prop :=
  m.Passes fun s stop t => Remarks s t ∧ Slight stop

instance : Passage.Chains fun s stop t => Remarks s t ∧ Slight stop where
  refl s := ⟨.refl s, slight_none⟩
  trans h₁ h₂ := ⟨h₁.1.trans h₂.1, h₂.2⟩

namespace Interp.Murmurs

variable {α : Type} {m : Interp α}

theorem remarks (hm : m.Murmurs) {outcome : Except Stop α} (h : m.exec s = (outcome, t)) : Remarks s t := by
  have hend := (hm s).1
  rwa [h] at hend

theorem of_tells (h : ∀ s, ∃ a, m.Tells s a) : m.Murmurs := by
  intro s
  obtain ⟨a, t, hexec, ht⟩ := h s
  rw [hexec]
  exact ⟨ht, slight_none⟩

end Interp.Murmurs

theorem murmurs_checkWritable (message : List Piece) : (checkWritable message).Murmurs := by
  refine .bind .get fun _ => .ite (.pure ()) fun s => ⟨.refl s, fun _ h => ?_⟩
  exact ⟨.tooManyDigits, (Option.some.inj h).symm, rfl⟩

theorem murmurs_format (message : List Piece) : (format message).Murmurs :=
  .bind (murmurs_checkWritable message) fun _ => .bind .get fun _ => .pure _

theorem murmurs_writeLine (channel : Channel) (text : String) : (writeLine channel text).Murmurs :=
  .of_tells fun s => ⟨(), tells_writeLine channel text s⟩

theorem murmurs_note (message : List Piece) : (note message).Murmurs :=
  .bind (murmurs_checkWritable message) fun _ => .bind .get fun _ =>
    .ite (Murmurs.of_tells fun s => ⟨(), tells_addNote _ _ _ s⟩) (.pure ())

variable (id : Nat)

theorem murmurs_announce (step : String) (args : List Piece) : (announce id step args).Murmurs :=
  .bind (.bind .get fun _ => .pure _) fun _ => .ite (.bind (murmurs_checkWritable args) fun _ => .bind .get fun _ =>
    murmurs_writeLine _ _) (.pure ())

theorem murmurs_announceOutcome (message : List Piece) : (announceOutcome id message).Murmurs :=
  .bind (.bind .get fun _ => .pure _) fun _ => .ite (.bind (murmurs_format message) fun _ => murmurs_writeLine _ _)
    (.pure ())

/-! ### Questions -/

theorem exec_currentChain (s : Session) : currentChain.exec s = (.ok (s.chain s.current), s) :=
  rfl

theorem tells_isDefinedIn (name : String) (ids : List Nat) (s : Session) :
    (isDefinedIn name ids).Tells s (ids.any fun id => (s.scope id).binds name) := by
  induction ids generalizing s with
  | nil => exact .of_pure false s
  | cons id outer ih =>
    refine .bind (tells_announce id "is_defined" rfl) fun t ht => ?_
    refine .after (exec_scopeOf id t) ?_
    rw [ht.scope_eq, List.any_cons]
    by_cases hbinds : (s.scope id).binds name = true
    · rw [if_pos hbinds, hbinds, Bool.true_or]
      exact .of_pure true t
    · rw [if_neg hbinds, Bool.eq_false_iff.mpr hbinds, Bool.false_or]
      simpa only [ht.scope_eq] using ih t

theorem tells_isDefined (name : String) (s : Session) : (isDefined name).Tells s (s.sees name) :=
  .after (exec_currentChain s) (tells_isDefinedIn name _ s)

/-- A name that is not defined is not bound around the current scope. -/
theorem sees_eq_false_of_isDefined (h : (isDefined name).exec s = (.ok false, t)) : s.sees name = false :=
  ((tells_isDefined name s).answer_eq h).symm

theorem tells_isConstantIn (name : String) (s : Session) :
    (isConstantIn id name).Tells s ((s.scope id).constants.has name) := by
  refine .bind (tells_announce id "is_constant" rfl) fun t ht => .after (exec_scopeOf id t) ?_
  rw [ht.scope_eq]
  exact .of_pure _ t

theorem tells_isConstant (name : String) (s : Session) :
    (isConstant name).Tells s ((s.scope s.current).constants.has name) :=
  .after (exec_get s) (tells_isConstantIn s.current name s)

/-- The nearest function of a name. -/
def Session.function? (s : Session) (name : String) : Option Function :=
  (s.chain s.current).findSome? fun id ↦ (s.scope id).functions.get? name

theorem tells_functionIn (name : String) (ids : List Nat) (s : Session) :
    (functionIn name ids).Tells s (ids.findSome? fun id => (s.scope id).functions.get? name) := by
  induction ids generalizing s with
  | nil => exact .of_pure none s
  | cons id outer ih =>
    refine .bind (tells_announce id "get_func" rfl) fun t ht => .after (exec_scopeOf id t) ?_
    rw [ht.scope_eq, List.findSome?_cons]
    cases hget : (s.scope id).functions.get? name with
    | some f => exact .of_pure (some f) t
    | none => simpa only [ht.scope_eq] using ih t

theorem tells_isFunctionIn (name : String) (ids : List Nat) (s : Session) :
    (isFunctionIn name ids).Tells s (ids.findSome? fun id => (s.scope id).functions.get? name).isSome := by
  induction ids generalizing s with
  | nil => exact .of_pure false s
  | cons id outer ih =>
    refine .bind (tells_announce id "is_function" rfl) fun t ht => .after (exec_scopeOf id t) ?_
    rw [ht.scope_eq, List.findSome?_cons, Table.has_eq_isSome]
    cases hget : (s.scope id).functions.get? name with
    | some f => exact .of_pure true t
    | none =>
      have hih := ih t
      simp only [ht.scope_eq] at hih
      exact hih

theorem tells_isFunction (name : String) (s : Session) : (isFunction name).Tells s (s.function? name).isSome :=
  .after (exec_currentChain s) (tells_isFunctionIn name _ s)

theorem tells_function? (name : String) (s : Session) : (Run.function? name).Tells s (s.function? name) :=
  .after (exec_currentChain s) (tells_functionIn name _ s)

/-! ### What scopes hold and show -/

/-- The nearest of some scopes that binds a name. -/
def Session.nearest? (s : Session) (name : String) (ids : List Nat) : Option Nat :=
  ids.find? fun id ↦ (s.scope id).binds name

theorem Session.nearest?_cons_of_binds {id : Nat} (h : (s.scope id).binds name = true)
    (outer : List Nat) : s.nearest? name (id :: outer) = some id :=
  List.find?_cons_of_pos (p := fun id => (s.scope id).binds name) h

theorem Session.nearest?_cons_of_free {id : Nat} (h : ¬ (s.scope id).binds name = true) (outer : List Nat) :
    s.nearest? name (id :: outer) = s.nearest? name outer :=
  List.find?_cons_of_neg (p := fun id => (s.scope id).binds name) h

theorem Session.nearest?_congr
    (h : ∀ id ∈ ids, (t.scope id).binds name = (s.scope id).binds name) : t.nearest? name ids = s.nearest? name ids := by
  induction ids with
  | nil => rfl
  | cons id outer ih =>
    have hid := h id (.head _)
    by_cases hbinds : (s.scope id).binds name = true
    · rw [nearest?_cons_of_binds hbinds, nearest?_cons_of_binds (hid.trans hbinds)]
    · rw [nearest?_cons_of_free hbinds, nearest?_cons_of_free (by rwa [hid])]
      exact ih fun other hother => h other (List.mem_cons_of_mem id hother)

theorem SameFrame.nearest?_eq (h : SameFrame s t) (name : String) (ids : List Nat) :
    t.nearest? name ids = s.nearest? name ids :=
  Session.nearest?_congr fun id _ => by rw [h.scope_eq]

/-- The constant or variable that a scope holds under a name. -/
def Scope.datum? (scope : Scope) (name : String) : Option Value :=
  (scope.constants.get? name).or (scope.vars.get? name)

/-- What a scope holds under a name. -/
def Scope.held? (scope : Scope) (name : String) : Option Value :=
  (scope.datum? name).or ((scope.functions.get? name).map .function)

theorem Scope.binds_eq_false_iff (scope : Scope) (name : String) :
    scope.binds name = false ↔ scope.held? name = none := by
  rw [Scope.binds, Bool.or_eq_false_iff, Bool.or_eq_false_iff, Table.has_eq_isSome, Table.has_eq_isSome,
    Table.has_eq_isSome, Scope.held?, Scope.datum?]
  cases scope.vars.get? name <;> cases scope.constants.get? name <;> cases scope.functions.get? name <;> simp

/-- A scope that traces every step cannot show the value. -/
def Session.chokes (s : Session) (v : Value) (id : Nat) : Bool :=
  (s.scope id).modes.full && !v.isWritable s.cells

/-- A scope that traces outcomes cannot show all the values. -/
def Session.stumbles (s : Session) (vs : List Value) (id : Nat) : Bool :=
  (s.scope id).modes.any && !vs.all (·.isWritable s.cells)

theorem Session.stumbles_of_writable (h : vs.all (·.isWritable s.cells) = true)
    (id : Nat) : s.stumbles vs id = false := by
  rw [stumbles, h, Bool.not_true, Bool.and_false]

theorem says_announce (step name : String) (v : Value) (s : Session) :
    (announce id step [name, v]).Says s (if s.chokes v id then .error (.fault .tooManyDigits) else .ok ()) := by
  have hwrites : s.Writes [name, v] ↔ v.isWritable s.cells = true := by simp [Session.Writes, Piece.isWritable]
  by_cases hv : v.isWritable s.cells = true
  · rw [Session.chokes, hv, Bool.not_true, Bool.and_false]
    exact tells_announce id step (hwrites.mpr hv)
  · refine .after (exec_scopeOf id s) ?_
    rw [Session.chokes, Bool.eq_false_iff.mpr hv, Bool.not_false, Bool.and_true]
    split
    · exact ⟨s, exec_bind_error (exec_checkWritable_of_not_writes (mt hwrites.mp hv)), .refl s⟩
    · exact Tells.of_pure () s

/-- The outcome of a step that shows some values. -/
theorem says_announceOutcome (id : Nat) (hmsg : s.Writes message ↔ vs.all (·.isWritable s.cells) = true) :
    (announceOutcome id message).Says s (if s.stumbles vs id then .error (.fault .tooManyDigits) else .ok ()) := by
  by_cases hvs : vs.all (·.isWritable s.cells) = true
  · rw [Session.stumbles_of_writable hvs]
    exact tells_announceOutcome id (hmsg.mpr hvs)
  · refine .after (exec_scopeOf id s) ?_
    rw [Session.stumbles, Bool.eq_false_iff.mpr hvs, Bool.not_false, Bool.and_true]
    split
    · refine ⟨s, exec_bind_error ?_, .refl s⟩
      rw [format, exec_bind_error (exec_checkWritable_of_not_writes (mt hmsg.mp hvs))]
    · exact Tells.of_pure () s

/-! ### Values -/

/-- What scopes answer that are asked for the value of a name. -/
def Session.lookup (s : Session) (name : String) : List Nat → Except Stop Value
  | [] => .error (.fault (.unbound name))
  | id :: outer =>
    match (s.scope id).held? name with
    | some v => if s.stumbles ((s.scope id).datum? name).toList id then .error (.fault .tooManyDigits) else .ok v
    | none => s.lookup name outer

theorem Remarks.lookup_eq (h : Remarks s t) (name : String) (ids : List Nat) :
    t.lookup name ids = s.lookup name ids := by
  obtain ⟨_, _, rfl⟩ := h
  induction ids with
  | nil => rfl
  | cons id outer ih => rw [Session.lookup, Session.lookup, ih]; rfl

theorem says_valueIn (name : String) (ids : List Nat) (s : Session) : (valueIn name ids).Says s (s.lookup name ids) := by
  induction ids generalizing s with
  | nil => exact ⟨s, rfl, .refl s⟩
  | cons id outer ih =>
    refine Tells.says (tells_announce id "get_value" rfl) fun t ht => .after (exec_scopeOf id t) ?_
    rw [← ht.lookup_eq, Session.lookup, Scope.held?, Scope.datum?]
    have hshow : ∀ (lead : String) (v : Value), (do announceOutcome id [lead, name, " = ", v]; pure v : Interp Value).Says t
        (if t.stumbles [v] id then .error (.fault .tooManyDigits) else .ok v) := by
      intro lead v
      obtain ⟨u, hexec, hu⟩ := @says_announceOutcome t [lead, name, " = ", v] [v] id
        (by simp [Session.Writes, Piece.isWritable])
      refine ⟨u, ?_, hu⟩
      rw [exec_bind, hexec]
      cases t.stumbles [v] id <;> rfl
    cases (t.scope id).constants.get? name with
    | some v => exact hshow _ v
    | none =>
      cases (t.scope id).vars.get? name with
      | some v => exact hshow _ v
      | none =>
        cases (t.scope id).functions.get? name with
        | some f =>
          have htells := @tells_announceOutcome t ["Retrieved function: ", name] id rfl
          have hquiet : t.stumbles [] id = false := t.stumbles_of_writable rfl id
          change Says _ t (if t.stumbles [] id then _ else _)
          rw [hquiet]
          exact htells.says fun u _ => Tells.of_pure _ u
        | none => exact ih t

theorem murmurs_valueOf (name : String) : (valueOf name).Murmurs := by
  refine .bind (.bind .get fun _ => .pure _) fun ids s => ?_
  obtain ⟨t, hexec, ht⟩ := says_valueIn name ids s
  rw [hexec]
  refine ⟨ht, fun stop hstop => ?_⟩
  clear hexec
  induction ids with
  | nil => exact ⟨.unbound name, (Option.some.inj hstop).symm, rfl⟩
  | cons id outer ih =>
    rw [Session.lookup] at hstop
    split at hstop
    · split at hstop
      · exact ⟨.tooManyDigits, (Option.some.inj hstop).symm, rfl⟩
      · cases hstop
    · exact ih hstop

/-- The value of a name is what the nearest scope holds, if that scope can show it. -/
theorem Session.lookup_eq (s : Session) (name : String) (ids : List Nat) :
    (s.nearest? name ids = none → s.lookup name ids = .error (.fault (.unbound name))) ∧
    ∀ id, s.nearest? name ids = some id → ∃ v, (s.scope id).held? name = some v ∧
      s.lookup name ids =
        if s.stumbles ((s.scope id).datum? name).toList id then .error (.fault .tooManyDigits) else .ok v := by
  induction ids with
  | nil => exact ⟨fun _ => rfl, fun id h => absurd h (by simp [nearest?])⟩
  | cons first outer ih =>
    rw [lookup]
    cases hheld : (s.scope first).held? name with
    | some v =>
      have hbinds : (s.scope first).binds name = true := by
        rw [← Bool.not_eq_false, Scope.binds_eq_false_iff, hheld]
        simp
      rw [nearest?_cons_of_binds hbinds]
      refine ⟨by simp, fun id h => ?_⟩
      cases h
      exact ⟨v, hheld, rfl⟩
    | none =>
      have hfree := ((s.scope first).binds_eq_false_iff name).mpr hheld
      rwa [nearest?_cons_of_free (Bool.eq_false_iff.mp hfree)]

/-- A value that is found is held by the nearest scope that binds the name. -/
theorem held_of_valueIn (h : (valueIn name ids).exec s = (.ok v, t)) :
    ∃ id, s.nearest? name ids = some id ∧ (s.scope id).held? name = some v := by
  obtain ⟨u, hexec, -⟩ := says_valueIn name ids s
  have hlookup : s.lookup name ids = .ok v := (Prod.mk.inj (hexec.symm.trans h)).1
  obtain ⟨hnone, hsome⟩ := s.lookup_eq name ids
  cases hnear : s.nearest? name ids with
  | none => cases (hnone hnear).symm.trans hlookup
  | some id =>
    obtain ⟨w, hheld, heq⟩ := hsome id hnear
    rw [hlookup] at heq
    split at heq
    · cases heq
    · exact ⟨id, rfl, Except.ok.inj heq ▸ hheld⟩

/-- The value of a name is what the nearest scope that binds it holds as a constant or variable. -/
theorem tells_valueIn {id : Nat} (hnear : s.nearest? name ids = some id) (hvalue : (s.scope id).datum? name = some v)
    (hshown : v.isWritable s.cells = true) : (valueIn name ids).Tells s v := by
  obtain ⟨w, hheld, hlookup⟩ := (s.lookup_eq name ids).2 id hnear
  rw [Scope.held?, hvalue, Option.some_or] at hheld
  rw [hvalue, Session.stumbles_of_writable (by simpa using hshown), if_neg Bool.false_ne_true,
    ← Option.some.inj hheld] at hlookup
  obtain ⟨t, hexec, ht⟩ := says_valueIn name ids s
  exact ⟨t, hlookup ▸ hexec, ht⟩

/-! ### Definitions and assignments -/

theorem exec_setScope (f : Scope → Scope) (s : Session) : (setScope id f).exec s = (.ok (), s.setScope id f) :=
  rfl

theorem modes_bindVar (s : Session) (id : Nat) (name : String) (v : Value) (other : Nat) :
    ((s.bindVar id name v).scope other).modes = (s.scope other).modes := by
  rw [Session.scope_eq, Session.scope_eq, Session.bindVar, Session.setScope, Array.getElem?_modify]
  split
  · cases s.scopes[other]? <;> rfl
  · rfl

/-- A definition binds the name in the current scope, unless that cannot show the value before; it
may fail to show it afterwards. -/
theorem exec_define (name : String) (v : Value) (s : Session) :
    (∃ t, (define name v).exec s = (.error (.fault .tooManyDigits), t) ∧
      s.chokes v s.current = true ∧ Remarks s t) ∨
    (∃ t, (define name v).exec s = (.ok (), t) ∧ Remarks (s.bindVar s.current name v) t) ∨
    ∃ t, (define name v).exec s = (.error (.fault .tooManyDigits), t) ∧
      s.stumbles [v] s.current = true ∧ Remarks (s.bindVar s.current name v) t := by
  obtain ⟨t, hannounce, ht⟩ := says_announce s.current "define_var" name v s
  rw [define, exec_get_bind, defineVar]
  by_cases hchokes : s.chokes v s.current = true
  · rw [if_pos hchokes] at hannounce
    exact .inl ⟨t, exec_bind_error hannounce, hchokes, ht⟩
  rw [if_neg hchokes] at hannounce
  have hbound := ht.bindVar s.current name v
  obtain ⟨u, hshown, hu⟩ := @says_announceOutcome (t.bindVar s.current name v)
    ["Defined variable: ", name, " = ", v] [v] s.current (by simp [Session.Writes, Piece.isWritable])
  have hsame : (t.bindVar s.current name v).stumbles [v] s.current = s.stumbles [v] s.current := by
    rw [Session.stumbles, modes_bindVar, ht.scope_eq, hbound.cells_eq]
    rfl
  rw [hsame] at hshown
  rw [exec_bind_ok hannounce, exec_bind_ok (exec_setScope _ _ t)]
  by_cases hstumbles : s.stumbles [v] s.current = true
  · rw [if_pos hstumbles] at hshown
    exact .inr (.inr ⟨u, hshown, hstumbles, hbound.trans hu⟩)
  · rw [if_neg hstumbles] at hshown
    exact .inr (.inl ⟨u, hshown, hbound.trans hu⟩)

theorem remarks_define {outcome : Except Stop Unit} (h : (define name v).exec s = (outcome, t)) :
    Remarks (s.bindVar s.current name v) t ∨ (outcome.isOk = false ∧ Remarks s t) := by
  obtain ⟨u, hexec, -, hu⟩ | ⟨u, hexec, hu⟩ | ⟨u, hexec, -, hu⟩ := exec_define name v s
  all_goals obtain ⟨rfl, rfl⟩ := Prod.mk.inj (hexec.symm.trans h)
  · exact .inr ⟨rfl, hu⟩
  · exact .inl hu
  · exact .inl hu

/-- A variable whose value can be shown is defined. -/
theorem exec_define_of_isWritable (name : String) (hv : v.isWritable s.cells = true) :
    ∃ t, (define name v).exec s = (.ok (), t) ∧ Remarks (s.bindVar s.current name v) t := by
  obtain ⟨_, -, hchokes, -⟩ | hdefined | ⟨_, -, hstumbles, -⟩ := exec_define name v s
  · simp [Session.chokes, hv] at hchokes
  · exact hdefined
  · rw [Session.stumbles_of_writable (by simpa using hv)] at hstumbles
    cases hstumbles

/-- A constant whose value can be shown is defined. -/
theorem exec_defineConst (id : Nat) (name : String) (hv : v.isWritable s.cells = true) :
    ∃ t, (defineConst id name v).exec s = (.ok (), t) ∧ Remarks (s.bindConst id name v) t := by
  have hname : s.Writes [.lit name, .val v] := by simp [Session.Writes, Piece.isWritable, hv]
  obtain ⟨_, hannounce, notes, events, rfl⟩ := tells_announce id "define_const" hname
  let t : Session := { s with notes := notes, events := events }.bindConst id name v
  have hshown : t.Writes [.lit "Defined constant: ", .lit name, .lit " = ", .val v] := by
    simpa [Session.Writes, Piece.isWritable] using (show v.isWritable t.cells = true from hv)
  obtain ⟨u, houtcome, hu⟩ := tells_announceOutcome id hshown
  refine ⟨u, ?_, .trans ⟨notes, events, rfl⟩ hu⟩
  rw [defineConst, exec_bind_ok hannounce, exec_bind_ok (exec_setScope _ _ _)]
  exact houtcome

/-- A scope has a constant or a variable of a name. -/
def Scope.keeps (scope : Scope) (name : String) : Bool :=
  scope.constants.has name || scope.vars.has name

/-- The nearest scope with a constant or a variable of a name. -/
def Session.keeper? (s : Session) (name : String) (ids : List Nat) : Option Nat :=
  ids.find? fun id ↦ (s.scope id).keeps name

/-- How setting a name in some scopes ends, and the scope in which it has its new value then. -/
def Session.setting (s : Session) (name : String) (v : Value) : List Nat → Except Stop Unit × Option Nat
  | [] => (.error (.fault (.unbound name)), none)
  | id :: outer =>
    if s.chokes v id then (.error (.fault .tooManyDigits), none)
    else if (s.scope id).constants.has name then (.error (.fault (.constant name)), none)
    else
      match (s.scope id).vars.get? name with
      | some old => (if s.stumbles [v, old] id then .error (.fault .tooManyDigits) else .ok (), some id)
      | none =>
        if outer.any fun i ↦ (s.scope i).binds name then s.setting name v outer
        else (.error (.fault (.unbound name)), none)

/-- The session with the value in this scope, if there is one. -/
def Session.settled (s : Session) (name : String) (v : Value) (id? : Option Nat) : Session :=
  id?.elim s fun id ↦ s.bindVar id name v

theorem Remarks.settled (h : Remarks s t) (name : String) (v : Value) (id? : Option Nat) :
    Remarks (s.settled name v id?) (t.settled name v id?) := by
  cases id? with
  | none => exact h
  | some id => exact h.bindVar id name v

section Setting

variable {s t : Session} {name : String} {v : Value}

theorem Remarks.setting_eq (h : Remarks s t) (ids : List Nat) : t.setting name v ids = s.setting name v ids := by
  obtain ⟨_, _, rfl⟩ := h
  induction ids with
  | nil => rfl
  | cons id outer ih => rw [Session.setting, Session.setting, ih]; rfl

theorem exec_setIn (name : String) (v : Value) (ids : List Nat) (s : Session) :
    ∃ t, (setIn name v ids).exec s = ((s.setting name v ids).1, t) ∧
      Remarks (s.settled name v (s.setting name v ids).2) t := by
  induction ids generalizing s with
  | nil => exact ⟨s, rfl, .refl s⟩
  | cons id outer ih =>
    obtain ⟨t, hannounce, ht⟩ := says_announce id "set_value" name v s
    rw [Session.setting]
    by_cases hchokes : s.chokes v id = true
    · rw [if_pos hchokes] at hannounce ⊢
      exact ⟨t, exec_bind_error hannounce, ht⟩
    rw [if_neg hchokes] at hannounce ⊢
    rw [setIn, exec_bind_ok hannounce, exec_bind_ok (exec_scopeOf id t), ht.scope_eq]
    by_cases hconst : (s.scope id).constants.has name = true
    · rw [if_pos hconst, if_pos hconst]
      exact ⟨t, rfl, ht⟩
    rw [if_neg hconst, if_neg hconst]
    cases hold : (s.scope id).vars.get? name with
    | some old =>
      have hbound : Remarks (s.bindVar id name v) (t.bindVar id name v) := ht.bindVar id name v
      obtain ⟨u, hshown, hu⟩ := @says_announceOutcome (t.bindVar id name v)
        ["Updated variable: ", name, " = ", v, " (was: ", old, ")"] [v, old] id (by simp [Session.Writes, Piece.isWritable])
      have hsame : (t.bindVar id name v).stumbles [v, old] id = s.stumbles [v, old] id := by
        rw [Session.stumbles, modes_bindVar, ht.scope_eq, hbound.cells_eq]
        rfl
      rw [hsame] at hshown
      exact ⟨u, (exec_bind_ok (exec_setScope _ _ t)).trans hshown, hbound.trans hu⟩
    | none =>
      obtain ⟨u, hasked, hu⟩ := tells_isDefinedIn name outer t
      simp only [ht.scope_eq] at hasked
      dsimp only
      rw [exec_bind_ok hasked]
      split
      · obtain ⟨w, hexec, hw⟩ := ih u
        rw [(ht.trans hu).setting_eq] at hexec hw
        exact ⟨w, hexec, ((ht.trans hu).settled name v _).trans hw⟩
      · exact ⟨u, rfl, ht.trans hu⟩

/-- The scopes up to the nearest one with a constant or a variable of a name. -/
def Session.wayTo (s : Session) (name : String) : List Nat → List Nat
  | [] => []
  | id :: outer => if (s.scope id).keeps name then [id] else id :: s.wayTo name outer

theorem Session.keeper?_cons_of_keeps {id : Nat} (h : (s.scope id).keeps name = true) (outer : List Nat) :
    s.keeper? name (id :: outer) = some id :=
  List.find?_cons_of_pos (p := fun id => (s.scope id).keeps name) h

theorem Session.keeper?_cons_of_free {id : Nat} (h : ¬ (s.scope id).keeps name = true) (outer : List Nat) :
    s.keeper? name (id :: outer) = s.keeper? name outer :=
  List.find?_cons_of_neg (p := fun id => (s.scope id).keeps name) h

theorem Scope.binds_of_keeps {scope : Scope} (h : scope.keeps name = true) : scope.binds name = true := by
  rw [Scope.keeps, Bool.or_comm] at h
  rw [Scope.binds, h, Bool.true_or]

/-- The nearest scope that binds a name is the nearest one with a value of it, if it has one. -/
theorem Session.keeper?_of_nearest {id : Nat} (hnear : s.nearest? name ids = some id)
    (hkeeps : (s.scope id).keeps name = true) : s.keeper? name ids = some id := by
  induction ids with
  | nil => simp [nearest?] at hnear
  | cons first outer ih =>
    by_cases hbinds : (s.scope first).binds name = true
    · rw [nearest?_cons_of_binds hbinds] at hnear
      cases hnear
      exact keeper?_cons_of_keeps hkeeps outer
    · rw [nearest?_cons_of_free hbinds] at hnear
      rw [keeper?_cons_of_free (mt Scope.binds_of_keeps hbinds), ih hnear]

/-- A name that no scope has as a variable, or that is a constant nearer by, cannot be set. -/
theorem Session.setting_of_refused
    (h : ∀ keeper, s.keeper? name ids = some keeper → (s.scope keeper).constants.has name = true) :
    ∃ f ∈ [Fault.unbound name, .constant name, .tooManyDigits], s.setting name v ids = (.error (.fault f), none) := by
  induction ids with
  | nil => exact ⟨.unbound name, by simp, rfl⟩
  | cons id outer ih =>
    rw [setting]
    split
    · exact ⟨.tooManyDigits, by simp, rfl⟩
    by_cases hkeeps : (s.scope id).keeps name = true
    · rw [if_pos (h id (keeper?_cons_of_keeps hkeeps outer))]
      exact ⟨.constant name, by simp, rfl⟩
    rw [keeper?_cons_of_free hkeeps] at h
    rw [Scope.keeps, Bool.not_eq_true, Bool.or_eq_false_iff] at hkeeps
    rw [hkeeps.1, if_neg Bool.false_ne_true, Table.get?_of_has_eq_false hkeeps.2]
    dsimp only
    split
    · exact ih h
    · exact ⟨.unbound name, by simp, rfl⟩

theorem Session.keeps_of_keeper? {keeper : Nat} (h : s.keeper? name ids = some keeper) :
    (s.scope keeper).keeps name = true :=
  List.find?_some (p := fun i => (s.scope i).keeps name) h

theorem Session.exists_of_keeper? {keeper : Nat} (h : s.keeper? name ids = some keeper)
    (hconst : (s.scope keeper).constants.has name = false) : ∃ old, (s.scope keeper).vars.get? name = some old := by
  have hkeeps := keeps_of_keeper? h
  rwa [Scope.keeps, hconst, Bool.false_or, Table.has_eq_isSome, Option.isSome_iff_exists] at hkeeps

/-- The nearest variable of a name is set, unless a scope on the way cannot show the value; its own
may fail to show it afterwards. -/
theorem Session.setting_of_keeper {keeper : Nat} {old : Value}
    (hkeeper : s.keeper? name ids = some keeper) (hconst : (s.scope keeper).constants.has name = false)
    (hold : (s.scope keeper).vars.get? name = some old) :
    s.setting name v ids = if (s.wayTo name ids).any (s.chokes v) then (.error (.fault .tooManyDigits), none)
      else (if s.stumbles [v, old] keeper then .error (.fault .tooManyDigits) else .ok (), some keeper) := by
  induction ids with
  | nil => simp [keeper?] at hkeeper
  | cons id outer ih =>
    rw [setting, wayTo]
    by_cases hkeeps : (s.scope id).keeps name = true
    · rw [keeper?_cons_of_keeps hkeeps] at hkeeper
      cases hkeeper
      rw [if_pos hkeeps, hconst, if_neg Bool.false_ne_true, hold, List.any_cons, List.any_nil, Bool.or_false]
    · rw [keeper?_cons_of_free hkeeps] at hkeeper
      have hbound : (outer.any fun i => (s.scope i).binds name) = true :=
        List.any_eq_true.mpr ⟨keeper, List.mem_of_find?_eq_some hkeeper, Scope.binds_of_keeps (keeps_of_keeper? hkeeper)⟩
      rw [if_neg hkeeps, List.any_cons, ih hkeeper]
      rw [Scope.keeps, Bool.not_eq_true, Bool.or_eq_false_iff] at hkeeps
      rw [hkeeps.1, if_neg Bool.false_ne_true, Table.get?_of_has_eq_false hkeeps.2]
      dsimp only
      rw [if_pos hbound]
      cases s.chokes v id <;> rfl

/-- When a name is set, nothing has changed, or the nearest variable of the name has. -/
theorem exec_setIn_cases (name : String) (v : Value) (ids : List Nat) (s : Session) :
    (∃ f t, (setIn name v ids).exec s = (.error (.fault f), t) ∧ f.isGrave = false ∧ Remarks s t) ∨
    ∃ keeper old outcome t, s.keeper? name ids = some keeper ∧ (s.scope keeper).constants.has name = false ∧
      (s.scope keeper).vars.get? name = some old ∧ (setIn name v ids).exec s = (outcome, t) ∧
      (outcome = .ok () ∨
        outcome = .error (.fault .tooManyDigits) ∧ s.stumbles [v, old] keeper = true) ∧
      Remarks (s.bindVar keeper name v) t := by
  obtain ⟨t, hexec, ht⟩ := exec_setIn name v ids s
  by_cases hrefused : ∀ keeper, s.keeper? name ids = some keeper → (s.scope keeper).constants.has name = true
  · obtain ⟨f, hf, hset⟩ := s.setting_of_refused (v := v) hrefused
    have hgrave : f.isGrave = false := by
      simp only [List.mem_cons, List.not_mem_nil, or_false] at hf
      rcases hf with rfl | rfl | rfl <;> rfl
    rw [hset] at hexec ht
    exact .inl ⟨f, t, hexec, hgrave, ht⟩
  · simp only [not_forall, Bool.not_eq_true] at hrefused
    obtain ⟨keeper, hkeeper, hconst⟩ := hrefused
    obtain ⟨old, hold⟩ := s.exists_of_keeper? hkeeper hconst
    rw [Session.setting_of_keeper hkeeper hconst hold] at hexec ht
    split at hexec
    · next hloud =>
      rw [if_pos hloud] at ht
      exact .inl ⟨.tooManyDigits, t, hexec, rfl, ht⟩
    · next hquiet =>
      rw [if_neg hquiet] at ht
      refine .inr ⟨keeper, old, _, t, hkeeper, hconst, hold, hexec, ?_, ht⟩
      split
      · exact .inr ⟨rfl, ‹_›⟩
      · exact .inl rfl

end Setting

/-- An assignment binds the name in the nearest scope that has it, if it is a variable there. -/
theorem exec_setValue {id : Nat} {old : Value}
    (hnear : s.nearest? name (s.chain s.current) = some id) (hconst : (s.scope id).constants.has name = false)
    (hold : (s.scope id).vars.get? name = some old) (hshown : s.Writes [.val v, .val old]) :
    ∃ t, (setValue name v).exec s = (.ok (), t) ∧ Remarks (s.bindVar id name v) t := by
  have hwrites : [v, old].all (·.isWritable s.cells) = true := by
    simpa [Session.Writes, Piece.isWritable] using hshown
  have hchokes : ∀ i, s.chokes v i = false := by
    simp only [List.all_cons, Bool.and_eq_true] at hwrites
    exact fun i => by rw [Session.chokes, hwrites.1, Bool.not_true, Bool.and_false]
  have hkeeps : (s.scope id).keeps name = true := by rw [Scope.keeps, hconst, Table.has_eq_isSome, hold]; rfl
  obtain ⟨t, hexec, ht⟩ := exec_setIn name v (s.chain s.current) s
  have hquiet : (s.wayTo name (s.chain s.current)).any (s.chokes v) = false :=
    List.any_eq_false.mpr fun i _ => ne_true_of_eq_false (hchokes i)
  rw [Session.setting_of_keeper (Session.keeper?_of_nearest hnear hkeeps) hconst hold, hquiet,
    Session.stumbles_of_writable hwrites] at hexec ht
  exact ⟨t, (exec_bind_ok (exec_currentChain s)).trans hexec, ht⟩

/-! ### Visits -/

/-- The step of a tree, with the trace line that shows its result. -/
def shownStep (step : Node → Interp Value) (rule : String) (cs : List Node) : Interp Value := do
  let v ← step (.tree rule cs)
  noteResult [.lit "[RUNTIME] Visited ", .lit rule] v
  return v

/-- The visit of a tree is its step, between trace lines. -/
theorem exec_visit_eq (depth : Nat) (cs : List Node)
    (hstep : namedStep (visit depth) rule = some step) (hrule : rule ≠ "token") (s : Session) :
    ∃ s1, Remarks s s1 ∧ (visit (depth + 1) (.tree rule cs)).exec s =
      (recover (shownStep step rule cs) fun f => Interp.fail (hideInternal f)).exec s1 := by
  obtain ⟨s1, hnote, hs1⟩ := tells_noteStep ("visit_" ++ rule) s
  refine ⟨s1, hs1, ?_⟩
  have hvisit : (visitNode (visit depth) (.tree rule cs)).exec s = (shownStep step rule cs).exec s1 := by
    rw [visitNode, visitTree, exec_bind_ok hnote, if_neg hrule, hstep]
    rfl
  rw [visit, exec_recover, exec_recover, hvisit]

theorem exec_shownStep (handler : Fault → Interp Value)
    (hexec : (step (.tree rule cs)).exec s = (.ok v, t)) (hwrites : t.Writes [.val v]) :
    ∃ u, (recover (shownStep step rule cs) handler).exec s = (.ok v, u) ∧ Remarks t u := by
  have hlabel : t.Writes ([.lit "[RUNTIME] Visited ", .lit rule] ++ [.lit " -> ", .val v]) := by
    simpa [Session.Writes, Piece.isWritable] using hwrites
  have hres : (noteResult [.lit "[RUNTIME] Visited ", .lit rule] v).Tells t () := by
    refine .after (exec_get t) ?_
    by_cases hfull : t.modes.full = true
    · rw [if_pos hfull]
      exact tells_note hlabel
    · rw [if_neg hfull]
      exact .of_pure () t
  obtain ⟨u, hnoted, hu⟩ := hres
  refine ⟨u, ?_, hu⟩
  rw [exec_recover, shownStep, exec_bind_ok hexec, exec_bind_ok hnoted]
  rfl

theorem exec_shownStep_fault {handler : Fault → Interp Value} {f : Fault}
    (hexec : (step (.tree rule cs)).exec s = (.error (.fault f), t)) :
    (recover (shownStep step rule cs) handler).exec s = (handler f).exec t := by
  rw [exec_recover, shownStep, exec_bind_error hexec]

/-- How the visit of a tree ends. -/
theorem exec_visit_tree (depth : Nat) (rule : String) (cs : List Node)
    (hstep : namedStep (visit depth) rule = some step) (hrule : rule ≠ "token") (s : Session) : ∃ s1, Remarks s s1 ∧
      (∀ v t, (step (.tree rule cs)).exec s1 = (.ok v, t) → t.Writes [.val v] →
        ∃ u, (visit (depth + 1) (.tree rule cs)).exec s = (.ok v, u) ∧ Remarks t u) ∧
      ∀ stop t, (step (.tree rule cs)).exec s1 = (.error stop, t) →
        ∃ stop', (visit (depth + 1) (.tree rule cs)).exec s = (.error stop', t) := by
  obtain ⟨s1, hs1, hvisit⟩ := exec_visit_eq depth cs hstep hrule s
  rw [hvisit]
  refine ⟨s1, hs1, fun v t hexec hwrites => exec_shownStep _ hexec hwrites, fun stop t hexec => ?_⟩
  cases stop with
  | fault f => exact ⟨_, exec_shownStep_fault hexec⟩
  | exhausted => exact ⟨.exhausted, by rw [exec_recover, shownStep, exec_bind_error hexec]⟩

/-- The visit of a tree returns only what its step does. -/
theorem exists_of_visit_tree {depth : Nat} (h : (visit (depth + 1) (.tree rule cs)).exec s = (.ok v, t))
    (hstep : namedStep (visit depth) rule = some step) (hrule : rule ≠ "token") :
    ∃ s1 u, Remarks s s1 ∧ (step (.tree rule cs)).exec s1 = (.ok v, u) ∧ Remarks u t := by
  obtain ⟨s1, hs1, hvisit⟩ := exec_visit_eq depth cs hstep hrule s
  rw [hvisit, exec_recover] at h
  have hnoted : (noteResult [.lit "[RUNTIME] Visited ", .lit rule] v).Murmurs :=
    .bind .get fun _ => .ite (murmurs_note _) (.pure ())
  rcases hshown : (shownStep step rule cs).exec s1 with ⟨stop | w, u⟩ <;> rw [hshown] at h
  · cases stop with
    | fault f => cases h
    | exhausted => cases h
  · obtain ⟨w', u1, hexec, hrest⟩ := exec_bind_eq_ok hshown
    obtain ⟨⟨⟩, u2, hnote, hpure⟩ := exec_bind_eq_ok hrest
    obtain ⟨hw, rfl⟩ := Prod.mk.inj hpure
    obtain rfl : w' = w := Except.ok.inj hw
    obtain ⟨hv, rfl⟩ := Prod.mk.inj h
    obtain rfl : w' = v := Except.ok.inj hv
    exact ⟨s1, u1, hs1, hexec, hnoted.remarks hnote⟩

end FapLang.Run
