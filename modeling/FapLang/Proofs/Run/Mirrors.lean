import FapLang.Proofs.Run.Alike

/-!
Steps that mirror each other: from sessions that are alike they end in the same way and in sessions
that are alike (`Interp.Mirrors`). What is traced is hidden (`Interp.Hidden`): it does not matter
whether it happens at all.
-/

namespace FapLang.Run

variable {α β : Type} {p : Aspect} {ok : α → Prop} {ok' : β → Prop} {s t : Session} {args message : List Piece}
variable {handler handler' : Fault → Interp α} {g : Session → Session}

/-! ### Alike sessions after a change -/

theorem Short.of_same (h : Short s) (hscopes : t.scopes = s.scopes) (hcells : t.cells = s.cells) : Short t := by
  have hscope : ∀ id, t.scope id = s.scope id := fun id => by rw [Session.scope, hscopes, Session.scope]
  refine ⟨fun id => ?_, fun id => ?_, ?_⟩
  · rw [hscope]
    exact h.vars id
  · rw [hscope]
    exact h.constants id
  · rw [hcells]
    exact h.cells

theorem Aspect.Guards.of_same (h : p.Guards s) (hscopes : t.scopes = s.scopes)
    (hcells : t.cells = s.cells) (hmodes : t.modes = s.modes) (hsource : t.source = s.source) : p.Guards t := by
  cases p with
  | trace => exact Short.of_same h hscopes hcells
  | source =>
    rwa [Guards, hmodes, hsource]

theorem Alike.short (h : Alike .trace s t) : Short s :=
  h.guards

theorem Alike.full {a b : Array String} (h : Alike (.source a b) s t) : s.modes.full = false :=
  h.guards.1

/-! ### Matching endings -/

/-- How a second step must end for a first one. -/
def Matches (p : Aspect) (ok : α → Prop) (first second : Except Stop α × Session) : Prop :=
  first.1 = .error .exhausted ∨
    (second.1 = first.1 ∧ Alike p first.2 second.2 ∧ ∀ a, first.1 = .ok a → ok a)

theorem Matches.value (h : Alike p s t) {a : α} (ha : ok a) : Matches p ok (.ok a, s) (.ok a, t) :=
  .inr ⟨rfl, h, fun _ heq => Except.ok.inj heq ▸ ha⟩

theorem Matches.fault (h : Alike p s t) (f : Fault) : Matches p ok (.error (.fault f), s) (.error (.fault f), t) :=
  .inr ⟨rfl, h, by simp⟩

theorem Matches.weaken {more : α → Prop} {first second : Except Stop α × Session}
    (h : Matches p ok first second) (hok : ∀ a, ok a → more a) : Matches p more first second :=
  h.imp_right fun ⟨hout, halike, hall⟩ => ⟨hout, halike, fun a ha => hok a (hall a ha)⟩

/-- Two steps in a row, where the second may use what the first has found. -/
theorem Matches.bind {m m' : Interp α} {k k' : α → Interp β} (h : Matches p ok (m.exec s) (m'.exec t))
    (hk : ∀ a s' t', m.exec s = (.ok a, s') → m'.exec t = (.ok a, t') → ok a → Alike p s' t' →
      Matches p ok' ((k a).exec s') ((k' a).exec t')) : Matches p ok' ((m >>= k).exec s) ((m' >>= k').exec t) := by
  cases hexec : m.exec s with
  | mk outcome s' =>
  cases hexec' : m'.exec t with
  | mk outcome' t' =>
    rw [hexec, hexec'] at h
    rcases h with hexhausted | ⟨hout, halike, hok⟩
    · obtain rfl : outcome = .error .exhausted := hexhausted
      rw [Interp.exec_bind_error hexec]
      exact .inl rfl
    · obtain rfl : outcome' = outcome := hout
      cases outcome' with
      | ok a =>
        rw [Interp.exec_bind_ok hexec, Interp.exec_bind_ok hexec']
        exact hk a s' t' hexec hexec' (hok a rfl) halike
      | error stop =>
        rw [Interp.exec_bind_error hexec, Interp.exec_bind_error hexec']
        exact .inr ⟨rfl, halike, by simp⟩

theorem Matches.recover {m m' : Interp α} (h : Matches p ok (m.exec s) (m'.exec t))
    (hhandler : ∀ f s' t', Alike p s' t' → Matches p ok ((handler f).exec s') ((handler' f).exec t')) :
    Matches p ok ((Interp.recover m handler).exec s) ((Interp.recover m' handler').exec t) := by
  rw [Interp.exec_recover, Interp.exec_recover]
  cases hexec : m.exec s with
  | mk outcome s' =>
  cases hexec' : m'.exec t with
  | mk outcome' t' =>
    rw [hexec, hexec'] at h
    rcases h with hexhausted | ⟨hout, halike, hok⟩
    · obtain rfl : outcome = .error .exhausted := hexhausted
      exact .inl rfl
    · obtain rfl : outcome' = outcome := hout
      cases outcome' with
      | ok a => exact .value halike (hok a rfl)
      | error stop =>
        cases stop with
        | exhausted => exact .inl rfl
        | fault f => exact hhandler f s' t' halike

namespace Interp

/-- From sessions that are alike, the second step ends as the first one does, with a value as `ok`
says. -/
def Mirrors (p : Aspect) (ok : α → Prop) (m m' : Interp α) : Prop :=
  ∀ s t, Alike p s t → Matches p ok (m.exec s) (m'.exec t)

/-- A step that mirrors itself. -/
abbrev Echoes (p : Aspect) (m : Interp α) : Prop :=
  m.Mirrors p (fun _ ↦ True) m

/-- A step whose effect does not show. -/
def Hidden (p : Aspect) (m : Interp Unit) : Prop :=
  ∀ s, p.Guards s → ∃ t, m.exec s = (.ok (), t) ∧ p.blur t = p.blur s ∧ p.Guards t

namespace Mirrors

variable {m m' : Interp α} {k k' : α → Interp β}

protected theorem pure {a : α} (ha : ok a) : (pure a : Interp α).Mirrors p ok (pure a) :=
  fun _ _ h => .value h ha

protected theorem fail (f : Fault) : (Interp.fail f : Interp α).Mirrors p ok (Interp.fail f) :=
  fun _ _ h => .fault h f

protected theorem exhausted : (throw .exhausted : Interp α).Mirrors p ok m' :=
  fun _ _ _ => .inl rfl

protected theorem ofExcept {e : Except Fault α} (he : ∀ a, e = .ok a → ok a) :
    (Interp.ofExcept e).Mirrors p ok (Interp.ofExcept e) := by
  cases e with
  | ok a => exact .pure (he a rfl)
  | error f => exact .fail f

protected theorem weaken {more : α → Prop} (hm : m.Mirrors p ok m') (hok : ∀ a, ok a → more a) : m.Mirrors p more m' :=
  fun s t h => (hm s t h).weaken hok

protected theorem bind (hm : m.Mirrors p ok m') (hk : ∀ a, ok a → (k a).Mirrors p ok' (k' a)) :
    (m >>= k).Mirrors p ok' (m' >>= k') :=
  fun s t h => (hm s t h).bind fun a s' t' _ _ ha halike => hk a ha s' t' halike

/-- A step after one whose value does not matter. -/
theorem after (hm : m.Mirrors p ok m') (hk : ∀ a, (k a).Mirrors p ok' (k' a)) : (m >>= k).Mirrors p ok' (m' >>= k') :=
  hm.bind fun a _ => hk a

protected theorem ite {c : Prop} [Decidable c] {n n' : Interp α} (hm : m.Mirrors p ok m')
    (hn : n.Mirrors p ok n') : (if c then m else n).Mirrors p ok (if c then m' else n') := by
  by_cases hc : c
  · rwa [if_pos hc, if_pos hc]
  · rwa [if_neg hc, if_neg hc]

/-- A step that looks at its session first. -/
theorem get_bind {k k' : Session → Interp β} (hk : ∀ s t, Alike p s t → Matches p ok' ((k s).exec s) ((k' t).exec t)) :
    (get >>= k).Mirrors p ok' (get >>= k') :=
  fun s t h => hk s t h

protected theorem modify (hblur : ∀ s, p.blur (g s) = g (p.blur s))
    (hguards : ∀ s, p.Guards s → p.Guards (g s)) : (modify g : Interp Unit).Echoes p := by
  intro s t h
  refine .value ⟨?_, hguards s h.guards, hguards t h.guards'⟩ trivial
  rw [hblur, hblur, h.blur]

protected theorem recover (hm : m.Mirrors p ok m') (hhandler : ∀ f, (handler f).Mirrors p ok (handler' f)) :
    (Interp.recover m handler).Mirrors p ok (Interp.recover m' handler') :=
  fun s t h => (hm s t h).recover hhandler

end Mirrors

namespace Hidden

variable {m m' : Interp Unit}

/-- Steps that do not show mirror each other, whatever they are. -/
theorem mirrors (hm : m.Hidden p) (hm' : m'.Hidden p) : m.Mirrors p (fun _ => True) m' := by
  intro s t h
  obtain ⟨s', hexec, hblur, hguards⟩ := hm s h.guards
  obtain ⟨t', hexec', hblur', hguards'⟩ := hm' t h.guards'
  rw [hexec, hexec']
  exact .value ⟨by rw [hblur', hblur, h.blur], hguards, hguards'⟩ trivial

theorem echoes (hm : m.Hidden p) : m.Echoes p :=
  hm.mirrors hm

protected theorem pure : (pure () : Interp Unit).Hidden p :=
  fun s hs => ⟨s, rfl, rfl, hs⟩

protected theorem modify (hblur : ∀ s, p.Guards s → p.blur (g s) = p.blur s)
    (hguards : ∀ s, p.Guards s → p.Guards (g s)) : (modify g : Interp Unit).Hidden p :=
  fun s hs => ⟨g s, rfl, hblur s hs, hguards s hs⟩

protected theorem bind {k : Unit → Interp Unit} (hm : m.Hidden p) (hk : (k ()).Hidden p) : (m >>= k).Hidden p := by
  intro s hs
  obtain ⟨t, hexec, hblur, hguards⟩ := hm s hs
  obtain ⟨u, hexec', hblur', hguards'⟩ := hk t hguards
  exact ⟨u, by rw [exec_bind_ok hexec, hexec'], hblur'.trans hblur, hguards'⟩

protected theorem get_bind {k : Session → Interp Unit} (hk : ∀ s, (k s).Hidden p) : (get >>= k).Hidden p :=
  fun s hs => hk s s hs

protected theorem ite {c : Prop} [Decidable c] {n : Interp Unit} (hm : m.Hidden p) (hn : n.Hidden p) :
    (if c then m else n).Hidden p :=
  iteInduction (fun _ => hm) fun _ => hn

end Hidden

end Interp

open Interp

theorem Alike.modify (h : Alike p s t)
    (hblur : ∀ s, p.blur (g s) = g (p.blur s)) (hguards : ∀ s, p.Guards s → p.Guards (g s)) : Alike p (g s) (g t) :=
  ⟨by rw [hblur, hblur, h.blur], hguards s h.guards, hguards t h.guards'⟩

/-- A change of what is neither bound nor traced. -/
theorem echoes_modify (hg : ∀ a b s, Aspect.trace.blur (g s) = g (Aspect.trace.blur s) ∧
    (Aspect.source a b).blur (g s) = g ((Aspect.source a b).blur s) ∧
    ((g s).scopes, (g s).cells, (g s).modes, (g s).source) = (s.scopes, s.cells, s.modes, s.source)) :
    (modify g : Interp Unit).Echoes p := by
  refine .modify ?_ fun s hs => ?_
  · cases p with
    | trace => exact fun s => (hg #[] #[] s).1
    | source a b => exact fun s => (hg a b s).2.1
  · have hsame := (hg #[] #[] s).2.2
    simp only [Prod.mk.injEq] at hsame
    exact hs.of_same hsame.1 hsame.2.1 hsame.2.2.1 hsame.2.2.2

/-! ### Messages and marks -/

/-- The values of a piece are held to be short where that matters. -/
def Piece.Admits (p : Aspect) : Piece → Prop
  | lit _ => True
  | val v => p.Admits v
  | all vs => ∀ v ∈ vs, p.Admits v

theorem Short.isWritable (hs : Short s)
    (h : ∀ piece ∈ message, piece.Admits .trace) : message.all (·.isWritable s.cells) = true := by
  rw [List.all_eq_true]
  intro piece hpiece
  have hadmits := h piece hpiece
  cases piece with
  | lit text => rfl
  | val v => exact Value.isWritable_of_isShort hs.cells (hadmits rfl)
  | all vs =>
    rw [Piece.isWritable, List.all_eq_true]
    exact fun v hv => Value.isWritable_of_isShort hs.cells (hadmits v hv rfl)

theorem blur_push {event : Event} (hevent : event.isProgram = false) (s : Session) :
    Aspect.trace.blur { s with events := s.events.push event } = Aspect.trace.blur s := by
  rw [Aspect.blur, Aspect.blur]
  dsimp only
  rw [Array.filter_push_of_neg (ne_true_of_eq_false hevent) (Array.size_push _)]

theorem hidden_writeLine (channel : Channel) (text : String) : (writeLine channel text).Hidden .trace :=
  .modify (fun s _ => blur_push rfl s) fun _ hs => hs.of_same rfl rfl rfl rfl

theorem echoes_writeLine (channel : Channel) (text : String) : (writeLine channel text).Echoes p := by
  cases p with
  | trace => exact (hidden_writeLine channel text).echoes
  | source => exact .modify (fun _ => rfl) fun _ hs => hs

theorem hidden_addNote (line : Int) (code message : String) : (addNote line code message).Hidden p := by
  cases p with
  | trace =>
    refine .modify (fun s _ => ?_) fun s hs => ?_
    · split
      · split
        · rfl
        · rfl
      · rfl
    · split
      · split
        · exact Short.of_same hs rfl rfl
        · exact hs
      · exact hs
  | source =>
    have hsame : ∀ s : Session, s.modes.full = false → (addNote line code message).exec s = (.ok (), s) := by
      intro s hs
      rw [addNote, exec_modify]
      dsimp only
      rw [if_neg (ne_true_of_eq_false hs)]
    exact fun s hs => ⟨s, hsame s hs.1, rfl, hs⟩

theorem echoes_noteStep (step : String) : (noteStep step).Echoes p :=
  (Hidden.get_bind fun _ => hidden_addNote _ _ _).echoes

theorem echoes_checkWritable (message : List Piece) : (checkWritable message).Echoes p := by
  refine .get_bind fun s t h => ?_
  rw [h.records.cells]
  exact Mirrors.ite (.pure trivial) (.fail _) s t h

theorem echoes_format (message : List Piece) : (format message).Echoes p := by
  refine .after (echoes_checkWritable message) fun _ => .get_bind fun s t h => ?_
  rw [h.records.cells]
  exact Mirrors.pure trivial s t h

theorem hidden_traced :
    (do let s ← get
        if s.modes.full then addNote s.line "33" (String.join (message.map (·.shown s.cells)))
        else pure () : Interp Unit).Hidden p :=
  .get_bind fun _ => .ite (hidden_addNote _ _ _) .pure

theorem echoes_note (message : List Piece) : (note message).Echoes p :=
  .after (echoes_checkWritable message) fun _ => hidden_traced.echoes

theorem echoes_reportAt (line : Int) (message : String) : (reportAt line message).Echoes p := by
  cases p with
  | trace =>
    refine Hidden.echoes (.modify (fun s _ => ?_) fun s hs => ?_)
    · dsimp only
      split
      · rfl
      · rfl
    · dsimp only
      split
      · exact hs
      · exact Short.of_same hs rfl rfl
  | source =>
    intro s t h
    -- outside the full trace the text of an error does not quote the source
    let text := errorText s.modes "" line message
    have hexec : ∀ u : Session, u.modes = s.modes → (reportAt line message).exec u =
        (.ok (), if u.errors.contains text then u else { u with errors := u.errors.push text }) := by
      intro u hmodes
      have htext : ∀ content, errorText u.modes content line message = text := by
        intro content
        simp only [text, errorText, hmodes, h.full, Bool.false_eq_true, if_false]
      rw [reportAt, exec_modify]
      dsimp only
      rw [htext]
    rw [h.source_eq, hexec s rfl, hexec { s with source := t.source } rfl]
    refine .inr ⟨rfl, ?_, fun _ _ => trivial⟩
    dsimp only
    split
    · exact ⟨rfl, h.guards, h.full, h.guards'.2⟩
    · exact ⟨rfl, h.guards, h.full, h.guards'.2⟩

theorem echoes_report (message : String) : (report message).Echoes p :=
  echoes_reportAt 0 message

variable (name : String) (id : Nat)

theorem echoes_blame : (blame name).Echoes p := echoes_modify fun _ _ _ => ⟨rfl, rfl, rfl⟩

theorem echoes_markUsed : (markUsed name).Echoes p := echoes_modify fun _ _ _ => ⟨rfl, rfl, rfl⟩

theorem echoes_markDefined : (markDefined name).Echoes p := echoes_modify fun _ _ _ => ⟨rfl, rfl, rfl⟩

theorem echoes_markAssigned : (markAssigned name).Echoes p := echoes_modify fun _ _ _ => ⟨rfl, rfl, rfl⟩

theorem echoes_markWarned : (markWarned name).Echoes p := echoes_modify fun _ _ _ => ⟨rfl, rfl, rfl⟩

/-! ### Lists -/

theorem Alike.admits_items (h : Alike p s t) (cell : Nat) : ∀ v ∈ s.cells.getD cell #[], p.Admits v := by
  rintro v hv rfl
  obtain ⟨items, hitems, hmem⟩ := Value.mem_of_mem_getD hv
  exact h.short.cells items hitems v hmem

theorem mirrors_newList {items : Array Value} (hitems : ∀ v ∈ items, p.Admits v) :
    (newList items).Mirrors p p.Admits (newList items) := by
  intro s t h
  have halike : Alike p { s with cells := s.cells.push items } { t with cells := t.cells.push items } := by
    refine h.modify (g := fun s => { s with cells := s.cells.push items }) ?_ ?_
    · cases p with
      | trace | source => exact fun _ => rfl
    · cases p with
      | source => exact fun _ hs => hs
      | trace =>
        refine fun s hs => ⟨hs.vars, hs.constants, fun others hothers v hv => ?_⟩
        rcases Array.mem_push.mp hothers with hold | rfl
        · exact hs.cells others hold v hv
        · exact hitems v hv rfl
  rw [newList, exec_modifyGet, exec_modifyGet, h.records.cells]
  rw [h.records.cells] at halike
  exact .value halike fun _ => Value.isShort_list _

theorem mem_modify {cells : Cells} {cell : Nat} {f : Array Value → Array Value} {items : Array Value}
    (h : items ∈ cells.modify cell f) : items ∈ cells ∨ ∃ old ∈ cells, items = f old := by
  obtain ⟨i, hi⟩ := Array.mem_iff_getElem?.mp h
  rw [Array.getElem?_modify] at hi
  by_cases hcell : cell = i
  · rw [if_pos hcell, Option.map_eq_some_iff] at hi
    obtain ⟨old, hold, rfl⟩ := hi
    exact .inr ⟨old, Array.mem_of_getElem? hold, rfl⟩
  · rw [if_neg hcell] at hi
    exact .inl (Array.mem_of_getElem? hi)

theorem echoes_setItems (cell : Nat) {f : Array Value → Array Value}
    (hf : ∀ items, (∀ v ∈ items, p.Admits v) → ∀ v ∈ f items, p.Admits v) : (setItems cell f).Echoes p := by
  refine .modify ?_ ?_
  · cases p with
    | trace | source => exact fun _ => rfl
  · cases p with
    | source => exact fun _ hs => hs
    | trace =>
      refine fun s hs => ⟨hs.vars, hs.constants, fun items hitems v hv => ?_⟩
      rcases mem_modify hitems with hold | ⟨old, hold, rfl⟩
      · exact hs.cells items hold v hv
      · exact hf old (fun w hw _ => hs.cells old hold w hw) v hv rfl

/-! ### Scopes -/

theorem Alike.scope_eq {a b : Array String} (h : Alike (.source a b) s t) (id : Nat) : t.scope id = s.scope id := by
  rw [h.source_eq]
  rfl

theorem exec_scopeOf_bind (k : Scope → Interp β) (s : Session) :
    (scopeOf id >>= k).exec s = (k (s.scope id)).exec s :=
  rfl

/-- An announcement does not show where the modes may differ. -/
theorem hidden_announce (step : String)
    (hargs : ∀ piece ∈ args, piece.Admits .trace) : (announce id step args).Hidden .trace := by
  intro s hs
  rw [announce, exec_scopeOf_bind]
  by_cases hfull : (s.scope id).modes.full = true
  · rw [if_pos hfull, exec_bind_ok (exec_checkWritable (Short.isWritable hs hargs)), exec_get_bind]
    exact hidden_writeLine _ _ s hs
  · rw [if_neg hfull]
    exact Hidden.pure s hs

theorem hidden_announceOutcome
    (hmsg : ∀ piece ∈ message, piece.Admits .trace) : (announceOutcome id message).Hidden .trace := by
  intro s hs
  rw [announceOutcome, exec_scopeOf_bind]
  by_cases hany : (s.scope id).modes.any = true
  · rw [if_pos hany, exec_bind, format, exec_bind_ok (exec_checkWritable (Short.isWritable hs hmsg))]
    exact hidden_writeLine _ _ s hs
  · rw [if_neg hany]
    exact Hidden.pure s hs

theorem echoes_announce (step : String)
    (hargs : ∀ piece ∈ args, piece.Admits p) : (announce id step args).Echoes p := by
  cases p with
  | trace => exact (hidden_announce id step hargs).echoes
  | source =>
    intro s t h
    rw [announce, exec_scopeOf_bind, exec_scopeOf_bind, h.scope_eq]
    refine Mirrors.ite (.after (echoes_checkWritable args) fun _ => .get_bind fun s t h => ?_) (.pure trivial) s t h
    rw [h.records.cells]
    exact echoes_writeLine _ _ s t h

theorem echoes_announceOutcome
    (hmsg : ∀ piece ∈ message, piece.Admits p) : (announceOutcome id message).Echoes p := by
  cases p with
  | trace => exact (hidden_announceOutcome id hmsg).echoes
  | source =>
    intro s t h
    rw [announceOutcome, exec_scopeOf_bind, exec_scopeOf_bind, h.scope_eq]
    exact Mirrors.ite (.after (echoes_format message) fun _ => echoes_writeLine _ _) (.pure trivial) s t h

end FapLang.Run
