import FapLang.Proofs.Run.BondedSteps
import FapLang.Proofs.Run.Mirrors

/-!
Steps that mirror themselves. That two steps mirror each other is a bond (`mirroring`) with all the
laws, since what steps do to a session by themselves is the same in sessions that are alike.
-/

namespace FapLang.Run

open Interp

variable {p : Aspect}
variable {v : Value}

theorem admits_text (text : String) : p.Admits (.text text) :=
  fun _ => rfl

theorem admits_list (cell : Nat) : p.Admits (.list cell) :=
  fun _ => Value.isShort_list cell

theorem admits_none : p.Admits .none :=
  fun _ => rfl

theorem Session.scope_setScope (s : Session) (id other : Nat) (f : Scope → Scope) :
    (s.setScope id f).scope other = s.scope other ∨ (s.setScope id f).scope other = f (s.scope other) := by
  by_cases hother : other = id
  · subst hother
    by_cases hlt : other < s.scopes.size
    · exact .inr (Session.scope_setScope_self hlt f)
    · left
      rw [Session.scope_eq, Session.scope_eq, Array.getElem?_eq_none (Nat.le_of_not_lt hlt),
        Array.getElem?_eq_none (by rw [Session.size_setScope]; exact Nat.le_of_not_lt hlt)]
  · exact .inl (Session.scope_setScope_of_ne hother f)

theorem blur_setScope (p : Aspect) (s : Session) (id : Nat) {f : Scope → Scope}
    (hf : ∀ scope, (f scope).still = f scope.still) : p.blur (s.setScope id f) = (p.blur s).setScope id f := by
  cases p with
  | source => rfl
  | trace =>
    have hscopes : (s.scopes.modify id f).map Scope.still = (s.scopes.map Scope.still).modify id f := by
      refine Array.ext_getElem? fun i => ?_
      rw [Array.getElem?_map, Array.getElem?_modify, Array.getElem?_modify, Array.getElem?_map]
      by_cases hid : id = i
      · rw [if_pos hid, if_pos hid, Option.map_map, Option.map_map]
        exact congrArg (fun g => Option.map g _) (funext hf)
      · rw [if_neg hid, if_neg hid]
    simp only [Aspect.blur, Session.setScope, hscopes]

/-- A change of a scope that neither looks at its modes nor binds what is not admitted. -/
theorem echoes_setScope (id : Nat) {f : Scope → Scope} (hf : ∀ scope, (f scope).still = f scope.still)
    (hvars : ∀ scope, ∀ entry ∈ (f scope).vars, entry ∈ scope.vars ∨ p.Admits entry.2)
    (hconsts : ∀ scope, ∀ entry ∈ (f scope).constants, entry ∈ scope.constants ∨ p.Admits entry.2) :
    (setScope id f).Echoes p := by
  refine .modify (fun s => blur_setScope p s id hf) fun s hs => ?_
  cases p with
  | source => exact hs
  | trace =>
    have hs : Short s := hs
    refine ⟨fun other entry hentry => ?_, fun other entry hentry => ?_, hs.cells⟩
    · rcases s.scope_setScope id other f with heq | heq
      · rw [heq] at hentry
        exact hs.vars other entry hentry
      · rw [heq] at hentry
        exact (hvars _ entry hentry).elim (hs.vars other entry) fun h => h rfl
    · rcases s.scope_setScope id other f with heq | heq
      · rw [heq] at hentry
        exact hs.constants other entry hentry
      · rw [heq] at hentry
        exact (hconsts _ entry hentry).elim (hs.constants other entry) fun h => h rfl

theorem echoes_bindVar (id : Nat) (name : String) (hv : p.Admits v) :
    (setScope id fun scope => { scope with vars := scope.vars.insert name v }).Echoes p := by
  refine echoes_setScope id (fun _ => rfl) (fun scope entry hentry => ?_) fun _ _ hentry => .inl hentry
  rcases Table.mem_insert hentry with rfl | hold
  · exact .inr hv
  · exact .inl hold

theorem echoes_defineVar (id : Nat) (name : String) (hv : p.Admits v) :
    (defineVar id name v).Echoes p := by
  refine .after (echoes_announce id _ ?_) fun _ => .after (echoes_bindVar id name hv) fun _ => ?_
  · simpa [Piece.Admits] using hv
  · exact echoes_announceOutcome id (by simpa [Piece.Admits] using hv)

theorem echoes_defineConst (id : Nat) (name : String) (hv : p.Admits v) :
    (defineConst id name v).Echoes p := by
  refine .after (echoes_announce id _ ?_) fun _ => .after (echoes_setScope id (fun _ => rfl) ?_ ?_) fun _ => ?_
  · simpa [Piece.Admits] using hv
  · exact fun _ _ hentry => .inl hentry
  · intro scope entry hentry
    rcases Table.mem_insert hentry with rfl | hold
    · exact .inr hv
    · exact .inl hold
  · exact echoes_announceOutcome id (by simpa [Piece.Admits] using hv)

theorem mirrors_newScope (parent : Nat) : (newScope parent).Echoes p := by
  intro s t h
  have halike : Alike p { s with scopes := s.scopes.push (Scope.empty (some parent)) }
      { t with scopes := t.scopes.push (Scope.empty (some parent)) } := by
    refine h.modify (g := fun s => { s with scopes := s.scopes.push (Scope.empty (some parent)) }) ?_ ?_
    · cases p with
      | source => exact fun _ => rfl
      | trace =>
        intro s
        simp only [Aspect.blur, Array.map_push]
        rfl
    · cases p with
      | source => exact fun _ hs => hs
      | trace =>
        intro s hs
        have hscope : ∀ id, ({ s with scopes := s.scopes.push (Scope.empty (some parent)) } : Session).scope id =
            s.scope id ∨ ({ s with scopes := s.scopes.push (Scope.empty (some parent)) } : Session).scope id =
              Scope.empty (some parent) := by
          intro id
          rw [Session.scope_eq, Session.scope_eq, Array.getElem?_push]
          by_cases hid : id = s.scopes.size
          · rw [if_pos hid]
            exact .inr rfl
          · rw [if_neg hid]
            exact .inl rfl
        refine ⟨fun id entry hentry => ?_, fun id entry hentry => ?_, hs.cells⟩
        · rcases hscope id with heq | heq
          · rw [heq] at hentry
            exact hs.vars id entry hentry
          · rw [heq] at hentry
            cases hentry
        · rcases hscope id with heq | heq
          · rw [heq] at hentry
            exact hs.constants id entry hentry
          · rw [heq] at hentry
            cases hentry
  rw [newScope, exec_modifyGet, exec_modifyGet, h.records.size]
  exact .value halike trivial

theorem hidden_note {message : List Piece}
    (hmsg : ∀ s, p.Guards s → s.Writes message) : (note message).Hidden p := by
  intro s hs
  rw [note, exec_bind_ok (exec_checkWritable (hmsg s hs))]
  exact hidden_traced s hs

theorem Alike.modes_eq {a b : Array String} {s t : Session} (h : Alike (.source a b) s t) : t.modes = s.modes := by
  rw [h.source_eq]

/-- What the program itself writes shows. -/
theorem echoes_push {event : Event} (hevent : event.isProgram = true) :
    (modify fun s => { s with events := s.events.push event } : Interp Unit).Echoes p := by
  refine echoes_modify fun _ _ s => ⟨?_, rfl, rfl⟩
  simp only [Aspect.blur]
  rw [Array.filter_push_of_pos hevent (Array.size_push _)]

theorem echoes_readLine (prompt : String) : (readLine prompt).Echoes p := by
  refine .get_bind fun s t h => ?_
  rw [h.records.input]
  split
  · exact Mirrors.pure trivial s t h
  · refine Mirrors.after (echoes_push rfl) (fun _ => ?_) s t h
    split
    · exact .pure trivial
    · exact .after (echoes_modify fun _ _ _ => ⟨rfl, rfl, rfl⟩) fun _ => .pure trivial

theorem echoes_writeMessage (severity : Severity) (message : String) : (writeMessage severity message).Echoes p := by
  refine .after (echoes_modify fun _ _ _ => ⟨rfl, rfl, rfl⟩) fun _ => ?_
  exact .after (echoes_note _) fun _ => echoes_push rfl

theorem echoes_restore (scope : Nat) (result : Value) (returning : Bool) :
    (restore scope result returning).Echoes p := echoes_modify fun _ _ _ => ⟨rfl, rfl, rfl⟩

/-- The bond between steps that mirror each other. -/
def mirroring (p : Aspect) : Bond where
  admits := p.Admits
  knows _ _ := True
  rel ok m m' := m.Mirrors p ok m'

theorem Alike.seen {s t : Session} (h : Alike p s t) : (mirroring p).Seen s t := by
  refine ⟨h.records, h.admits_items, ?_, ?_, fun _ _ _ => trivial⟩
  · rintro id entry hentry rfl
    exact h.short.vars id entry hentry
  · rintro id entry hentry rfl
    exact h.short.constants id entry hentry

theorem admits_of_shows {piece : Piece} (h : (mirroring p).Shows piece) : piece.Admits p := by
  cases piece with
  | lit | val | all => exact h

theorem lawful_mirroring (p : Aspect) : (mirroring p).Lawful where
  pure ha := .pure ha
  fail f := .fail f
  bind hm hk := .bind hm hk
  recover hm hhandler := .recover hm hhandler
  look hk := fun s t h => hk s t h.seen s t h
  noteStep step := echoes_noteStep step
  note _ _ := echoes_note _
  report message := echoes_report message
  blaming message name := .after (echoes_report message) fun _ => echoes_blame name
  lament message name := by
    refine .after (echoes_report message) fun _ => .get_bind fun s t h => ?_
    rw [h.records.faulty]
    exact Mirrors.ite (.pure trivial) (.after (echoes_blame name) fun _ => .pure trivial) s t h
  markUsed name := echoes_markUsed name
  markDefined name := echoes_markDefined name
  newList h := (mirrors_newList h).weaken fun _ _ => trivial
  announce id step name := echoes_announce id step (by simp [Piece.Admits])
  announceOutcome id _ h := echoes_announceOutcome id fun piece hpiece => admits_of_shows (h piece hpiece)
  readLine _ := echoes_readLine _
  short h := fun _ => h
  castInt hv h := by
    refine fun hp => Value.isShort_of_isPlain (Value.isPlain_of_castInt ?_ h)
    rintro n rfl
    exact hv hp

theorem echoes_setValue (name : String) (hv : p.Admits v) : (setValue name v).Echoes p := by
  refine .after (lawful_mirroring p).currentChain fun ids => ?_
  induction ids with
  | nil => exact .fail _
  | cons id outer ih =>
    refine .after (echoes_announce id _ (by simpa [Piece.Admits] using hv)) fun _ => ?_
    refine (lawful_mirroring p).scopeOf fun s t hst => ?_
    obtain ⟨hvars, hconsts, -⟩ := Scope.eq_of_still (hst.still_scope id)
    rw [hvars, hconsts]
    refine Mirrors.ite (.fail _) ?_
    split
    · next old hold =>
      have hadmits := hst.vars id _ (Table.mem_of_get? hold)
      refine .after (echoes_bindVar id name hv) fun _ => echoes_announceOutcome id ?_
      simpa [Piece.Admits] using ⟨hv, hadmits⟩
    · exact .after ((lawful_mirroring p).isDefinedIn name outer) fun _ => .ite ih (.fail _)

theorem calling_mirroring (p : Aspect) : (mirroring p).Calling where
  toLawful := lawful_mirroring p
  markAssigned name := echoes_markAssigned name
  setItems cell _ hf := echoes_setItems cell hf
  define name _ hv := by
    refine .get_bind fun s t h => ?_
    rw [h.records.current]
    exact echoes_defineVar s.current name hv s t h
  setValue name _ hv := echoes_setValue name hv
  dropVar name := by
    refine .get_bind fun s t h => ?_
    rw [h.records.current]
    have hdrop : (setScope s.current fun scope => { scope with vars := scope.vars.erase name }).Echoes p :=
      echoes_setScope s.current (fun _ => rfl) (fun _ _ hentry => .inl (List.mem_filter.mp hentry).1)
        fun _ _ hentry => .inl hentry
    exact hdrop s t h
  setBreaking _ := echoes_modify fun _ _ _ => ⟨rfl, rfl, rfl⟩
  setResult _ := echoes_modify fun _ _ _ => ⟨rfl, rfl, rfl⟩
  setReturning := echoes_modify fun _ _ _ => ⟨rfl, rfl, rfl⟩
  count {v n} hv h i hi hp := by
    have hwritable : Number.isWritable n = true := by
      obtain ⟨m, heq, hm⟩ := Value.exists_int_of_toInt h
      obtain rfl := Value.int.inj heq
      rcases hm with rfl | hm
      · exact hv hp
      · exact hm
    exact Value.isShort_of_isPlain (Number.isWritable_of_natAbs_le (by omega) hwritable)
  defineVar id name _ hv := echoes_defineVar id name hv
  defineConst id name _ hv := echoes_defineConst id name hv
  newScope parent := mirrors_newScope parent
  restore scope result returning := echoes_restore scope result returning
  tidy hm _ hrest := .recover hm fun f => .after hrest fun _ => .fail f

theorem echoes_warnUnassigned (name : String) (v : Value) : (warnUnassigned name v).Echoes p := by
  refine .get_bind fun s t h => ?_
  have hunassigned : t.isUnassigned name = s.isUnassigned name := by
    rw [Session.isUnassigned, Session.isUnassigned, h.records.defined, h.records.assigned]
  rw [hunassigned, h.records.warned, h.records.faulty]
  refine Mirrors.ite (.after ((lawful_mirroring p).isConstant name) fun _ => .ite ?_ (.pure trivial)) (.pure trivial) s t h
  refine .after (echoes_format _) fun message => ?_
  -- what is written differs with the modes, but does not show where the modes may differ
  cases p with
  | source =>
    rw [h.modes_eq]
    refine .ite ?_ ?_
    · exact .after (echoes_note _) fun _ => echoes_markWarned name
    · exact .after (echoes_writeLine _ _) fun _ => echoes_markWarned name
  | trace =>
    have hnote : (note ["[WARN] ", message]).Hidden .trace := hidden_note fun _ _ => rfl
    have hline := hidden_writeLine .err (colour "93" ("[WARN] " ++ message))
    split
    · split
      · exact .after hnote.echoes fun _ => echoes_markWarned name
      · exact .after (hnote.mirrors hline) fun _ => echoes_markWarned name
    · split
      · exact .after (hline.mirrors hnote) fun _ => echoes_markWarned name
      · exact .after hline.echoes fun _ => echoes_markWarned name

end FapLang.Run
