import FapLang.Proofs.Bookkeeping
import FapLang.Proofs.Run.Bindings

/-!
Reads of names without an assignment. A read takes its value from the nearest scope that binds the
name, so the warning shows as the default whatever the name was bound to when that scope last bound
it (`unassigned_read_shows_held_value`).
-/

namespace FapLang.Run

open Interp Grammar

variable {s t : Session} {name : String} {id : Nat} {v : Value}

/-- A read of the name deserves a warning. -/
def Session.isSuspect (s : Session) (name : String) : Bool :=
  s.isUnassigned name && !(s.scope s.current).constants.has name && !s.warned.contains name && !s.faulty.contains name

/-- The name is marked, and the warning is a line on the error channel, or in the full trace a note
if there is a line to quote. -/
structure Warned (name warning : String) (s t : Session) : Prop where
  marked : t.warned = s.warned.insert name
  line : s.modes.any = false → ⟨.err, colour "93" warning ++ "\n", false, false⟩ ∈ t.events
  note : ∀ content, s.modes.full = true → s.sourceLine? s.line = some content →
    noteText "33" s.line content warning ∈ t.notes

/-- A warning is issued. -/
theorem exec_issue (name message : String) (s : Session) : ∃ t, (do
      if s.modes.any then note ["[WARN] ", message] else writeLine .err (colour "93" ("[WARN] " ++ message))
      markWarned name : Interp Unit).exec s = (.ok (), t) ∧ Warned name ("[WARN] " ++ message) s t := by
  by_cases hany : s.modes.any = true
  · rw [if_pos hany, note, exec_bind]
    have hwritable : (checkWritable [.lit "[WARN] ", .lit message]).exec s = (.ok (), s) := rfl
    rw [exec_bind_ok hwritable, exec_get_bind, join_texts]
    by_cases hfull : s.modes.full = true
    · rw [if_pos hfull, addNote, exec_modify, if_pos hfull]
      cases hline : s.sourceLine? s.line with
      | none => exact ⟨_, rfl, rfl, by simp [hany], by simp [hline]⟩
      | some content =>
        refine ⟨_, rfl, rfl, by simp [hany], fun other _ hother => ?_⟩
        cases hline.symm.trans hother
        exact Array.mem_push_self
    · rw [if_neg hfull]
      exact ⟨_, rfl, rfl, by simp [hany], fun _ h => absurd h hfull⟩
  · rw [if_neg hany]
    refine ⟨_, rfl, rfl, fun _ => Array.mem_push_self, fun _ h => absurd ?_ hany⟩
    rw [Modes.any, h, Bool.or_true]

/-- The warning of a read, if it deserves one. -/
theorem exec_warnUnassigned (name : String) (hv : v.isWritable s.cells = true) :
    ∃ t, (warnUnassigned name v).exec s = (.ok (), t) ∧
      (s.isSuspect name = true → Warned name (warningLead name ++ v.shown s.cells) s t) ∧
      (s.isSuspect name = false → t.warned = s.warned) := by
  rw [warnUnassigned, exec_get_bind]
  by_cases hunassigned : s.isUnassigned name = true
  swap
  · rw [if_neg hunassigned]
    exact ⟨s, rfl, by simp [Session.isSuspect, hunassigned], fun _ => rfl⟩
  obtain ⟨t, hconst, ht⟩ := tells_isConstant name s
  have hsuspect : s.isSuspect name = (!(s.scope s.current).constants.has name && !s.warned.contains name &&
      !s.faulty.contains name) := by rw [Session.isSuspect, hunassigned, Bool.true_and]
  rw [if_pos hunassigned, exec_bind_ok hconst, ← hsuspect]
  cases s.isSuspect name with
  | false =>
    obtain ⟨_, _, rfl⟩ := ht
    exact ⟨_, rfl, by simp, fun _ => rfl⟩
  | true =>
    obtain ⟨u, hformat, hu⟩ := @tells_format t
      ["Variable '", name, "' used without assignment, using default value: ", v]
      (ht.writes (by simpa [Session.Writes, Piece.isWritable] using hv))
    rw [if_pos rfl, exec_bind_ok hformat, ht.cells_eq]
    have hmsg : "[WARN] " ++ String.join ([.lit "Variable '", .lit name,
        .lit "' used without assignment, using default value: ", .val v].map (Piece.shown s.cells)) =
        warningLead name ++ v.shown s.cells := by
      simp only [List.map_cons, List.map_nil, String.join_cons, String.join_nil, String.append_empty, Piece.shown,
        warningLead, String.append_assoc]
    obtain ⟨w, hexec, hw⟩ := exec_issue name _ u
    rw [hmsg] at hw
    obtain ⟨notes, events, rfl⟩ := ht.trans hu
    exact ⟨w, hexec, fun _ => ⟨hw.marked, hw.line, hw.note⟩, by simp⟩

/-- What a scope holds is the value of the name, if it can be shown. -/
theorem lookup_of_held (hnear : s.nearest? name (s.chain s.current) = some id)
    (hheld : (s.scope id).held? name = some v) (hv : v.isWritable s.cells = true) :
    s.lookup name (s.chain s.current) = .ok v := by
  obtain ⟨w, hw, hlookup⟩ := (s.lookup_eq name _).2 id hnear
  cases hheld.symm.trans hw
  have hquiet : ((s.scope id).datum? name).toList.all (·.isWritable s.cells) = true := by
    rw [Scope.held?] at hheld
    cases hdatum : (s.scope id).datum? name with
    | none => rfl
    | some d =>
      rw [hdatum, Option.some_or] at hheld
      cases hheld
      simp [hv]
  rw [hlookup, s.stumbles_of_writable hquiet id]
  rfl

/-- A read gives what the nearest scope holds and warns of it. -/
theorem exec_visitIdent (kind : String) (hnear : s.nearest? name (s.chain s.current) = some id)
    (hheld : (s.scope id).held? name = some v) (hv : v.isWritable s.cells = true) :
    ∃ t, (visitIdent (.token kind name)).exec s = (.ok v, t) ∧
      (s.isSuspect name = true → Warned name (warningLead name ++ v.shown s.cells) s t) ∧
      (s.isSuspect name = false → t.warned = s.warned) := by
  have hsees : s.sees name = true :=
    List.any_eq_true.mpr ⟨id, List.mem_of_find?_eq_some hnear,
      List.find?_some (p := fun i => (s.scope i).binds name) hnear⟩
  obtain ⟨_, hstep, n1, e1, rfl⟩ := tells_noteStep "visit_IDENT" s
  let read (notes : Array String) (events : Array Event) : Session :=
    { s with used := s.used.insert name, notes := notes, events := events }
  obtain ⟨_, hnote, n2, e2, rfl⟩ := @tells_note (read n1 e1) ["[RUNTIME] Variable access: ", name] rfl
  obtain ⟨_, hdef, n3, e3, rfl⟩ := tells_isDefined name (read n2 e2)
  obtain ⟨_, hvalue, n4, e4, rfl⟩ := says_valueIn name (s.chain s.current) (read n3 e3)
  obtain ⟨t, hwarn, hwarned, hplain⟩ := @exec_warnUnassigned (read n4 e4) v name hv
  have hvalue : (valueOf name).exec (read n3 e3) = (.ok v, read n4 e4) :=
    hvalue.trans (congrArg (·, read n4 e4) (lookup_of_held (s := read n3 e3) hnear hheld hv))
  refine ⟨t, ?_, fun h => ?_, hplain⟩
  · have hused : (markUsed name).exec { s with notes := n1, events := e1 } = (.ok (), read n1 e1) := rfl
    rw [visitIdent, exec_bind_ok hstep, exec_bind_ok (show (textOf (.token kind name)).exec _ = (.ok name, _) from rfl),
      exec_bind_ok hused, exec_bind_ok hnote, exec_bind_ok hdef,
      if_pos (show (read n2 e2).sees name = true from hsees), exec_bind_ok hvalue,
      exec_bind_ok hwarn]
    rfl
  · have hw := hwarned h
    exact ⟨hw.marked, hw.line, hw.note⟩

theorem SameBinding.held?_eq (h : SameBinding s t id name) : (t.scope id).held? name = (s.scope id).held? name := by
  rw [Scope.held?, Scope.held?, Scope.datum?, Scope.datum?, h.vars, h.constants, h.functions]

/-! ### Names that are not assigned -/

/-- A statement that would bind a name in a scope without a mark, or a loop that would run over it
there. -/
def bindsUnmarked (name : String) (id : Nat) (n : Node) (s : Session) : Bool :=
  !marks n && target? n == some name && s.home name == id || loopsOver name id n s

/-- Marks are kept, and a name without a mark keeps its binding in a scope, or in a traced scope has
become a list. -/
structure Tracked (name : String) (id : Nat) (s t : Session) : Prop where
  size : s.scopes.size ≤ t.scopes.size
  marked : name ∈ s.assigned → name ∈ t.assigned
  modes : id < s.scopes.size → (t.scope id).modes = (s.scope id).modes
  binding : id < s.scopes.size → name ∈ t.assigned ∨ SameBinding s t id name ∨
    (s.scope id).modes.any = true ∧ ∃ cell, (t.scope id).vars.get? name = some (.list cell)

namespace Tracked

variable {name bound : String} {id other : Nat} {s t u : Session} {f : Scope → Scope}

theorem of_scopes_eq (h : t.scopes = s.scopes) (hmarked : name ∈ s.assigned → name ∈ t.assigned) :
    Tracked name id s t := by
  have hscope : t.scope id = s.scope id := by rw [Session.scope_eq, Session.scope_eq, h]
  exact ⟨Nat.le_of_eq (congrArg Array.size h.symm), hmarked, fun _ ↦ by rw [hscope],
    fun _ ↦ .inr (.inl (.of_scope_eq hscope))⟩

theorem refl (name : String) (id : Nat) (s : Session) : Tracked name id s s :=
  .of_scopes_eq rfl fun h ↦ h

theorem trans (h1 : Tracked name id s t) (h2 : Tracked name id t u) : Tracked name id s u := by
  have hlt : id < s.scopes.size → id < t.scopes.size := fun hid ↦ Nat.lt_of_lt_of_le hid h1.size
  refine ⟨h1.size.trans h2.size, fun h ↦ h2.marked (h1.marked h),
    fun hid ↦ (h2.modes (hlt hid)).trans (h1.modes hid), fun hid ↦ ?_⟩
  rcases h2.binding (hlt hid) with hmarked | hsame | ⟨htraced, hlist⟩
  · exact .inl hmarked
  · rcases h1.binding hid with hmarked | hfirst | ⟨htraced, hlist⟩
    · exact .inl (h2.marked hmarked)
    · exact .inr (.inl (hfirst.trans hsame))
    · exact .inr (.inr ⟨htraced, by rwa [hsame.vars]⟩)
  · rw [h1.modes hid] at htraced
    exact .inr (.inr ⟨htraced, hlist⟩)

theorem aside (hframe : SameFrame s t) (hgrowth : Growth s t) : Tracked name id s t :=
  .of_scopes_eq hframe.scopes (hgrowth.assigned name)

theorem entered (name : String) (id : Nat) (s : Session) (f : Function)
    (arguments : List (String × Value)) : Tracked name id s (s.entered f arguments) := by
  refine ⟨(Spared.entered name id s f arguments).size, fun h ↦ h, fun hid ↦ ?_,
    fun hid ↦ .inr (.inl ((Spared.entered name id s f arguments).binding hid))⟩
  rw [Session.scope_entered_of_lt hid]

/-- A change of a scope that keeps its modes. -/
theorem setScope (hmodes : ∀ scope, (f scope).modes = scope.modes)
    (hbinding : id < s.scopes.size → SameBinding s (s.setScope other f) id name ∨
      (s.scope id).modes.any = true ∧
        ∃ cell, ((s.setScope other f).scope id).vars.get? name = some (.list cell)) :
    Tracked name id s (s.setScope other f) := by
  refine ⟨by rw [Session.size_setScope], fun h ↦ h, fun hid ↦ ?_, fun hid ↦ .inr (hbinding hid)⟩
  by_cases heq : id = other
  · rw [← heq, Session.scope_setScope_self hid, hmodes]
  · rw [Session.scope_setScope_of_ne heq]

/-- A name is bound in a scope, and then it is marked as assigned. -/
theorem assigned {b : Bool} (hu : Assigned bound v b (s.setScope other f) u)
    (hmodes : ∀ scope, (f scope).modes = scope.modes)
    (hbinding : bound ≠ name → id < s.scopes.size → SameBinding s (s.setScope other f) id name)
    (hlist : b = true → ∀ cell, v = .list cell → Tracked name id s (s.setScope other f)) : Tracked name id s u := by
  rcases hu.marked with hmarked | ⟨htraced, cell, hv⟩
  · by_cases hbound : bound = name
    · subst hbound
      refine ⟨?_, fun _ ↦ hmarked, fun hid ↦ ?_, fun _ ↦ .inl hmarked⟩
      · rw [hu.frame.scopes, Session.size_setScope]
      · rw [hu.frame.scope_eq]
        by_cases heq : id = other
        · rw [← heq, Session.scope_setScope_self hid, hmodes]
        · rw [Session.scope_setScope_of_ne heq]
    · exact (setScope hmodes fun hid ↦ .inl (hbinding hbound hid)).trans (.aside hu.frame hu.growth)
  · exact (hlist htraced cell hv).trans (.aside hu.frame hu.growth)

/-- A name is bound to a list in a traced scope. -/
theorem list (cell : Nat) (htraced : (s.scope other).modes.any = true) :
    Tracked name id s (s.bindVar other bound (.list cell)) := by
  refine .setScope (fun _ ↦ rfl) fun hid ↦ ?_
  by_cases hsame : bound = name ∧ other = id
  · obtain ⟨rfl, rfl⟩ := hsame
    refine .inr ⟨htraced, cell, ?_⟩
    rw [Session.scope_setScope_self hid, Table.get?_insert, if_pos rfl]
  · exact .inl (.bindVar (fun hname heq ↦ hsame ⟨hname, heq⟩) _ hid)

theorem bindVar (hu : Assigned bound v (s.scope other).modes.any (s.bindVar other bound v) u) : Tracked name id s u :=
  .assigned hu (fun _ ↦ rfl) (fun hne ↦ .bindVar (fun heq ↦ absurd heq hne) _) fun htraced cell hv ↦ hv ▸ .list cell htraced

end Tracked

/-- The manner of statements that bind a name in a scope only if they mark it as assigned. -/
def Manner.tracking (name : String) (id : Nat) : Manner where
  moves := Tracked name id
  stops s _ t := Tracked name id s t
  free b s bound := b = false → bound = name → s.home name ≠ id

section Tracking

variable {name : String} {id : Nat}

instance : (Manner.homing (Tracked name id) name).Lawful :=
  Manner.homing_lawful .trans (.refl name id) .aside name

instance : (Manner.tracking name id).Lawful :=
  Manner.lawful_of_moves (.refl name id) .trans .aside

theorem Manner.tracking_acting :
    (Manner.homing (Tracked name id) name).Acting (Manner.tracking name id) where
  binding := {
    within := ⟨And.left, And.left⟩
    declare := fun hfree ht hsees v ↦ ht.2.1.trans (.setScope (fun _ ↦ rfl) fun hid ↦
      .inl (.bindVar (ne_of_declared (hfree rfl) ht.2.2 hsees) v hid))
    define := fun _ ht _ _ hu ↦ ht.2.1.trans (.bindVar hu)
    defineConst := fun _ ht _ _ _ hu ↦ ht.2.1.trans
      (.assigned hu (fun _ ↦ rfl) (fun hne ↦ .bindConst (fun heq ↦ absurd heq hne) _) nofun)
    assign := fun _ ht _ _ _ _ hu ↦ ht.2.1.trans (.bindVar hu) }
  naming _ _ _ _ _ hfree ht hsees _ := ht.2.1.trans (.setScope (fun _ ↦ rfl) fun hid ↦
    .inl (.bindFunc (ne_of_declared (hfree rfl) ht.2.2 hsees) _ hid))
  requesting _ _ _ _ := .of_scopes_eq rfl fun h ↦ h

theorem Manner.tracking_calling :
    (Manner.homing (Tracked name id) name).Calling (Manner.tracking name id) :=
  homing_calling .trans (.entered name id) (fun _ _ ↦ .of_scopes_eq rfl fun h ↦ h) name _

theorem Manner.tracking_repeating {bound : String} {other : Nat} (h : bound = name → other ≠ id) :
    (Manner.tracking name id).Repeating bound other where
  bind hid _ := .setScope (fun _ ↦ rfl) fun hlt ↦ .inl (.bindVar (fun hbound ↦ hid ▸ h hbound) _ hlt)
  drop hid := .setScope (fun _ ↦ rfl) fun hlt ↦ .inl (.dropVar (fun hbound ↦ hid ▸ h hbound) hlt)

variable (name id)

/-- Where nothing is begun that would bind the name in the scope without a mark, it is marked or
keeps its binding there. -/
theorem beside_tracking {stops : Node → Session → Bool}
    (hstops : ∀ n s, bindsUnmarked name id n s = true → stops n s = true) (depth : Nat) :
    Beside (.homing (Tracked name id) name) (.tracking name id) (visitUntil stops depth) := by
  refine Manner.tracking_acting.beside_visitUntil Manner.tracking_calling stops
    (fun n s bound hs hbound ↦ ?_) (fun n s parts hparts _ ↦ ?_) depth
  · by_cases hunmarked : bindsUnmarked name id n s = true
    · exact .inl (hstops n s hunmarked)
    · refine .inr fun t hcourse _ hmarks hname ↦ ?_
      rw [hcourse.home_eq hs.sound]
      rintro rfl
      simp [bindsUnmarked, hmarks, hbound, hname] at hunmarked
  · by_cases hover : loopsOver name id n s = true
    · exact .inl (hstops n s (by rw [bindsUnmarked, hover, Bool.or_true]))
    · exact .inr (Manner.tracking_repeating (ne_of_loopsOver (Bool.eq_false_iff.mpr hover) hparts))

end Tracking

/-- A declaration without a value binds its name to the default value, and does not mark it. -/
theorem exec_declaration (depth : Nat) (label kind : String) (hs : Formed s) (hclean : name ∉ s.faulty)
    (hunseen : s.sees name = false) :
    ∃ t, (visit (depth + 1) (.tree "var_def" [.tree label [], .token kind name])).exec s =
        (.ok .none, t) ∧
      t.assigned = s.assigned ∧ (t.scope s.current).held? name = some (.int 0) := by
  have hnumber : Number.isWritable 0 = true :=
    Number.isWritable_signed false (by decide : 0 < Nat.pow 10 1) (by decide)
  have hzero : ∀ cells, (Value.int 0).isWritable cells = true := fun _ ↦ hnumber
  obtain ⟨s₁, hs₁, hok, -⟩ :=
    exec_visit_tree depth "var_def" [.tree label [], .token kind name] rfl (by decide) s
  obtain ⟨s₂, hstep, hs₂⟩ := tells_noteStep "visit_var_def" s₁
  obtain ⟨s₃, hnote, hs₃⟩ := @tells_note s₂ ["[RUNTIME] Variable definition: type=", "int"] rfl
  obtain ⟨s₄, hdef, hs₄⟩ := tells_isDefined name s₃
  obtain ⟨s₅, hdefine, hs₅⟩ := exec_define_of_isWritable (s := s₄) name (hzero _)
  let marked : Session := { s₅ with defined := s₅.defined.insert name }
  have hwrites : marked.Writes
      ["[RUNTIME] Defined variable ", name, " with default value: ", .val (.int 0)] := by
    simp [Session.Writes, Piece.isWritable, hzero]
  obtain ⟨s₆, hnoted, hs₆⟩ := tells_note hwrites
  have hbefore := ((hs₁.trans hs₂).trans hs₃).trans hs₄
  have hstep : (visitVarDef (visit depth) (.tree "var_def" [.tree label [], .token kind name])).exec
      s₁ = (.ok .none, s₆) := by
    rw [visitVarDef, exec_bind_ok hstep, exec_bind_ok (exec_childrenOf _ _ s₂)]
    refine (exec_bind_ok (show (child [.tree label [], .token kind name] 0).exec s₂ =
      (.ok (.tree label []), s₂) from rfl)).trans ?_
    refine (exec_bind_ok (show (declaredType (.tree label [])).exec s₂ = (.ok "int", s₂) from rfl)).trans ?_
    refine (exec_bind_ok hnote).trans ?_
    rw [if_neg (by decide)]
    refine (exec_bind_ok (show (child [.tree label [], .token kind name] 1).exec s₃ =
      (.ok (.token kind name), s₃) from rfl)).trans ?_
    have hfaulty : s₃.faulty.contains name = false := by
      rw [((hs₁.trans hs₂).trans hs₃).faulty_eq]
      simpa using hclean
    rw [exec_bind_ok (exec_nameOf _ _ _ s₃), exec_bind_ok (exec_isFaulty name s₃), hfaulty,
      if_neg Bool.false_ne_true, exec_bind_ok hdef, ((hs₁.trans hs₂).trans hs₃).sameFrame.sees_eq,
      hunseen, if_neg Bool.false_ne_true]
    have hmark : (markDefined name).exec s₅ = (.ok (), marked) := rfl
    have hdeclared : (declareVar "int" name).exec s₄ = (.ok (), s₆) :=
      (exec_bind_ok hdefine).trans ((exec_bind_ok hmark).trans hnoted)
    exact exec_bind_ok hdeclared
  obtain ⟨t, hvisit, ht⟩ := hok .none s₆ hstep rfl
  obtain ⟨_, _, rfl⟩ := hbefore
  obtain ⟨_, _, rfl⟩ := hs₅
  obtain ⟨_, _, rfl⟩ := hs₆
  obtain ⟨_, _, rfl⟩ := ht
  refine ⟨_, hvisit, rfl, ?_⟩
  have hfree := ((s.scope s.current).binds_eq_false_iff name).mp (hs.sound.binds_eq_false hunseen)
  have hconst : (s.scope s.current).constants.get? name = none := by
    rw [Scope.held?, Option.or_eq_none_iff, Scope.datum?, Option.or_eq_none_iff] at hfree
    exact hfree.1.1
  change ((s.bindVar s.current name (.int 0)).scope s.current).held? name = _
  rw [Session.bindVar, Session.scope_setScope_self hs.sound.current, Scope.held?, Scope.datum?, hconst,
    Table.get?_insert, if_pos rfl]
  rfl

/-- Where a name without an assignment has its value from. A declaration without a value binds it to
the default value. From any point of a run a scope holds the same under the name at the end of every
visit, or where it is cut off, unless the name is marked as assigned by then, or a statement was
begun that would bind it there without a mark: such a declaration, a definition of a function, or a
loop over it. Only a list in a traced scope may have come without a mark. A read of the name gives
what the nearest scope holds. It warns exactly if the name is defined and not assigned somewhere in
the run, is no constant of the current scope, and has neither been warned of nor an error; and the
value is what the warning shows as the default. -/
theorem unassigned_read_shows_held_value (name : String) {s : Session} (hs : Formed s) :
    (∀ depth label kind, name ∉ s.faulty → s.sees name = false →
      ∃ t, (visit (depth + 1) (.tree "var_def" [.tree label [], .token kind name])).exec s =
          (.ok .none, t) ∧
        t.assigned = s.assigned ∧ (t.scope s.current).held? name = some (.int 0)) ∧
    ∀ id < s.scopes.size, ∀ c ∈ phraseForms ++ deedForms, ∀ n, Of c n →
      ∀ stops : Node → Session → Bool, (∀ m u, bindsUnmarked name id m u = true → stops m u = true) →
      ∀ depth, ∃ outcome t, (visitUntil stops depth n).exec s = (outcome, t) ∧
        (name ∈ s.assigned → name ∈ t.assigned) ∧
        (name ∈ t.assigned ∨ (t.scope id).held? name = (s.scope id).held? name ∨
          (s.scope id).modes.any = true ∧
            ∃ cell, (t.scope id).vars.get? name = some (.list cell)) ∧
        ∀ v, t.nearest? name (t.chain t.current) = some id → (t.scope id).held? name = some v →
          v.isWritable t.cells = true →
          ∃ u, (visitIdent (.token "IDENT" name)).exec t = (.ok v, u) ∧
            (t.isSuspect name = true → name ∉ t.assigned ∧
              Warned name (warningLead name ++ v.shown t.cells) t u) ∧
            (t.isSuspect name = false → u.warned = t.warned) := by
  refine ⟨fun depth label kind hclean hunseen ↦ exec_declaration depth label kind hs hclean hunseen,
    fun id hid c hc n hn stops hstops depth ↦ ?_⟩
  have hbeside := beside_tracking name id hstops depth
  have htracked : Tracked name id s ((visitUntil stops depth n).exec s).2 := by
    rcases List.mem_append.mp hc with hc | hc
    · exact (Manner.Ends.within Manner.tracking_acting.binding.within (hbeside.phrase c hc n hn s hs)).moved
    · exact (hbeside.deed c hc n hn s hs).moved
  refine ⟨_, _, rfl, htracked.marked,
    (htracked.binding hid).imp_right (.imp_left SameBinding.held?_eq), fun v hnear hheld hv ↦ ?_⟩
  obtain ⟨u, hexec, hwarned, hplain⟩ := exec_visitIdent "IDENT" hnear hheld hv
  refine ⟨u, hexec, fun hsuspect ↦ ⟨?_, hwarned hsuspect⟩, hplain⟩
  rw [Session.isSuspect, Session.isUnassigned] at hsuspect
  simp only [Bool.and_eq_true, Bool.not_eq_true', List.contains_eq_mem, decide_eq_false_iff_not] at hsuspect
  exact hsuspect.1.1.1.2

/-- The program declares `x`, and a call binds its parameter `x` to 5, of which a read warns as the
default. -/
theorem parameter_shown_as_default :
    ∃ s n stops t u, Arising s ∧ ((visitUntil stops 30 n).exec s).2 = t ∧ t.assigned = [] ∧
      (visitIdent (.token "IDENT" "x")).exec t = (.ok (.int 5), u) ∧
      ⟨.err, colour "93" (warningLead "x" ++ "5") ++ "\n", false, false⟩ ∈ u.events := by
  let n : Node := .tree "output_stmt" [.tree "member_access" [.token "IDENT" "out", .token "IDENT" "Info"],
    .tree "output_args" [.tree "expr" [.tree "term" [.tree "factor" [.token "IDENT" "x"]]]]]
  let stops : Node → Session → Bool := fun m u ↦ m.rule?.isNone || bindsUnmarked "x" 1 m u
  obtain ⟨s, t, hs, ht, hid, huntraced, hfive, hnearest, hwritable, hassigned, hsuspect, hquiet⟩ : ∃ s t, Arising s ∧
      ((visitUntil stops 30 n).exec s).2 = t ∧ 1 < s.scopes.size ∧ (s.scope 1).modes.any = false ∧
      ((s.scope 1).held? "x").bind Value.int? = some 5 ∧ t.nearest? "x" (t.chain t.current) = some 1 ∧
      (Value.int 5).isWritable t.cells = true ∧ t.assigned = [] ∧ t.isSuspect "x" = true ∧ t.modes.any = false := by
    refine ⟨_, _, .execute (.fresh (some [])) (fun n _ ↦ n.rule? == some "output_stmt")
      "Fuc f(int x) [\nout.Info(x)\n]\nNew int x\nf(5)", rfl, ?_⟩
    decide +kernel
  have hparse : parse "out.Info(x)" = .ok (.tree "start" [.tree "statement" [n]]) := by rfl
  have hn : Of .outputStmt n := (of_parse_statement hparse).of_statement (by decide)
  have hheld : (s.scope 1).held? "x" = some (.int 5) := by
    obtain ⟨v, hv, hint⟩ := Option.bind_eq_some_iff.mp hfive
    rw [hv, Value.eq_int_of_int? hint]
  obtain ⟨outcome, t', hexec, -, hkept, hread⟩ :=
    (unassigned_read_shows_held_value "x" hs.formed).2 1 hid .outputStmt (by decide) n hn stops
      (fun _ _ h ↦ Bool.or_eq_true_iff.mpr (.inr h)) 30
  obtain rfl : t' = t := by rw [← ht, hexec]
  have hfive : (t'.scope 1).held? "x" = some (.int 5) := by
    rcases hkept with hmarked | hsame | ⟨htraced, -⟩
    · rw [hassigned] at hmarked
      cases hmarked
    · exact hsame.trans hheld
    · rw [huntraced] at htraced
      cases htraced
  obtain ⟨u, hu, hwarned, -⟩ := hread _ hnearest hfive hwritable
  exact ⟨s, n, stops, _, u, hs, ht, hassigned, hu, (hwarned hsuspect).2.line hquiet⟩

end FapLang.Run
