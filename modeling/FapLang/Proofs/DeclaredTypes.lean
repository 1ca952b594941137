import FapLang.Proofs.CallDiscipline
import FapLang.Proofs.Grammar.Shapes

/-!
What declarations bind. A declaration binds its name in the current scope or leaves the names of
that scope alone (`Settles`). What it binds does not depend on the type that it names: without an
initial value an integer, else a number or an integer.
-/

namespace FapLang

open Run Interp

/-- The type of what is bound for a value. -/
def Value.boundType (v : Value) : String :=
  if v.isFloat then "float" else "int"

namespace Declaration

variable {initial : Node} {t : Session} {d : Declaration} {type : String} {w : Value}

/-- What the name of a declaration stands for in the current scope. -/
def boundIn (d : Declaration) (s : Session) : Option Value :=
  if d.isConst then (s.scope s.current).constants.get? d.name else (s.scope s.current).vars.get? d.name

/-- The value has the type that the initial value decides. -/
def Gives (d : Declaration) (visit : Visit) (s : Session) (w : Value) : Prop :=
  match d.initial? with
  | none => w.typeName = "int"
  | some initial => ∃ start v after, SameFrame s start ∧ (visit initial).exec start = (.ok v, after) ∧
      w.typeName = v.boundType

/-- How a declaration that starts in `s` may end. -/
inductive Settles {α : Type} (d : Declaration) (visit : Visit) (s : Session)
    (ending : Except Stop α × Session) : Prop
  | exhausted (h : ending.1 = .error .exhausted)
  | refused (hnames : SameNames (s.scope s.current) (ending.2.scope s.current))
      (herror : (∃ f, ending.1 = .error (.fault f)) ∨ ending.2.errors ≠ #[])
  | bound {w : Value} (hname : s.sees d.name = false) (hbound : d.boundIn ending.2 = some w)
      (hgives : d.Gives visit s w)

/-- The sessions on the way: the names of the scope are those of the start. -/
structure Pending (s u : Session) : Prop where
  sound : Sound u
  current : u.current = s.current
  names : SameNames (s.scope s.current) (u.scope s.current)

section Steps

variable {α β : Type} {d : Declaration} {visit : Visit} {s u : Session}

theorem boundIn_of_sameFrame (h : SameFrame u t) : d.boundIn t = d.boundIn u := by
  rw [boundIn, boundIn, h.current, h.scope_eq]

theorem Pending.refl (hs : Sound s) : Pending s s :=
  ⟨hs, rfl, .refl _⟩

theorem Pending.of_sameFrame (h : Pending s u) (hframe : SameFrame u t) : Pending s t := by
  refine ⟨h.sound.of_sameFrame hframe, hframe.current.trans h.current, ?_⟩
  rw [hframe.scope_eq]
  exact h.names

/-- Expressions bind nothing. -/
theorem Pending.of_course (h : Pending s u) (hcourse : Course .expression u t) : Pending s t := by
  have hframe := hcourse.frame h.sound
  have hlt : s.current < u.scopes.size := by
    rw [← h.current]
    exact h.sound.current
  exact ⟨hcourse.sound h.sound, hframe.current.trans h.current, h.names.trans (hframe.names _ hlt (.inr rfl))⟩

theorem Pending.fault (h : Pending s u) (f : Fault) : Settles d visit s ((.error (.fault f) : Except Stop α), u) :=
  .refused h.names (.inl ⟨f, rfl⟩)

/-- A step that ends with an error on record. -/
theorem Pending.records {m : Interp α} (hu : Pending s u) (hm : m.Records) : Settles d visit s (m.exec u) := by
  have hframe := hm.stays u
  cases hexec : m.exec u with
  | mk outcome t =>
    rw [hexec] at hframe
    have hnames := (hu.of_sameFrame hframe).names
    cases outcome with
    | ok a => exact .refused hnames (.inr (hm.errors hexec))
    | error stop =>
      cases stop with
      | exhausted => exact .exhausted rfl
      | fault f => exact .refused hnames (.inl ⟨f, rfl⟩)

/-- A step that keeps the frame, before the name is bound. -/
theorem Settles.after {m : Interp α} {k : α → Interp β} (hu : Pending s u) (hm : m.Stays)
    (hk : ∀ a t, m.exec u = (.ok a, t) → SameFrame u t → Settles d visit s ((k a).exec t)) :
    Settles d visit s ((m >>= k).exec u) := by
  have hframe := hm u
  rcases hexec : m.exec u with ⟨stop | a, t⟩ <;> rw [hexec] at hframe
  · rw [exec_bind_error hexec]
    cases stop with
    | exhausted => exact .exhausted rfl
    | fault f => exact (hu.of_sameFrame hframe).fault f
  · rw [exec_bind_ok hexec]
    exact hk a t hexec hframe

/-- A step that keeps the frame, once all is settled. -/
theorem Settles.before {m : Interp α} {k : α → Interp β} (hm : Settles d visit s (m.exec u))
    (hk : ∀ a, (k a).Stays) : Settles d visit s ((m >>= k).exec u) := by
  rw [exec_bind]
  rcases hexec : m.exec u with ⟨stop | a, t⟩ <;> rw [hexec] at hm
  · cases hm with
    | exhausted h => exact .exhausted (congrArg Except.error (Except.error.inj h))
    | refused hnames herror =>
      refine .refused hnames (herror.imp_left ?_)
      rintro ⟨f, h⟩
      exact ⟨f, congrArg Except.error (Except.error.inj h)⟩
    | bound hname hbound hgives => exact .bound hname hbound hgives
  · have hframe := hk a t
    cases hm with
    | exhausted h => cases h
    | refused hnames herror =>
      have herrs : t.errors ≠ #[] := herror.resolve_left (by simp)
      refine .refused ?_ (.inr (hframe.errors herrs))
      exact (hframe.scope_eq s.current).symm ▸ hnames
    | bound hname hbound hgives =>
      exact .bound hname ((boundIn_of_sameFrame hframe).trans hbound) hgives

/-- Faults are passed on, perhaps as others. -/
theorem Settles.recover {m : Interp α} {g : Fault → Fault} (hm : Settles d visit s (m.exec u)) :
    Settles d visit s ((Interp.recover m fun f => Interp.fail (g f)).exec u) := by
  rw [exec_recover]
  rcases hexec : m.exec u with ⟨stop | a, t⟩ <;> rw [hexec] at hm
  · cases stop with
    | exhausted => exact .exhausted rfl
    | fault f =>
      cases hm with
      | exhausted h => cases h
      | refused hnames _ => exact .refused hnames (.inl ⟨g f, rfl⟩)
      | bound hname hbound hgives => exact .bound hname hbound hgives
  · exact hm

/-- The name is bound between two announcements. -/
theorem settles_announced {f : Scope → Scope} (hu : Pending s u) (hname : s.sees d.name = false)
    (hbound : ∀ scope, (if d.isConst then (f scope).constants.get? d.name else (f scope).vars.get? d.name) =
      some w) (hgives : d.Gives visit s w) (step : String) (args message : List Piece) : Settles d visit s ((do
      announce u.current step args
      setScope u.current f
      announceOutcome u.current message : Interp Unit).exec u) := by
  refine .after hu (stays_announce _ _ _) fun _ t _ hframe => ?_
  have hin : d.boundIn (t.setScope t.current f) = some w := by
    have hlt := (hu.of_sameFrame hframe).sound.current
    have hcur : (t.setScope t.current f).current = t.current := rfl
    rw [boundIn, hcur, Session.scope_setScope_self hlt]
    exact hbound _
  rw [← hframe.current]
  have hexec := exec_setScope t.current f t
  rw [exec_bind_ok hexec]
  exact .bound hname ((boundIn_of_sameFrame (stays_announceOutcome _ _ _)).trans hin) hgives

/-! ### Initial values -/

/-- The cast for a declaration whose type reads as `int`. -/
theorem castInitial_cases {v : Value} {name : String} (hu : Sound u)
    (h : (castInitial v "int" name).exec u = (.ok w, t)) : w = .none ∧ t.errors ≠ #[] ∨ w.typeName = v.boundType := by
  have hint : v.isFloat = false → (cast v "int" name).exec u = (.ok w, t) →
      w = .none ∧ t.errors ≠ #[] ∨ w.typeName = v.boundType := by
    intro hfloat h
    have htype : v.boundType = "int" := by rw [Value.boundType, hfloat]; rfl
    rw [htype]
    rcases cast_cases hu h with hnone | ⟨_, hcast⟩ | ⟨hne, _⟩ | ⟨hne, _⟩
    · exact .inl hnone
    · obtain ⟨n, rfl, _⟩ := Value.exists_int_of_castInt hcast
      exact .inr rfl
    · exact absurd hne (by decide)
    · exact absurd hne (by decide)
  unfold castInitial at h
  split_ifs at h with hisInt hisFloat
  · refine hint ?_ h
    cases v with
    | bool | int => rfl
    | none | float | complex | text | list | record | function | node | scope =>
      cases hisInt
  · cases v with
    | float x =>
      rcases cast_cases hu h with hnone | ⟨hne, _⟩ | ⟨_, hcast⟩ | ⟨hne, _⟩
      · exact .inl hnone
      · exact absurd hne (by decide)
      · rw [← Except.ok.inj hcast]
        exact .inr rfl
      · exact absurd hne (by decide)
    | none | bool | int | complex | text | list | record | function | node | scope =>
      cases hisFloat
  · exact hint (Bool.eq_false_iff.mpr hisFloat) h

/-- The initial value is evaluated, cast and bound. -/
theorem settles_initial {type : Value → List Piece} {bind : Value → Interp Unit}
    (hvisit : (visit initial).Follows .expression) (hinit : d.initial? = some initial) (hs : Sound s)
    (hu : SameFrame s u) (hbind : ∀ w t, Pending s t → d.Gives visit s w → Settles d visit s ((bind w).exec t)) :
    Settles d visit s ((do
      let v ← visit initial
      note (type v)
      let w ← castInitial v "int" d.name
      if w.isNone then pure () else bind w : Interp Unit).exec u) := by
  have hpending := (Pending.refl hs).of_sameFrame hu
  have hend := hvisit u hpending.sound
  rcases hexec : (visit initial).exec u with ⟨stop | v, t⟩ <;> rw [hexec] at hend
  · rw [exec_bind_error hexec]
    cases stop with
    | exhausted => exact .exhausted rfl
    | fault f => exact (hpending.of_course hend).fault f
  · rw [exec_bind_ok hexec]
    have hpending := hpending.of_course hend
    refine .after hpending (stays_note _) fun _ t1 _ hnote => ?_
    have hpending := hpending.of_sameFrame hnote
    refine .after hpending (stays_castInitial _ _ _) fun w t2 hcast hframe => ?_
    rcases castInitial_cases hpending.sound hcast with ⟨rfl, herrs⟩ | htype
    · exact .refused (hpending.of_sameFrame hframe).names (.inr herrs)
    · have hgives : d.Gives visit s w := by
        rw [Gives, hinit]
        exact ⟨u, v, t, hu, hexec, htype⟩
      by_cases hnone : w.isNone = true
      · have hne : w.typeName ≠ v.boundType := by
          unfold Value.boundType
          cases w with
          | none => split <;> decide
          | node n =>
            cases n with
            | absent => split <;> decide
            | tree | token | plain => cases hnone
          | bool | int | float | complex | text | list | record | function | scope =>
            cases hnone
        exact absurd htype hne
      · rw [if_neg hnone]
        exact hbind w t2 (hpending.of_sameFrame hframe) hgives

/-! ### Declarations -/

theorem settles_define (hconst : d.isConst = false) (hu : Pending s u)
    (hname : s.sees d.name = false) (hgives : d.Gives visit s w) : Settles d visit s ((define d.name w).exec u) := by
  rw [define, exec_get_bind]
  refine settles_announced hu hname (fun scope => ?_) hgives _ _ _
  rw [hconst, if_neg Bool.false_ne_true, Table.get?_insert, if_pos rfl]

theorem settles_initVar (hvisit : (visit initial).Follows .expression)
    (hconst : d.isConst = false) (hinit : d.initial? = some initial) (hs : Sound s) (hu : SameFrame s u)
    (hname : s.sees d.name = false) : Settles d visit s ((initVar visit "int" d.name initial).exec u) := by
  refine settles_initial hvisit hinit hs hu fun w t ht hgives => ?_
  refine .before (settles_define hconst ht hname hgives) fun _ => ?_
  exact .bind (stays_markAssigned _) fun _ => .bind (stays_markDefined _) fun _ => stays_note _

theorem settles_initConst (hvisit : (visit initial).Follows .expression)
    (hconst : d.isConst = true) (hinit : d.initial? = some initial) (hs : Sound s) (hu : SameFrame s u)
    (hname : s.sees d.name = false) : Settles d visit s ((initConst visit "int" d.name initial).exec u) := by
  refine settles_initial hvisit hinit hs hu fun w t ht hgives => ?_
  rw [exec_get_bind]
  refine .before (settles_announced ht hname (fun scope => ?_) hgives _ _ _) fun _ => ?_
  · rw [hconst, if_pos rfl, Table.get?_insert, if_pos rfl]
  exact .bind (stays_markAssigned _) fun _ => .bind (stays_markDefined _) fun _ => stays_note _

theorem settles_declareVar (hconst : d.isConst = false) (hinit : d.initial? = none) (hs : Sound s)
    (hu : SameFrame s u) (hname : s.sees d.name = false) : Settles d visit s ((declareVar "int" d.name).exec u) := by
  have hgives : d.Gives visit s (defaultOf "int") := by
    rw [Gives, hinit]
    rfl
  refine .before (settles_define hconst ((Pending.refl hs).of_sameFrame hu) hname hgives) fun _ => ?_
  exact .bind (stays_markDefined _) fun _ => stays_note _

/-- Whatever type a node names, it reads as `int`. -/
theorem exec_declaredType {node : Node} (h : node.namedType? = some type) (u : Session) :
    (declaredType node).exec u = (.ok "int", u) := by
  unfold Node.namedType? at h
  split at h
  · rfl
  · rfl
  · rfl
  · cases h

/-- The checks before a name is bound. -/
theorem settles_guarded {message : String} {k : Interp Value} (hs : Sound s) (hu : SameFrame s u)
    (hk : ∀ t, SameFrame s t → s.sees d.name = false → Settles d visit s (k.exec t)) : Settles d visit s ((do
      if ← isFaulty d.name then return .none
      else if ← isDefined d.name then
        report message
        blame d.name
        return .none
      else k : Interp Value).exec u) := by
  have hpending := (Pending.refl hs).of_sameFrame hu
  rw [exec_bind_ok (exec_isFaulty d.name u)]
  by_cases hfaulty : u.faulty.contains d.name = true
  · rw [if_pos hfaulty]
    have hmem := Array.contains_iff_mem.mp hfaulty
    exact .refused hpending.names (.inr (hpending.sound.recorded (Array.ne_empty_of_mem hmem)))
  rw [if_neg hfaulty]
  refine .after hpending (stays_isDefined _) fun found t hasked hframe => ?_
  have hpending := hpending.of_sameFrame hframe
  cases found with
  | true => exact hpending.records (records_report_blame message d.name _)
  | false =>
    refine hk t (hu.trans hframe) ?_
    rw [← hu.sees_eq]
    exact sees_eq_false_of_isDefined hasked

/-- A node with the shape of a declaration, run by the step of its rule. -/
theorem settles_visitVarDef (hvisit : ∀ n, n.isCalm = true → (visit n).Follows .expression) {node : Node}
    (htype : node.namedType? = some type) {rest : List Node} (hconst : d.isConst = false)
    (hrest : rest = d.initial?.toList) (hcalm : ∀ c ∈ rest, c.isCalm = true) (hs : Sound s) (hu : SameFrame s u) :
    Settles d visit s ((visitVarDef visit
      (.tree "var_def" (node :: .token "IDENT" d.name :: rest))).exec u) := by
  have hpending := (Pending.refl hs).of_sameFrame hu
  refine .after hpending (stays_noteStep _) fun _ t _ hstep => ?_
  have hpending := hpending.of_sameFrame hstep
  rw [exec_bind_ok (exec_childrenOf _ _ t), exec_bind_ok (show (child (node :: _) 0).exec t = (.ok node, t) from rfl),
    exec_bind_ok (exec_declaredType htype t)]
  refine .after hpending (stays_note _) fun _ t1 _ hnote => ?_
  rw [if_neg (by decide), exec_bind_ok (show (child (_ :: .token "IDENT" d.name :: _) 1).exec t1 =
    (.ok (.token "IDENT" d.name), t1) from rfl),
    exec_bind_ok (exec_nameOf visit _ _ t1)]
  refine settles_guarded hs ((hu.trans hstep).trans hnote) fun t2 hframe hname => ?_
  cases hinit : d.initial? with
  | none =>
    rw [hinit] at hrest
    rw [hrest]
    exact .before (settles_declareVar hconst hinit hs hframe hname) fun _ => .pure _
  | some initial =>
    rw [hinit] at hrest
    rw [hrest] at hcalm ⊢
    have hfollows := hvisit initial (hcalm initial (List.mem_singleton_self initial))
    exact .before (settles_initVar hfollows hconst hinit hs hframe hname) fun _ => .pure _

theorem settles_visitConstDef (hvisit : ∀ n, n.isCalm = true → (visit n).Follows .expression)
    {node : Node} (htype : node.namedType? = some type) (hconst : d.isConst = true)
    (hinit : d.initial? = some initial) (hcalm : initial.isCalm = true) (hs : Sound s) (hu : SameFrame s u) :
    Settles d visit s ((visitConstDef visit
      (.tree "const_def" [node, .token "IDENT" d.name, initial])).exec u) := by
  have hpending := (Pending.refl hs).of_sameFrame hu
  refine .after hpending (stays_noteStep _) fun _ t _ hstep => ?_
  have hpending := hpending.of_sameFrame hstep
  rw [exec_bind_ok (exec_childrenOf _ _ t), exec_bind_ok (exec_declaredType htype t)]
  refine .after hpending (stays_note _) fun _ t1 _ hnote => ?_
  rw [if_neg (by decide), exec_bind_ok (exec_nameOf visit _ _ t1)]
  refine settles_guarded hs ((hu.trans hstep).trans hnote) fun t2 hframe hname => ?_
  exact .before (settles_initConst (hvisit initial hcalm) hconst hinit hs hframe hname) fun _ => .pure _

end Steps

/-! ### The types of what is bound -/

theorem shape_of_declaration? {n : Node} (h : n.declaration? = some d) : ∃ node, node.namedType? = some d.type ∧
      ((d.isConst = false ∧ n = .tree "var_def" (node :: .token "IDENT" d.name :: d.initial?.toList)) ∨
        (d.isConst = true ∧ ∃ initial, d.initial? = some initial ∧
          n = .tree "const_def" [node, .token "IDENT" d.name, initial])) := by
  unfold Node.declaration? at h
  split at h
  on_goal 4 => cases h
  all_goals obtain ⟨type, htype, rfl⟩ := Option.map_eq_some_iff.mp h
  · exact ⟨_, htype, .inl ⟨rfl, rfl⟩⟩
  · exact ⟨_, htype, .inl ⟨rfl, rfl⟩⟩
  · exact ⟨_, htype, .inr ⟨rfl, _, rfl, rfl⟩⟩

/-- A visit of a declaration settles it. -/
theorem settles_visit {n : Node} (hdecl : n.declaration? = some d)
    (horderly : n.isOrderly = true) {s : Session} (hs : Sound s) (depth : Nat) :
    d.Settles (Run.visit depth) s ((Run.visit (depth + 1) n).exec s) := by
  have hvisit := (tame_visit depth).calm
  have hres : ∀ (label : List Piece) (v : Value), (do noteResult label v; return v : Interp Value).Stays :=
    fun label v => .bind (stays_noteResult label v) fun _ => .pure v
  refine Settles.recover ?_
  obtain ⟨node, htype, ⟨hconst, rfl⟩ | ⟨hconst, initial, hinit, rfl⟩⟩ := shape_of_declaration? hdecl
  · have hcalm : ∀ c ∈ d.initial?.toList, c.isCalm = true := by
      intro c hc
      exact Node.areCalm_iff.mp horderly c (.tail _ (.tail _ hc))
    refine .after (.refl hs) (stays_noteStep _) fun _ t _ hstep => .before ?_ (hres _)
    exact settles_visitVarDef hvisit htype hconst rfl hcalm hs hstep
  · have hcalm := Node.areCalm_iff.mp horderly initial (by simp)
    refine .after (.refl hs) (stays_noteStep _) fun _ t _ hstep => .before ?_ (hres _)
    exact settles_visitConstDef hvisit htype hconst hinit hcalm hs hstep

theorem boundType_eq_iff {v : Value} :
    v.boundType = type ↔ (type = "int" ∧ v.isFloat = false) ∨ (type = "float" ∧ v.isFloat = true) := by
  unfold Value.boundType
  cases v.isFloat with
  | false => simp [eq_comm]
  | true => simp [eq_comm]

end Declaration

namespace Run

/-- A declaration of an accepted text is refused, and then it binds nothing and fails or leaves an
error on record; or it binds a value, and that has the declared type exactly if the type is `int`
and the initial value is no float, or `float` and it is one. -/
theorem declared_type_honoured_iff {code : String} {program : Node} (hparse : Grammar.parse code = .ok program)
    {n : Node} (hn : n.Part program) (hrule : n.isDeclaration = true) {s : Session} (hs : Reachable s)
    (depth : Nat) {outcome : Except Stop Value} {t : Session}
    (hexec : (visit (depth + 1) n).exec s = (outcome, t)) (hended : outcome ≠ .error .exhausted) :
    ∃ d, n.declaration? = some d ∧
      ((SameNames (s.scope s.current) (t.scope s.current) ∧
          ((∃ f, outcome = .error (.fault f)) ∨ t.errors ≠ #[])) ∨
        (s.sees d.name = false ∧ ∃ w, d.boundIn t = some w ∧
          match d.initial? with
          | none => (w.typeName = d.type ↔ d.type = "int")
          | some initial => ∃ start v after, SameFrame s start ∧
              (visit depth initial).exec start = (.ok v, after) ∧
              (w.typeName = d.type ↔
                (d.type = "int" ∧ v.isFloat = false) ∨ (d.type = "float" ∧ v.isFloat = true)))) := by
  obtain ⟨d, hdecl⟩ := Grammar.declaration_of_parse hparse hn hrule
  have horderly := hn.isOrderly (Grammar.isOrderly_of_parse hparse)
  have hsettles := Declaration.settles_visit hdecl horderly hs.sound depth
  rw [hexec] at hsettles
  refine ⟨d, hdecl, ?_⟩
  cases hsettles with
  | exhausted h => exact absurd h hended
  | refused hnames herror => exact .inl ⟨hnames, herror⟩
  | @bound w hname hbound hgives =>
    refine .inr ⟨hname, w, hbound, ?_⟩
    unfold Declaration.Gives at hgives
    split
    · rename_i hinitial
      rw [hinitial] at hgives
      have hint : w.typeName = "int" := hgives
      rw [hint, eq_comm]
    · rename_i initial hinitial
      rw [hinitial] at hgives
      obtain ⟨start, v, after, hstart, hvalue, htype⟩ := hgives
      refine ⟨start, v, after, hstart, hvalue, ?_⟩
      rw [htype]
      exact Declaration.boundType_eq_iff

/-- A text is declared and no text is bound, without an error. -/
theorem declared_text_dishonoured :
    ∃ n d s outcome t w, n.declaration? = some d ∧ d.type = "str" ∧ Reachable s ∧
      (visit 30 n).exec s = (outcome, t) ∧ t.errors = #[] ∧ d.boundIn t = some w ∧ w.typeName ≠ "str" := by
  let initial : Node := .tree "expr" [.tree "term" [.tree "factor" [.token "NUMBER" "1.5"]]]
  let n : Node := .tree "var_def" [.tree "type_str" [], .token "IDENT" "s", initial]
  have hparse : Grammar.parse "New str s -> 1.5" = .ok (.tree "start" [.tree "statement" [n]]) := by rfl
  have hpart : n.Part (.tree "start" [.tree "statement" [n]]) :=
    .child (.head _) (.child (.head _) (.refl n))
  have hs : Reachable Session.fresh := ⟨some [], .refl⟩
  have hrun : (returned? ((visit 30 n).exec Session.fresh)).map (·.errors.isEmpty) = some true := by
    decide +kernel
  obtain ⟨t, ht, hempty⟩ := Option.map_eq_some_iff.mp hrun
  obtain ⟨v, hexec⟩ := returned?_eq_some ht
  have herrors : t.errors = #[] := Array.isEmpty_iff.mp hempty
  obtain ⟨d, hdecl, ⟨_, ⟨f, hfault⟩ | hne⟩ | ⟨_, w, hbound, hiff⟩⟩ :=
    declared_type_honoured_iff hparse hpart rfl hs 29 hexec (by simp)
  · cases hfault
  · exact absurd herrors hne
  · obtain rfl : (⟨false, "str", "s", some initial⟩ : Declaration) = d := Option.some.inj hdecl
    obtain ⟨_, _, _, _, _, hiff⟩ := hiff
    exact ⟨n, _, Session.fresh, _, t, w, rfl, rfl, hs, hexec, herrors, hbound, by simp [hiff]⟩

end Run

end FapLang
