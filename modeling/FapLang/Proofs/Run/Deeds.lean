import FapLang.Proofs.Run.Phrases
import FapLang.Proofs.Value.Kind

/-!
Statements that bind names. A manner of statements is asked for what a binding does between the
point where its name is asked about and the point after it (`Manner.Binding`), from every session in
which names may be bound (`Manner.Freely`).
-/

namespace FapLang.Run

open Interp Grammar

variable {n : Node} {s t : Session} {cell id : Nat} {name : String} {v : Value}

/-! ### Quiet steps -/

theorem quiet_castInitial (v : Value) (type name : String) : (castInitial v type name).Quiet :=
  .ite (quiet_cast v _ name) (.ite (quiet_cast v _ name) (quiet_cast v type name))

theorem quiet_mapM {α β : Type} {g : α → Interp β} {as : List α} (hg : ∀ a ∈ as, (g a).Quiet) : (as.mapM g).Quiet := by
  induction as with
  | nil => exact .pure []
  | cons a rest ih =>
    rw [List.mapM_cons]
    refine .bind (hg a (.head _)) fun _ => .bind (ih fun b hb => ?_) fun _ => .pure _
    exact hg b (List.mem_cons_of_mem a hb)

/-! ### Lookups -/

/-- What the nearest scope that binds a name has to say about it. -/
def Session.Holds (s : Session) (id : Nat) (name : String) (v : Value) : Prop :=
  (s.scope id).constants.get? name = some v ∨
    (s.scope id).constants.has name = false ∧
      ((s.scope id).vars.get? name = some v ∨ (s.scope id).vars.has name = false ∧ v.kind = .function)

theorem holds_of_held (h : (s.scope id).held? name = some v) : s.Holds id name v := by
  unfold Session.Holds
  rw [Table.has_eq_isSome, Table.has_eq_isSome]
  rw [Scope.held?, Scope.datum?] at h
  cases hconst : (s.scope id).constants.get? name with
  | some w =>
    rw [hconst] at h
    exact .inl h
  | none =>
    rw [hconst] at h
    refine .inr ⟨rfl, ?_⟩
    cases hvar : (s.scope id).vars.get? name with
    | some w =>
      rw [hvar] at h
      exact .inl h
    | none =>
      rw [hvar] at h
      obtain ⟨f, -, rfl⟩ := Option.map_eq_some_iff.mp h
      exact .inr ⟨rfl, rfl⟩

/-- Evaluating an expression does not change which scope is the nearest one. -/
theorem Course.nearest?_eq (h : Course .expression s t) (hs : Sound s) (name : String) :
    t.nearest? name (t.chain t.current) = s.nearest? name (s.chain s.current) := by
  rw [h.chain_eq hs]
  refine Session.nearest?_congr fun id hid => ?_
  exact ((h.frame hs).names id (Session.lt_of_mem_chain hid) (.inr rfl)).binds name

theorem holds_of_valueOf (h : (valueOf name).exec s = (.ok v, t)) :
    ∃ id, s.nearest? name (s.chain s.current) = some id ∧ s.Holds id name v := by
  rw [valueOf, exec_bind_ok (exec_currentChain s)] at h
  obtain ⟨id, hnear, hheld⟩ := held_of_valueIn h
  exact ⟨id, hnear, holds_of_held hheld⟩

/-- A value that is found can be shown by its scope. -/
theorem stumbles_of_valueOf {w : Value} (h : (valueOf name).exec s = (.ok v, t))
    (hnear : s.nearest? name (s.chain s.current) = some id)
    (hconst : (s.scope id).constants.has name = false)
    (hvar : (s.scope id).vars.get? name = some w) : s.stumbles [w] id = false := by
  rw [valueOf, exec_bind_ok (exec_currentChain s)] at h
  obtain ⟨u, hexec, -⟩ := says_valueIn name (s.chain s.current) s
  obtain ⟨held, -, hlookup⟩ := (s.lookup_eq name (s.chain s.current)).2 id hnear
  have hdatum : (s.scope id).datum? name = some w := by
    rw [Table.has_eq_isSome, Option.isSome_eq_false_iff, Option.isNone_iff_eq_none] at hconst
    rw [Scope.datum?, hconst, hvar]
    rfl
  rw [(Prod.mk.inj (hexec.symm.trans h)).1, hdatum, Option.toList_some] at hlookup
  rw [← Bool.not_eq_true]
  intro hstumbles
  rw [if_pos hstumbles] at hlookup
  cases hlookup

theorem holds_of_namedList? (h : (namedList? name).exec s = (.ok (some cell), t)) :
    ∃ id, s.nearest? name (s.chain s.current) = some id ∧ s.Holds id name (.list cell) := by
  obtain ⟨found, u, hdef, h⟩ := exec_bind_eq_ok h
  have hframe := (stays_isDefined name).sameFrame hdef
  split at h
  · obtain ⟨v, w, hvalue, h⟩ := exec_bind_eq_ok h
    obtain ⟨id, hnear, hholds⟩ := holds_of_valueOf hvalue
    cases v with
    | list other =>
      cases h
      rw [hframe.current, hframe.chain_eq, hframe.nearest?_eq] at hnear
      refine ⟨id, hnear, ?_⟩
      unfold Session.Holds at hholds ⊢
      rwa [hframe.scope_eq] at hholds
    | none | bool | int | float | complex | text | record | function | node | scope =>
      obtain ⟨_, _, -, h⟩ := exec_bind_eq_ok h
      cases h
  · obtain ⟨_, _, -, h⟩ := exec_bind_eq_ok h
    obtain ⟨_, _, -, h⟩ := exec_bind_eq_ok h
    cases h

/-! ### Bindings -/

/-- Records have been added since a name was bound to a value, and it is marked as assigned, unless
the value is a list that a traced scope cannot show. -/
structure Assigned (name : String) (v : Value) (traced : Bool) (s t : Session) : Prop where
  frame : SameFrame s t
  growth : Growth s t
  marked : name ∈ t.assigned ∨ traced = true ∧ ∃ cell, v = .list cell

/-- Statements may bind names in the manner `M`. The name was free at `s`, and is bound at `t`. -/
structure Manner.Marking (E M : Manner) : Prop where
  within : E.Within M
  declare {s t : Session} {name : String} (hname : M.free false s name) (ht : E.Reaches s t)
      (hsees : t.sees name = false) (v : Value) : M.moves s (t.bindVar t.current name v)
  define {s t u : Session} {name : String} (hname : M.free true s name) (ht : E.Reaches s t)
      (hsees : t.sees name = false) {v : Value}
      (hu : Assigned name v (t.scope t.current).modes.any (t.bindVar t.current name v) u) : M.moves s u
  defineConst {s t u : Session} {name : String} (hname : M.free true s name) (ht : E.Reaches s t)
      (hsees : t.sees name = false) {v : Value} (hv : v.isPlain = true)
      (hu : Assigned name v false (t.bindConst t.current name v) u) : M.moves s u
  assign {s t u : Session} {name : String} {id : Nat} {old other v : Value}
      (hname : M.free true s name) (ht : E.Reaches s t)
      (hnearest : s.nearest? name (s.chain s.current) = some id)
      (hold : (s.scope id).vars.get? name = some old)
      (hother : (t.scope id).vars.get? name = some other) (hkind : v.kind = old.kind)
      (hu : Assigned name v (t.scope id).modes.any (t.bindVar id name v) u) : M.moves s u

/-- Statements may bind names in the manner `M` whether they mark them or not. -/
structure Manner.Binding (E M : Manner) : Prop where
  within : E.Within M
  declare {b : Bool} {s t : Session} {name : String} (hname : M.free b s name) (ht : E.Reaches s t)
      (hsees : t.sees name = false) (v : Value) : M.moves s (t.bindVar t.current name v)
  defineConst {s t : Session} {name : String} (hname : M.free true s name) (ht : E.Reaches s t)
      (hsees : t.sees name = false) {v : Value} (hv : v.isPlain = true) : M.moves s (t.bindConst t.current name v)
  assign {s t : Session} {name : String} {id : Nat} {old other v : Value} (hname : M.free true s name)
      (ht : E.Reaches s t) (hnearest : s.nearest? name (s.chain s.current) = some id)
      (hold : (s.scope id).vars.get? name = some old)
      (hother : (t.scope id).vars.get? name = some other) (hkind : v.kind = old.kind) :
      M.moves s (t.bindVar id name v)

theorem Manner.Marking.of_binding {E M : Manner} [hM : M.Lawful] (h : E.Binding M) :
    E.Marking M where
  within := h.within
  declare := h.declare
  define hname ht hsees _ hu := hM.trans (h.declare hname ht hsees _) (hM.aside hu.frame hu.growth)
  defineConst hname ht hsees _ hv hu :=
    hM.trans (h.defineConst hname ht hsees hv) (hM.aside hu.frame hu.growth)
  assign hname ht hnear hold hother hkind hu :=
    hM.trans (h.assign hname ht hnear hold hother hkind) (hM.aside hu.frame hu.growth)

/-- A name may be bound after an expression has been evaluated, unless it has become faulty. -/
def Manner.Freely (M : Manner) (b : Bool) (name : String) (s : Session) : Prop :=
  ∀ t, Course .expression s t → name ∉ t.faulty → M.free b t name

namespace Manner.Freely

variable {M : Manner} {b : Bool} {name : String} {s t : Session}

/-- In most manners the names that are not faulty are free. -/
theorem of_imp (h : ∀ {t : Session}, name ∉ t.faulty → M.free b t name) : M.Freely b name s :=
  fun _ _ hname => h hname

theorem follow (h : M.Freely b name s) (hcourse : Course .expression s t) : M.Freely b name t :=
  fun u hu => h u (hcourse.trans hu)

theorem of_sameFrame (h : M.Freely b name s) (hframe : SameFrame s t) : M.Freely b name t :=
  h.follow (.single (.aside hframe))

end Manner.Freely

/-- The name that a statement defines or assigns. -/
def target? : Node → Option String
  | .tree "const_def" (_ :: .token _ name :: _) => some name
  | .tree "var_def" (_ :: .token _ name :: _) => some name
  | .tree "assignment" (.token _ name :: _) => some name
  | .tree "list_method_call" (.token _ name :: _) => some name
  | .tree "list_def" (.token _ name :: _) => some name
  | .tree "func_def" (.token _ name :: _) => some name
  | _ => none

/-- A statement that binds a name marks it as assigned, unless it declares it without a value or
defines a function. -/
def marks : Node → Bool
  | .tree "var_def" [_, _] => false
  | .tree "func_def" _ => false
  | _ => true

/-- A quiet step that marks a name as assigned. -/
structure Interp.Assigns {α : Type} (name : String) (m : Interp α) : Prop where
  quiet : m.Quiet
  marked (s : Session) : name ∈ (m.exec s).2.assigned

namespace Interp.Assigns

variable {α : Type} {m : Interp α}

theorem first (name : String) (hm : m.Quiet) : (do markAssigned name; m).Assigns name := by
  refine ⟨.bind (quiet_markAssigned name) fun _ ↦ hm, fun s ↦ ?_⟩
  exact (hm.mild { s with assigned := s.assigned.insert name }).1.assigned name
    (Names.mem_insert.mpr (.inr rfl))

theorem after_defined (other : String) (hm : m.Assigns name) : (do markDefined other; m).Assigns name :=
  ⟨.bind (quiet_markDefined other) fun _ ↦ hm.quiet, fun _ ↦ hm.marked _⟩

/-- What follows a binding in a manner that asks for the mark. -/
theorem ends {M : Manner} [hM : M.Lawful] (hm : m.Assigns name) {s t : Session} (ht : Formed t)
    (hmoves : ∀ u, (∀ v b, Assigned name v b t u) → M.moves s u) : M.Ends s (m.exec t) := by
  have hframe := hm.quiet.stays t
  obtain ⟨hgrowth, hstop⟩ := hm.quiet.mild t
  have hmarked := hm.marked t
  rcases hexec : m.exec t with ⟨stop | a, u⟩ <;> rw [hexec] at hframe hgrowth hstop hmarked
  · obtain ⟨f, rfl, hf⟩ := hstop stop rfl
    exact ⟨ht.of_sameFrame hframe, hM.prepend (hmoves u fun _ _ ↦ ⟨hframe, hgrowth, .inl hmarked⟩) (hM.fault u hf)⟩
  · exact ⟨ht.of_sameFrame hframe, hmoves u fun _ _ ↦ ⟨hframe, hgrowth, .inl hmarked⟩⟩

end Interp.Assigns

theorem Assigned.of_remarks {u : Session} {b : Bool} (ht : Remarks s t) (hu : Assigned name v b t u) :
    Assigned name v b s u :=
  ⟨ht.sameFrame.trans hu.frame, ht.growth.trans hu.growth, hu.marked⟩

section Steps

variable {E M : Manner} {s t : Session} [hE : E.Lawful]

/-- A change of a scope between two announcements. -/
theorem ends_change (hwithin : E.Within M) {step : String} {args : List Piece} {f : Scope → Scope}
    {after : Interp Unit} (ht : E.Reaches s t)
    (hchange : ∀ u, SameFrame t u → E.Reaches s u → M.Reaches s (u.setScope id f))
    (hafter : ∀ u, (announce id step args).exec t = (.ok (), u) → M.Reaches s (u.setScope id f) →
      M.Ends s (after.exec (u.setScope id f))) :
    M.Ends s ((do announce id step args; setScope id f; after : Interp Unit).exec t) := by
  refine .after_within hwithin ht (quiet_announce id step args) fun _ u hexec hframe hu => ?_
  rw [exec_bind_ok (exec_setScope id f u)]
  exact hafter u hexec (hchange u hframe hu)

variable [hM : M.Lawful] (hB : E.Marking M)

include hB

theorem ends_define (hname : M.free false s name) (ht : E.Reaches s t)
    (hsees : t.sees name = false) (v : Value) : M.Ends s ((define name v).exec t) := by
  rw [define, exec_get_bind]
  refine ends_change hB.within ht (fun u hframe hu => ?_) fun u _ hu => .quiet hu (quiet_announceOutcome _ _)
  have hsees' : u.sees name = false := by rw [hframe.sees_eq, hsees]
  rw [← hframe.current]
  exact ⟨hu.1.bindVar u.current name v, hB.declare hname hu hsees' v⟩

/-- A definition with a value that can be shown, or with a list. -/
theorem ends_define_marks {α : Type} {k : Interp α} (hk : k.Assigns name)
    (hname : M.free true s name) (ht : E.Reaches s t) (hsees : t.sees name = false)
    (hv : v.isWritable t.cells = true ∨ ∃ cell, v = .list cell) :
    M.Ends s ((do define name v; k).exec t) := by
  obtain ⟨u, hexec, -, hu⟩ | ⟨u, hexec, hu⟩ | ⟨u, hexec, hstumbles, hu⟩ := exec_define name v t
  · have hreaches := ht.remarks hu
    rw [exec_bind_error hexec]
    exact .within hB.within ⟨hreaches.1, hE.prepend hreaches.2 (hE.fault u rfl)⟩
  · rw [exec_bind_ok hexec]
    refine hk.ends ((ht.1.bindVar _ _ _).of_sameFrame hu.sameFrame) fun w hw ↦ ?_
    exact hB.define hname ht hsees ((hw _ _).of_remarks hu)
  · obtain ⟨htraced, hlong⟩ := Bool.and_eq_true_iff.mp hstumbles
    obtain ⟨cell, rfl⟩ := hv.resolve_left fun hshown ↦ by simp [hshown] at hlong
    have hmoves := hB.define hname ht hsees ⟨hu.sameFrame, hu.growth, .inr ⟨htraced, cell, rfl⟩⟩
    rw [exec_bind_error hexec]
    exact ⟨(ht.1.bindVar _ _ _).of_sameFrame hu.sameFrame, hM.prepend hmoves (hM.fault u rfl)⟩

omit [E.Lawful] in
theorem ends_defineConst_marks {k : Interp Unit} (hk : k.Assigns name) (hname : M.free true s name)
    (ht : E.Reaches s t) (hsees : t.sees name = false) (hv : v.isPlain = true) :
    M.Ends s ((do defineConst t.current name v; k).exec t) := by
  obtain ⟨u, hexec, hu⟩ := exec_defineConst t.current name (Value.isWritable_of_isPlain hv t.cells)
  rw [exec_bind_ok hexec]
  refine hk.ends ((ht.1.bindConst hsees hv).of_sameFrame hu.sameFrame) fun w hw ↦ ?_
  exact hB.defineConst hname ht hsees hv ((hw _ _).of_remarks hu)

/-- The nearest variable of a name is changed. The scope can show its value, or it is bound to a
list. -/
theorem ends_setIn_marks {k : Interp Unit} (hk : k.Assigns name) {ids : List Nat} (id : Nat)
    (old : Value) (hname : M.free true s name) (ht : E.Reaches s t)
    (hnear : t.nearest? name ids = some id)
    (hvar : (t.scope id).constants.has name = false → (t.scope id).vars.has name = true ∧
      s.nearest? name (s.chain s.current) = some id ∧ (s.scope id).vars.get? name = some old ∧
      v.kind = old.kind)
    (hshown : (t.scope id).constants.has name = false → ∀ other,
      (t.scope id).vars.get? name = some other →
      t.stumbles [v, other] id = false ∨ ∃ cell, v = .list cell) :
    M.Ends s ((do setIn name v ids; k).exec t) := by
  rcases exec_setIn_cases name v ids t with ⟨f, u, hexec, hf, hu⟩ |
    ⟨keeper, other, outcome, u, hkeeper, hconst, hother, hexec, hout, hu⟩
  · have hreaches := ht.remarks hu
    rw [exec_bind_error hexec]
    exact .within hB.within ⟨hreaches.1, hE.prepend hreaches.2 (hE.fault u hf)⟩
  · have hkeeps : (t.scope id).keeps name = true := by
      rw [Scope.keeps]
      cases hid : (t.scope id).constants.has name with
      | true => rfl
      | false => exact (hvar hid).1
    rw [Session.keeper?_of_nearest hnear hkeeps] at hkeeper
    cases hkeeper
    obtain ⟨-, hid, hold, hkind⟩ := hvar hconst
    have hformed := (ht.1.bindVar id name v).of_sameFrame hu.sameFrame
    rcases hout with rfl | ⟨rfl, hstumbles⟩
    · rw [exec_bind_ok hexec]
      exact hk.ends hformed fun w hw ↦ hB.assign hname ht hid hold hother hkind ((hw _ _).of_remarks hu)
    · obtain ⟨cell, rfl⟩ := (hshown hconst other hother).resolve_left (by rw [hstumbles]; exact Bool.noConfusion)
      have hmarked : Assigned name (.list cell) (t.scope id).modes.any _ u :=
        ⟨hu.sameFrame, hu.growth, .inr ⟨(Bool.and_eq_true_iff.mp hstumbles).1, cell, rfl⟩⟩
      have hmoves := hB.assign hname ht hid hold hother hkind hmarked
      rw [exec_bind_error hexec]
      exact ⟨hformed, hM.prepend hmoves (hM.fault u rfl)⟩

omit [E.Lawful] hB in
/-- A statement leaves a faulty name as it is. -/
theorem ends_unless_faulty {b : Bool} {k : Interp Value} (hs : Formed s)
    (hfree : M.Freely b name s) (hk : M.free b s name → M.Ends s (k.exec s)) :
    M.Ends s ((do if ← isFaulty name then return .none else k : Interp Value).exec s) := by
  rw [exec_bind_ok (exec_isFaulty name s)]
  by_cases hfaulty : s.faulty.contains name = true
  · rw [if_pos hfaulty]
    exact Goes.pure _ s hs
  · rw [if_neg hfaulty]
    exact hk (hfree s (.refl _ s) fun hmem => hfaulty (Array.contains_iff_mem.mpr hmem))

omit hB in
/-- A statement that binds a name asks two questions first. -/
theorem ends_by_defined {b : Bool} {m k : Interp Value} (hs : Formed s)
    (hfree : M.Freely b name s)
    (hm : ∀ t, M.free b s name → Remarks s t → E.Reaches s t → M.Ends s (m.exec t))
    (hk : ∀ t, M.free b s name → Remarks s t → E.Reaches s t → t.sees name = false →
      M.Ends s (k.exec t)) :
    M.Ends s ((do
      if ← isFaulty name then return .none
      else if ← isDefined name then m
      else k : Interp Value).exec s) := by
  refine ends_unless_faulty hs hfree fun hname => ?_
  obtain ⟨t, hexec, ht⟩ := tells_isDefined name s
  have hreaches : E.Reaches s t := Manner.Reaches.remarks ⟨hs, hE.refl s⟩ ht
  rw [exec_bind_ok hexec]
  cases hsees : s.sees name with
  | true => exact hm t hname ht hreaches
  | false => exact hk t hname ht hreaches (by rw [ht.sameFrame.sees_eq, hsees])

theorem ends_guarded {b : Bool} {message : String} {k : Interp Value} (hmsg : Ordinary message)
    (hs : Formed s) (hfree : M.Freely b name s)
    (hk : ∀ t, M.free b s name → E.Reaches s t → t.sees name = false → M.Ends s (k.exec t)) :
    M.Ends s ((do
      if ← isFaulty name then return .none
      else if ← isDefined name then
        report message
        blame name
        return .none
      else k : Interp Value).exec s) :=
  ends_by_defined hs hfree
    (fun _ _ _ ht => .within hB.within (.quiet ht (quiet_report_blame name hmsg _)))
    fun t hname _ ht hsees ↦ hk t hname ht hsees

theorem ends_declareVar (hname : M.free false s name) (ht : E.Reaches s t)
    (hsees : t.sees name = false) (type : String) : M.Ends s ((declareVar type name).exec t) := by
  refine .then_quiet (ends_define hB hname ht hsees _) fun _ => ?_
  exact .bind (quiet_markDefined name) fun _ => quiet_note _

variable {visit : Visit} (hvisit : Below E visit)

include hvisit

omit [M.Lawful] in
/-- An expression is evaluated before the name is bound. -/
theorem ends_visit {c : Category} (hc : c ∈ phraseForms) (hn : Of c n) (ht : E.Reaches s t)
    {α : Type} {k : Value → Interp α}
    (hk : ∀ v u, (visit n).exec t = (.ok v, u) → Course .expression t u → E.Reaches s u →
      M.Ends s ((k v).exec u)) : M.Ends s ((visit n >>= k).exec t) := by
  refine .bind_within hB.within (.prepend ht.2 (hvisit.phrase c hc n hn t ht.1)) fun v u hexec hu => ?_
  have hcalm : ∀ c ∈ phraseForms, c.isCalm = true := by decide
  have hend := hvisit.tame.calm n (hn.isCalm (hcalm c hc)) t ht.1.sound
  rw [hexec] at hend
  exact hk v u hexec hend hu

omit [M.Lawful] in
/-- The initial value of a name is evaluated, put down and cast before the name is bound. -/
theorem ends_initial {announce : Value → List Piece} (hshown : ∀ v, .val v ∈ announce v) {bind : Value → Interp Unit}
    (ht : E.Reaches s t) (hsees : t.sees name = false) (type : String) {value : Node} (hvalue : Of .expr value)
    (hbind : ∀ given x, E.Reaches s x → x.sees name = false → given.isPlain = true → M.Ends s ((bind given).exec x)) :
    M.Ends s ((do
      let v ← visit value
      note (announce v)
      let w ← castInitial v type name
      if w.isNone then pure () else bind w : Interp Unit).exec t) := by
  refine ends_visit hB hvisit (by decide) hvalue ht fun v u _ hcourse hu => ?_
  refine .after_within hB.within hu (quiet_note _) fun _ w hnote hnoted hw => ?_
  refine .after_within hB.within hw (quiet_castInitial v type name) fun given x hcast hcasted hx => ?_
  by_cases hnone : given.isNone = true
  · rw [if_pos hnone]
    exact .within hB.within (.quiet hx (.pure ()))
  have hwritable : ∀ n, v = .int n → Number.isWritable n = true := by
    rintro n rfl
    exact isWritable_of_note hnote (.val (.int n)) (hshown _)
  have hfree : x.sees name = false := by rw [(hnoted.trans hcasted).sees_eq, hcourse.sees_eq ht.1.sound, hsees]
  rw [if_neg hnone]
  exact hbind given x hx hfree (isPlain_of_castInitial hw.1.sound hwritable hcast hnone)

theorem ends_initVar (hname : M.free true s name) (ht : E.Reaches s t) (hsees : t.sees name = false)
    (type : String) {value : Node} (hvalue : Of .expr value) : M.Ends s ((initVar visit type name value).exec t) := by
  refine ends_initial hB hvisit (fun v => ?_) ht hsees type hvalue fun given x hx hfree hplain => ?_
  · simp
  refine ends_define_marks hB (.first name ?_) hname hx hfree (.inl (Value.isWritable_of_isPlain hplain _))
  exact .bind (quiet_markDefined name) fun _ => quiet_note _

theorem ends_visitVarDef (hn : Of .varDef n) (hs : Formed s)
    (hfree : ∀ name, target? n = some name → M.Freely (marks n) name s) :
    M.Ends s ((visitVarDef visit n).exec s) := by
  obtain ⟨type, name, rest, rfl, htype, hrest⟩ := hn.varDef_inv
  obtain ⟨label, rfl⟩ := htype.typeName_inv
  have hdecl : declaredType (.tree label []) = pure "int" := rfl
  refine .after hs (quiet_noteStep _) fun _ s1 _ hframe1 _ hs1 => .children_bind (.child_bind rfl ?_)
  rw [hdecl, pure_bind]
  refine .after hs1 (quiet_note _) fun _ s2 _ hframe2 _ hs2 => ?_
  rw [if_neg (by decide)]
  have hfree2 := (hfree name rfl).of_sameFrame (hframe1.trans hframe2)
  have hmsg : Ordinary ("Variable '" ++ name ++ "' is already defined") := .around (by decide)
  rcases hrest with rfl | ⟨value, rfl, hvalue⟩
  · refine .child_bind rfl (ends_guarded hB hmsg hs2 hfree2 fun t hname ht hsees ↦ ?_)
    exact .then_quiet (ends_declareVar hB hname ht hsees "int") fun _ => .pure _
  · refine .child_bind rfl (ends_guarded hB hmsg hs2 hfree2 fun t hname ht hsees ↦ ?_)
    exact .then_quiet (ends_initVar hB hvisit hname ht hsees "int" hvalue) fun _ => .pure _

theorem ends_initConst (hname : M.free true s name) (ht : E.Reaches s t) (hsees : t.sees name = false)
    (type : String) {value : Node} (hvalue : Of .expr value) :
    M.Ends s ((initConst visit type name value).exec t) := by
  refine ends_initial hB hvisit (fun v => ?_) ht hsees type hvalue fun given x hx hfree hplain => ?_
  · simp
  rw [exec_get_bind]
  refine ends_defineConst_marks hB (.first name ?_) hname hx hfree hplain
  exact .bind (quiet_markDefined name) fun _ => quiet_note _

theorem ends_visitConstDef (hn : Of .constDef n) (hs : Formed s)
    (hfree : ∀ name, target? n = some name → M.Freely (marks n) name s) :
    M.Ends s ((visitConstDef visit n).exec s) := by
  obtain ⟨type, name, value, rfl, htype, hvalue⟩ := hn.constDef_inv
  obtain ⟨label, rfl⟩ := htype.typeName_inv
  have hdecl : declaredType (.tree label []) = pure "int" := rfl
  refine .after hs (quiet_noteStep _) fun _ s1 _ hframe1 _ hs1 => .children_bind ?_
  dsimp only
  rw [hdecl, pure_bind]
  refine .after hs1 (quiet_note _) fun _ s2 _ hframe2 _ hs2 => ?_
  rw [if_neg (by decide)]
  have hfree2 := (hfree name rfl).of_sameFrame (hframe1.trans hframe2)
  refine ends_guarded hB ?_ hs2 hfree2 fun t hname ht hsees => ?_
  · exact .around (by decide)
  exact .then_quiet (ends_initConst hB hvisit hname ht hsees "int" hvalue) fun _ => .pure _

theorem ends_visitListDef (hn : Of .listDef n) (hs : Formed s)
    (hfree : ∀ name, target? n = some name → M.Freely (marks n) name s) :
    M.Ends s ((visitListDef visit n).exec s) := by
  obtain ⟨name, items, rfl, hitems⟩ := hn.listDef_inv
  refine .after hs (quiet_noteStep _) fun _ s1 _ hframe1 _ hs1 =>
    .children_bind (.child_bind rfl (.child_bind rfl ?_))
  refine ends_guarded hB ?_ hs1 ((hfree name rfl).of_sameFrame hframe1) fun t hname ht hsees => ?_
  · exact .around (by decide)
  refine ends_visit hB hvisit (by decide) hitems ht fun v u hexec hcourse hu => ?_
  have hfree : u.sees name = false := by rw [hcourse.sees_eq ht.1.sound, hsees]
  refine ends_define_marks hB (.after_defined name (.first name ?_)) hname hu hfree (.inr ?_)
  · exact .bind (quiet_note _) fun _ => .pure _
  · exact hvisit.list hitems hexec

end Steps

section Assignments

variable {E M : Manner} [hE : E.Lawful] [hM : M.Lawful] (hB : E.Marking M) {s t : Session}

include hB

theorem ends_reassign (hname : M.free true s name) (hremarks : Remarks s t) (ht : E.Reaches s t)
    (hv : ∀ n, v = .int n → Number.isWritable n = true) : M.Ends s ((reassign name v).exec t) := by
  obtain ⟨t1, hconst, hremarks1⟩ := tells_isConstant name t
  have ht1 := ht.remarks hremarks1
  rw [reassign, exec_bind_ok hconst]
  split
  · exact .within hB.within (.quiet ht1 (quiet_report (.around (by decide))))
  refine .after_within hB.within ht1 (quiet_valueOf name) fun old t2 hvalue hframe2 ht2 => ?_
  by_cases hnone : old.isNone = true
  · rw [if_pos hnone]
    exact .within hB.within (.quiet ht2 (quiet_report (.around (by decide))))
  rw [if_neg hnone]
  refine .after_within hB.within ht2 (quiet_cast v _ name) fun given t3 hcast hframe3 ht3 => ?_
  by_cases hgiven : given.isNone = true
  · rw [if_pos hgiven]
    exact .within hB.within (.quiet ht3 (.pure ()))
  rw [if_neg hgiven]
  obtain ⟨hkind, hfun⟩ := kind_of_cast ht2.1.sound hcast hgiven
  obtain ⟨id, hnear, hholds⟩ := holds_of_valueOf hvalue
  have hlater := ((murmurs_valueOf name).remarks hvalue).trans
    (castBy_of_cast hcast (Bool.eq_false_iff.mpr hgiven)).2.2
  have hearlier := (hremarks.trans hremarks1).sameFrame
  rw [setValue, bind_assoc, exec_bind_ok (exec_currentChain t3)]
  refine ends_setIn_marks hB (.first name (quiet_note _)) id old hname ht3 ?_ (fun hconst ↦ ?_)
    fun hconst other hother ↦ .inl ?_
  · rw [hlater.sameFrame.current, hlater.sameFrame.chain_eq, hlater.sameFrame.nearest?_eq, hnear]
  · rw [hlater.scope_eq] at hconst ⊢
    rcases hholds with hget | ⟨-, hget | ⟨-, hfunc⟩⟩
    · exact absurd hconst (by rw [Table.has_eq_isSome, hget]; exact Bool.noConfusion)
    · refine ⟨by rw [Table.has_eq_isSome, hget]; rfl, ?_, ?_, hkind⟩
      · rw [← hnear, hearlier.current, hearlier.chain_eq, hearlier.nearest?_eq]
      · rw [← hearlier.scope_eq, hget]
    · exact absurd (hkind.trans hfunc) hfun
  · rw [hlater.scope_eq] at hconst hother
    have hplain := isPlain_of_cast ht2.1.sound hv hcast hgiven
    have hshown := stumbles_of_valueOf hvalue hnear hconst hother
    rw [Session.stumbles, hlater.scope_eq, hlater.cells_eq, List.all_cons,
      Value.isWritable_of_isPlain hplain, Bool.true_and]
    exact hshown

/-- The list that a name is bound to is bound to it again. -/
theorem ends_setList {k : Interp Unit} (hk : k.Assigns name) (hname : M.free true s name)
    (hs : Formed s) (hnear : s.nearest? name (s.chain s.current) = some id)
    (hholds : s.Holds id name (.list cell)) (hcourse : Course .expression s t)
    (ht : E.Reaches s t) : M.Ends s ((do setValue name (.list cell); k).exec t) := by
  rw [setValue, bind_assoc, exec_bind_ok (exec_currentChain t)]
  have hid : id ∈ s.chain s.current := List.mem_of_find?_eq_some hnear
  have hnames := (hcourse.frame hs.sound).names id (Session.lt_of_mem_chain hid) (.inr rfl)
  refine ends_setIn_marks hB hk id (.list cell) hname ht ?_ (fun hconst ↦ ?_)
    fun _ _ _ ↦ .inr ⟨cell, rfl⟩
  · rw [hcourse.nearest?_eq hs.sound, hnear]
  rcases hholds with hget | ⟨-, hget | ⟨-, hfunc⟩⟩
  · have hplain := hs.sound.constants id (Session.lt_of_mem_chain hid) _ (Table.mem_of_get? hget)
    cases hplain
  · refine ⟨?_, hnear, hget, rfl⟩
    rw [Table.has_eq_contains, hnames.vars, ← Table.has_eq_contains, Table.has_eq_isSome, hget]
    rfl
  · exact Kind.noConfusion hfunc

variable {visit : Visit} (hvisit : Below E visit)

include hvisit

theorem ends_visitAssignment (hn : Of .assignment n) (hs : Formed s)
    (hfree : ∀ name, target? n = some name → M.Freely (marks n) name s) : M.Ends s ((visitAssignment visit n).exec s) := by
  obtain ⟨name, value, rfl, hvalue⟩ := hn.assignment_inv
  refine .after hs (quiet_noteStep _) fun _ s1 _ hframe1 _ hs1 =>
    .children_bind (.child_bind rfl (.child_bind rfl ?_))
  rw [show nameOf visit (.token "IDENT" name) = pure name from rfl, pure_bind]
  refine .bind ((hvisit.expr hvalue).within hB.within s1 hs1) fun v s2 hexec hs2 _ => ?_
  have hcourse := hvisit.tame.calm value (hvalue.isCalm rfl) s1 hs1.sound
  rw [hexec] at hcourse
  refine .after hs2 (quiet_note _) fun _ s hnote hframe2 _ hs => ?_
  have hfree := (((hfree name rfl).of_sameFrame hframe1).follow hcourse).of_sameFrame hframe2
  have hshown : v.isWritable s.cells = true := by
    rw [((murmurs_note _).remarks hnote).cells_eq]
    exact isWritable_of_note hnote (.val v) (by simp)
  refine ends_by_defined (E := E) hs hfree (fun t hname hremarks ht ↦ ?_)
    fun t hname hremarks ht hsees ↦ ?_
  · have hint : ∀ n, v = .int n → Number.isWritable n = true := by
      rintro n rfl
      exact hshown
    exact .then_quiet (ends_reassign hB hname hremarks ht hint) fun _ => .pure _
  · refine ends_define_marks hB (.after_defined name (.first name ?_)) hname ht hsees (.inl ?_)
    · exact .bind (quiet_note _) fun _ => .pure _
    · rwa [hremarks.cells_eq]

theorem ends_addElement (hname : M.free true s name) (hs : Formed s)
    (hnear : s.nearest? name (s.chain s.current) = some id) (hholds : s.Holds id name (.list cell))
    (hframe : SameFrame s t) (ht : E.Reaches s t) (target method : Node) {rest : List Node}
    (hrest : rest = [] ∨ ∃ value, rest = [value] ∧ Of .expr value) :
    M.Ends s ((addElement visit name cell (target :: method :: rest)).exec t) := by
  rcases hrest with rfl | ⟨value, rfl, hvalue⟩
  · exact .within hB.within (.quiet ht (quiet_report (.lead (by decide))))
  refine ends_visit hB hvisit (by decide) hvalue ht fun v u _ hcourse hu => ?_
  refine .after_within hB.within hu (quiet_setItems cell _) fun _ w _ hitems hw => ?_
  have hcourse' : Course .expression s w :=
    (Course.single (.aside hframe)).trans (hcourse.trans (.single (.aside hitems)))
  exact ends_setList hB (.first name (quiet_note _)) hname hs hnear hholds hcourse' hw

omit hvisit in
theorem ends_clearElements (hname : M.free true s name) (hs : Formed s)
    (hnear : s.nearest? name (s.chain s.current) = some id) (hholds : s.Holds id name (.list cell))
    (hframe : SameFrame s t) (ht : E.Reaches s t) (cs : List Node) :
    M.Ends s ((clearElements name cell cs).exec t) := by
  rw [clearElements.eq_def]
  split
  · exact .within hB.within (.quiet ht (quiet_report (.lead (by decide))))
  refine .after_within hB.within ht (quiet_setItems cell _) fun _ w _ hitems hw => ?_
  have hcourse : Course .expression s w := .single (.aside (hframe.trans hitems))
  exact ends_setList hB (.first name (quiet_note _)) hname hs hnear hholds hcourse hw

theorem ends_visitListMethodCall (hn : Of .listMethodCall n) (hs : Formed s)
    (hfree : ∀ name, target? n = some name → M.Freely (marks n) name s) : M.Ends s ((visitListMethodCall visit n).exec s) := by
  obtain ⟨name, method, rest, rfl, hrest⟩ := hn.listMethodCall_inv
  have hmeth : currentMethod?.Quiet := .bind .get fun _ => .pure _
  refine .after hs (quiet_noteStep _) fun _ s1 _ hframe1 _ hs1 => ?_
  refine .after hs1 hmeth fun method? s _ hframe2 _ hs => ?_
  have hfree := (hfree name rfl).of_sameFrame (hframe1.trans hframe2)
  cases method? with
  | none => exact .of_quiet hs (.bind (quiet_report (.lead (by decide))) fun _ => .pure _)
  | some method? =>
    refine .children_bind (.child_bind rfl ?_)
    rw [show nameOf visit (.token "IDENT" name) = pure name from rfl, pure_bind]
    refine ends_unless_faulty hs hfree fun hname => ?_
    refine .after_within hB.within ⟨hs, hE.refl s⟩ (quiet_namedList? name) fun cell? t hexec hframe ht => ?_
    cases cell? with
    | none => exact .within hB.within (.quiet ht (.pure _))
    | some cell =>
      obtain ⟨id, hnear, hholds⟩ := holds_of_namedList? hexec
      cases method? with
      | add =>
        have hadd := ends_addElement hB hvisit hname hs hnear hholds hframe ht (.token "IDENT" name) method hrest
        exact hadd.then_quiet fun _ => .pure _
      | clear => exact (ends_clearElements hB hname hs hnear hholds hframe ht _).then_quiet fun _ => .pure _

end Assignments

/-! ### Definitions of functions -/

/-- A function with this body may be defined. -/
def Manner.Naming (E M : Manner) (body : Node) : Prop :=
  ∀ {s t : Session} {name : String}, M.free false s name → E.Reaches s t → t.sees name = false → ∀ params : Nat,
    M.moves s (t.bindFunc t.current name { params := params, body := body, scope := t.current })

/-- Every parameter that is declared has a name and a type. -/
theorem harmless_paramPieces {params : Node} {p : Value} (hp : p ∈ declaredParams params) : Harmless (paramPieces p) := by
  unfold declaredParams at hp
  split at hp
  · obtain ⟨n, -, hn⟩ := List.mem_filterMap.mp hp
    unfold param? at hn
    split at hn
    · rw [← Option.some.inj hn]
      exact .ok _
    · cases hn
  · cases hp

section Functions

variable {E M : Manner} [hE : E.Lawful] [hM : M.Lawful] (hB : E.Marking M)

include hB

theorem ends_visitFuncDef {visit : Visit} (label name : String) (params : Node) {body : Node} (hbody : Of .block body)
    (hnaming : E.Naming M body) (hs : Formed s) (hfree : M.Freely false name s) :
    M.Ends s ((visitFuncDef visit (.tree label [.token "IDENT" name, params, body])).exec s) := by
  refine .after hs (quiet_noteStep _) fun _ s1 _ hframe1 _ hs1 => .children_bind ?_
  have hmsg : Ordinary ("Function '" ++ name ++ "' is already defined") :=
    .around (by decide)
  refine ends_guarded hB hmsg hs1 (hfree.of_sameFrame hframe1) fun t hname ht hsees => ?_
  rw [exec_get_bind]
  refine .after_within hB.within ht (quiet_newList _) fun list u hlist hframe hu => ?_
  rw [exec_get_bind]
  have hcells : u.cells = t.cells.push (declaredParams params).toArray := by rw [← (Prod.mk.inj hlist).2]
  have hdefine : M.Ends s1 ((defineFunc u.current name
      { params := t.cells.size, body := body, scope := u.current }).exec u) := by
    refine ends_change hB.within hu (fun w hframe' hw => ?_) fun w hannounced hw => ?_
    · have hsees' : w.sees name = false := by rw [(hframe.trans hframe').sees_eq, hsees]
      rw [← hframe'.current]
      exact ⟨hw.1.bindFunc name hbody _, hnaming hname hw hsees' _⟩
    · have hitems : w.cells.getD t.cells.size #[] = (declaredParams params).toArray := by
        rw [((murmurs_announce _ _ _).remarks hannounced).cells_eq, hcells, Array.getD_eq_getD_getElem?, Array.getElem?_push_size,
          Option.getD_some]
      rw [announceFunc, exec_bind_ok (exec_scopeOf _ _)]
      split
      · rw [exec_bind_ok (show (itemsOf t.cells.size).exec (w.setScope _ _) =
          (.ok (w.cells.getD t.cells.size #[]), w.setScope _ _) from rfl), hitems]
        refine .quiet hw (.bind (quiet_mapM fun p hp => ?_) fun _ => quiet_announceOutcome _ _)
        exact .ofExcept (harmless_paramPieces hp)
      · exact .quiet hw (.pure ())
  refine .then_quiet hdefine fun _ => ?_
  exact .bind (quiet_markDefined name) fun _ => .bind (quiet_note _) fun _ => .pure _

end Functions

/-! ### Visits -/

theorem ends_visitTree {M : Manner} [hM : M.Lawful] {visit : Visit} {rule : String} {step : Interp Value}
    (hstep : (if rule = "token" then visitToken visit else (namedStep visit rule).getD visitUnknown) n = step)
    (hs : Formed s) (hend : ∀ t, SameFrame s t → Formed t → M.Ends t (step.exec t)) :
    M.Ends s ((visitTree visit rule n).exec s) := by
  refine .after hs (quiet_noteStep _) fun _ t _ hframe _ ht => ?_
  dsimp only
  rw [hstep]
  refine .bind (hend t hframe ht) fun v u _ hu _ => ?_
  exact Goes.after (quiet_noteResult _ v) (fun _ => .pure v) u hu

/-- The statements that hold no statements, define no function and ask for nothing. -/
def plainForms : List Category :=
  [.constDef, .varDef, .assignment, .outputStmt, .inputCall, .listMethodCall, .listDef, .funcCallStmt]

theorem ends_visitNode_plain {E M : Manner} [hE : E.Lawful] [hM : M.Lawful] (hB : E.Marking M) {visit : Visit}
    (hvisit : Below E visit) {c : Category} (hc : c ∈ plainForms) (hn : Of c n)
    (hs : Formed s) (hfree : ∀ name, target? n = some name → M.Freely (marks n) name s) :
    M.Ends s ((visitNode visit n).exec s) := by
  have hphrase : ∀ {step : Interp Value}, step.Goes E → ∀ t, SameFrame s t → Formed t → M.Ends t (step.exec t) :=
    fun hstep t _ ht => (hstep.within hB.within) t ht
  have hbinds : ∀ {step : Interp Value},
      (∀ {t}, Formed t → (∀ name, target? n = some name → M.Freely (marks n) name t) → M.Ends t (step.exec t)) →
      ∀ t, SameFrame s t → Formed t → M.Ends t (step.exec t) :=
    fun hstep t hframe ht => hstep ht fun name hname => (hfree name hname).of_sameFrame hframe
  simp only [plainForms, List.mem_cons, List.not_mem_nil, or_false] at hc
  rcases hc with rfl | rfl | rfl | rfl | rfl | rfl | rfl | rfl
  · have hends := hbinds (ends_visitConstDef hB hvisit hn)
    obtain ⟨type, name, value, rfl, -⟩ := hn.constDef_inv
    exact ends_visitTree rfl hs hends
  · have hends := hbinds (ends_visitVarDef hB hvisit hn)
    obtain ⟨type, name, rest, rfl, -⟩ := hn.varDef_inv
    exact ends_visitTree rfl hs hends
  · have hends := hbinds (ends_visitAssignment hB hvisit hn)
    obtain ⟨name, value, rfl, -⟩ := hn.assignment_inv
    exact ends_visitTree rfl hs hends
  · have hgoes := goes_visitOutput hvisit hn
    obtain ⟨target, rest, rfl, -⟩ := hn.outputStmt_inv
    exact ends_visitTree rfl hs (hphrase hgoes)
  · have hgoes := goes_visitInput hvisit hn
    obtain ⟨prompt, rfl⟩ := hn.inputCall_inv
    exact ends_visitTree rfl hs (hphrase hgoes)
  · have hends := hbinds (ends_visitListMethodCall hB hvisit hn)
    obtain ⟨name, method, rest, rfl, -⟩ := hn.listMethodCall_inv
    exact ends_visitTree rfl hs hends
  · have hends := hbinds (ends_visitListDef hB hvisit hn)
    obtain ⟨name, items, rfl, -⟩ := hn.listDef_inv
    exact ends_visitTree rfl hs hends
  · have hgoes := goes_visitFuncCallStmt hvisit hn
    obtain ⟨name, rest, rfl, -⟩ := hn.funcCallStmt_inv
    exact ends_visitTree rfl hs (hphrase hgoes)

end FapLang.Run
