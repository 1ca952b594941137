import FapLang.Proofs.Run.Arising

/-!
Histories of runs. A run passes through points that differ by a single change (`Step`), and a point
tells which loops are in progress. Every run of an accepted text has a history (`exists_history`).
-/

namespace FapLang.Run

open Interp Grammar

variable {s : Session} {id other : Nat} {bound name : String} {v : Value}

/-! ### Points and steps -/

/-- A visit of a loop: how deep visits may be nested in it, its node and where it begins. -/
structure Loop where
  depth : Nat
  node : Node
  start : Session

/-- The loop has a name as its repeat variable and runs in a scope. -/
def Loop.IsOver (l : Loop) (name : String) (id : Nat) : Prop :=
  l.start.current = id ∧ ∃ parts, loop? l.node = some parts ∧ parts.var = name

/-- A point of a run: the session and the loops in progress, the innermost first. -/
structure Point where
  session : Session
  loops : List Loop

/-- What a step is done by: a loop, to its repeat variable in a scope, or anything else. -/
inductive Act
  | plain
  | repeating (name : String) (id : Nat)
  deriving DecidableEq

/-- A single change. -/
inductive Step : Act → Point → Point → Prop
  | aside {s t : Session} (loops : List Loop) (hframe : SameFrame s t) (hgrowth : Growth s t) :
      Step .plain ⟨s, loops⟩ ⟨t, loops⟩
  | declare {s : Session} (loops : List Loop) {name : String} (hfree : (s.scope s.current).binds name = false) (v : Value) :
      Step .plain ⟨s, loops⟩ ⟨s.bindVar s.current name v, loops⟩
  | defineConst {s : Session} (loops : List Loop) {name : String} (hfree : (s.scope s.current).binds name = false)
      (v : Value) : Step .plain ⟨s, loops⟩ ⟨s.bindConst s.current name v, loops⟩
  | defineFunc {s : Session} (loops : List Loop) {name : String} (hfree : (s.scope s.current).binds name = false)
      (f : Function) : Step .plain ⟨s, loops⟩ ⟨s.bindFunc s.current name f, loops⟩
  | assign {s : Session} (loops : List Loop) {id : Nat} {name : String} {old v : Value}
      (hold : (s.scope id).vars.get? name = some old) (hkind : v.kind = old.kind) :
      Step .plain ⟨s, loops⟩ ⟨s.bindVar id name v, loops⟩
  | request (s : Session) (loops : List Loop) (result : Value) (returning breaking : Bool) :
      Step .plain ⟨s, loops⟩ ⟨{ s with result := result, returning := returning, breaking := breaking }, loops⟩
  | enter {s : Session} (loops : List Loop) {f : Function} (hf : s.Knows f) (bound : List (String × Value)) :
      Step .plain ⟨s, loops⟩ ⟨s.entered f bound, loops⟩
  | resume (s caller : Session) (loops : List Loop) : Step .plain ⟨s, loops⟩ ⟨s.resumed caller, loops⟩
  | begin (l : Loop) (loops : List Loop) : Step .plain ⟨l.start, loops⟩ ⟨l.start, l :: loops⟩
  | finish {s : Session} {l : Loop} (loops : List Loop) (hend : ((visit l.depth l.node).exec l.start).2 = s) :
      Step .plain ⟨s, l :: loops⟩ ⟨s, loops⟩
  | repeats {s : Session} {l : Loop} (loops : List Loop) {name : String} (hover : l.IsOver name s.current) (i : Nat) :
      Step (.repeating name s.current) ⟨s, l :: loops⟩ ⟨s.bindVar s.current name (.int i), l :: loops⟩
  | drops {s : Session} {l : Loop} (loops : List Loop) {name : String} (hover : l.IsOver name s.current) :
      Step (.repeating name s.current) ⟨s, l :: loops⟩ ⟨s.dropVar s.current name, l :: loops⟩

/-- Steps in a row, each with the point to which it leads. -/
inductive History : Point → List (Act × Point) → Point → Prop
  | nil (p : Point) : History p [] p
  | cons {a : Act} {p q r : Point} {rest : List (Act × Point)} (h : Step a p q) (hrest : History q rest r) :
      History p ((a, q) :: rest) r

namespace History

variable {p q r : Point} {first second : List (Act × Point)}

theorem single {a : Act} (h : Step a p q) : History p [(a, q)] q :=
  .cons h (.nil q)

theorem append (h1 : History p first q) (h2 : History q second r) : History p (first ++ second) r := by
  induction h1 with
  | nil => exact h2
  | cons h _ ih => exact .cons h (ih h2)

end History

/-! ### Kinds along steps -/

theorem Session.lt_of_get?_vars (h : (s.scope id).vars.get? name = some v) : id < s.scopes.size := by
  by_contra hid
  rw [Session.scope_eq, Array.getElem?_eq_none (Nat.le_of_not_lt hid)] at h
  simp [Scope.empty, Table.get?] at h

theorem Session.binds_of_get?_vars (h : (s.scope id).vars.get? name = some v) : (s.scope id).binds name = true := by
  rw [Scope.binds, Table.has_eq_isSome, h]
  rfl

theorem Table.get?_erase_of_ne {α : Type} (t : Table α) {other : String} (h : other ≠ name) :
    (t.erase name).get? other = t.get? other := by
  induction t with
  | nil => rfl
  | cons entry rest ih =>
    rw [Table.get?_cons]
    by_cases hentry : entry.1 = name
    · rw [if_neg (fun heq => h (heq.trans hentry)), ← ih, Table.erase, List.filter_cons_of_neg (by simp [hentry])]
      rfl
    · rw [← ih, ← Table.get?_cons, Table.erase, List.filter_cons_of_pos (by simp [hentry])]
      rfl

theorem Table.get?_erase_self {α : Type} (t : Table α) (name : String) : (t.erase name).get? name = none := by
  induction t with
  | nil => rfl
  | cons entry rest ih =>
    by_cases hentry : entry.1 = name
    · rw [Table.erase, List.filter_cons_of_neg (by simp [hentry])]
      exact ih
    · rw [Table.erase, List.filter_cons_of_pos (by simp [hentry]), Table.get?_cons, if_neg (Ne.symm hentry)]
      exact ih

/-- A variable that is bound in a scope stays bound there, to a value of its kind. -/
def KindKept (name : String) (id : Nat) (s t : Session) : Prop :=
  ∀ v, (s.scope id).vars.get? name = some v → ∃ w, (t.scope id).vars.get? name = some w ∧ w.kind = v.kind

namespace KindKept

variable {name : String} {id : Nat} {s t u : Session}

theorem of_vars_eq (h : (t.scope id).vars = (s.scope id).vars) : KindKept name id s t :=
  fun v hv => ⟨v, by rw [h, hv], rfl⟩

theorem refl (name : String) (id : Nat) (s : Session) : KindKept name id s s :=
  .of_vars_eq rfl

theorem trans (h1 : KindKept name id s t) (h2 : KindKept name id t u) : KindKept name id s u := by
  intro v hv
  obtain ⟨w, hw, hkind⟩ := h1 v hv
  obtain ⟨x, hx, hkind'⟩ := h2 w hw
  exact ⟨x, hx, hkind'.trans hkind⟩

/-- A change of a scope that leaves the variable alone. -/
theorem setScope {f : Scope → Scope}
    (hf : id = other → ∀ v, (s.scope id).vars.get? name = some v → (f (s.scope id)).vars.get? name = some v) :
    KindKept name id s (s.setScope other f) := by
  intro v hv
  refine ⟨v, ?_, rfl⟩
  by_cases hid : id = other
  · rw [← hid, Session.scope_setScope_self (Session.lt_of_get?_vars hv), hf hid v hv]
  · rw [Session.scope_setScope_of_ne hid, hv]

theorem of_ne (h : id ≠ other) (f : Scope → Scope) : KindKept name id s (s.setScope other f) :=
  .setScope fun hid => absurd hid h

/-- To bind another name, or in another scope. -/
theorem bindVar (h : bound = name → other ≠ id) (v : Value) : KindKept name id s (s.bindVar other bound v) := by
  refine .setScope fun hid w hw => ?_
  rw [Table.get?_insert, if_neg (fun hname => h hname.symm hid.symm), hw]

theorem dropVar (h : bound = name → other ≠ id) : KindKept name id s (s.dropVar other bound) := by
  refine .setScope fun hid w hw => ?_
  rw [Table.get?_erase_of_ne _ (fun hname => h hname.symm hid.symm), hw]

/-- To bind a name that is free. -/
theorem declare (hfree : (s.scope s.current).binds bound = false) (v : Value) :
    KindKept name id s (s.bindVar s.current bound v) := by
  refine .setScope fun hid w hw => ?_
  rw [Table.get?_insert, if_neg, hw]
  rintro rfl
  exact Bool.false_ne_true (hfree.symm.trans (hid ▸ Session.binds_of_get?_vars hw))

theorem assign {old : Value} (hold : (s.scope other).vars.get? bound = some old)
    (hkind : v.kind = old.kind) : KindKept name id s (s.bindVar other bound v) := by
  by_cases hsame : bound = name ∧ other = id
  · obtain ⟨rfl, rfl⟩ := hsame
    intro w hw
    rw [hold] at hw
    refine ⟨v, ?_, by rw [hkind, Option.some.inj hw]⟩
    rw [Session.bindVar, Session.scope_setScope_self (Session.lt_of_get?_vars hold), Table.get?_insert, if_pos rfl]
  · exact .bindVar (fun hname hid => hsame ⟨hname, hid⟩) v

theorem entered (name : String) (id : Nat) (s : Session) (f : Function) (bound : List (String × Value)) :
    KindKept name id s (s.entered f bound) :=
  fun v hv => ⟨v, by rw [Session.scope_entered_of_lt (Session.lt_of_get?_vars hv), hv], rfl⟩

end KindKept

/-! ### Passages -/

/-- The run passes from one session to another, with at least some loops in progress. -/
def Passes (base : List Loop) (s t : Session) : Prop :=
  ∀ loops, ∃ history, History ⟨s, base ++ loops⟩ history ⟨t, base ++ loops⟩

namespace Passes

variable {base : List Loop} {s t u : Session}

theorem refl (base : List Loop) (s : Session) : Passes base s s :=
  fun _ => ⟨[], .nil _⟩

theorem of_step {a : Act} (h : ∀ loops, Step a ⟨s, base ++ loops⟩ ⟨t, base ++ loops⟩) : Passes base s t :=
  fun loops => ⟨_, .single (h loops)⟩

theorem trans (h1 : Passes base s t) (h2 : Passes base t u) : Passes base s u := by
  intro loops
  obtain ⟨first, hfirst⟩ := h1 loops
  obtain ⟨second, hsnd⟩ := h2 loops
  exact ⟨first ++ second, hfirst.append hsnd⟩

/-- More loops may be in progress. -/
theorem of_nil (h : Passes [] s t) : Passes base s t :=
  fun loops => h (base ++ loops)

/-- What happens in a loop happens. -/
theorem of_loop {depth : Nat} {n : Node} (h : Passes [⟨depth, n, s⟩] s t) (hend : ((visit depth n).exec s).2 = t) :
    Passes base s t := by
  intro loops
  obtain ⟨history, hhistory⟩ := h (base ++ loops)
  exact ⟨_, (History.single (.begin ⟨depth, n, s⟩ (base ++ loops))).append
    (hhistory.append (.single (.finish (base ++ loops) hend)))⟩

end Passes

/-- What lies between two points of one call: a passage, over which variables keep their kinds. -/
structure Traced (base : List Loop) (level : Level) (s t : Session) : Prop where
  passes : Passes base s t
  current : t.current = s.current
  kinds : ∀ name id, id ≠ s.current ∨ level = .expression → KindKept name id s t

namespace Traced

variable {base : List Loop} {level : Level} {s t u : Session}

theorem refl (base : List Loop) (level : Level) (s : Session) : Traced base level s s :=
  ⟨.refl base s, rfl, fun name id _ => .refl name id s⟩

theorem trans (h1 : Traced base level s t) (h2 : Traced base level t u) : Traced base level s u := by
  refine ⟨h1.passes.trans h2.passes, h2.current.trans h1.current, fun name id hside => ?_⟩
  exact (h1.kinds name id hside).trans (h2.kinds name id (by rwa [h1.current]))

theorem toStatement (h : Traced [] .expression s t) : Traced base .statement s t :=
  ⟨h.passes.of_nil, h.current, fun name id _ => h.kinds name id (.inr rfl)⟩

theorem of_step {a : Act} (h : ∀ loops, Step a ⟨s, base ++ loops⟩ ⟨t, base ++ loops⟩) (hcur : t.current = s.current)
    (hkinds : ∀ name id, id ≠ s.current ∨ level = .expression → KindKept name id s t) : Traced base level s t :=
  ⟨.of_step h, hcur, hkinds⟩

/-- A step that changes the current scope. -/
theorem of_step_setScope {a : Act} {f : Scope → Scope}
    (h : ∀ loops, Step a ⟨s, base ++ loops⟩ ⟨s.setScope s.current f, base ++ loops⟩) :
    Traced base .statement s (s.setScope s.current f) :=
  .of_step h rfl fun _ _ hside => .of_ne (hside.resolve_right (by decide)) f

end Traced

/-- The manner in which runs pass from point to point. -/
def Manner.tracing (base : List Loop) (level : Level) : Manner where
  moves := Traced base level
  stops s stop t :=
    match stop with
    | .fault _ => Traced base level s t
    | .exhausted => Passes base s t

instance Manner.tracing_lawful (base : List Loop) (level : Level) : (Manner.tracing base level).Lawful where
  refl := .refl base level
  trans := .trans
  prepend {s t u stop} h1 h2 := by
    cases stop with
    | fault f => exact h1.trans h2
    | exhausted => exact h1.passes.trans h2
  caught h := h
  hidden h := h
  aside hframe hgrowth := .of_step (fun _ => .aside _ hframe hgrowth) hframe.current
    fun _ id _ => .of_vars_eq (by rw [hframe.scope_eq])
  fault s _ _ := .refl base level s
  exhausted := .refl base
  spoilt _ _ := .refl base level _

theorem Sound.binds_eq_false (hs : Sound s) (h : s.sees name = false) : (s.scope s.current).binds name = false := by
  rw [Session.sees, List.any_eq_false] at h
  exact Bool.eq_false_iff.mpr (h s.current (Session.mem_chain_self hs.ordered hs.current))

theorem Manner.tracing_binding (base : List Loop) :
    (Manner.tracing [] .expression).Binding (Manner.tracing base .statement) where
  within := {
    moves := .toStatement
    stops := fun {s t stop} h => by
      cases stop with
      | fault f => exact Traced.toStatement h
      | exhausted => exact Passes.of_nil h }
  declare _ ht hsees v := (Traced.toStatement ht.2).trans
    (.of_step_setScope fun _ => .declare _ (ht.1.sound.binds_eq_false hsees) v)
  defineConst _ ht hsees v _ := (Traced.toStatement ht.2).trans
    (.of_step_setScope fun _ => .defineConst _ (ht.1.sound.binds_eq_false hsees) v)
  assign {s t name id old other v} _ ht _ hold hother hkind := by
    obtain ⟨w, hw, hsame⟩ := ht.2.kinds name id (.inr rfl) old hold
    have hkind' : v.kind = other.kind := by
      rw [hkind, ← hsame, ← Option.some.inj (hw.symm.trans hother)]
    exact (Traced.toStatement ht.2).trans
      (.of_step (fun _ => .assign _ hother hkind') rfl fun _ _ _ => .assign hother hkind')

theorem Manner.tracing_acting (base : List Loop) :
    (Manner.tracing [] .expression).Acting (Manner.tracing base .statement) where
  binding := .of_binding (tracing_binding base)
  naming _ _ _ _ _ _ ht hsees _ := (Traced.toStatement ht.2).trans
    (.of_step_setScope fun _ => .defineFunc _ (ht.1.sound.binds_eq_false hsees) _)
  requesting s result returning breaking :=
    .of_step (fun _ => .request s _ result returning breaking) rfl fun _ _ _ => .of_vars_eq rfl

/-- A call leaves the kinds in all scopes of its caller. -/
theorem Traced.call {t : Session} {f : Function} (hf : s.Knows f) {bound : List (String × Value)}
    (h : Traced [] .statement (s.entered f bound) t) : Traced [] .expression s (t.resumed s) := by
  refine ⟨?_, rfl, fun name id _ v hv => ?_⟩
  · exact (Passes.of_step fun _ => .enter _ hf bound).trans (h.passes.trans (.of_step fun _ => .resume t s _))
  · have hne : id ≠ (s.entered f bound).current := Nat.ne_of_lt (Session.lt_of_get?_vars hv)
    exact ((KindKept.entered name id s f bound).trans (h.kinds name id (.inl hne))) v hv

theorem Manner.tracing_calling : (Manner.tracing [] .expression).Calling (Manner.tracing [] .statement) where
  returns _ hf _ h := .call hf h.2
  fails _ hf _ _ h := .call hf h
  breaksOff _ hf _ h := (Passes.of_step fun _ => .enter _ hf _).trans h

/-- A loop in progress may bind its repeat variable. -/
theorem Manner.tracing_repeating {l : Loop} (hover : l.IsOver name id) :
    (Manner.tracing [l] .statement).Repeating name id where
  bind {s} hid i := by
    subst hid
    exact .of_step_setScope fun loops => .repeats loops hover i
  drop {s} hid := by
    subst hid
    exact .of_step_setScope fun loops => .drops loops hover

/-! ### Runs -/

theorem Beside.within {E M N : Manner} {visit : Visit} (hvisit : Beside E M visit) (hwithin : M.Within N) :
    Beside E N visit :=
  { hvisit.toBelow with deed := fun c hc n hn => (hvisit.deed c hc n hn).within hwithin }

theorem Manner.tracing_within (base : List Loop) :
    (Manner.tracing [] .statement).Within (Manner.tracing base .statement) where
  moves h := ⟨h.passes.of_nil, h.current, h.kinds⟩
  stops {s t stop} h := by
    cases stop with
    | fault f => exact ⟨Passes.of_nil h.passes, h.current, h.kinds⟩
    | exhausted => exact Passes.of_nil h

/-- A visit of a loop is a passage in which the loop is in progress. -/
theorem Manner.Ends.of_loop {depth : Nat} {n : Node}
    (h : (Manner.tracing [⟨depth, n, s⟩] .statement).Ends s ((visit depth n).exec s)) :
    (Manner.tracing [] .statement).Ends s ((visit depth n).exec s) := by
  cases hexec : (visit depth n).exec s with
  | mk outcome t =>
    rw [hexec] at h
    have hend : ((visit depth n).exec s).2 = t := by rw [hexec]
    cases outcome with
    | ok v => exact ⟨h.1, h.2.passes.of_loop hend, h.2.current, h.2.kinds⟩
    | error stop =>
      cases stop with
      | fault f =>
        obtain ⟨hformed, htraced⟩ := h
        exact ⟨hformed, Passes.of_loop htraced.passes hend, htraced.current, htraced.kinds⟩
      | exhausted => exact ⟨h.1, Passes.of_loop h.2 hend⟩

theorem beside_tracing (depth : Nat) :
    Beside (Manner.tracing [] .expression) (Manner.tracing [] .statement) (visit depth) := by
  have hact := Manner.tracing_acting []
  induction depth with
  | zero => exact Beside.of_exhausted Manner.tracing_calling fun _ _ => rfl
  | succ depth ih =>
    have hgives : ∀ n, GivesUp (visitNode (visit depth) n) (visit (depth + 1) n) := fun _ _ => .inr rfl
    refine ih.deeper hact Manner.tracing_calling (tame_visit (depth + 1)) (fun n => (hgives n).goes)
      (fun n hend s hs => (hgives n).ends hs (hend s hs fun _ _ => .of_imp id)) (fun h => (hgives _).value h)
      fun n hn s hs => .of_loop ?_
    refine .hide ?_
    refine (ih.within (Manner.tracing_within _)).ends_visitNode (Manner.tracing_acting _) (by decide) hn hs
      (fun _ _ => .of_imp id) ?_
    exact fun _ parts hparts _ => Manner.tracing_repeating ⟨rfl, parts, hparts, rfl⟩

/-- The run of an accepted text has a history. -/
theorem exists_history (hs : Arising s) {code : String} {program : Node} (hparse : parse code = .ok program) :
    ∃ history, History ⟨s, []⟩ history ⟨((execute code).exec s).2, []⟩ := by
  have hend := (beside_tracing depthLimit).goes_executeWithin (Manner.tracing_acting []) hparse s hs.formed
  rw [← execute] at hend
  have hpasses : Passes [] s ((execute code).exec s).2 := by
    rcases hexec : (execute code).exec s with ⟨stop | a, t⟩ <;> rw [hexec] at hend
    · cases stop with
      | fault f => exact Traced.passes hend.2
      | exhausted => exact hend.2
    · exact hend.2.passes
  exact hpasses []

end FapLang.Run
