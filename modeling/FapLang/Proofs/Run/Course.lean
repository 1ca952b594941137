import FapLang.Proofs.Grammar.Orderly
import FapLang.Proofs.Run.Scopes
import FapLang.Proofs.Value.Plain

/-!
The course of a run: a sequence of single changes (`Change`) and of calls with courses of their own
(`Course`). Courses keep sessions sound (`Course.sound`) and change the scopes that there were only
in the ways of a `Frame` (`Course.frame`).
-/

namespace FapLang

variable {level : Level}

namespace Run

variable {s t : Session} {f : Function} {id : Nat}

/-! ### Changes and courses -/

/-- The scopes and the requests of calls and loops are the same. Names become faulty only with an
error. -/
structure SameFrame (s t : Session) : Prop where
  scopes : t.scopes = s.scopes
  current : t.current = s.current
  result : t.result = s.result
  returning : t.returning = s.returning
  breaking : t.breaking = s.breaking
  errors : s.errors ≠ #[] → t.errors ≠ #[]
  faulty : t.faulty = s.faulty ∨ t.errors ≠ #[]

/-- Expressions bind nothing in the scope in which they are evaluated. -/
inductive Level
  | expression
  | statement
  deriving DecidableEq

namespace Session

def bindVar (s : Session) (id : Nat) (name : String) (v : Value) : Session :=
  s.setScope id fun scope => { scope with vars := scope.vars.insert name v }

def bindConst (s : Session) (id : Nat) (name : String) (v : Value) : Session :=
  s.setScope id fun scope => { scope with constants := scope.constants.insert name v }

def bindFunc (s : Session) (id : Nat) (name : String) (f : Function) : Session :=
  s.setScope id fun scope => { scope with functions := scope.functions.insert name f }

def dropVar (s : Session) (id : Nat) (name : String) : Session :=
  s.setScope id fun scope => { scope with vars := scope.vars.erase name }

end Session

/-- A scope for a call: the parameters and nothing else, inside the scope of the definition. -/
def calleeScope (f : Function) (bound : List (String × Value)) : Scope :=
  { Scope.empty (some f.scope) with
    vars := bound.foldl (fun vars entry ↦ vars.insert entry.1 entry.2) [] }

/-- The session in which the body of a function starts. -/
def Session.entered (s : Session) (f : Function) (bound : List (String × Value)) : Session :=
  { s with
    scopes := s.scopes.push (calleeScope f bound), current := s.scopes.size, result := .none,
    returning := false }

/-- The session after a call, with what the caller had set aside. -/
def Session.resumed (s caller : Session) : Session :=
  { s with current := caller.current, result := caller.result, returning := caller.returning }

/-- A function whose definition is around the current scope. -/
def Session.Knows (s : Session) (f : Function) : Prop :=
  f.scope ∈ s.chain s.current ∧ ∃ name, (s.scope f.scope).functions.get? name = some f

/-- A single change of a session. -/
inductive Change : Level → Session → Session → Prop
  | aside {level : Level} {s t : Session} (h : SameFrame s t) : Change level s t
  | define (s : Session) (name : String) (v : Value) :
      Change .statement s (s.bindVar s.current name v)
  | defineConst {s : Session} {name : String} {v : Value} (hname : s.sees name = false)
      (hv : v.isPlain = true) : Change .statement s (s.bindConst s.current name v)
  | defineFunc (s : Session) (name : String) {body : Node} (hbody : body.isOrderly = true)
      (params : Nat) :
      Change .statement s
        (s.bindFunc s.current name { params := params, body := body, scope := s.current })
  | dropVar (s : Session) (name : String) : Change .statement s (s.dropVar s.current name)
  | assign {s : Session} {id : Nat} {name : String} (hid : id ∈ s.chain s.current)
      (hvar : (s.scope id).vars.has name = true) (v : Value) :
      Change .statement s (s.bindVar id name v)
  | request (s : Session) (result : Value) (returning breaking : Bool) :
      Change .statement s
        { s with result := result, returning := returning, breaking := breaking }

/-- Changes and whole calls in a row. -/
inductive Course : Level → Session → Session → Prop
  | refl (level : Level) (s : Session) : Course level s s
  | change {level : Level} {s t u : Session} (h : Change level s t) (hrest : Course level t u) :
      Course level s u
  | call {level : Level} {s t u : Session} {f : Function} (hf : s.Knows f)
      (bound : List (String × Value)) (hbody : Course .statement (s.entered f bound) t)
      (hrest : Course level (t.resumed s) u) : Course level s u

/-- The points to which a course leads, in the bodies of calls too. -/
inductive Leads : Session → Session → Prop
  | course {s t : Session} (h : Course .statement s t) : Leads s t
  | inside {s t u : Session} {f : Function} (h : Course .statement s t) (hf : t.Knows f)
      (bound : List (String × Value)) (hbody : Leads (t.entered f bound) u) : Leads s u

namespace Course

variable {level : Level} {s t u : Session}

theorem single (h : Change level s t) : Course level s t :=
  .change h (.refl level t)

theorem trans (h1 : Course level s t) (h2 : Course level t u) : Course level s u := by
  induction h1 with
  | refl => exact h2
  | change h _ ih => exact .change h (ih h2)
  | call hf bound hbody _ _ ih => exact .call hf bound hbody (ih h2)

/-- What expressions may do, statements may do. -/
theorem toStatement (h : Course level s t) : Course .statement s t := by
  induction h with
  | refl => exact .refl _ _
  | change h _ ih =>
    refine .change ?_ ih
    cases h with
    | aside h => exact .aside h
    | define _ name v => exact .define _ name v
    | defineConst hname hv => exact .defineConst hname hv
    | defineFunc _ name hbody params => exact .defineFunc _ name hbody params
    | dropVar _ name => exact .dropVar _ name
    | assign hid hvar v => exact .assign hid hvar v
    | request _ result returning breaking => exact .request _ result returning breaking
  | call hf bound hbody _ _ ih => exact .call hf bound hbody ih

end Course

theorem Leads.prepend {u : Session} (h1 : Course level s t) (h2 : Leads t u) : Leads s u := by
  cases h2 with
  | course h => exact .course (h1.toStatement.trans h)
  | inside h hf bound hbody => exact .inside (h1.toStatement.trans h) hf bound hbody

/-! ### Sound sessions -/

/-- Scopes lie inside earlier ones, functions belong to the scope that binds them and have orderly
bodies, constants are plain, and where there are faulty names there are errors. -/
structure Sound (s : Session) : Prop where
  current : s.current < s.scopes.size
  ordered : Ordered s.scopes
  functions : ∀ id < s.scopes.size, ∀ entry ∈ (s.scope id).functions,
    entry.2.scope = id ∧ entry.2.body.isOrderly = true
  constants : ∀ id < s.scopes.size, ∀ entry ∈ (s.scope id).constants, entry.2.isPlain = true
  recorded : s.faulty ≠ #[] → s.errors ≠ #[]

namespace Sound

variable {s : Session}

theorem of_sameFrame (hs : Sound s) (h : SameFrame s t) : Sound t := by
  have hscope : ∀ id, t.scope id = s.scope id := by
    intro id
    rw [Session.scope, Session.scope, h.scopes]
  refine ⟨?_, ?_, ?_, ?_, ?_⟩
  · rw [h.current, h.scopes]
    exact hs.current
  · rw [h.scopes]
    exact hs.ordered
  · intro id hid entry hentry
    rw [h.scopes] at hid
    rw [hscope] at hentry
    exact hs.functions id hid entry hentry
  · intro id hid entry hentry
    rw [h.scopes] at hid
    rw [hscope] at hentry
    exact hs.constants id hid entry hentry
  · intro hfaulty
    rcases h.faulty with hsame | herrs
    · rw [hsame] at hfaulty
      exact h.errors (hs.recorded hfaulty)
    · exact herrs

theorem setScope (hs : Sound s) {f : Scope → Scope} (hpar : (f (s.scope id)).parent = (s.scope id).parent)
    (hfuns : ∀ entry ∈ (f (s.scope id)).functions,
      entry ∈ (s.scope id).functions ∨ (entry.2.scope = id ∧ entry.2.body.isOrderly = true))
    (hconsts : ∀ entry ∈ (f (s.scope id)).constants,
      entry ∈ (s.scope id).constants ∨ entry.2.isPlain = true) : Sound (s.setScope id f) := by
  refine ⟨?_, ?_, ?_, ?_, hs.recorded⟩
  · rw [Session.size_setScope]
    exact hs.current
  · intro i scope parent hscope hup
    rw [Session.setScope, Array.getElem?_modify] at hscope
    by_cases hid : id = i
    · rw [if_pos hid, Option.map_eq_some_iff] at hscope
      obtain ⟨old, hold, rfl⟩ := hscope
      have heq : s.scope id = old := by rw [Session.scope_eq, hid, hold, Option.getD_some]
      rw [← heq, hpar, heq] at hup
      exact hs.ordered i old parent hold hup
    · rw [if_neg hid] at hscope
      exact hs.ordered i scope parent hscope hup
  · intro i hi entry hentry
    rw [Session.size_setScope] at hi
    by_cases hid : i = id
    · subst hid
      rw [Session.scope_setScope_self hi] at hentry
      rcases hfuns entry hentry with hold | hnew
      · exact hs.functions i hi entry hold
      · exact hnew
    · rw [Session.scope_setScope_of_ne hid] at hentry
      exact hs.functions i hi entry hentry
  · intro i hi entry hentry
    rw [Session.size_setScope] at hi
    by_cases hid : i = id
    · subst hid
      rw [Session.scope_setScope_self hi] at hentry
      rcases hconsts entry hentry with hold | hnew
      · exact hs.constants i hi entry hold
      · exact hnew
    · rw [Session.scope_setScope_of_ne hid] at hentry
      exact hs.constants i hi entry hentry

theorem change (hs : Sound s) (h : Change level s t) : Sound t := by
  cases h with
  | aside h => exact hs.of_sameFrame h
  | define | dropVar | assign => exact hs.setScope rfl (fun _ => .inl) fun _ => .inl
  | defineConst hname hv =>
    refine hs.setScope rfl (fun _ => .inl) fun entry hentry => ?_
    rcases Table.mem_insert hentry with rfl | hold
    · exact .inr hv
    · exact .inl hold
  | defineFunc _ name hbody params =>
    refine hs.setScope rfl (fun entry hentry => ?_) fun _ => .inl
    rcases Table.mem_insert hentry with rfl | hold
    · exact .inr ⟨rfl, hbody⟩
    · exact .inl hold
  | request =>
    exact ⟨hs.current, hs.ordered, hs.functions, hs.constants, hs.recorded⟩

end Sound

namespace Session

variable {s : Session} {f : Function} {bound : List (String × Value)}

@[simp] theorem size_entered : (s.entered f bound).scopes.size = s.scopes.size + 1 :=
  Array.size_push _

theorem scope_entered_of_lt (h : id < s.scopes.size) : (s.entered f bound).scope id = s.scope id := by
  rw [scope_eq, scope_eq, entered, Array.getElem?_push, if_neg (Nat.ne_of_lt h)]

theorem scope_entered_new : (s.entered f bound).scope s.scopes.size = calleeScope f bound := by
  rw [scope_eq, entered, Array.getElem?_push, if_pos rfl, Option.getD_some]

/-- What a new scope does not have is in a scope that was there before. -/
theorem of_mem_entered {β : Type} {part : Scope → List β} {entry : β} (hid : id < (s.entered f bound).scopes.size)
    (hpart : part (calleeScope f bound) = []) (h : entry ∈ part ((s.entered f bound).scope id)) :
    id < s.scopes.size ∧ entry ∈ part (s.scope id) := by
  rw [size_entered] at hid
  obtain hlt | rfl := Nat.lt_succ_iff_lt_or_eq.mp hid
  · exact ⟨hlt, scope_entered_of_lt hlt ▸ h⟩
  · rw [scope_entered_new, hpart] at h
    cases h

end Session

/-- The scope of a function that can be called is there. -/
theorem Session.Knows.lt (hf : s.Knows f) : f.scope < s.scopes.size :=
  Session.lt_of_mem_chain hf.1

theorem Sound.entered (hs : Sound s) (hf : s.Knows f) (bound : List (String × Value)) : Sound (s.entered f bound) := by
  refine ⟨?_, ?_, ?_, ?_, hs.recorded⟩
  · rw [Session.size_entered]
    exact Nat.lt_succ_self _
  · intro id scope parent hscope hup
    rw [Session.entered, Array.getElem?_push] at hscope
    by_cases hid : id = s.scopes.size
    · rw [if_pos hid, Option.some.injEq] at hscope
      rw [← hscope] at hup
      have hpar : f.scope = parent := Option.some.inj hup
      rw [← hpar, hid]
      exact hf.lt
    · rw [if_neg hid] at hscope
      exact hs.ordered id scope parent hscope hup
  · intro id hid entry hentry
    obtain ⟨hlt, hold⟩ := Session.of_mem_entered hid rfl hentry
    exact hs.functions id hlt entry hold
  · intro id hid entry hentry
    obtain ⟨hlt, hold⟩ := Session.of_mem_entered hid rfl hentry
    exact hs.constants id hlt entry hold

theorem Change.size_eq (h : Change level s t) : t.scopes.size = s.scopes.size := by
  cases h with
  | aside h => rw [h.scopes]
  | request => rfl
  | define | defineConst | defineFunc | dropVar | assign =>
    exact Session.size_setScope _ _ _

theorem Course.size_le (h : Course level s t) : s.scopes.size ≤ t.scopes.size := by
  induction h with
  | refl => exact Nat.le_refl _
  | change h _ ih => rwa [h.size_eq] at ih
  | @call level s t u f hf bound _ _ ihbody ih =>
    rw [Session.size_entered] at ihbody
    have hresumed : (t.resumed s).scopes.size = t.scopes.size := rfl
    omega

/-- The caller's scope is still there after a call. -/
theorem Sound.resumed (hs : Sound s) (ht : Sound t) (hsize : s.scopes.size ≤ t.scopes.size) : Sound (t.resumed s) :=
  ⟨Nat.lt_of_lt_of_le hs.current hsize, ht.ordered, ht.functions, ht.constants, ht.recorded⟩

theorem Course.sound (h : Course level s t) (hs : Sound s) : Sound t := by
  induction h with
  | refl => exact hs
  | change h _ ih => exact ih (hs.change h)
  | @call level s t u f hf bound hbody _ ihbody ih =>
    have hsize := hbody.size_le
    rw [Session.size_entered] at hsize
    exact ih (hs.resumed (ihbody (hs.entered hf bound)) (by omega))

theorem Leads.sound (h : Leads s t) (hs : Sound s) : Sound t := by
  induction h with
  | course h => exact h.sound hs
  | inside h hf bound _ ih => exact ih ((h.sound hs).entered hf bound)

/-! ### What a course leaves as it was -/

/-- The constants, the functions and the names of the variables of a scope are the same. -/
structure SameNames (a b : Scope) : Prop where
  vars : b.vars.names = a.vars.names
  constants : b.constants = a.constants
  functions : b.functions = a.functions

theorem SameNames.refl (a : Scope) : SameNames a a :=
  ⟨rfl, rfl, rfl⟩

theorem SameNames.trans {a b c : Scope} (h1 : SameNames a b) (h2 : SameNames b c) : SameNames a c :=
  ⟨h2.vars.trans h1.vars, h2.constants.trans h1.constants, h2.functions.trans h1.functions⟩

theorem SameNames.binds {a b : Scope} (h : SameNames a b) (name : String) : b.binds name = a.binds name := by
  rw [Scope.binds, Scope.binds, Table.has_eq_contains, Table.has_eq_contains a.vars, h.vars, h.constants, h.functions]

/-- What a course does to the scopes that there were, and to the requests of its caller. -/
structure Frame (level : Level) (s t : Session) : Prop where
  size : s.scopes.size ≤ t.scopes.size
  current : t.current = s.current
  parent : ∀ id < s.scopes.size, (t.scope id).parent = (s.scope id).parent
  names : ∀ id < s.scopes.size, id ≠ s.current ∨ level = .expression →
    SameNames (s.scope id) (t.scope id)
  apart : ∀ id < s.scopes.size, id ∉ s.chain s.current → t.scope id = s.scope id
  requests : level = .expression → t.result = s.result ∧ t.returning = s.returning

namespace Frame

variable {level : Level} {s t u : Session}

theorem chain_eq (h : Frame level s t) (hs : Sound s) (hid : id < s.scopes.size) : t.chain id = s.chain id :=
  Session.chain_congr hs.ordered h.size h.parent hid

theorem trans (h1 : Frame level s t) (h2 : Frame level t u) (hs : Sound s) : Frame level s u := by
  have hsize := h1.size
  have hchain : t.chain t.current = s.chain s.current := by
    rw [h1.current]
    exact h1.chain_eq hs hs.current
  refine ⟨hsize.trans h2.size, h2.current.trans h1.current, ?_, ?_, ?_, ?_⟩
  · intro id hid
    rw [h2.parent id (by omega), h1.parent id hid]
  · intro id hid hside
    have hside' : id ≠ t.current ∨ level = .expression := by rwa [h1.current]
    exact (h1.names id hid hside).trans (h2.names id (by omega) hside')
  · intro id hid happart
    rw [h2.apart id (by omega) (by rwa [hchain]), h1.apart id hid happart]
  · intro hlevel
    obtain ⟨hres, hret⟩ := h1.requests hlevel
    obtain ⟨hres', hret'⟩ := h2.requests hlevel
    exact ⟨hres'.trans hres, hret'.trans hret⟩

theorem of_sameFrame (h : SameFrame s t) : Frame level s t := by
  have hscope : ∀ id, t.scope id = s.scope id := by
    intro id
    rw [Session.scope, Session.scope, h.scopes]
  refine ⟨by rw [h.scopes], h.current, ?_, ?_, ?_, fun _ => ⟨h.result, h.returning⟩⟩
  · intro id _
    rw [hscope]
  · intro id _ _
    rw [hscope]
    exact SameNames.refl _
  · intro id _ _
    exact hscope id

/-- A change of one scope on the chain; in other scopes than the current one it keeps all names. -/
theorem setScope (hid : id ∈ s.chain s.current) {f : Scope → Scope}
    (hpar : (f (s.scope id)).parent = (s.scope id).parent)
    (hnames : id ≠ s.current → SameNames (s.scope id) (f (s.scope id))) : Frame .statement s (s.setScope id f) := by
  refine ⟨by rw [Session.size_setScope], rfl, ?_, ?_, ?_, fun h => absurd h (by decide)⟩
  · intro i hi
    by_cases heq : i = id
    · subst heq
      rw [Session.scope_setScope_self hi, hpar]
    · rw [Session.scope_setScope_of_ne heq]
  · intro i hi hside
    have hne : i ≠ s.current := hside.resolve_right (by decide)
    by_cases heq : i = id
    · subst heq
      rw [Session.scope_setScope_self hi]
      exact hnames hne
    · rw [Session.scope_setScope_of_ne heq]
      exact SameNames.refl _
  · intro i hi happart
    have heq : i ≠ id := by
      rintro rfl
      exact happart hid
    exact Session.scope_setScope_of_ne heq f

end Frame

theorem Change.frame (h : Change level s t) (hs : Sound s) : Frame level s t := by
  have hcur := Session.mem_chain_self hs.ordered hs.current
  cases h with
  | aside h => exact .of_sameFrame h
  | define | defineConst | defineFunc | dropVar =>
    exact .setScope hcur rfl fun hne => absurd rfl hne
  | assign hid hvar v =>
    exact .setScope hid rfl fun _ => ⟨Table.names_insert_of_has hvar v, rfl, rfl⟩
  | request =>
    exact ⟨Nat.le_refl _, rfl, fun _ _ => rfl, fun _ _ _ => SameNames.refl _, fun _ _ _ => rfl,
      fun h => absurd h (by decide)⟩

/-- Around the body of a call lie the scope of the call and the scopes around the definition. -/
theorem Session.chain_entered (hs : Sound s) (hf : s.Knows f) (bound : List (String × Value)) :
    (s.entered f bound).chain s.scopes.size = s.scopes.size :: s.chain f.scope := by
  have hsound := hs.entered hf bound
  rw [Session.chain_eq hsound.ordered (by rw [Session.size_entered]; exact Nat.lt_succ_self _),
    Session.scope_entered_new]
  refine congrArg (s.scopes.size :: ·) ?_
  refine Session.chain_congr hs.ordered (by rw [Session.size_entered]; omega) (fun id hid => ?_) hf.lt
  rw [Session.scope_entered_of_lt hid]

/-- The scopes that there were keep their constants, their functions and the names of their
variables, and those that are not around the definition keep everything. -/
structure Isolated (s t : Session) (home : Nat) : Prop where
  size : s.scopes.size ≤ t.scopes.size
  parent : ∀ id < s.scopes.size, (t.scope id).parent = (s.scope id).parent
  names : ∀ id < s.scopes.size, SameNames (s.scope id) (t.scope id)
  apart : ∀ id < s.scopes.size, id ∉ s.chain home → t.scope id = s.scope id

/-- The frame of a body is isolation for those outside. -/
theorem Frame.isolated (hs : Sound s) (hf : s.Knows f)
    {bound : List (String × Value)} (h : Frame .statement (s.entered f bound) t) : Isolated s t f.scope := by
  have hsize := h.size
  rw [Session.size_entered] at hsize
  refine ⟨by omega, ?_, ?_, ?_⟩
  · intro id hid
    rw [h.parent id (by rw [Session.size_entered]; omega), Session.scope_entered_of_lt hid]
  · intro id hid
    have hne : id ≠ (s.entered f bound).current := Nat.ne_of_lt hid
    have hnames := h.names id (by rw [Session.size_entered]; omega) (.inl hne)
    rwa [Session.scope_entered_of_lt hid] at hnames
  · intro id hid happart
    have hchain : id ∉ (s.entered f bound).chain (s.entered f bound).current := by
      change id ∉ (s.entered f bound).chain s.scopes.size
      rw [Session.chain_entered hs hf bound, List.mem_cons, not_or]
      exact ⟨Nat.ne_of_lt hid, happart⟩
    rw [h.apart id (by rw [Session.size_entered]; omega) hchain, Session.scope_entered_of_lt hid]

/-- The session after a call, seen by the caller. -/
theorem Isolated.frame (hs : Sound s) (hf : s.Knows f) (h : Isolated s t f.scope) : Frame level s (t.resumed s) := by
  refine ⟨h.size, rfl, h.parent, fun id hid _ => h.names id hid, ?_, fun _ => ⟨rfl, rfl⟩⟩
  intro id hid happart
  exact h.apart id hid fun hmem => happart ((Session.chain_suffix hs.ordered hf.1).subset hmem)

theorem Course.frame (h : Course level s t) (hs : Sound s) : Frame level s t := by
  induction h with
  | refl =>
    exact ⟨Nat.le_refl _, rfl, fun _ _ => rfl, fun _ _ _ => SameNames.refl _, fun _ _ _ => rfl, fun _ => ⟨rfl, rfl⟩⟩
  | change h _ ih => exact (h.frame hs).trans (ih (hs.change h)) hs
  | @call level s t u f hf bound hbody _ ihbody ih =>
    have hentered := hs.entered hf bound
    have hisolated := (ihbody hentered).isolated hs hf
    have hresumed := hs.resumed (hbody.sound hentered) hisolated.size
    exact (hisolated.frame hs hf).trans (ih hresumed) hs

theorem Course.chain_eq (h : Course .expression s t) (hs : Sound s) : t.chain t.current = s.chain s.current := by
  rw [(h.frame hs).current]
  exact (h.frame hs).chain_eq hs hs.current

/-- Evaluating an expression does not change which names are bound. -/
theorem Course.sees_eq (h : Course .expression s t) (hs : Sound s) (name : String) : t.sees name = s.sees name := by
  rw [Session.sees, Session.sees, h.chain_eq hs, Bool.eq_iff_iff, List.any_eq_true, List.any_eq_true]
  refine exists_congr fun id => and_congr_right fun hid => ?_
  rw [((h.frame hs).names id (Session.lt_of_mem_chain hid) (.inr rfl)).binds]

/-- Evaluating an expression does not change which functions can be called. -/
theorem Course.knows (h : Course .expression s t) (hs : Sound s) (hf : s.Knows f) : t.Knows f := by
  have hframe := h.frame hs
  obtain ⟨hmem, name, hname⟩ := hf
  refine ⟨?_, name, ?_⟩
  · rwa [h.chain_eq hs]
  · rwa [(hframe.names f.scope (Session.lt_of_mem_chain hmem) (.inr rfl)).functions]

end Run

end FapLang
