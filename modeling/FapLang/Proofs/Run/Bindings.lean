import FapLang.Proofs.Run.History

/-!
Bindings of names in scopes. Where no statement that binds a name is begun while a scope is its home
(`Session.home`), and no loop over the name is begun there (`rebinds`), every visit leaves its
binding in the scope as it was (`beside_sparing`).
-/

namespace FapLang.Run

open Interp Grammar

variable {s t : Session} {bound name : String}

/-- A name has one and the same binding in a scope at two points; a list is the same list. -/
structure SameBinding (s t : Session) (id : Nat) (name : String) : Prop where
  vars : (t.scope id).vars.get? name = (s.scope id).vars.get? name
  constants : (t.scope id).constants.get? name = (s.scope id).constants.get? name
  functions : (t.scope id).functions.get? name = (s.scope id).functions.get? name

namespace SameBinding

variable {s t u : Session} {id : Nat} {name : String}

theorem of_scope_eq (h : t.scope id = s.scope id) : SameBinding s t id name :=
  ⟨by rw [h], by rw [h], by rw [h]⟩

theorem trans (h1 : SameBinding s t id name) (h2 : SameBinding t u id name) : SameBinding s u id name :=
  ⟨h2.vars.trans h1.vars, h2.constants.trans h1.constants, h2.functions.trans h1.functions⟩

/-- A change of a scope that leaves the name alone. -/
theorem setScope {other : Nat} {f : Scope → Scope}
    (hvars : id = other → (f (s.scope id)).vars.get? name = (s.scope id).vars.get? name)
    (hconsts : id = other → (f (s.scope id)).constants.get? name = (s.scope id).constants.get? name)
    (hfuns : id = other → (f (s.scope id)).functions.get? name = (s.scope id).functions.get? name)
    (hid : id < s.scopes.size) : SameBinding s (s.setScope other f) id name := by
  by_cases heq : id = other
  · subst heq
    constructor
    · rw [Session.scope_setScope_self hid, hvars rfl]
    · rw [Session.scope_setScope_self hid, hconsts rfl]
    · rw [Session.scope_setScope_self hid, hfuns rfl]
  · exact of_scope_eq (Session.scope_setScope_of_ne heq f)

section Changes

variable {bound : String} {other : Nat} (h : bound = name → other ≠ id)

include h

theorem bindVar (v : Value) (hid : id < s.scopes.size) : SameBinding s (s.bindVar other bound v) id name := by
  refine .setScope (fun heq => ?_) (fun _ => rfl) (fun _ => rfl) hid
  rw [Table.get?_insert, if_neg fun hname => h hname.symm heq.symm]

theorem bindConst (v : Value) (hid : id < s.scopes.size) : SameBinding s (s.bindConst other bound v) id name := by
  refine .setScope (fun _ => rfl) (fun heq => ?_) (fun _ => rfl) hid
  rw [Table.get?_insert, if_neg fun hname => h hname.symm heq.symm]

theorem bindFunc (f : Function) (hid : id < s.scopes.size) : SameBinding s (s.bindFunc other bound f) id name := by
  refine .setScope (fun _ => rfl) (fun _ => rfl) (fun heq => ?_) hid
  rw [Table.get?_insert, if_neg fun hname => h hname.symm heq.symm]

theorem dropVar (hid : id < s.scopes.size) : SameBinding s (s.dropVar other bound) id name := by
  refine .setScope (fun heq => ?_) (fun _ => rfl) (fun _ => rfl) hid
  exact Table.get?_erase_of_ne _ fun hname => h hname.symm heq.symm

end Changes

end SameBinding

/-- Scopes are only added, and a name keeps its binding in a scope that there was. -/
structure Spared (name : String) (id : Nat) (s t : Session) : Prop where
  size : s.scopes.size ≤ t.scopes.size
  binding : id < s.scopes.size → SameBinding s t id name

namespace Spared

variable {name bound : String} {id other : Nat} {s t u : Session}

theorem of_scopes_eq (h : t.scopes = s.scopes) : Spared name id s t := by
  refine ⟨Nat.le_of_eq (congrArg Array.size h.symm), fun _ => .of_scope_eq ?_⟩
  rw [Session.scope_eq, Session.scope_eq, h]

theorem refl (name : String) (id : Nat) (s : Session) : Spared name id s s :=
  .of_scopes_eq rfl

theorem trans (h1 : Spared name id s t) (h2 : Spared name id t u) : Spared name id s u :=
  ⟨h1.size.trans h2.size, fun hid => (h1.binding hid).trans (h2.binding (Nat.lt_of_lt_of_le hid h1.size))⟩

/-- A change of a scope that leaves the name alone. -/
theorem setScope (h : Spared name id s t) {f : Scope → Scope}
    (hf : id < t.scopes.size → SameBinding t (t.setScope other f) id name) : Spared name id s (t.setScope other f) :=
  h.trans ⟨by rw [Session.size_setScope], hf⟩

theorem entered (name : String) (id : Nat) (s : Session) (f : Function) (arguments : List (String × Value)) :
    Spared name id s (s.entered f arguments) := by
  refine ⟨?_, fun hid => .of_scope_eq (Session.scope_entered_of_lt hid)⟩
  rw [Session.size_entered]
  exact Nat.le_succ _

end Spared

/-- The nearest scope that binds a name, or else the current one. -/
def Session.home (s : Session) (name : String) : Nat :=
  (s.nearest? name (s.chain s.current)).getD s.current

theorem Session.home_of_nearest? {id : Nat} (h : s.nearest? name (s.chain s.current) = some id) : s.home name = id := by
  rw [home, h, Option.getD_some]

theorem Session.home_of_sees (h : s.sees name = false) : s.home name = s.current := by
  have hnear : s.nearest? name (s.chain s.current) = none := by
    rw [sees, List.any_eq_false] at h
    exact List.find?_eq_none.mpr h
  rw [home, hnear, Option.getD_none]

theorem SameFrame.home_eq (h : SameFrame s t) (name : String) : t.home name = s.home name := by
  rw [Session.home, Session.home, h.current, h.chain_eq, h.nearest?_eq]

/-- Evaluating an expression leaves every name where it is. -/
theorem Course.home_eq (h : Course .expression s t) (hs : Sound s) (name : String) : t.home name = s.home name := by
  rw [Session.home, Session.home, h.nearest?_eq hs, (h.frame hs).current]

/-- A statement that would define or assign a name in a scope, or a loop that would run over it
there. -/
def rebinds (name : String) (id : Nat) (n : Node) (s : Session) : Bool :=
  target? n == some name && s.home name == id || loopsOver name id n s

/-- The manner of statements that leave the binding of a name in a scope. -/
def Manner.sparing (name : String) (id : Nat) : Manner where
  moves := Spared name id
  stops s _ t := Spared name id s t
  free _ s bound := bound = name → s.home name ≠ id

/-- Expressions beside statements after which `R` holds; a name stays where it is, too. -/
def Manner.homing (R : Session → Session → Prop) (name : String) : Manner where
  moves s t := R s t ∧ t.home name = s.home name
  stops s stop t := R s t ∧ (stop ≠ .exhausted → t.home name = s.home name)

section Homing

variable {R : Session → Session → Prop} (trans : ∀ {s t u}, R s t → R t u → R s u)

include trans

theorem Manner.homing_lawful (refl : ∀ s, R s s)
    (aside : ∀ {s t}, SameFrame s t → Growth s t → R s t) (name : String) :
    (Manner.homing R name).Lawful where
  refl s := ⟨refl s, rfl⟩
  trans h1 h2 := ⟨trans h1.1 h2.1, h2.2.trans h1.2⟩
  prepend h1 h2 := ⟨trans h1.1 h2.1, fun hstop ↦ (h2.2 hstop).trans h1.2⟩
  caught h := ⟨h.1, h.2 (by simp)⟩
  hidden h := ⟨h.1, fun _ ↦ h.2 (by simp)⟩
  aside hframe hgrowth := ⟨aside hframe hgrowth, hframe.home_eq name⟩
  fault s _ _ := ⟨refl s, fun _ ↦ rfl⟩
  exhausted s := ⟨refl s, fun _ ↦ rfl⟩
  spoilt _ _ := ⟨refl _, fun _ ↦ rfl⟩

/-- A call leaves every name of its caller where it is. -/
theorem Manner.homing_calling (entered : ∀ s f arguments, R s (s.entered f arguments))
    (resumed : ∀ t caller, R t (t.resumed caller)) (name : String)
    (free : Bool → Session → String → Prop) :
    (Manner.homing R name).Calling { moves := R, stops := fun s _ t ↦ R s t, free := free } where
  returns hs hf hcourse h := ⟨trans (trans (entered _ _ _) h.2) (resumed _ _),
    (Course.call hf _ hcourse (.refl .expression _)).home_eq hs.sound name⟩
  fails hs hf hcourse _ h := ⟨trans (trans (entered _ _ _) h) (resumed _ _), fun _ ↦
    (Course.call hf _ hcourse (.refl .expression _)).home_eq hs.sound name⟩
  breaksOff _ _ _ h := ⟨trans (entered _ _ _) h, fun hstop ↦ absurd rfl hstop⟩

end Homing

/-- The manner of expressions beside such statements. -/
def Manner.evaluating (name : String) (id : Nat) : Manner :=
  .homing (Spared name id) name

section Sparing

variable (name : String) (id : Nat)

instance Manner.sparing_lawful : (Manner.sparing name id).Lawful :=
  lawful_of_moves (.refl name id) .trans fun hframe _ => .of_scopes_eq hframe.scopes

instance Manner.evaluating_lawful : (Manner.evaluating name id).Lawful :=
  homing_lawful .trans (.refl name id) (fun hframe _ ↦ .of_scopes_eq hframe.scopes) name

variable {name id}

/-- A name that is free and not bound yet is bound in another scope. -/
theorem ne_of_declared (hfree : bound = name → s.home name ≠ id) (hhome : t.home name = s.home name)
    (hsees : t.sees bound = false) (hbound : bound = name) : t.current ≠ id := by
  rw [← Session.home_of_sees hsees, hbound, hhome]
  exact hfree hbound

theorem Manner.sparing_acting : (Manner.evaluating name id).Acting (Manner.sparing name id) where
  binding := .of_binding {
    within := ⟨And.left, And.left⟩
    declare := fun hfree ht hsees v => ht.2.1.setScope (.bindVar (ne_of_declared hfree ht.2.2 hsees) v)
    defineConst := fun hfree ht hsees v _ => ht.2.1.setScope (.bindConst (ne_of_declared hfree ht.2.2 hsees) v)
    assign := fun hfree ht hnear _ _ _ => ht.2.1.setScope (.bindVar (fun hbound => by
      rw [← Session.home_of_nearest? hnear, hbound]
      exact hfree hbound) _) }
  naming _ _ _ _ _ hfree ht hsees _ := ht.2.1.setScope (.bindFunc (ne_of_declared hfree ht.2.2 hsees) _)
  requesting _ _ _ _ := .of_scopes_eq rfl

theorem Manner.sparing_calling : (Manner.evaluating name id).Calling (Manner.sparing name id) :=
  homing_calling .trans (.entered name id) (fun _ _ ↦ .of_scopes_eq rfl) name _

/-- A loop over another name, or in another scope. -/
theorem Manner.sparing_repeating {other : Nat} (h : bound = name → other ≠ id) :
    (Manner.sparing name id).Repeating bound other where
  bind hid i := (Spared.refl name id _).setScope (.bindVar (fun hbound => hid ▸ h hbound) (.int i))
  drop hid := (Spared.refl name id _).setScope (.dropVar fun hbound => hid ▸ h hbound)

theorem freely_of_rebinds {n : Node} (h : rebinds name id n s = false) (hs : Formed s)
    (hbound : target? n = some bound) (b : Bool) : (Manner.sparing name id).Freely b bound s := by
  rintro t hcourse - rfl
  rw [hcourse.home_eq hs.sound]
  rintro rfl
  simp [rebinds, hbound] at h

variable (name id)

/-- Where nothing is begun that would bind the name in the scope, it keeps its binding there. -/
theorem beside_sparing {stops : Node → Session → Bool} (hstops : ∀ n s, rebinds name id n s = true → stops n s = true)
    (depth : Nat) : Beside (Manner.evaluating name id) (Manner.sparing name id) (visitUntil stops depth) := by
  refine Manner.sparing_acting.beside_visitUntil Manner.sparing_calling stops (fun n s bound hs hbound => ?_)
    (fun n s parts hparts _ => ?_) depth
  · by_cases hrebinds : rebinds name id n s = true
    · exact .inl (hstops n s hrebinds)
    · exact .inr (freely_of_rebinds (Bool.eq_false_iff.mpr hrebinds) hs hbound _)
  · by_cases hover : loopsOver name id n s = true
    · exact .inl (hstops n s (by rw [rebinds, hover, Bool.or_true]))
    · exact .inr (Manner.sparing_repeating (ne_of_loopsOver (Bool.eq_false_iff.mpr hover) hparts))

end Sparing

end FapLang.Run
