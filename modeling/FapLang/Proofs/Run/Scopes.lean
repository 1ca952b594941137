import FapLang.Run.Lookup
import Mathlib.Data.List.Infix

/-!
Tables, scopes and chains of scopes. A chain is found by following parents (`chain_eq`), the chain
of a scope on it is a part of it (`chain_suffix`), and it depends on nothing else (`chain_congr`).
-/

namespace FapLang.Run

variable {s : Session} {id : Nat} {name : String}

namespace Table

variable {α : Type}

/-- The names of a table, in the order in which they were first bound. -/
def names (t : Table α) : List String :=
  t.map (·.1)

theorem has_cons (entry : String × α) (rest : Table α) (name : String) :
    has (entry :: rest) name = (decide (name = entry.1) || has rest name) := by
  rw [has, List.any_cons, Bool.beq_comm]
  rfl

theorem get?_cons (entry : String × α) (rest : Table α) (name : String) :
    get? (entry :: rest) name = if name = entry.1 then some entry.2 else get? rest name := by
  rw [get?, List.lookup_cons]
  by_cases hname : name = entry.1
  · simp [hname]
  · rw [beq_eq_false_iff_ne.mpr hname, if_neg hname, get?]

theorem insert_cons (entry : String × α) (rest : Table α) (name : String) (a : α) : insert (entry :: rest) name a =
      if entry.1 = name then (name, a) :: rest else entry :: insert rest name a := by
  rw [insert]
  by_cases hentry : entry.1 = name
  · simp [hentry]
  · simp [hentry]

theorem has_eq_contains (t : Table α) (name : String) : t.has name = t.names.contains name := by
  induction t with
  | nil => rfl
  | cons entry rest ih =>
    rw [has_cons, ih, names, names, List.map_cons, List.contains_cons]
    rfl

theorem has_eq_isSome (t : Table α) (name : String) : t.has name = (t.get? name).isSome := by
  induction t with
  | nil => rfl
  | cons entry rest ih =>
    rw [has_cons, get?_cons, ih]
    by_cases hname : name = entry.1
    · simp [hname]
    · simp [hname]

theorem get?_of_has_eq_false {t : Table α} (h : t.has name = false) : t.get? name = none := by
  rw [has_eq_isSome] at h
  exact Option.isNone_iff_eq_none.mp (Option.isSome_eq_false_iff.mp h)

theorem get?_insert (t : Table α) (name other : String) (a : α) :
    (t.insert name a).get? other = if other = name then some a else t.get? other := by
  induction t with
  | nil => rw [insert, get?_cons]
  | cons entry rest ih =>
    rw [insert_cons]
    by_cases hentry : entry.1 = name
    · rw [if_pos hentry, get?_cons, get?_cons, hentry]
      by_cases hother : other = name
      · simp [hother]
      · simp [hother]
    · rw [if_neg hentry, get?_cons, get?_cons, ih]
      by_cases hother : other = entry.1
      · simp [hother, hentry]
      · simp [hother]

theorem has_insert (t : Table α) (name other : String) (a : α) :
    (t.insert name a).has other = (decide (other = name) || t.has other) := by
  rw [has_eq_isSome, has_eq_isSome, get?_insert]
  by_cases hother : other = name
  · simp [hother]
  · simp [hother]

/-- Binding a name again keeps all names in their places. -/
theorem names_insert_of_has {t : Table α} (h : t.has name = true) (a : α) : (t.insert name a).names = t.names := by
  induction t with
  | nil => cases h
  | cons entry rest ih =>
    rw [insert_cons]
    by_cases hentry : entry.1 = name
    · rw [if_pos hentry, names, names, List.map_cons, List.map_cons, hentry]
    · rw [if_neg hentry]
      rw [has_cons, Bool.or_eq_true, decide_eq_true_eq] at h
      exact congrArg (entry.1 :: ·) (ih (h.resolve_left (Ne.symm hentry)))

theorem mem_insert {t : Table α} {a : α} {entry : String × α}
    (h : entry ∈ t.insert name a) : entry = (name, a) ∨ entry ∈ t := by
  induction t with
  | nil => exact .inl (List.mem_singleton.mp h)
  | cons first rest ih =>
    rw [insert_cons] at h
    by_cases hfirst : first.1 = name
    · rw [if_pos hfirst] at h
      exact (List.mem_cons.mp h).imp_right fun hrest => List.mem_cons_of_mem _ hrest
    · rw [if_neg hfirst] at h
      rcases List.mem_cons.mp h with h | h
      · exact .inr (by rw [h]; exact .head _)
      · exact (ih h).imp_right fun hrest => List.mem_cons_of_mem _ hrest

theorem mem_of_get? {t : Table α} {a : α} (h : t.get? name = some a) : (name, a) ∈ t := by
  induction t with
  | nil => simp [get?] at h
  | cons entry rest ih =>
    rw [get?_cons] at h
    by_cases hname : name = entry.1
    · rw [if_pos hname, Option.some.injEq] at h
      rw [hname, ← h]
      exact .head _
    · rw [if_neg hname] at h
      exact .tail _ (ih h)

end Table

theorem Names.mem_insert {names : Names} {other : String} :
    other ∈ names.insert name ↔ other ∈ names ∨ other = name := by
  rw [Names.insert]
  split
  · next hmem => exact ⟨.inl, fun h => h.elim id fun heq => heq ▸ List.contains_iff_mem.mp hmem⟩
  · rw [List.mem_append, List.mem_singleton]

theorem Names.subset_insert (names : Names) (name : String) : names ⊆ names.insert name :=
  fun _ h => mem_insert.mpr (.inl h)

namespace Session

theorem scope_eq (s : Session) (id : Nat) : s.scope id = (s.scopes[id]?).getD (Scope.empty none) :=
  Array.getD_eq_getD_getElem?

theorem getElem?_scopes (h : id < s.scopes.size) : s.scopes[id]? = some (s.scope id) := by
  rw [scope_eq, Array.getElem?_eq_getElem h, Option.getD_some]

theorem scope_setScope_self (h : id < s.scopes.size) (f : Scope → Scope) :
    (s.setScope id f).scope id = f (s.scope id) := by
  rw [scope_eq, setScope, Array.getElem?_modify, if_pos rfl, getElem?_scopes h]
  rfl

theorem scope_setScope_of_ne {other : Nat} (h : other ≠ id) (f : Scope → Scope) :
    (s.setScope id f).scope other = s.scope other := by
  rw [scope_eq, scope_eq, setScope, Array.getElem?_modify, if_neg h.symm]

@[simp] theorem size_setScope (s : Session) (id : Nat) (f : Scope → Scope) :
    (s.setScope id f).scopes.size = s.scopes.size :=
  Array.size_modify

end Session

/-- Every scope lies in a scope with a smaller number. -/
def Ordered (scopes : Array Scope) : Prop :=
  ∀ (id : Nat) (scope : Scope) (parent : Nat),
    scopes[id]? = some scope → scope.parent = some parent → parent < id

/-- Chains depend on the parents only, and more steps than needed change nothing. -/
theorem chainFrom_congr {first second : Array Scope} (hord : Ordered first)
    (hsame : ∀ i ≤ id, (first[i]?).map Scope.parent = (second[i]?).map Scope.parent)
    {fuel other : Nat} (hfuel : id < fuel) (hother : id < other) :
    chainFrom first fuel id = chainFrom second other id := by
  induction fuel generalizing id other with
  | zero => exact absurd hfuel (Nat.not_lt_zero _)
  | succ fuel ih =>
    obtain ⟨other, rfl⟩ := Nat.exists_eq_add_one_of_ne_zero (Nat.ne_zero_of_lt hother)
    have hid := hsame id (Nat.le_refl id)
    rw [chainFrom, chainFrom]
    cases hfirst : first[id]? with
    | none =>
      rw [hfirst] at hid
      rw [Option.map_eq_none_iff.mp hid.symm]
    | some scope =>
      rw [hfirst] at hid
      obtain ⟨scope', hsnd, hpar⟩ := Option.map_eq_some_iff.mp hid.symm
      rw [hsnd]
      dsimp only
      rw [hpar]
      cases hup : scope.parent with
      | none => rfl
      | some parent =>
        have hlt := hord id scope parent hfirst hup
        exact congrArg (id :: ·)
          (ih (fun i hi => hsame i (by omega)) (by omega) (by omega))

namespace Session

variable {s t : Session}

/-- A chain is the scope itself and the chain of its parent. -/
theorem chain_eq (hord : Ordered s.scopes) (hid : id < s.scopes.size) :
    s.chain id = id :: (match (s.scope id).parent with
      | some parent => s.chain parent
      | none => []) := by
  obtain ⟨fuel, hfuel⟩ := Nat.exists_eq_add_one_of_ne_zero (Nat.ne_zero_of_lt hid)
  rw [chain, hfuel, chainFrom, getElem?_scopes hid]
  dsimp only
  cases hup : (s.scope id).parent with
  | none => rfl
  | some parent =>
    have hlt := hord id _ parent (getElem?_scopes hid) hup
    refine congrArg (id :: ·) ?_
    exact chainFrom_congr hord (fun _ _ => rfl) (by omega) (by omega)

theorem mem_chain_self (hord : Ordered s.scopes) (hid : id < s.scopes.size) : id ∈ s.chain id := by
  rw [chain_eq hord hid]
  exact .head _

theorem lt_of_mem_chain {i : Nat} (h : i ∈ s.chain id) : i < s.scopes.size := by
  have hfrom : ∀ fuel id, i ∈ chainFrom s.scopes fuel id → i < s.scopes.size := by
    intro fuel
    induction fuel with
    | zero => exact fun id hmem => absurd hmem List.not_mem_nil
    | succ fuel ih =>
      intro id hmem
      rw [chainFrom] at hmem
      cases hscope : s.scopes[id]? with
      | none =>
        rw [hscope] at hmem
        cases hmem
      | some scope =>
        rw [hscope] at hmem
        have hlt : id < s.scopes.size := (Array.getElem?_eq_some_iff.mp hscope).1
        dsimp only at hmem
        cases hup : scope.parent with
        | none =>
          rw [hup, List.mem_singleton] at hmem
          rwa [hmem]
        | some parent =>
          rw [hup] at hmem
          rcases List.mem_cons.mp hmem with rfl | hmem
          · exact hlt
          · exact ih parent hmem
  exact hfrom _ id h

/-- The chain of a scope on a chain is the rest of that chain. -/
theorem chain_suffix (hord : Ordered s.scopes) {i : Nat} (h : i ∈ s.chain id) : s.chain i <:+ s.chain id := by
  induction id using Nat.strong_induction_on with
  | _ id ih =>
    by_cases hid : id < s.scopes.size
    · rw [chain_eq hord hid] at h
      rcases List.mem_cons.mp h with rfl | h
      · exact List.suffix_refl _
      · rw [chain_eq hord hid]
        cases hup : (s.scope id).parent with
        | none =>
          rw [hup] at h
          cases h
        | some parent =>
          rw [hup] at h
          have hlt := hord id _ parent (getElem?_scopes hid) hup
          exact (ih parent hlt h).trans (List.suffix_cons id _)
    · have hnone : s.scopes[id]? = none := by simpa using hid
      have hchain : s.chain id = [] := by
        rw [chain]
        cases s.scopes.size with
        | zero => rfl
        | succ fuel => rw [chainFrom, hnone]
      rw [hchain] at h
      cases h

/-- A session that keeps the parents of the scopes that there were keeps their chains. -/
theorem chain_congr (hord : Ordered s.scopes) (hsize : s.scopes.size ≤ t.scopes.size)
    (hpar : ∀ id < s.scopes.size, (t.scope id).parent = (s.scope id).parent)
    (hid : id < s.scopes.size) : t.chain id = s.chain id := by
  refine (chainFrom_congr hord (fun i hi => ?_) hid (by omega)).symm
  have hi' : i < s.scopes.size := by omega
  rw [getElem?_scopes hi', getElem?_scopes (by omega : i < t.scopes.size), Option.map_some,
    Option.map_some, hpar i hi']

/-- Whether a name is bound in the current scope or around it. -/
def sees (s : Session) (name : String) : Bool :=
  (s.chain s.current).any fun id ↦ (s.scope id).binds name

end Session

end FapLang.Run
