import FapLang.Proofs.Run.Reachable

/-!
Constants. A constant is bound only where its name is not seen, so a scope keeps its constants over
any number of runs (`Later.constant`), and whoever finds one first on the way out reads its value
(`exec_valueIn_constant`).
-/

namespace FapLang

namespace Run

open Interp

section Keeping

variable {s t : Session} {id : Nat} {name : String} {v : Value}

/-- Only scopes that there are have constants. -/
theorem Session.lt_of_constant (h : (s.scope id).constants.get? name = some v) : id < s.scopes.size := by
  by_contra hid
  rw [Session.scope_eq, Array.getElem?_eq_none (Nat.le_of_not_lt hid), Option.getD_none] at h
  simp [Scope.empty, Table.get?] at h

theorem Session.constant_setScope {changed : Nat} {f : Scope → Scope} (h : (s.scope id).constants.get? name = some v)
    (hf : id = changed → (f (s.scope id)).constants.get? name = some v) :
    ((s.setScope changed f).scope id).constants.get? name = some v := by
  by_cases hid : id = changed
  · subst hid
    rw [scope_setScope_self (lt_of_constant h)]
    exact hf rfl
  · rwa [scope_setScope_of_ne hid]

variable (hs : Sound s) (hget : (s.scope id).constants.get? name = some v)

include hs hget

theorem Change.constant {level : Level} (h : Change level s t) : (t.scope id).constants.get? name = some v := by
  cases h with
  | aside h => rwa [h.scope_eq]
  | request => exact hget
  | define | defineFunc | dropVar | assign => exact Session.constant_setScope hget fun _ => hget
  | @defineConst _ other w hother _ =>
    refine Session.constant_setScope hget ?_
    rintro rfl
    -- the current scope binds `name`, so `name` is seen and cannot be the new constant
    have hbinds : (s.scope s.current).binds name = true := by
      rw [Scope.binds, Table.has_eq_isSome (s.scope s.current).constants, hget]
      simp
    have hne : name ≠ other := by
      rintro rfl
      have hsees : s.sees name = true :=
        List.any_eq_true.mpr ⟨s.current, Session.mem_chain_self hs.ordered hs.current, hbinds⟩
      exact Bool.false_ne_true (hother.symm.trans hsees)
    rw [Table.get?_insert, if_neg hne]
    exact hget

theorem Course.constant {level : Level} (h : Course level s t) : (t.scope id).constants.get? name = some v := by
  induction h with
  | refl => exact hget
  | change h _ ih => exact ih (hs.change h) (h.constant hs hget)
  | @call level s t u f hf bound hbody _ ihbody ih =>
    have hentered := hs.entered hf bound
    have hsize := hbody.size_le
    rw [Session.size_entered] at hsize
    refine ih (hs.resumed (hbody.sound hentered) (by omega)) (ihbody hentered ?_)
    rwa [Session.scope_entered_of_lt (Session.lt_of_constant hget)]

theorem Leads.constant (h : Leads s t) : (t.scope id).constants.get? name = some v := by
  induction h with
  | course h => exact h.constant hs hget
  | inside h hf bound _ ih =>
    have hkept := h.constant hs hget
    refine ih ((h.sound hs).entered hf bound) ?_
    rwa [Session.scope_entered_of_lt (Session.lt_of_constant hkept)]

theorem Later.constant (h : Later s t) : (t.scope id).constants.get? name = some v := by
  induction h with
  | refl => exact hget
  | setModes _ modes source ih => exact Session.constant_setScope ih fun _ => ih
  | execute h stops code ih => exact (leads_executeWithin (h.sound hs) stops code).constant (h.sound hs) ih
  | point h hpoint ih => exact hpoint.constant (h.sound hs) ih

end Keeping

/-- A constant is what a reader finds, if no scope on the way binds its name. -/
theorem exec_valueIn_constant {name : String} {v : Value} {nearer outer : List Nat} {id : Nat} {s : Session}
    (hnearer : ∀ i ∈ nearer, (s.scope i).binds name = false)
    (hget : (s.scope id).constants.get? name = some v) (hv : v.isPlain = true) :
    ∃ t, (valueIn name (nearer ++ id :: outer)).exec s = (.ok v, t) := by
  have hbinds : (s.scope id).binds name = true := by simp [Scope.binds, Table.has_eq_isSome, hget]
  have hnear : s.nearest? name (nearer ++ id :: outer) = some id := by
    rw [Session.nearest?, List.find?_append, List.find?_eq_none.mpr fun i hi => by simp [hnearer i hi], Option.none_or]
    exact Session.nearest?_cons_of_binds hbinds outer
  obtain ⟨t, hexec, -⟩ := tells_valueIn hnear (by rw [Scope.datum?, hget, Option.some_or])
    (Value.isWritable_of_isPlain hv s.cells)
  exact ⟨t, hexec⟩

/-- A constant keeps its value for ever, and whoever finds no nearer name reads that value. -/
theorem constant_immutable {s t : Session} (hs : Reachable s) {id : Nat} {name : String} {v : Value}
    (hget : (s.scope id).constants.get? name = some v) (hlater : Later s t) :
    (t.scope id).constants.get? name = some v ∧
    ∀ reader nearer outer, t.chain reader = nearer ++ id :: outer →
      (∀ i ∈ nearer, (t.scope i).binds name = false) →
      ∃ u, (valueIn name (t.chain reader)).exec t = (.ok v, u) := by
  have hkept := hlater.constant hs.sound hget
  refine ⟨hkept, ?_⟩
  intro reader nearer outer hchain hnearer
  have hlt := Session.lt_of_constant hkept
  have hplain := (hlater.sound hs.sound).constants id hlt _ (Table.mem_of_get? hkept)
  rw [hchain]
  exact exec_valueIn_constant hnearer hkept hplain

/-- A loop over the name of a constant assigns to it, and so does a function that sees it. -/
theorem constant_immutable_assigned :
    ∃ s t, Reachable s ∧ (s.scope 0).constants.get? "K" = some (.int 7) ∧ Later s t ∧ t.errors.size = 2 ∧
      (t.scope 0).constants.get? "K" = some (.int 7) ∧ t.chain 1 = [1] ++ 0 :: [] ∧
      ∃ u, (valueIn "K" (t.chain 1)).exec t = (.ok (.int 7), u) := by
  obtain ⟨s, t, hs, hlater, hseven, herrors, hchain, hnearer⟩ : ∃ s t, Reachable s ∧ Later s t ∧
      ((s.scope 0).constants.get? "K").bind Value.int? = some 7 ∧ t.errors.size = 2 ∧ t.chain 1 = [1] ++ 0 :: [] ∧
        ∀ i ∈ [1], (t.scope i).binds "K" = false := by
    refine ⟨_, _, Reachable.execute ⟨some [], .refl⟩ "Const int K -> 7", .execute .refl (fun _ _ ↦ false)
      "Fuc f(int k)[\nK -> k\n]\nAgain (2, K)[\nK -> 1\n]\nf(5)", ?_⟩
    decide +kernel
  have hget : (s.scope 0).constants.get? "K" = some (.int 7) := by
    obtain ⟨v, hv, hint⟩ := Option.bind_eq_some_iff.mp hseven
    rw [hv, Value.eq_int_of_int? hint]
  have hkept := constant_immutable hs hget hlater
  exact ⟨s, t, hs, hget, hlater, herrors, hkept.1, hchain, hkept.2 1 [1] [] hchain hnearer⟩

end Run

end FapLang
