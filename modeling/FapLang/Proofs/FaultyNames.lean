import FapLang.Proofs.Run.Bindings

/-!
Faulty names. Whatever a statement runs, every scope that there was keeps its binding of a faulty
name, unless a loop over that name was begun in that scope (`faulty_names_keep_their_bindings`).
-/

namespace FapLang.Run

open Interp Grammar

/-- Faulty names are only added, and what a faulty name is bound to in a scope stays. -/
structure Quarantined (name : String) (id : Nat) (s t : Session) : Prop where
  faulty : s.faulty.toList <+: t.faulty.toList
  size : s.scopes.size ≤ t.scopes.size
  binding : name ∈ s.faulty → id < s.scopes.size → SameBinding s t id name

namespace Quarantined

variable {s t u : Session} {id : Nat} {name : String} {other : Nat} {bound : String}

theorem refl (name : String) (id : Nat) (s : Session) : Quarantined name id s s :=
  ⟨List.prefix_refl _, Nat.le_refl _, fun _ _ => .of_scope_eq rfl⟩

theorem mem (h : Quarantined name id s t) (hname : name ∈ s.faulty) : name ∈ t.faulty :=
  Array.mem_toList_iff.mp (h.faulty.subset (Array.mem_toList_iff.mpr hname))

theorem trans (h1 : Quarantined name id s t) (h2 : Quarantined name id t u) : Quarantined name id s u :=
  ⟨h1.faulty.trans h2.faulty, h1.size.trans h2.size, fun hname hid =>
    (h1.binding hname hid).trans (h2.binding (h1.mem hname) (Nat.lt_of_lt_of_le hid h1.size))⟩

theorem of_sameFrame (hframe : SameFrame s t) (hgrowth : Growth s t) : Quarantined name id s t :=
  ⟨hgrowth.faulty, by rw [hframe.scopes], fun _ _ => .of_scope_eq (hframe.scope_eq id)⟩

/-- A change of a scope that leaves the name alone if it was faulty. -/
theorem setScope (h : Quarantined name id s t) {f : Scope → Scope}
    (hf : name ∈ s.faulty → id < t.scopes.size → SameBinding t (t.setScope other f) id name) :
    Quarantined name id s (t.setScope other f) := by
  refine ⟨h.faulty, ?_, fun hname hid => ?_⟩
  · rw [Session.size_setScope]
    exact h.size
  · exact (h.binding hname hid).trans (hf hname (Nat.lt_of_lt_of_le hid h.size))

theorem bindVar (h : Quarantined name id s t) (hbound : bound = name → bound ∈ s.faulty → other ≠ id) (v : Value) :
    Quarantined name id s (t.bindVar other bound v) :=
  h.setScope fun hname => .bindVar (fun heq => hbound heq (heq ▸ hname)) v

theorem dropVar (h : Quarantined name id s t) (hbound : bound = name → other ≠ id) :
    Quarantined name id s (t.dropVar other bound) :=
  h.setScope fun _ => .dropVar hbound

theorem bindConst (h : Quarantined name id s t) (hbound : bound ∉ s.faulty) (other : Nat) (v : Value) :
    Quarantined name id s (t.bindConst other bound v) :=
  h.setScope fun hname => .bindConst (fun heq => absurd (heq ▸ hname) hbound) v

theorem bindFunc (h : Quarantined name id s t) (hbound : bound ∉ s.faulty) (other : Nat)
    (f : Function) : Quarantined name id s (t.bindFunc other bound f) :=
  h.setScope fun hname => .bindFunc (fun heq => absurd (heq ▸ hname) hbound) f

theorem entered (name : String) (id : Nat) (s : Session) (f : Function) (bound : List (String × Value)) :
    Quarantined name id s (s.entered f bound) := by
  refine ⟨List.prefix_refl _, ?_, fun _ hid => .of_scope_eq (Session.scope_entered_of_lt hid)⟩
  rw [Session.size_entered]
  exact Nat.le_succ _

theorem resumed (name : String) (id : Nat) (t caller : Session) : Quarantined name id t (t.resumed caller) :=
  ⟨List.prefix_refl _, Nat.le_refl _, fun _ _ => .of_scope_eq rfl⟩

end Quarantined

def Manner.quarantine (name : String) (id : Nat) : Manner where
  moves := Quarantined name id
  stops s _ t := Quarantined name id s t

section Quarantine

variable (name : String) (id : Nat)

instance Manner.quarantine_lawful : (Manner.quarantine name id).Lawful :=
  lawful_of_moves (.refl name id) .trans .of_sameFrame

theorem Manner.quarantine_acting : (Manner.quarantine name id).Acting (Manner.quarantine name id) where
  binding := .of_binding {
    within := .refl _
    declare := fun hbound ht _ v => ht.2.bindVar (fun _ hfaulty => absurd hfaulty hbound) v
    defineConst := fun hbound ht _ v _ => ht.2.bindConst hbound _ v
    assign := fun hbound ht _ _ _ _ => ht.2.bindVar (fun _ hfaulty => absurd hfaulty hbound) _ }
  naming _ _ _ _ _ hbound ht _ _ := ht.2.bindFunc hbound _ _
  requesting _ _ _ _ := ⟨List.prefix_refl _, Nat.le_refl _, fun _ _ => .of_scope_eq rfl⟩

theorem Manner.quarantine_calling : (Manner.quarantine name id).Calling (Manner.quarantine name id) where
  returns _ _ _ h := ((Quarantined.entered name id _ _ _).trans h.2).trans (.resumed name id _ _)
  fails _ _ _ _ h := ((Quarantined.entered name id _ _ _).trans h).trans (.resumed name id _ _)
  breaksOff _ _ _ h := (Quarantined.entered name id _ _ _).trans h

theorem beside_quarantine {stops : Node → Session → Bool}
    (hstops : ∀ n s, loopsOver name id n s = true → stops n s = true) (depth : Nat) :
    Beside (Manner.quarantine name id) (Manner.quarantine name id) (visitUntil stops depth) := by
  refine (Manner.quarantine_acting name id).beside_of_loopsOver (Manner.quarantine_calling name id)
    (fun _ _ _ => .of_imp fun h => h) (fun hne => ?_) hstops depth
  exact ⟨⟨fun {t} hid i => (Quarantined.refl name id t).bindVar (fun hname _ => hid ▸ hne hname) (.int i)⟩,
    fun {t} hid => (Quarantined.refl name id t).dropVar fun hname => hid ▸ hne hname⟩

end Quarantine

theorem Step.faulty_prefix {a : Act} {p q : Point} (h : Step a p q) :
    p.session.faulty.toList <+: q.session.faulty.toList := by
  cases h with
  | aside loops hframe hgrowth => exact hgrowth.faulty
  | declare | defineConst | defineFunc | assign | request | enter | resume | begin | finish | repeats | drops =>
    exact List.prefix_refl _

theorem History.faulty_prefix {p q : Point} {history : List (Act × Point)} (h : History p history q) :
    p.session.faulty.toList <+: q.session.faulty.toList := by
  induction h with
  | nil => exact List.prefix_refl _
  | cons hstep _ ih => exact hstep.faulty_prefix.trans ih

/-- Faulty names are only ever added, up to any visit of a run and between any two points of its
history. From a visit of a statement while a name is faulty to its end, or any other point of it,
every scope that there was keeps its binding of the name, if no loop over it was begun there. -/
theorem faulty_names_keep_their_bindings {s : Session} (hs : Arising s) :
    (∀ code program, parse code = .ok program →
      (∀ stops, s.faulty.toList <+:
        ((executeWithin (visitUntil stops depthLimit) code).exec s).2.faulty.toList) ∧
      ∃ history, History ⟨s, []⟩ history ⟨((execute code).exec s).2, []⟩ ∧
        ∀ before between after p q, history = before ++ between ++ after →
          History ⟨s, []⟩ before p → History p between q → p.session.faulty.toList <+: q.session.faulty.toList) ∧
    ∀ c ∈ deedForms, ∀ n, Of c n → ∀ depth stops,
      s.faulty.toList <+: ((visitUntil stops depth n).exec s).2.faulty.toList ∧
      ∀ name ∈ s.faulty, ∀ id < s.scopes.size, (∀ m t, loopsOver name id m t = true → stops m t = true) →
        SameBinding s ((visitUntil stops depth n).exec s).2 id name := by
  refine ⟨fun code program hparse ↦ ⟨fun stops ↦ ?_, ?_⟩, fun c hc n hn depth stops ↦
    ⟨?_, fun name hname id hid hstops ↦ ?_⟩⟩
  · exact ((beside_growing stops depthLimit).goes_executeWithin Manner.growing_acting hparse s hs.formed).moved.faulty
  · obtain ⟨history, hhistory⟩ := exists_history hs hparse
    exact ⟨history, hhistory, fun _ _ _ _ _ _ _ hbetween ↦ hbetween.faulty_prefix⟩
  · exact ((beside_growing stops depth).deed c hc n hn s hs.formed).moved.faulty
  · exact ((beside_quarantine name id hstops depth).deed c hc n hn s hs.formed).moved.binding hname hid

/-- A name that was defined twice is faulty, and an assignment leaves its first binding. -/
theorem name_defined_twice_not_assigned :
    ∃ s n, Arising s ∧ "x" ∈ s.faulty ∧ parse "x -> 2" = .ok (.tree "start" [n]) ∧
      SameBinding s ((visitUntil (loopsOver "x" 0) 30 n).exec s).2 0 "x" := by
  let deed : Node := .tree "assignment" [.token "IDENT" "x",
    .tree "expr" [.tree "term" [.tree "factor" [.token "NUMBER" "2"]]]]
  let n : Node := .tree "statement" [deed]
  obtain ⟨s, hs, hfaulty, hpos⟩ : ∃ s, Arising s ∧ "x" ∈ s.faulty ∧ 0 < s.scopes.size := by
    refine ⟨_, .execute (.fresh (some [])) (fun _ _ ↦ false) "x -> 1\nNew int x", ?_⟩
    decide +kernel
  have hparse : parse "x -> 2" = .ok (.tree "start" [n]) := by rfl
  exact ⟨s, n, hs, hfaulty, hparse, ((faulty_names_keep_their_bindings hs).2 .statement (by decide) n
    (of_parse_statement hparse) 30 (loopsOver "x" 0)).2 "x" hfaulty 0 hpos fun _ _ h ↦ h⟩

end FapLang.Run
