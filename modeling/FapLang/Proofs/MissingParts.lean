import FapLang.Proofs.Run.Arising
import FapLang.Proofs.Run.Inherited

/-!
Parts that are missing. The trees of accepted texts have all the children that steps ask for; what
may be missing is the name or the type of a parameter, if a text has added to a list of parameters
(`Session.isSpoilt`, `parts_missing_only_if_spoilt`).
-/

namespace FapLang.Run

open Interp Grammar

variable {f : Fault}

/-! ### Spoilt parameters -/

/-- The parameters of a function cannot be read, for a reason. -/
def Session.isSpoilt (s : Session) (f : Fault) : Bool :=
  s.scopes.any fun scope => scope.functions.any fun entry =>
    match signature (s.cells.getD entry.2.params #[]).toList with
    | .error g => g = f
    | .ok _ => false

theorem Session.isSpoilt_of_knows {s : Session} {g : Function} (hg : s.Knows g)
    (hf : signature (s.cells.getD g.params #[]).toList = .error f) : s.isSpoilt f = true := by
  obtain ⟨hmem, name, hget⟩ := hg
  have hid := Session.lt_of_mem_chain hmem
  rw [Session.isSpoilt, Array.any_eq_true]
  refine ⟨g.scope, hid, List.any_eq_true.mpr ⟨(name, g), ?_, ?_⟩⟩
  · rw [Session.scope_eq, Array.getElem?_eq_getElem hid] at hget
    exact Table.mem_of_get? hget
  · dsimp only
    rw [hf]
    exact decide_eq_true rfl

/-- A member that is missing is missing under its own name. -/
theorem eq_keyMissing_of_member {v : Value} {name : String} (h : v.member name = .error f)
    (hf : f.isLacking = true) : f = .keyMissing name := by
  unfold Value.member at h
  split at h
  · exact absurd (Except.error.inj h ▸ hf) (by decide)
  · exact absurd (Except.error.inj h ▸ hf) (by decide)
  · split at h
    · split at h
      · cases h
      · exact (Except.error.inj h).symm
    · rw [← Except.error.inj h] at hf
      simp [Fault.isLacking, Fault.kind] at hf

/-- A parameter may lack a name or a type, and nothing else. -/
theorem eq_keyMissing_of_signature {params : List Value} (h : signature params = .error f)
    (hf : f.isLacking = true) : f = .keyMissing "name" ∨ f = .keyMissing "type" := by
  obtain ⟨v, name, hname, hv⟩ := exists_member_of_signature h
  rw [eq_keyMissing_of_member hv hf]
  exact hname.imp (congrArg _) (congrArg _)

/-! ### The manner in which nothing is missing -/

/-- The manner in which records are added and nothing is missing unless parameters are spoilt. -/
def Manner.finding : Manner where
  moves := Growth
  stops s stop t := Growth s t ∧ ∀ f, stop = .fault f → f.isLacking = true → t.isSpoilt f = true

theorem hideInternal_of_isLacking (h : (hideInternal f).isLacking = true) : hideInternal f = f := by
  unfold hideInternal at h ⊢
  split
  · rename_i hinternal
    rw [if_pos hinternal] at h
    cases h
  · rfl

instance Manner.finding_lawful : Manner.finding.Lawful where
  refl := .refl
  trans := .trans
  prepend h1 h2 := ⟨h1.trans h2.1, h2.2⟩
  caught h := h.1
  hidden {s t f} h := by
    refine ⟨h.1, fun g hg hlacking => ?_⟩
    cases hg
    have hsame := hideInternal_of_isLacking hlacking
    rw [hsame] at hlacking ⊢
    exact h.2 f rfl hlacking
  aside _ hgrowth := hgrowth
  fault s f hf := ⟨.refl s, fun g hg hlacking => by
    rw [← Stop.fault.inj hg, Fault.isLacking_of_isGrave hf] at hlacking
    exact absurd hlacking Bool.false_ne_true⟩
  exhausted s := ⟨.refl s, by simp⟩
  spoilt {s g f} hg hf := ⟨.refl s, fun h heq _ => Stop.fault.inj heq ▸ Session.isSpoilt_of_knows hg hf⟩

theorem Manner.finding_acting : Manner.finding.Acting Manner.finding :=
  acting_of_growing

theorem Manner.finding_calling : Manner.finding.Calling Manner.finding where
  returns := growing_calling.returns
  fails {s t f bound g} hs hf hcourse ht h := ⟨growing_calling.fails (g := g) hs hf hcourse ht h.1, h.2⟩
  breaksOff hs hf ht h := ⟨growing_calling.breaksOff hs hf ht h.1, by simp⟩

/-! ### Alarms -/

/-- Visits that break off with an error without a text if a part is missing though no parameters are
spoilt. -/
def visitAlarmed : Nat → Node → Interp Value
  | 0, _ => throw .exhausted
  | depth + 1, n =>
    recover (visitNode (visitAlarmed depth) n) fun f => do
      if f.isLacking && !(← get).isSpoilt f then
        modify fun s => { s with errors := s.errors.push "" }
        throw .exhausted
      else Interp.fail (hideInternal f)

/-- How a visit ends whose step ends in some way. -/
def alarmed : Except Stop Value × Session → Except Stop Value × Session
  | (.error (.fault f), t) =>
    if f.isLacking && !t.isSpoilt f then (.error .exhausted, { t with errors := t.errors.push "" })
    else (.error (.fault (hideInternal f)), t)
  | ending => ending

theorem exec_visitAlarmed (depth : Nat) (n : Node) (s : Session) :
    (visitAlarmed (depth + 1) n).exec s = alarmed ((visitNode (visitAlarmed depth) n).exec s) := by
  rw [visitAlarmed, exec_recover]
  cases (visitNode (visitAlarmed depth) n).exec s with
  | mk outcome t =>
    cases outcome with
    | ok v => rfl
    | error stop =>
      cases stop with
      | fault f =>
        rw [alarmed]
        dsimp only
        rw [exec_get_bind]
        split <;> rfl
      | exhausted => rfl

theorem eq_of_alarmed_ok {ending : Except Stop Value × Session} {v : Value} {t : Session}
    (h : alarmed ending = (.ok v, t)) : ending = (.ok v, t) := by
  obtain ⟨outcome, u⟩ := ending
  cases outcome with
  | ok w => exact h
  | error stop =>
    cases stop with
    | fault f =>
      rw [alarmed] at h
      split at h
      · cases h
      · cases h
    | exhausted => cases h

theorem tame_visitAlarmed (depth : Nat) : Tame (visitAlarmed depth) := by
  have halarm : ∀ {level} (f : Fault), (do
      if f.isLacking && !(← get).isSpoilt f then
        modify fun s => { s with errors := s.errors.push "" }
        throw .exhausted
      else Interp.fail (hideInternal f) : Interp Value).Follows level := fun f =>
    .bind .get fun _ => .ite (.bind (Stays.follows fun _ => ⟨rfl, rfl, rfl, rfl, rfl, by simp, .inl rfl⟩)
      fun _ => .throw _) (.fail _)
  induction depth with
  | zero => exact ⟨fun n _ => .throw _, fun n _ => .throw _⟩
  | succ depth ih =>
    exact ⟨fun n hn => .recover (ih.visitNode.calm n hn) halarm,
      fun n hn => .recover (ih.visitNode.orderly n hn) halarm⟩

/-- Where nothing is missing, no alarm is sounded. -/
theorem Manner.Ends.alarmed {s : Session} {ending : Except Stop Value × Session} (h : Manner.finding.Ends s ending) :
    Manner.finding.Ends s (alarmed ending) := by
  obtain ⟨outcome, t⟩ := ending
  cases outcome with
  | ok v => exact h
  | error stop =>
    cases stop with
    | fault f =>
      obtain ⟨hformed, hstops⟩ := h
      have hsilent : (f.isLacking && !t.isSpoilt f) = false := by
        cases hlacking : f.isLacking with
        | false => rfl
        | true => rw [hstops.2 f rfl hlacking, Bool.not_true, Bool.and_false]
      rw [Run.alarmed, hsilent, if_neg Bool.false_ne_true]
      exact ⟨hformed, Manner.finding_lawful.hidden hstops⟩
    | exhausted => exact h

theorem beside_finding (depth : Nat) : Beside Manner.finding Manner.finding (visitAlarmed depth) := by
  have hact := Manner.finding_acting
  induction depth with
  | zero => exact Beside.of_exhausted Manner.finding_calling fun _ _ => rfl
  | succ depth ih =>
    have hgoes : ∀ n, (visitNode (visitAlarmed depth) n).Goes Manner.finding →
        (visitAlarmed (depth + 1) n).Goes Manner.finding := by
      intro n hn s hs
      rw [exec_visitAlarmed]
      exact (hn s hs).alarmed
    have hvalue : ∀ {n s v t}, (visitAlarmed (depth + 1) n).exec s = (.ok v, t) →
        (visitNode (visitAlarmed depth) n).exec s = (.ok v, t) := by
      intro n s v t h
      rw [exec_visitAlarmed] at h
      exact eq_of_alarmed_ok h
    refine ih.deeper hact Manner.finding_calling (tame_visitAlarmed (depth + 1)) hgoes
      (fun n hend => hgoes n fun s hs => hend s hs fun _ _ => .of_imp id) hvalue fun n hn => hgoes n fun s hs => ?_
    refine ih.ends_visitNode hact (by decide) hn hs (fun _ _ => .of_imp id) fun _ _ _ _ => ?_
    exact ⟨⟨fun _ _ => .of_eq rfl rfl rfl⟩, fun _ => .of_eq rfl rfl rfl⟩

/-! ### Runs with alarms -/

/-- The second step is the first one, or an alarm is sounded in it. -/
def Warns {α : Type} (m m' : Interp α) : Prop :=
  ∀ s, m'.exec s = m.exec s ∨ ∃ t, m'.exec s = (.error .exhausted, t) ∧ "" ∈ t.errors

namespace Warns

variable {α β : Type}

protected theorem refl (m : Interp α) : Warns m m :=
  fun _ => .inl rfl

protected theorem bind {m m' : Interp α} {k k' : α → Interp β} (h : Warns m m') (hk : ∀ a, Warns (k a) (k' a)) :
    Warns (m >>= k) (m' >>= k') := by
  intro s
  rcases h s with heq | ⟨t, halarm, hmem⟩
  · rw [exec_bind, exec_bind, heq]
    cases m.exec s with
    | mk outcome t =>
      cases outcome with
      | ok a => exact hk a t
      | error stop => exact .inl rfl
  · exact .inr ⟨t, by rw [exec_bind_error halarm], hmem⟩

protected theorem recover {m m' : Interp α} (h : Warns m m') (handler : Fault → Interp α) :
    Warns (recover m handler) (recover m' handler) := by
  intro s
  rcases h s with heq | ⟨t, halarm, hmem⟩
  · exact .inl (by rw [exec_recover, exec_recover, heq])
  · exact .inr ⟨t, by rw [exec_recover, halarm], hmem⟩

end Warns

theorem inherited_warns : Inherited fun _ m m' => Warns m m' where
  refl := .refl
  bind := .bind
  tidy _ h := .recover h _

theorem warns_visitAlarmed (depth : Nat) (n : Node) : Warns (visit depth n) (visitAlarmed depth n) := by
  induction depth generalizing n with
  | zero => exact .refl _
  | succ depth ih =>
    intro s
    rw [exec_visitAlarmed, visit, exec_recover]
    rcases inherited_warns.visitNode ih n s with heq | ⟨t, halarm, hmem⟩
    · rw [heq]
      cases (visitNode (visit depth) n).exec s with
      | mk outcome t =>
        cases outcome with
        | ok v => exact .inl rfl
        | error stop =>
          cases stop with
          | fault f =>
            rw [alarmed]
            split
            · exact .inr ⟨_, rfl, Array.mem_push_self⟩
            · exact .inl rfl
          | exhausted => exact .inl rfl
    · exact .inr ⟨t, by rw [halarm]; rfl, hmem⟩

/-- An alarm is no error of a run. -/
theorem not_isRecord_empty : ¬ IsRecord "" := by
  rintro ⟨modes, content, line, message, htext, -⟩
  unfold errorText colour at htext
  split at htext
  · simp at htext
  · split at htext
    · simp at htext
    · simp at htext

/-- Visits that sound an alarm whenever a part is missing although no parameters are spoilt never do
so, and no recorded error tells of a tree without the shape of its rule. Where parameters are
spoilt, they may lack a name or a type, and calls of the function fail for it once the arguments
have their values. -/
theorem parts_missing_only_if_spoilt {s : Session} (hs : Arising s) {code : String} {program : Node}
    (hparse : parse code = .ok program) :
    (executeWithin (visitAlarmed depthLimit) code).exec s = (execute code).exec s ∧
    (∀ text ∈ ((execute code).exec s).2.errors, ∃ modes content line message,
      text = errorText modes content line message ∧ isStructural message = false) ∧
    ∀ (t : Session) (g : Function) (f : Fault), signature (t.cells.getD g.params #[]).toList = .error f →
      (f.isLacking = true → f = .keyMissing "name" ∨ f = .keyMissing "type") ∧
      ∀ depth name cs u args, (visitAll (visit depth) (callArgs cs)).exec u = (.ok args, t) →
        (callFunction (visit depth) name g cs).exec u = (.error (.fault f), t) := by
  refine ⟨?_, fun text htext ↦ ?_, fun t g f hf ↦ ⟨eq_keyMissing_of_signature hf, fun depth name cs u args hargs ↦ ?_⟩⟩
  · rcases inherited_warns.executeWithin (warns_visitAlarmed depthLimit) (fun _ h ↦ .recover h _) code s with heq | ⟨t, halarm, hmem⟩
    · exact heq
    · have hend := (beside_finding depthLimit).goes_executeWithin Manner.finding_acting hparse s hs.formed
      rw [halarm] at hend
      exact absurd (hend.2.1.forall_errors hs.isRecord "" hmem) not_isRecord_empty
  · have hrun : Arising ((execute code).exec s).2 := by
      have hrun := Arising.execute hs (fun _ _ ↦ false) code
      rwa [visitUntil_never] at hrun
    obtain ⟨modes, content, line, message, heq, hordinary⟩ := hrun.isRecord text htext
    exact ⟨modes, content, line, message, heq, hordinary.isStructural_eq_false⟩
  · rw [callFunction, exec_bind_ok hargs]
    rw [exec_bind_ok (exec_itemsOf g.params t), hf]
    rfl

/-- The parameters of a function are named, and something is added to them that has no name. -/
theorem spoilt_call_lacks_a_name :
    ∃ s, Arising s ∧ s.isSpoilt (.keyMissing "name") = true ∧
      "\x1b[91m[ERROR] 'name'\x1b[0m" ∈ ((execute "f(1)").exec s).2.errors ∧
      (executeWithin (visitAlarmed depthLimit) "f(1)").exec s = (execute "f(1)").exec s := by
  let never : Node → Session → Bool := fun _ _ ↦ false
  have hstart := Arising.setModes (.fresh (some [])) .quiet #["p.add(out)"]
  have hnamed := (hstart.execute never "Fuc f(int a)[\n]").execute never "p -> f.params"
  obtain ⟨s, hs, hspoilt, herror⟩ : ∃ s, Arising s ∧ s.isSpoilt (.keyMissing "name") = true ∧
      "\x1b[91m[ERROR] 'name'\x1b[0m" ∈ ((execute "f(1)").exec s).2.errors := by
    refine ⟨_, hnamed.execute never "p.add(out)", ?_⟩
    decide +kernel
  let arg : Node := .tree "expr" [.tree "term" [.tree "factor" [.token "NUMBER" "1"]]]
  have hparse : parse "f(1)" = .ok (.tree "start" [.tree "statement" [.tree "func_call_stmt"
      [.token "IDENT" "f", .tree "func_args" [arg]]]]) := by rfl
  exact ⟨s, hs, hspoilt, herror, (parts_missing_only_if_spoilt hs hparse).1⟩

end FapLang.Run
