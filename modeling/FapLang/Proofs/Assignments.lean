import FapLang.Proofs.Run.Arising

/-!
What an assignment does to the scopes. A name that is not visible is bound in the current scope, a
visible one where the nearest scope binds it, to the value as one of the type there
(`effect_reassign`, `assignments_change_one_binding`).
-/

namespace FapLang

/-- A value as one of a type, for the types that values are cast to. -/
def Value.castAs? (cells : Cells) (type : String) (v : Value) : Option Value :=
  match type with
  | "int" => v.castInt.toOption
  | "float" => v.castFloat.toOption
  | "str" => (v.str cells).toOption.map text
  | _ => Option.none

namespace Run

open Interp Grammar

variable {s t u : Session} {name : String} {v w : Value}

/-! ### Steps -/

theorem SameFrame.bindVar (h : SameFrame s t) (id : Nat) (name : String) (v : Value) :
    SameFrame (s.bindVar id name v) (t.bindVar id name v) := by
  refine ⟨?_, h.current, h.result, h.returning, h.breaking, h.errors, h.faulty⟩
  rw [Session.bindVar, Session.bindVar, Session.setScope, Session.setScope, h.scopes]

/-- A step of which the end is known, and what follows it. -/
theorem exec_bind_cases {α β : Type} {R : Session → Session → Prop} {m : Interp α} (hm : ∀ s, R s (m.exec s).2)
    {k : α → Interp β} {outcome : Except Stop β} (h : (m >>= k).exec s = (outcome, u)) :
    R s u ∨ ∃ a t, m.exec s = (.ok a, t) ∧ R s t ∧ (k a).exec t = (outcome, u) := by
  cases hexec : m.exec s with
  | mk first t =>
    have hend := hm s
    rw [hexec] at hend
    cases first with
    | ok a => exact .inr ⟨a, t, rfl, hend, (exec_bind_ok hexec).symm.trans h⟩
    | error stop =>
      rw [exec_bind_error hexec] at h
      exact .inl ((Prod.mk.inj h).2 ▸ hend)

theorem castAs?_eq (cells : Cells) (type : String) (v : Value) :
    v.castAs? cells type = (v.castBy cells type).toOption := by
  unfold Value.castAs? Value.castBy
  split
  · cases v.castInt <;> rfl
  · cases v.castFloat <;> rfl
  · cases v.str cells <;> rfl
  · simp_all [Except.toOption]

/-- What a cast gives, if it gives a value. -/
theorem castAs_of_cast {type : String}
    (h : (cast v type name).exec s = (.ok w, t)) (hw : ¬ w.isNone = true) : v.castAs? s.cells type = some w := by
  obtain ⟨u, hu, hcast⟩ := exec_cast v type name s
  rw [hcast] at h
  split at h
  · exact absurd (Except.ok.inj (Prod.mk.inj h).1 ▸ rfl) hw
  · have hby := (castTo_cases h).resolve_left fun hnone => hw (by rw [hnone.1]; rfl)
    rw [hu.cells_eq] at hby
    rw [castAs?_eq, hby]
    rfl

/-- Values that can be written are cast to such values. -/
theorem isPlain_of_castAs {cells : Cells} {type : String} (h : v.castAs? cells type = some w)
    (hv : v.isWritable cells = true) : w.isPlain = true := by
  have hby : v.castBy cells type = .ok w := by
    rw [castAs?_eq] at h
    cases he : v.castBy cells type with
    | ok a =>
      rw [he] at h
      exact congrArg Except.ok (Option.some.inj h)
    | error f =>
      rw [he] at h
      simp [Except.toOption] at h
  rcases Value.castBy_cases hby with ⟨-, hint⟩ | ⟨-, hfloat⟩ | ⟨-, text, rfl⟩
  · exact Value.isPlain_of_castInt (fun n hn => by rw [hn] at hv; exact hv) hint
  · exact Value.isPlain_of_castFloat hfloat
  · rfl

/-- Only where the nearest scope has a variable, a value is set. -/
theorem sameFrame_setIn {ids : List Nat} {id : Nat} {outcome : Except Stop Unit}
    (hnear : s.nearest? name ids = some id)
    (hvar : (s.scope id).constants.has name = false → (s.scope id).vars.has name = true)
    (h : (setIn name w ids).exec s = (outcome, u)) :
    SameFrame s u ∨ ((s.scope id).constants.has name = false ∧ SameFrame (s.bindVar id name w) u) := by
  rcases exec_setIn_cases name w ids s with ⟨f, t, hexec, -, ht⟩ | ⟨keeper, old, _, t, hkeeper, hconst, -, hexec, -, ht⟩
  · cases hexec.symm.trans h
    exact .inl ht.sameFrame
  · cases hexec.symm.trans h
    have hkeeps : (s.scope id).keeps name = true := by
      rw [Scope.keeps]
      cases hid : (s.scope id).constants.has name with
      | true => rfl
      | false => exact hvar hid
    rw [Session.keeper?_of_nearest hnear hkeeps] at hkeeper
    cases hkeeper
    exact .inr ⟨hconst, ht.sameFrame⟩

/-- A visible name is bound again in its nearest scope, if it is a variable there and the cast is
possible. -/
theorem effect_reassign {outcome : Except Stop Unit} (hs : Sound s) (h : (reassign name v).exec s = (outcome, u)) :
    SameFrame s u ∨ ∃ id old w, s.nearest? name (s.chain s.current) = some id ∧
      (s.scope id).constants.has name = false ∧ (s.scope id).vars.get? name = some old ∧
      v.castAs? s.cells (keptType old) = some w ∧ SameFrame (s.bindVar id name w) u := by
  obtain ⟨s1, hasked, hs1⟩ := tells_isConstant name s
  rw [reassign, exec_bind_ok hasked] at h
  by_cases hconstant : (s.scope s.current).constants.has name = true
  · rw [if_pos hconstant] at h
    exact .inl (hs1.sameFrame.trans ((stays_report _).sameFrame h))
  rw [if_neg hconstant] at h
  rcases exec_bind_cases (fun s => (murmurs_valueOf name s).1) h with ht | ⟨old, s2, hvalue, hs2, h⟩
  · exact .inl (hs1.trans ht).sameFrame
  have hs2 := hs1.trans hs2
  by_cases hnone : old.isNone = true
  · rw [if_pos hnone] at h
    exact .inl (hs2.sameFrame.trans ((stays_report _).sameFrame h))
  rw [if_neg hnone] at h
  rcases exec_bind_cases (stays_cast v _ name) h with ht | ⟨w, s3, hcast, hs3, h⟩
  · exact .inl (hs2.sameFrame.trans ht)
  have hframe := hs2.sameFrame.trans hs3
  by_cases hw : w.isNone = true
  · rw [if_pos hw] at h
    exact .inl ((Prod.mk.inj h).2 ▸ hframe)
  rw [if_neg hw] at h
  -- The value that was found is no function, since functions are not cast to.
  obtain ⟨id, hnear, hholds⟩ := holds_of_valueOf hvalue
  obtain ⟨hkind, hfun⟩ := kind_of_cast (hs.of_sameFrame hs2.sameFrame) hcast hw
  rw [hs1.chain_eq, hs1.sameFrame.nearest?_eq] at hnear
  unfold Session.Holds at hholds
  rw [hs1.scope_eq] at hholds
  have hvar : (s.scope id).constants.has name = false → (s.scope id).vars.get? name = some old := by
    intro hconst
    rcases hholds with hget | ⟨-, hget | ⟨-, hfunc⟩⟩
    · exact absurd hconst (by rw [Table.has_eq_isSome, hget]; exact Bool.noConfusion)
    · exact hget
    · exact absurd (hkind.trans hfunc) hfun
  have hset : ∀ {outcome : Except Stop Unit} {t : Session}, (setValue name w).exec s3 = (outcome, t) →
      SameFrame s t ∨ ((s.scope id).constants.has name = false ∧ SameFrame (s.bindVar id name w) t) := by
    intro outcome t hexec
    rw [setValue, exec_bind_ok (exec_currentChain s3), hframe.current, hframe.chain_eq] at hexec
    have hhas : (s3.scope id).constants.has name = false → (s3.scope id).vars.has name = true := by
      rw [hframe.scope_eq]
      exact fun hconst => by rw [Table.has_eq_isSome, hvar hconst]; rfl
    rcases sameFrame_setIn (by rwa [hframe.nearest?_eq]) hhas hexec with hsame | ⟨hconst, hset⟩
    · exact .inl (hframe.trans hsame)
    · exact .inr ⟨hframe.scope_eq id ▸ hconst, (hframe.bindVar id name w).trans hset⟩
  have hrest : (do markAssigned name; note ["[RUNTIME] Successfully assigned ", name, " = ", w] : Interp Unit).Stays :=
    .bind (stays_markAssigned name) fun _ => stays_note _
  cases hexec : (setValue name w).exec s3 with
  | mk first t =>
    have hafter : SameFrame t u := by
      cases first with
      | ok =>
        rw [exec_bind_ok hexec] at h
        exact hrest.sameFrame h
      | error stop =>
        rw [exec_bind_error hexec] at h
        exact (Prod.mk.inj h).2 ▸ .refl t
    refine (hset hexec).imp (fun hsame => hsame.trans hafter) fun hset => ?_
    exact ⟨id, old, w, hnear, hset.1, hvar hset.1, hs2.cells_eq ▸ castAs_of_cast hcast hw, hset.2.trans hafter⟩

/-! ### Assignments -/

/-- What an assignment does with its value. -/
def settle (name : String) (v : Value) : Interp Unit := do
  note ["[RUNTIME] Assignment: ", name, " = ", v]
  if ← isFaulty name then pure ()
  else if ← isDefined name then reassign name v
  else
    define name v
    markDefined name
    markAssigned name
    note ["[RUNTIME] Auto-defined variable ", name, " = ", v]

theorem visitAssignment_eq (visit : Visit) (name : String) (value : Node) :
    visitAssignment visit (.tree "assignment" [.token "IDENT" name, value]) = (do
      noteStep "visit_assignment"
      let v ← visit value
      settle name v
      return .none) := by
  unfold visitAssignment settle
  refine bind_congr fun _ => ?_
  change (visit value >>= fun v => _) = _
  refine bind_congr fun v => ?_
  simp only [bind_assoc]
  refine bind_congr fun _ => bind_congr fun faulty => ?_
  cases faulty with
  | true => simp
  | false =>
    simp only [Bool.false_eq_true, if_false, bind_assoc]
    refine bind_congr fun found => ?_
    cases found <;> simp

/-- What the assignment of a value to a name makes of the scopes. -/
inductive Effect (name : String) (v : Value) (s t : Session) : Prop
  | defined (hsees : s.sees name = false) (h : t.scopes = (s.bindVar s.current name v).scopes)
  | assigned (id : Nat) (old w : Value) (hnearest : s.nearest? name (s.chain s.current) = some id)
      (hconst : (s.scope id).constants.has name = false) (hold : (s.scope id).vars.get? name = some old)
      (hcast : v.castAs? s.cells (keptType old) = some w) (h : t.scopes = (s.bindVar id name w).scopes)
      (hvalue : ∃ u, (valueOf name).exec t = (.ok w, u))
  | nothing (h : t.scopes = s.scopes)

/-- What has been assigned is the value of the name. -/
theorem exec_valueOf_bindVar {id : Nat} (hs : Sound s)
    (hnear : s.nearest? name (s.chain s.current) = some id) (hconst : (s.scope id).constants.has name = false)
    (hvar : (s.scope id).vars.has name = true) (hu : SameFrame (s.bindVar id name w) u) (hw : w.isPlain = true) :
    ∃ t, (valueOf name).exec u = (.ok w, t) := by
  have hid : id ∈ s.chain s.current := List.mem_of_find?_eq_some hnear
  have hself : (s.bindVar id name w).scope id =
      { s.scope id with vars := (s.scope id).vars.insert name w } :=
    Session.scope_setScope_self (Session.lt_of_mem_chain hid) _
  have hchain : (s.bindVar id name w).chain s.current = s.chain s.current :=
    ((Change.assign hid hvar w).frame hs).chain_eq hs hs.current
  have hbinds : ∀ i ∈ s.chain s.current, ((s.bindVar id name w).scope i).binds name = (s.scope i).binds name := by
    intro i _
    by_cases hi : i = id
    · have hinsert : ((s.scope id).vars.insert name w).has name = true := by
        rw [Table.has_eq_isSome, Table.get?_insert, if_pos rfl]
        rfl
      rw [hi, hself]
      simp [Scope.binds, hinsert, hvar]
    · rw [Session.bindVar, Session.scope_setScope_of_ne hi]
  have hfound : u.nearest? name (u.chain u.current) = some id := by
    rw [hu.chain_eq, hu.nearest?_eq, hu.current]
    change (s.bindVar id name w).nearest? name ((s.bindVar id name w).chain s.current) = some id
    rw [hchain, Session.nearest?_congr hbinds, hnear]
  have hvalue : (u.scope id).datum? name = some w := by
    rw [hu.scope_eq, hself, Scope.datum?, Table.get?_of_has_eq_false hconst, Option.none_or, Table.get?_insert, if_pos rfl]
  obtain ⟨t, hexec, -⟩ := tells_valueIn hfound hvalue (Value.isWritable_of_isPlain hw u.cells)
  exact ⟨t, (exec_bind_ok (exec_currentChain u)).trans hexec⟩

theorem effect_settle {outcome : Except Stop Unit} (hs : Sound s)
    (hname : name ∉ s.faulty) (h : (settle name v).exec s = (outcome, t)) (hu : SameFrame t u) :
    u.current = s.current ∧ Effect name v s u := by
  have hnothing : SameFrame s t → u.current = s.current ∧ Effect name v s u :=
    fun ht => ⟨(ht.trans hu).current, .nothing (ht.trans hu).scopes⟩
  rw [settle] at h
  rcases exec_bind_cases (fun s => (murmurs_note _ s).1) h with ht | ⟨_, s1, hnote, hs1, h⟩
  · exact hnothing ht.sameFrame
  have hfaulty : ¬ s1.faulty.contains name = true := by
    rw [hs1.faulty_eq]
    exact fun hmem => hname (Array.contains_iff_mem.mp hmem)
  obtain ⟨s2, hdef, hs2⟩ := tells_isDefined name s1
  rw [exec_bind_ok (exec_isFaulty name s1), if_neg hfaulty, exec_bind_ok hdef, hs1.sameFrame.sees_eq] at h
  have hs2 := hs1.trans hs2
  cases hsees : s.sees name with
  | true =>
    rw [hsees, if_pos rfl] at h
    rcases effect_reassign (hs.of_sameFrame hs2.sameFrame) h with ht | ⟨id, old, w, hnear, hconst, hold, hcast, ht⟩
    · exact hnothing (hs2.sameFrame.trans ht)
    · rw [hs2.chain_eq, hs2.sameFrame.nearest?_eq] at hnear
      rw [hs2.scope_eq] at hconst hold
      rw [hs2.cells_eq] at hcast
      have hu := ((hs2.bindVar id name w).sameFrame.trans ht).trans hu
      have hv : v.isWritable s.cells = true := isWritable_of_note hnote (.val v) (by simp)
      have hvar : (s.scope id).vars.has name = true := by rw [Table.has_eq_isSome, hold]; rfl
      have hvalue := exec_valueOf_bindVar hs hnear hconst hvar hu (isPlain_of_castAs hcast hv)
      exact ⟨hu.current, .assigned id old w hnear hconst hold hcast hu.scopes hvalue⟩
  | false =>
    rw [hsees, if_neg Bool.false_ne_true] at h
    have hrest : (do
        markDefined name
        markAssigned name
        note ["[RUNTIME] Auto-defined variable ", name, " = ", v] : Interp Unit).Stays :=
      .bind (stays_markDefined name) fun _ => .bind (stays_markAssigned name) fun _ => stays_note _
    have hbound : Remarks (s.bindVar s.current name v) (s2.bindVar s2.current name v) := by
      rw [hs2.sameFrame.current]
      exact hs2.bindVar _ _ _
    cases hdefine : (define name v).exec s2 with
    | mk first x =>
      have hafter : SameFrame x t := by
        cases first with
        | ok =>
          rw [exec_bind_ok hdefine] at h
          exact hrest.sameFrame h
        | error stop =>
          rw [exec_bind_error hdefine] at h
          exact (Prod.mk.inj h).2 ▸ .refl x
      rcases remarks_define hdefine with hx | ⟨-, hx⟩
      · have hu := ((hbound.trans hx).sameFrame.trans hafter).trans hu
        exact ⟨hu.current, .defined hsees hu.scopes⟩
      · exact hnothing ((hs2.trans hx).sameFrame.trans hafter)

/-- An assignment, however it ends, changes one binding or none after its value is evaluated. -/
theorem assignments_change_one_binding {s : Session} (hs : Arising s) (d : Nat) {n : Node} (hn : Of .assignment n) :
    ∃ name value s₁, n = .tree "assignment" [.token "IDENT" name, value] ∧ Remarks s s₁ ∧
      ∀ v t, (visit d value).exec s₁ = (.ok v, t) → name ∉ t.faulty →
      ∀ outcome u, (visit (d + 1) n).exec s = (outcome, u) → u.current = t.current ∧ Effect name v t u := by
  obtain ⟨name, value, rfl, hvalue⟩ := hn.assignment_inv
  obtain ⟨s₀, hs₀, hok, herror⟩ := exec_visit_tree d "assignment" [.token "IDENT" name, value] rfl (by decide) s
  obtain ⟨s₁, hnote, hs₁⟩ := tells_noteStep "visit_assignment" s₀
  refine ⟨name, value, s₁, rfl, hs₀.trans hs₁, fun v t hexec hname outcome u hvisit ↦ ?_⟩
  have hsound₁ := hs.formed.sound.of_sameFrame (hs₀.trans hs₁).sameFrame
  have hcourse := (tame_visit d).calm value (hvalue.isCalm rfl) s₁ hsound₁
  rw [hexec] at hcourse
  have hsound := Course.sound hcourse hsound₁
  have hstep : (visitAssignment (visit d) (.tree "assignment" [.token "IDENT" name, value])).exec s₀ =
      (settle name v >>= fun _ ↦ pure .none).exec t := by
    rw [visitAssignment_eq, exec_bind_ok hnote, exec_bind_ok hexec]
  cases hsettle : (settle name v).exec t with
  | mk settled x =>
    refine effect_settle hsound hname hsettle ?_
    cases settled with
    | ok =>
      obtain ⟨y, hend, hy⟩ := hok .none x (hstep.trans (exec_bind_ok hsettle)) rfl
      exact (Prod.mk.inj (hend.symm.trans hvisit)).2 ▸ hy.sameFrame
    | error stop =>
      obtain ⟨stop', hend⟩ := herror stop x (hstep.trans (exec_bind_error hsettle))
      exact (Prod.mk.inj (hend.symm.trans hvisit)).2 ▸ .refl x

/-- The first assignment to a name. -/
theorem name_defined_by_assignment :
    ∃ n t outcome u, parse "x -> 2" = .ok (.tree "start" [.tree "statement" [n]]) ∧
      (visit 30 n).exec Session.fresh = (outcome, u) ∧ outcome.isOk = true ∧
      ((u.scope 0).vars.get? "x").bind Value.int? = some 2 ∧ Effect "x" (.int 2) t u := by
  let value : Node := .tree "expr" [.tree "term" [.tree "factor" [.token "NUMBER" "2"]]]
  let n : Node := .tree "assignment" [.token "IDENT" "x", value]
  have hparse : parse "x -> 2" = .ok (.tree "start" [.tree "statement" [n]]) := by rfl
  have hn : Of .assignment n := (of_parse_statement hparse).of_statement (by decide)
  obtain ⟨name, value', s₁, hnode, ⟨notes, events, rfl⟩, heffect⟩ :=
    assignments_change_one_binding (.fresh (some [])) 29 hn
  obtain ⟨hname, hvalue⟩ : "x" = name ∧ value = value' := by simpa [n] using hnode
  subst hname hvalue
  obtain ⟨t, hexec, hfaulty⟩ : ∃ t, (visit 29 value).exec
      { Session.fresh with input := some [], notes := notes, events := events } = (.ok (.int 2), t) ∧ t.faulty = #[] :=
    ⟨_, rfl, rfl⟩
  have hok : ((visit 30 n).exec Session.fresh).1.isOk = true ∧
      (((((visit 30 n).exec Session.fresh).2.scope 0).vars.get? "x").bind Value.int?) = some 2 := by decide +kernel
  cases hend : (visit 30 n).exec Session.fresh with
  | mk outcome u =>
    rw [hend] at hok
    exact ⟨n, t, outcome, u, hparse, hend, hok.1, hok.2, (heffect (.int 2) t hexec (by simp [hfaulty]) outcome u hend).2⟩

end Run

end FapLang
