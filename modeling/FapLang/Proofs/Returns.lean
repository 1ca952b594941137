import FapLang.Proofs.StartedStatements

/-!
Returns from calls. While a call is asked to end, blocks and loops start nothing (`Runs.idle`). So a
request to return is the last statement that the body of a call starts, and its value is the value
of the call (`back_ends_the_call`).
-/

namespace FapLang.Run

open Interp Grammar

variable {outcome : Except Stop Value} {task : Task}

variable {n : Node} {s t : Session} {parts : LoopParts} {d i : Nat} {start : Start}

/-! ### Steps that do not return -/

/-- The call has been asked for nothing in between. -/
structure Kept (s t : Session) : Prop where
  returning : t.returning = s.returning
  result : t.result = s.result

namespace Kept

variable {s t u : Session}

theorem refl (s : Session) : Kept s s :=
  ⟨rfl, rfl⟩

theorem trans (h1 : Kept s t) (h2 : Kept t u) : Kept s u :=
  ⟨h2.returning.trans h1.returning, h2.result.trans h1.result⟩

theorem of_sameFrame (h : SameFrame s t) : Kept s t :=
  ⟨h.returning, h.result⟩

end Kept

/-- The call around is asked for nothing. -/
def Manner.lasting : Manner where
  moves := Kept
  stops s stop t := stop ≠ .exhausted → Kept s t

/-- Anything may happen. -/
def Manner.any : Manner where
  moves _ _ := True
  stops _ _ _ := True

instance Manner.lasting_lawful : Manner.lasting.Lawful where
  refl := .refl
  trans := .trans
  prepend h1 h2 hstop := h1.trans (h2 hstop)
  caught h := h (by simp)
  hidden h _ := h (by simp)
  aside hframe _ := .of_sameFrame hframe
  fault s _ _ _ := .refl s
  exhausted s _ := .refl s
  spoilt _ _ _ := .refl _

instance Manner.any_lawful : Manner.any.Lawful :=
  lawful_of_moves (fun _ => trivial) (fun _ _ => trivial) fun _ _ => trivial

theorem Manner.lasting_binding : Manner.lasting.Marking Manner.lasting := .of_binding {
  within := .refl _
  declare := fun _ ht _ _ ↦ ht.2.trans ⟨rfl, rfl⟩
  defineConst := fun _ ht _ _ _ ↦ ht.2.trans ⟨rfl, rfl⟩
  assign := fun _ ht _ _ _ _ ↦ ht.2.trans ⟨rfl, rfl⟩ }

/-- Whatever a call does, its caller's requests are restored. -/
theorem below_lasting (d : Nat) : Below Manner.lasting (visit d) := by
  have hact : Manner.lasting.Acting Manner.any := {
    binding := .of_binding ⟨⟨fun _ ↦ trivial, fun _ ↦ trivial⟩,
      fun _ _ _ _ ↦ trivial, fun _ _ _ _ _ ↦ trivial, fun _ _ _ _ _ _ ↦ trivial⟩
    naming := fun _ _ _ _ _ _ _ _ _ => trivial
    requesting := fun _ _ _ _ => trivial }
  have hcalls : Manner.lasting.Calling Manner.any :=
    ⟨fun _ _ _ _ => ⟨rfl, rfl⟩, fun _ _ _ _ _ _ => ⟨rfl, rfl⟩, fun _ _ _ _ hstop => absurd rfl hstop⟩
  rw [← visitUntil_never]
  exact (hact.beside_visitUntil hcalls _ (fun _ _ _ _ _ => .inr (.of_imp id))
    (fun _ _ _ _ _ => .inr ⟨⟨fun _ _ => trivial⟩, fun _ => trivial⟩) d).toBelow

/-- Whether a statement asks the call to end. -/
def isBack (n : Node) : Bool :=
  n.hasRule "back_stmt"

/-- Whether a statement asks the loop to end. -/
def isStop (n : Node) : Bool :=
  n.hasRule "rep_stop"

theorem lasting_visit_simple (d : Nat) (hn : Of .statement (.tree "statement" [n]))
    (hcompound : isCompound n = false) (hback : isBack n = false) (hstop : isStop n = false) :
    (visit d n).Goes .lasting := by
  have hE := Manner.lasting_lawful
  have hB := Manner.lasting_binding
  cases d with
  | zero => exact fun s hs => ⟨hs, hE.exhausted s⟩
  | succ d =>
    have hgives := givesUp_visitUntil (fun _ _ => false) d n
    rw [visitUntil_never, visitUntil_never] at hgives
    refine hgives.goes fun s hs => ?_
    obtain ⟨c, hc, only, heq, hof⟩ := hn.statement_inv
    obtain rfl := List.singleton_inj.mp (Node.tree.inj heq).2
    by_cases hplain : c ∈ plainForms
    · exact ends_visitNode_plain hB (below_lasting d) hplain hof hs fun _ _ => .of_imp id
    have hother : c ∈ [Category.causeStmt, .againStmt, .repStop, .funcDef, .backStmt] := by
      simp only [plainForms, List.mem_cons, List.not_mem_nil, or_false] at hc hplain ⊢
      grind
    simp only [List.mem_cons, List.not_mem_nil, or_false] at hother
    rcases hother with rfl | rfl | rfl | rfl | rfl
    · obtain ⟨_, _, _, rfl, -⟩ := hof.causeStmt_inv
      cases hcompound.symm
    · obtain ⟨_, _, rfl, -⟩ := loop?_of_againStmt hof
      cases hcompound.symm
    · obtain rfl := hof.repStop_inv
      cases hstop.symm
    · obtain ⟨name, params, body, rfl, hbody⟩ := hof.funcDef_inv
      refine ends_visitTree rfl hs fun t _ ht => ?_
      exact ends_visitFuncDef hB _ name params hbody (fun _ ht _ _ => ht.2.trans ⟨rfl, rfl⟩) ht (.of_imp id)
    · obtain ⟨_, rfl, -⟩ := hof.backStmt_inv
      cases hback.symm

theorem formed_visit_deed (hn : Of .statement (.tree "statement" [n]))
    (hs : Formed s) (h : (visit d n).exec s = (outcome, t)) : Formed t := by
  obtain ⟨c, hc, only, heq, hof⟩ := hn.statement_inv
  obtain rfl := List.singleton_inj.mp (Node.tree.inj heq).2
  have hform : c ∈ deedForms := List.mem_append_left [Category.statement, .block] hc
  have hformed := ((beside_growing (fun _ _ => false) d).deed c hform n hof s hs).formed
  rwa [visitUntil_never, h] at hformed

theorem lasting_visit_phrase (d : Nat) {c : Category} (hc : c ∈ phraseForms) (hn : Of c n)
    (hs : Formed s) (h : (visit d n).exec s = (outcome, t)) : Formed t ∧ (outcome.isOk = true → Kept s t) := by
  have hend := (below_lasting d).phrase c hc n hn s hs
  rw [h] at hend
  cases outcome with
  | ok v => exact ⟨hend.1, fun _ => hend.2⟩
  | error stop => exact ⟨hend.1, nofun⟩

/-! ### Requests -/

theorem exec_visit_stop (d : Nat) (s : Session) :
    ∃ t, (visit (d + 1) (.tree "rep_stop" [])).exec s = (.ok .none, t) ∧ Remarks { s with breaking := true } t := by
  obtain ⟨s1, hs1, hok, -⟩ := exec_visit_tree d "rep_stop" [] rfl (by decide) s
  obtain ⟨s2, hnote, hs2⟩ := tells_noteStep "visit_rep_stop" s1
  obtain ⟨s3, htold, hs3⟩ :
      (note ["[RUNTIME] Loop break requested via rep.stop"]).Tells { s2 with breaking := true } () := tells_note rfl
  have hstop : visitStop.exec s1 = (.ok .none, s3) := by
    rw [visitStop, exec_bind_ok hnote, exec_bind_ok (exec_setBreaking true s2), exec_bind_ok htold, exec_pure]
  obtain ⟨t, hvisit, ht⟩ := hok .none s3 hstop rfl
  refine ⟨t, hvisit, .trans ?_ (hs3.trans ht)⟩
  obtain ⟨notes, events, rfl⟩ := hs1.trans hs2
  exact ⟨notes, events, rfl⟩

/-- The value that a request to return gives back: that of its expression, if it has one. -/
def Start.Gives (start : Start) (v : Value) : Prop :=
  (start.deed = .tree "back_stmt" [] ∧ v = .none) ∨
    ∃ d value s t, start.deed = .tree "back_stmt" [value] ∧ Remarks start.session s ∧
      (visit d value).exec s = (.ok v, t)

theorem sameFrame_giveBack {v w : Value} (h : (giveBack v).exec s = (.ok w, t)) :
    SameFrame { s with result := v, returning := true } t ∧ w = .none := by
  rw [giveBack, exec_bind_ok (exec_modify _ s), exec_bind_ok (exec_modify _ _), exec_get_bind] at h
  obtain ⟨_, u, htold, h⟩ := exec_bind_eq_ok h
  obtain ⟨hw, rfl⟩ := Prod.mk.inj h
  exact ⟨(quiet_note _).stays.sameFrame htold, (Except.ok.inj hw).symm⟩

theorem gives_of_visit_back (hn : Of .backStmt n) {v : Value}
    (h : (visit d n).exec s = (.ok v, t)) : t.returning = true ∧ (⟨0, n, s⟩ : Start).Gives t.result := by
  obtain ⟨rest, rfl, hrest⟩ := hn.backStmt_inv
  cases d with
  | zero => cases h
  | succ d =>
    obtain ⟨s1, hs1, hok, herror⟩ := exec_visit_tree d "back_stmt" rest rfl (by decide) s
    obtain ⟨s2, hnote, hs2⟩ := tells_noteStep "visit_back_stmt" s1
    have hreturn : ∀ u w, (visitBack (visit d) (.tree "back_stmt" rest)).exec s1 = (giveBack w).exec u →
        t.returning = true ∧ t.result = w := by
      intro u w hexec
      rcases hback : (giveBack w).exec u with ⟨stop | v', x⟩ <;> rw [hback] at hexec
      · obtain ⟨stop', hvisit⟩ := herror stop x hexec
        cases h.symm.trans hvisit
      · obtain ⟨hframe, rfl⟩ := sameFrame_giveBack hback
        obtain ⟨y, hvisit, hy⟩ := hok .none x hexec rfl
        cases h.symm.trans hvisit
        have hframe := hframe.trans hy.sameFrame
        exact ⟨hframe.returning, hframe.result⟩
    rcases hrest with rfl | ⟨value, rfl, -⟩
    · have hback : (visitBack (visit d) (.tree "back_stmt" [])).exec s1 = (giveBack .none).exec s2 := by
        rw [visitBack, exec_bind_ok hnote]
        rfl
      obtain ⟨hret, hres⟩ := hreturn s2 .none hback
      exact ⟨hret, .inl ⟨rfl, hres⟩⟩
    · have hback : (visitBack (visit d) (.tree "back_stmt" [value])).exec s1 = (visit d value >>= giveBack).exec s2 := by
        rw [visitBack, exec_bind_ok hnote]
        rfl
      rcases hexec : (visit d value).exec s2 with ⟨stop | w, u⟩
      · obtain ⟨stop', hvisit⟩ := herror stop u (hback.trans (exec_bind_error hexec))
        cases h.symm.trans hvisit
      · obtain ⟨hret, rfl⟩ := hreturn u w (hback.trans (exec_bind_ok hexec))
        exact ⟨hret, .inr ⟨d, value, s2, u, rfl, hs1.trans hs2, hexec⟩⟩

/-! ### Iterations -/

/-- The session with the number of an iteration in the variable that stands for it. -/
def Session.counted (s : Session) (parts : LoopParts) (i : Nat) : Session :=
  if parts.var.isEmpty then s else s.bindVar s.current parts.var (.int i)

theorem Session.counted_breaking (s : Session) (parts : LoopParts) (i : Nat) :
    (s.counted parts i).breaking = s.breaking := by
  unfold counted
  split <;> rfl

theorem Kept.counted (s : Session) (parts : LoopParts) (i : Nat) : Kept s (s.counted parts i) := by
  unfold Session.counted
  split
  · exact .refl s
  · exact ⟨rfl, rfl⟩

theorem Formed.counted (hs : Formed s) (parts : LoopParts) (i : Nat) : Formed (s.counted parts i) := by
  unfold Session.counted
  split
  · exact hs
  · exact hs.bindVar s.current _ _

theorem remarks_beginLap {outcome : Except Stop Unit} (h : (beginLap parts i).exec s = (outcome, t)) :
    Remarks (s.counted parts i) t ∨ (outcome.isOk = false ∧ Remarks s t) := by
  unfold beginLap at h
  obtain ⟨u, hnote, hu⟩ : (note ["[RUNTIME] Loop iteration: ", toString i]).Tells s () := tells_note rfl
  rw [exec_bind_ok hnote] at h
  unfold Session.counted
  by_cases hempty : parts.var.isEmpty = true
  · rw [if_pos hempty] at h ⊢
    cases h
    exact .inl hu
  rw [if_neg hempty] at h ⊢
  have hbound : Remarks (s.bindVar s.current parts.var (.int i)) (u.bindVar u.current parts.var (.int i)) := by
    rw [hu.sameFrame.current]
    exact hu.bindVar _ _ _
  cases hdefine : (define parts.var (.int i)).exec u with
  | mk defined w =>
    cases defined with
    | error stop =>
      rw [exec_bind_error hdefine] at h
      cases h
      exact (remarks_define hdefine).imp hbound.trans fun hw => ⟨rfl, hu.trans hw.2⟩
    | ok =>
      rw [exec_bind_ok hdefine] at h
      have hw := (remarks_define hdefine).resolve_right fun hfailed => absurd hfailed.1.symm Bool.false_ne_true
      exact .inl ((hbound.trans hw).trans ((murmurs_note _).remarks h))

theorem counted_of_beginLap (h : (beginLap parts i).exec s = (.ok (), t)) : Remarks (s.counted parts i) t :=
  (remarks_beginLap h).resolve_right fun hfailed => absurd hfailed.1.symm Bool.false_ne_true

theorem kept_beginLap (h : (beginLap parts i).exec s = (.ok (), t)) : Kept s t ∧ t.breaking = s.breaking := by
  have ht := counted_of_beginLap h
  exact ⟨(Kept.counted s parts i).trans (.of_sameFrame ht.sameFrame), ht.breaking_eq.trans (s.counted_breaking parts i)⟩

theorem formed_beginLap {outcome : Except Stop Unit}
    (h : (beginLap parts i).exec s = (outcome, t)) (hs : Formed s) : Formed t := by
  rcases remarks_beginLap h with ht | ⟨-, ht⟩
  · exact (hs.counted parts i).of_sameFrame ht.sameFrame
  · exact hs.of_sameFrame ht.sameFrame

theorem exec_endLoop {name : String} {outcome : Except Stop Unit}
    (h : (endLoop name).exec s = (outcome, t)) : Kept s t ∧ t.breaking = false ∧ (Formed s → Formed t) := by
  obtain ⟨u, hu, ⟨-, hexec⟩ | ⟨-, hexec⟩⟩ := exec_dropRepeatVar name s
  all_goals
    rw [endLoop, exec_bind_ok hexec] at h
    cases h
    refine ⟨(Kept.of_sameFrame hu.sameFrame).trans ⟨rfl, rfl⟩, rfl, fun hs => ?_⟩
    have hformed := hs.of_sameFrame hu.sameFrame
  · exact (hformed.dropVar u.current name).request u.result u.returning false
  · exact hformed.request u.result u.returning false

/-! ### While something is asked to end -/

theorem isAsked_of_returning (h : s.returning = true) : s.isAsked = true := by
  rw [Session.isAsked, h, Bool.true_or]

/-- The task has been asked to end: a block by any request, iterations by a request to return. -/
def Task.IsHeld : Task → Session → Prop
  | .deed _, _ => False
  | .block _, s => s.isAsked = true
  | .laps _ _ _, s => s.returning = true

theorem Task.IsHeld.remarks (h : task.IsHeld s) (ht : Remarks s t) : task.IsHeld t := by
  cases task with
  | deed n => exact h
  | block items => exact ht.isAsked_eq.trans h
  | laps parts left i => exact ht.sameFrame.returning.trans h

/-- A task that has been asked to end starts nothing. -/
theorem Runs.idle {starts : List Start} {done : Bool} (h : Runs d task s starts done t) (hheld : task.IsHeld s) :
    starts = [] ∧ (done = true → Kept s t ∧ t.breaking = s.breaking) := by
  induction h with
  | before hs _ ih =>
    obtain ⟨hnone, hkept⟩ := ih (hheld.remarks hs)
    refine ⟨hnone, fun hdone => ?_⟩
    obtain ⟨hkept, hbreak⟩ := hkept hdone
    exact ⟨(Kept.of_sameFrame hs.sameFrame).trans hkept, hbreak.trans hs.breaking_eq⟩
  | after _ ht ih =>
    obtain ⟨hnone, hkept⟩ := ih hheld
    refine ⟨hnone, fun hdone => ?_⟩
    obtain ⟨hkept, hbreak⟩ := hkept hdone
    exact ⟨hkept.trans (.of_sameFrame ht.sameFrame), ht.breaking_eq.trans hbreak⟩
  | simple | tooDeep | undecided | passed | branch | uncounted | refused | loop | loopFailed => exact hheld.elim
  | blockEnd s | lapsEnd s => exact ⟨rfl, fun _ => ⟨.refl s, rfl⟩⟩
  | asked => exact ⟨rfl, fun _ => ⟨.refl _, rfl⟩⟩
  | newline _ _ ih => exact ih hheld
  | blockTooDeep hs | statement hs | statementFailed hs => cases hs.symm.trans hheld
  | noLap => exact ⟨rfl, by simp⟩
  | lap _ hbegin _ _ _ ih ihrest =>
    obtain ⟨hbegun, hbreak⟩ := kept_beginLap hbegin
    have hret := hbegun.returning.trans hheld
    obtain ⟨rfl, hran⟩ := ih (isAsked_of_returning hret)
    obtain ⟨hran, hbreak'⟩ := hran rfl
    obtain ⟨rfl, hrest⟩ := ihrest (hran.returning.trans hret)
    refine ⟨rfl, fun hdone => ?_⟩
    obtain ⟨hrest, hbreak''⟩ := hrest hdone
    exact ⟨(hbegun.trans hran).trans hrest, hbreak''.trans (hbreak'.trans hbreak)⟩
  | lastLap _ hbegin _ _ ih =>
    obtain ⟨hbegun, hbreak⟩ := kept_beginLap hbegin
    obtain ⟨rfl, hran⟩ := ih (isAsked_of_returning (hbegun.returning.trans hheld))
    obtain ⟨hran, hbreak'⟩ := hran rfl
    exact ⟨rfl, fun _ => ⟨hbegun.trans hran, hbreak'.trans hbreak⟩⟩
  | lapFailed _ hbegin _ ih =>
    obtain ⟨rfl, -⟩ := ih (isAsked_of_returning ((kept_beginLap hbegin).1.returning.trans hheld))
    exact ⟨rfl, by simp⟩

/-! ### What a run makes of requests -/

/-- Whether a statement asks the call, or the loop that the run is told of, to end. -/
def Start.asks (start : Start) : Bool :=
  isBack start.deed || (start.loops == 0 && isStop start.deed)

/-- What the request of a statement leaves behind. -/
def Start.Leaves (start : Start) (s t : Session) : Prop :=
  (isBack start.deed = true ∧ t.returning = true ∧ start.Gives t.result) ∨
    (isBack start.deed = false ∧ t.breaking = true ∧ Kept s t)

theorem Start.Leaves.isAsked (h : start.Leaves s t) : t.isAsked = true := by
  rcases h with ⟨-, hret, -⟩ | ⟨-, hbreak, -⟩
  · exact isAsked_of_returning hret
  · rw [Session.isAsked, hbreak, Bool.or_true]

theorem Start.Leaves.prepend {u : Session} (hs : Kept s t) (h : start.Leaves t u) : start.Leaves s u :=
  h.imp id fun h => ⟨h.1, h.2.1, hs.trans h.2.2⟩

theorem Start.Leaves.append {u : Session} (h : start.Leaves s t) (hu : Kept t u)
    (hbreak : u.breaking = t.breaking) : start.Leaves s u := by
  rcases h with ⟨hback, hret, hgives⟩ | ⟨hback, hasked, hkept⟩
  · exact .inl ⟨hback, hu.returning.trans hret, by rwa [hu.result]⟩
  · exact .inr ⟨hback, hbreak.trans hasked, hkept.trans hu⟩

/-- The statements that a run starts ask for nothing, except perhaps the last one. -/
inductive Account (s : Session) (starts : List Start) (done : Bool) (t : Session) : Prop
  | unasked (hnone : ∀ start ∈ starts, start.asks = false) (hkept : done = true → Kept s t)
  | asked (before : List Start) (last : Start) (hstarts : starts = before ++ [last])
      (hnone : ∀ start ∈ before, start.asks = false) (hlast : last.asks = true) (hleft : done = true → last.Leaves s t)

namespace Account

variable {s t u : Session} {starts others : List Start} {done : Bool}

theorem nil (h : done = true → Kept s t) : Account s [] done t :=
  .unasked (by simp) h

theorem single_of_failed (start : Start) : Account s [start] false t := by
  by_cases hasks : start.asks = true
  · exact .asked [] start rfl (fun _ hstart => absurd hstart List.not_mem_nil) hasks nofun
  · exact .unasked (List.forall_mem_singleton.mpr (Bool.eq_false_iff.mpr hasks)) nofun

theorem remark (h : Account s starts done t) (hu : Remarks t u) : Account s starts done u := by
  have hkept := Kept.of_sameFrame hu.sameFrame
  cases h with
  | unasked hnone h => exact .unasked hnone fun hdone => (h hdone).trans hkept
  | asked before last hstarts hnone hlast h =>
    exact .asked before last hstarts hnone hlast fun hdone => (h hdone).append hkept hu.breaking_eq

theorem prepend (hs : Kept s t) (h : Account t starts done u) : Account s starts done u := by
  cases h with
  | unasked hnone hkept => exact .unasked hnone fun hdone => hs.trans (hkept hdone)
  | asked before last hstarts hnone hlast hleft =>
    exact .asked before last hstarts hnone hlast fun hdone => (hleft hdone).prepend hs

/-- A statement that asks for nothing itself, and what it starts. -/
theorem cons (hstart : start.asks = false) (h : Account s starts done t) : Account s (start :: starts) done t := by
  cases h with
  | unasked hnone hkept => exact .unasked (List.forall_mem_cons.mpr ⟨hstart, hnone⟩) hkept
  | asked before last hstarts hnone hlast hleft =>
    exact .asked (start :: before) last (by rw [hstarts, List.cons_append])
      (List.forall_mem_cons.mpr ⟨hstart, hnone⟩) hlast hleft

/-- Two runs in a row, the second of which starts nothing after a request. -/
theorem append (h : Account s starts true t) (hrest : Account t others done u)
    (hidle : t.isAsked = true → others = [] ∧ (done = true → Kept t u ∧ u.breaking = t.breaking)) :
    Account s (starts ++ others) done u := by
  cases h with
  | asked before last hstarts hnone hlast hleft =>
    have hleft := hleft rfl
    obtain ⟨rfl, hsame⟩ := hidle hleft.isAsked
    rw [List.append_nil]
    exact .asked before last hstarts hnone hlast fun hdone => hleft.append (hsame hdone).1 (hsame hdone).2
  | unasked hnone hkept =>
    cases hrest.prepend (hkept rfl) with
    | unasked hnone' hkept' => exact .unasked (List.forall_mem_append.mpr ⟨hnone, hnone'⟩) hkept'
    | asked before last hstarts hnone' hlast hleft =>
      exact .asked (starts ++ before) last (by rw [hstarts, List.append_assoc])
        (List.forall_mem_append.mpr ⟨hnone, hnone'⟩) hlast hleft

/-- From outside of a loop, requests to end the loop are none. -/
theorem within (h : Account s starts done t) (hu : done = true → Kept t u) : Account s (starts.map .within) done u := by
  have hwithin : ∀ {l : List Start}, (∀ start ∈ l, start.asks = false) → ∀ start ∈ l.map Start.within,
      start.asks = false := by
    intro l hnone start hstart
    obtain ⟨inner, hinner, rfl⟩ := List.mem_map.mp hstart
    have hback := (Bool.or_eq_false_iff.mp (hnone inner hinner)).1
    exact Bool.or_eq_false_iff.mpr ⟨hback, rfl⟩
  cases h with
  | unasked hnone hkept => exact .unasked (hwithin hnone) fun hdone => (hkept hdone).trans (hu hdone)
  | asked before last hstarts hnone hlast hleft =>
    rw [hstarts, List.map_append]
    by_cases hback : isBack last.deed = true
    · refine .asked _ last.within rfl (hwithin hnone) (Bool.or_eq_true_iff.mpr (.inl hback)) fun hdone => ?_
      rcases hleft hdone with ⟨-, hret, hgives⟩ | ⟨hfalse, -⟩
      · exact .inl ⟨hback, (hu hdone).returning.trans hret, (hu hdone).result ▸ hgives⟩
      · cases hfalse.symm.trans hback
    · have hback := Bool.eq_false_iff.mpr hback
      refine .unasked (List.forall_mem_append.mpr ⟨hwithin hnone, ?_⟩) fun hdone => ?_
      · exact List.forall_mem_singleton.mpr (Bool.or_eq_false_iff.mpr ⟨hback, rfl⟩)
      · rcases hleft hdone with ⟨htrue, -⟩ | ⟨-, -, hkept⟩
        · cases hback.symm.trans htrue
        · exact hkept.trans (hu hdone)

/-- Nothing is started after a statement that asks for something. -/
theorem last_of_asks (h : Account s starts done t) {before after : List Start}
    (hstarts : starts = before ++ start :: after) (hasks : start.asks = true) :
    after = [] ∧ (done = true → start.Leaves s t) := by
  have hnot : ∀ {l : List Start}, (∀ x ∈ l, x.asks = false) → start ∉ l :=
    fun hnone hmem => absurd ((hnone start hmem).symm.trans hasks) Bool.false_ne_true
  cases h with
  | unasked hnone => exact absurd (by simp [hstarts]) (hnot hnone)
  | asked earlier last heq hnone _ hleft =>
    rcases List.eq_nil_or_concat after with rfl | ⟨rest, x, rfl⟩
    · obtain ⟨-, hlast⟩ := List.append_inj' (hstarts.symm.trans heq) rfl
      obtain rfl := List.singleton_inj.mp hlast
      exact ⟨rfl, hleft⟩
    · rw [hstarts, List.concat_eq_append, ← List.cons_append, ← List.append_assoc] at heq
      obtain ⟨rfl, -⟩ := List.append_inj' heq rfl
      exact absurd (by simp) (hnot hnone)

theorem kept (h : Account s starts true t) (hnone : ∀ start ∈ starts, isBack start.deed = false) : Kept s t := by
  cases h with
  | unasked _ hkept => exact hkept rfl
  | asked before last hstarts _ _ hleft =>
    rcases hleft rfl with ⟨hback, -⟩ | ⟨-, -, hkept⟩
    · cases (hnone last (by simp [hstarts])).symm.trans hback
    · exact hkept

end Account

/-- The parts of a task have the shapes that parsed texts have. -/
def Task.IsFormed : Task → Prop
  | .deed n => Of .statement (.tree "statement" [n])
  | .block items => ∀ item ∈ items, IsItem item
  | .laps parts _ _ => Of .block parts.block

theorem of_loopParts {cs : List Node} (hn : (Task.deed (.tree "again_stmt" cs)).IsFormed)
    (hparts : LoopParts.of cs = .ok parts) : Of .expr parts.times ∧ Of .block parts.block := by
  obtain ⟨_, _, heq, hparts', htimes, hblock⟩ := loop?_of_againStmt (hn.of_statement (by decide) : Of .againStmt _)
  obtain rfl := (Node.tree.inj heq).2
  cases hparts.symm.trans hparts'
  exact ⟨htimes, hblock⟩

theorem isItem_of_block {block : Node} (hn : Of .block block) {items : List Node} (h : block = .tree "block" items) :
    ∀ item ∈ items, IsItem item := by
  obtain ⟨_, heq, hitems⟩ := hn.block_inv
  obtain rfl := (Node.tree.inj (h.symm.trans heq)).2
  exact hitems

theorem lasting_beginLoop (d : Nat) (htimes : Of .expr parts.times) : (beginLoop (visit d) parts).Goes .lasting := by
  have hM := Manner.lasting_lawful
  have hset : (setBreaking false).Goes .lasting := fun s hs => ⟨hs.request s.result s.returning false, rfl, rfl⟩
  exact goes_beginLoop hset ((below_lasting d).expr htimes)

theorem kept_beginLoop (htimes : Of .expr parts.times) (hs : Formed s)
    {outcome : Except Stop (Option Nat)} (h : (beginLoop (visit d) parts).exec s = (outcome, t)) :
    Formed t ∧ (outcome.isOk = true → Kept s t) := by
  have hend := lasting_beginLoop d htimes s hs
  rw [h] at hend
  cases outcome with
  | ok count => exact ⟨hend.1, fun _ => hend.2⟩
  | error stop => exact ⟨hend.1, nofun⟩

theorem account_simple (hn : Of .statement (.tree "statement" [n])) (hcompound : isCompound n = false)
    (hs : Formed s) (h : (visit d n).exec s = (outcome, t)) : Account s [⟨0, n, s⟩] outcome.isOk t := by
  by_cases hback : isBack n = true
  · obtain ⟨cs, rfl⟩ := Node.exists_of_hasRule hback
    refine .asked [] _ rfl (by simp) rfl fun hok => .inl ?_
    cases outcome with
    | error stop => cases hok
    | ok v => exact ⟨rfl, gives_of_visit_back (hn.of_statement (by decide)) h⟩
  by_cases hstop : isStop n = true
  · obtain ⟨cs, rfl⟩ := Node.exists_of_hasRule hstop
    have hof : Of .repStop (.tree "rep_stop" cs) := hn.of_statement (by decide)
    obtain rfl := (Node.tree.inj hof.repStop_inv).2
    refine .asked [] _ rfl (by simp) rfl fun hok => .inr ⟨rfl, ?_⟩
    cases d with
    | zero =>
      cases h
      cases hok
    | succ d =>
      obtain ⟨u, hvisit, hu⟩ := exec_visit_stop d s
      cases hvisit.symm.trans h
      exact ⟨hu.breaking_eq, hu.sameFrame.returning, hu.sameFrame.result⟩
  have hback := Bool.eq_false_iff.mpr hback
  have hstop := Bool.eq_false_iff.mpr hstop
  refine .unasked (List.forall_mem_singleton.mpr (Bool.or_eq_false_iff.mpr ⟨hback, hstop⟩)) fun hok => ?_
  have hend := lasting_visit_simple d hn hcompound hback hstop s hs
  rw [h] at hend
  cases outcome with
  | ok v => exact hend.2
  | error stop => cases hok

/-- In every run only the last statement may ask for something, and the run leaves it asked for. -/
theorem Runs.account {starts : List Start} {done : Bool}
    (h : Runs d task s starts done t) (htask : task.IsFormed) (hs : Formed s) :
    Formed t ∧ Account s starts done t := by
  induction h with
  | before hremarks _ ih =>
    obtain ⟨ht, haccount⟩ := ih htask (hs.of_sameFrame hremarks.sameFrame)
    exact ⟨ht, haccount.prepend (.of_sameFrame hremarks.sameFrame)⟩
  | after _ hremarks ih =>
    obtain ⟨ht, haccount⟩ := ih htask hs
    exact ⟨ht.of_sameFrame hremarks.sameFrame, haccount.remark hremarks⟩
  | simple hn h => exact ⟨formed_visit_deed htask hs h, account_simple htask hn hs h⟩
  | tooDeep n s => exact ⟨hs, .single_of_failed _⟩
  | undecided h =>
    have hconds := (htask.of_statement (by decide)).conditions_of_cause
    exact ⟨(lasting_visit_phrase _ (by decide) hconds hs h).1, .single_of_failed _⟩
  | passed h hnone =>
    have hconds := (htask.of_statement (by decide)).conditions_of_cause
    obtain ⟨ht, hkept⟩ := lasting_visit_phrase _ (by decide) hconds hs h
    exact ⟨ht, .cons rfl (.nil hkept)⟩
  | branch h hsome hrun ih =>
    have hcause : Of .causeStmt _ := htask.of_statement (by decide)
    obtain ⟨ht, hkept⟩ := lasting_visit_phrase _ (by decide) hcause.conditions_of_cause hs h
    obtain ⟨hu, haccount⟩ := ih (isItem_of_block (of_chosen hcause hsome) rfl) ht
    exact ⟨hu, .cons rfl (haccount.prepend (hkept rfl))⟩
  | uncounted hparts h =>
    obtain ⟨htimes, -⟩ := of_loopParts htask hparts
    exact ⟨(kept_beginLoop htimes hs h).1, .single_of_failed _⟩
  | refused hparts h =>
    obtain ⟨htimes, -⟩ := of_loopParts htask hparts
    obtain ⟨ht, hkept⟩ := kept_beginLoop htimes hs h
    exact ⟨ht, .cons rfl (.nil hkept)⟩
  | loop hparts h _ hend ih =>
    obtain ⟨htimes, hblock⟩ := of_loopParts htask hparts
    obtain ⟨ht, hkept⟩ := kept_beginLoop htimes hs h
    obtain ⟨hu, haccount⟩ := ih hblock ht
    obtain ⟨hended, -, hformed⟩ := exec_endLoop hend
    exact ⟨hformed hu, .cons rfl (.prepend (hkept rfl) (haccount.within fun _ => hended))⟩
  | loopFailed hparts h _ ih =>
    obtain ⟨htimes, hblock⟩ := of_loopParts htask hparts
    obtain ⟨ht, hkept⟩ := kept_beginLoop htimes hs h
    obtain ⟨hu, haccount⟩ := ih hblock ht
    exact ⟨hu, .cons rfl (.prepend (hkept rfl) (haccount.within nofun))⟩
  | blockEnd s | lapsEnd s => exact ⟨hs, .nil fun _ => .refl s⟩
  | newline _ _ ih => exact ih (List.forall_mem_cons.mp htask).2 hs
  | asked | blockTooDeep => exact ⟨hs, .nil fun _ => .refl _⟩
  | statement _ _ hrest ih ihrest =>
    obtain ⟨hitem, hitems⟩ := List.forall_mem_cons.mp htask
    obtain ⟨ht, haccount⟩ := ih (hitem.resolve_right (by simp)) hs
    obtain ⟨hu, hothers⟩ := ihrest hitems ht
    exact ⟨hu, haccount.append hothers fun hasked => hrest.idle hasked⟩
  | statementFailed _ _ ih => exact ih ((List.forall_mem_cons.mp htask).1.resolve_right (by simp)) hs
  | noLap h => exact ⟨formed_beginLap h hs, .nil nofun⟩
  | lap hblock h _ hu hrest ih ihrest =>
    obtain ⟨ht, haccount⟩ := ih (isItem_of_block htask hblock) (formed_beginLap h hs)
    obtain ⟨hw, hothers⟩ := ihrest htask ht
    refine ⟨hw, .append (haccount.prepend (kept_beginLap h).1) hothers fun hasked => hrest.idle ?_⟩
    rwa [Session.isAsked, hu, Bool.or_false] at hasked
  | lastLap hblock h _ _ ih | lapFailed hblock h _ ih =>
    obtain ⟨ht, haccount⟩ := ih (isItem_of_block htask hblock) (formed_beginLap h hs)
    exact ⟨ht, haccount.prepend (kept_beginLap h).1⟩

/-! ### Calls -/

/-- The body of a call starts no statement after a request to return, and if it comes to its end,
the call has the value of that request, or none. -/
theorem back_ends_the_call {s : Session} (hs : Arising s) {f : Function} (hf : s.Knows f)
    (bound : List (String × Value)) (d : Nat) :
    ∃ items starts done t, f.body = .tree "block" items ∧ Runs d (.block items) (s.entered f bound) starts done t ∧
      (∀ before start after, starts = before ++ start :: after → isBack start.deed = true → after = []) ∧
      (done = false → ∃ stop u, (runCall (visit (d + 1)) f bound).exec s = (.error stop, u)) ∧
      (done = true →
        (∃ u, Remarks t u ∧ (runCall (visit (d + 1)) f bound).exec s = (.ok t.result, u.resumed s)) ∧
        (∀ start ∈ starts, isBack start.deed = true → start.Gives t.result) ∧
        ((∀ start ∈ starts, isBack start.deed = false) → t.result = .none)) := by
  obtain ⟨items, hbody, hitems⟩ := (hs.formed.body hf).block_inv
  obtain ⟨s₁, hs₁, hok, herror⟩ := exec_visit_tree d "block" items rfl (by decide) (s.entered f bound)
  obtain ⟨s₂, hs₂, hblock⟩ := exec_visitBlock (visit d) items s₁
  cases hexec : (runStatements (visit d) items).exec s₂ with
  | mk outcome t =>
    obtain ⟨starts, hrun⟩ := runs_block (fun e _ ↦ runs_deed e) hitems hexec
    have hrun := hrun.before (hs₁.trans hs₂)
    have haccount := (hrun.account hitems (hs.formed.entered hf bound)).2
    have hasks : ∀ {start : Start}, isBack start.deed = true → start.asks = true :=
      fun hback ↦ Bool.or_eq_true_iff.mpr (.inl hback)
    refine ⟨items, starts, _, t, hbody, hrun, fun before start after hstarts hback ↦ ?_, fun hdone ↦ ?_, fun hdone ↦ ?_⟩
    · exact (haccount.last_of_asks hstarts (hasks hback)).1
    · cases outcome with
      | ok => cases hdone.symm
      | error stop =>
        obtain ⟨stop', hvisit⟩ := herror stop t (hblock _ t hexec)
        rw [exec_runCall, hbody, hvisit]
        cases stop' <;> exact ⟨_, _, rfl⟩
    · cases outcome with
      | error stop => cases hdone
      | ok =>
        obtain ⟨u, hvisit, hu⟩ := hok .none t (hblock _ t hexec) rfl
        refine ⟨⟨u, hu, ?_⟩, fun start hstart hback ↦ ?_, fun hnone ↦ ?_⟩
        · rw [exec_runCall, hbody, hvisit, ← hu.sameFrame.result]
          rfl
        · obtain ⟨before, after, hstarts⟩ := List.append_of_mem hstart
          rcases (haccount.last_of_asks hstarts (hasks hback)).2 rfl with ⟨-, -, hgives⟩ | ⟨hfalse, -⟩
          · exact hgives
          · cases hfalse.symm.trans hback
        · exact (haccount.kept hnone).result

/-- A request in a loop: neither the rest of the loop nor what follows it is run. -/
theorem returns_out_of_loop :
    ∃ s f items starts t, Arising s ∧ s.Knows f ∧ f.body = .tree "block" items ∧
      Runs 29 (.block items) (s.entered f [("k", .int 5)]) starts true t ∧ t.result = .int 5 ∧
      ∃ before start, starts = before ++ [start] ∧ isBack start.deed = true ∧ start.Gives (.int 5) := by
  obtain ⟨s, hs, hhome, haround, hvalue⟩ : ∃ s, Arising s ∧ ((s.scope 0).functions.get? "f").map (·.scope) = some 0 ∧
      (s.chain s.current).contains 0 = true ∧ ((s.scope 0).functions.get? "f").bind (fun f ↦
        ((runCall (visit 30) f [("k", .int 5)]).exec s).1.toOption.bind Value.int?) = some 5 := by
    refine ⟨_, .execute (.fresh (some [])) (fun _ _ ↦ false)
      "Fuc f(int k)[\nAgain(3)[\nback.value(k)\nk -> 9\n]\nback.value(8)\n]", ?_⟩
    decide +kernel
  obtain ⟨f, hget, hscope⟩ := Option.map_eq_some_iff.mp hhome
  have hknows : s.Knows f := ⟨by rw [hscope]; exact List.contains_iff_mem.mp haround, "f", by rwa [hscope]⟩
  rw [hget, Option.bind_some] at hvalue
  obtain ⟨items, starts, done, t, hbody, hrun, hlast, hfailed, hended⟩ :=
    back_ends_the_call hs hknows [("k", .int 5)] 29
  cases done with
  | false =>
    obtain ⟨stop, u, hexec⟩ := hfailed rfl
    rw [hexec] at hvalue
    simp [Except.toOption] at hvalue
  | true =>
    obtain ⟨⟨u, -, hexec⟩, hgives, hnone⟩ := hended rfl
    rw [hexec] at hvalue
    have hresult : t.result = .int 5 := Value.eq_int_of_int? hvalue
    obtain ⟨start, hstart, hback⟩ : ∃ start ∈ starts, isBack start.deed = true := by
      by_contra hall
      have hfalse := hnone fun start hstart ↦ Bool.eq_false_iff.mpr fun hback ↦ hall ⟨start, hstart, hback⟩
      cases hresult.symm.trans hfalse
    obtain ⟨before, after, rfl⟩ := List.append_of_mem hstart
    obtain rfl := hlast before start after rfl hback
    exact ⟨s, f, items, _, t, hs, hknows, hbody, hrun, hresult, before, start, rfl, hback,
      hresult ▸ hgives start hstart hback⟩

end FapLang.Run
