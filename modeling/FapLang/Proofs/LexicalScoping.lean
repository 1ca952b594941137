import FapLang.Proofs.CallDiscipline
import FapLang.Proofs.ValidCalls

/-!
Lexical scoping of calls. The body of a function runs in a new scope inside the scope of its
definition. After the call every scope has its constants, functions and names as before, and one
that does not lie around the definition has all its bindings.
-/

namespace FapLang.Run

open Interp

variable {s t : Session} {f : Function} {bound : List (String × Value)}

theorem has_foldl_insert (bound : List (String × Value)) (vars : Table Value) (name : String) :
    (bound.foldl (fun vars entry => vars.insert entry.1 entry.2) vars).has name =
      (vars.has name || (bound.map (·.1)).contains name) := by
  induction bound generalizing vars with
  | nil => simp
  | cons entry rest ih =>
    rw [List.foldl_cons, ih, Table.has_insert, List.map_cons, List.contains_cons]
    cases vars.has name <;> simp [Bool.beq_eq_decide_eq]

/-- The scope of a call binds the parameters and nothing else. -/
theorem binds_calleeScope (f : Function) (bound : List (String × Value)) (name : String) :
    (calleeScope f bound).binds name = (bound.map (·.1)).contains name := by
  have hvars := has_foldl_insert bound [] name
  rw [calleeScope, Scope.binds]
  dsimp only
  rw [hvars]
  simp [Scope.empty, Table.has]

/-- The call is carried out: there is an argument for each parameter, all can be passed, and the
trace line of the call has a text. -/
structure Session.Accepts (s : Session) (name : String) (f : Function) (args : List Value)
    (bound : List (String × Value)) : Prop where
  passed : ∃ sig, signature (s.cells.getD f.params #[]).toList = .ok sig ∧
    args.length = sig.length ∧ s.PassesAll name sig 1 ((sig.map (·.1)).zip args) bound
  shown : s.Writes [.all (bound.map (·.2))]

/-- Two steps in a row leave what the first one leaves, if it fails, or what the second does. -/
theorem Interp.Leaves.of_bind {α β : Type} {m : Interp α} {k : α → Interp β}
    (h : (m >>= k).Leaves s t) :
    (∃ g, m.exec s = (.error (.fault g), t)) ∨ ∃ a u, m.exec s = (.ok a, u) ∧ (k a).Leaves u t := by
  obtain ⟨outcome, hexec, hout⟩ := h
  rw [exec_bind] at hexec
  rcases hm : m.exec s with ⟨stop | a, u⟩ <;> rw [hm] at hexec
  · cases hexec
    cases stop with
    | fault g => exact .inl ⟨g, rfl⟩
    | exhausted => exact absurd rfl hout
  · exact .inr ⟨a, u, rfl, outcome, hexec, hout⟩

theorem Interp.Leaves.of_bind_ok {α β : Type} {m : Interp α} {k : α → Interp β} {u : Session} {a : α}
    (h : (m >>= k).Leaves s t) (hm : m.exec s = (.ok a, u)) : (k a).Leaves u t := by
  obtain ⟨outcome, hexec, hout⟩ := h
  rw [exec_bind_ok hm] at hexec
  exact ⟨outcome, hexec, hout⟩

theorem Interp.Leaves.of_bind_error {α β : Type} {m : Interp α} {k : α → Interp β} {u : Session}
    {stop : Stop} (h : (m >>= k).Leaves s t) (hm : m.exec s = (.error stop, u)) : u = t := by
  obtain ⟨outcome, hexec, _⟩ := h
  rw [exec_bind_error hm] at hexec
  exact (Prod.mk.inj hexec).2

theorem Interp.Stays.leaves {α : Type} {m : Interp α} (hm : m.Stays) (h : m.Leaves s t) : SameFrame s t := by
  obtain ⟨outcome, hexec, _⟩ := h
  exact hm.sameFrame hexec

theorem remarks_of_note {message : List Piece} {outcome : Except Stop Unit}
    (h : (note message).exec s = (outcome, t)) : Remarks s t := by
  by_cases hwrites : s.Writes message
  · obtain ⟨u, hnote, hu⟩ := tells_note hwrites
    exact (Prod.mk.inj (hnote.symm.trans h)).2 ▸ hu
  · exact (Prod.mk.inj ((exec_note_of_not_writes hwrites).symm.trans h)).2 ▸ .refl s

/-- A call enters the body with the arguments bound, unless its trace line has no text. -/
theorem enter_cases {visit : Visit} {name : String} (h : (enter visit name f bound).Leaves s t) :
    t = s ∧ ¬ s.Writes [.all (bound.map (·.2))] ∨ s.Writes [.all (bound.map (·.2))] ∧
      ∃ entry ended, Remarks s entry ∧ (runCall visit f bound).Leaves entry ended ∧
        Remarks ended t := by
  have hmessage : s.Writes ["[RUNTIME] Calling function ", name, " with args ",
      .all (bound.map (·.2))] ↔ s.Writes [.all (bound.map (·.2))] := by
    simp [Session.Writes, Piece.isWritable]
  by_cases hwrites : s.Writes [.all (bound.map (·.2))]
  · refine .inr ⟨hwrites, ?_⟩
    obtain ⟨entry, hnote, hentry⟩ := tells_note (hmessage.mpr hwrites)
    rcases (h.of_bind_ok hnote).of_bind with ⟨g, hcall⟩ | ⟨result, ended, hcall, h⟩
    · exact ⟨entry, t, hentry, ⟨_, hcall, by simp⟩, .refl t⟩
    · refine ⟨entry, ended, hentry, ⟨_, hcall, by simp⟩, ?_⟩
      rcases h.of_bind with ⟨g, hnote⟩ | ⟨_, u, hnote, _, hpure, _⟩
      · exact remarks_of_note hnote
      · exact (Prod.mk.inj hpure).2 ▸ remarks_of_note hnote
  · exact .inl ⟨(h.of_bind_error (exec_note_of_not_writes (mt hmessage.mp hwrites))).symm, hwrites⟩

/-- A call that is not accepted changes no binding; one that is accepted runs the body. -/
theorem callFunction_cases {visit : Visit} {name : String} {cs : List Node}
    (h : (callFunction visit name f cs).Leaves s t) :
    ∃ caller, (visitAll visit (callArgs cs)).Leaves s caller ∧
      (SameFrame caller t ∧ (∀ args, (visitAll visit (callArgs cs)).exec s = (.ok args, caller) →
          ∀ bound, ¬ caller.Accepts name f args bound) ∨
        ∃ args bound entry ended, (visitAll visit (callArgs cs)).exec s = (.ok args, caller) ∧
          caller.Accepts name f args bound ∧ Remarks caller entry ∧
          (runCall visit f bound).Leaves entry ended ∧ Remarks ended t) := by
  rcases h.of_bind with ⟨g, hargs⟩ | ⟨args, caller, hargs, h⟩
  · refine ⟨t, ⟨_, hargs, by simp⟩, .inl ⟨.refl t, fun args hok ↦ ?_⟩⟩
    rw [hargs] at hok
    cases hok
  refine ⟨caller, ⟨_, hargs, by simp⟩, ?_⟩
  -- What is not accepted is refused by the first test that fails.
  have hrefused : (∀ bound, ¬ caller.Accepts name f args bound) →
      ∀ args', (visitAll visit (callArgs cs)).exec s = (.ok args', caller) →
        ∀ bound, ¬ caller.Accepts name f args' bound := by
    intro hnot args' hargs'
    obtain rfl := Except.ok.inj (Prod.mk.inj (hargs.symm.trans hargs')).1
    exact hnot
  have h := h.of_bind_ok (exec_itemsOf f.params caller)
  cases hsig : signature (caller.cells.getD f.params #[]).toList with
  | error g =>
    rw [hsig] at h
    refine .inl ⟨h.of_bind_error (exec_ofExcept_error g caller) ▸ .refl caller, hrefused ?_⟩
    rintro bound ⟨⟨sig, hok, -⟩, -⟩
    rw [hsig] at hok
    cases hok
  | ok sig =>
    rw [hsig] at h
    have h := h.of_bind_ok (exec_ofExcept_ok sig caller)
    have hunique : ∀ {bound}, caller.Accepts name f args bound → args.length = sig.length ∧
        caller.PassesAll name sig 1 ((sig.map (·.1)).zip args) bound := by
      rintro bound ⟨⟨sig', hok, haccepts⟩, -⟩
      obtain rfl := Except.ok.inj (hsig.symm.trans hok)
      exact haccepts
    by_cases hlen : args.length ≠ sig.length
    · rw [if_pos hlen] at h
      exact .inl ⟨Stays.leaves (.bind (stays_report _) fun _ ↦ .pure _) h,
        hrefused fun bound haccepts ↦ hlen (hunique haccepts).1⟩
    rw [if_neg hlen] at h
    rcases hcast : (castArgs name sig 1 ((sig.map (·.1)).zip args)).exec caller with
      ⟨stop | bound?, entry⟩
    all_goals have hentry := (stays_castArgs _ _ _ _).sameFrame hcast
    · refine .inl ⟨h.of_bind_error hcast ▸ hentry, hrefused fun bound haccepts ↦ ?_⟩
      obtain ⟨u, hpasses, -⟩ := tells_castArgs_of_passesAll (hunique haccepts).2
      rw [hcast] at hpasses
      cases hpasses
    have h := h.of_bind_ok hcast
    cases bound? with
    | none =>
      refine .inl ⟨hentry.trans (Stays.leaves (.pure _) h), hrefused fun bound haccepts ↦ ?_⟩
      obtain ⟨u, hpasses, -⟩ := tells_castArgs_of_passesAll (hunique haccepts).2
      rw [hcast] at hpasses
      cases hpasses
    | some bound =>
      obtain ⟨hpasses, hremarks⟩ := passesAll_of_castArgs hcast
      rcases enter_cases h with ⟨rfl, hshown⟩ | ⟨hshown, entry', ended, hnote, hcall, hended⟩
      · refine .inl ⟨hentry, hrefused fun bound' haccepts ↦ hshown ?_⟩
        obtain ⟨u, hpasses', -⟩ := tells_castArgs_of_passesAll (hunique haccepts).2
        rw [hcast] at hpasses'
        cases hpasses'
        exact hremarks.writes haccepts.shown
      · exact .inr ⟨args, bound, entry', ended, hargs, ⟨⟨sig, hsig, not_not.mp hlen, hpasses⟩,
          hremarks.symm.writes hshown⟩, hremarks.trans hnote, hcall, hended⟩

/-- Where the body of a call runs, and what it leaves alone. -/
theorem runCall_isolated {visit : Visit} (hvisit : Tame visit) (hs : Sound s) (hf : s.Knows f)
    (h : (runCall visit f bound).Leaves s t) :
    (∃ u, (visit f.body).Leaves (s.entered f bound) u ∧ t = u.resumed s) ∧ Isolated s t f.scope := by
  obtain ⟨outcome, hexec, hout⟩ := h
  rw [exec_runCall] at hexec
  cases hvisited : (visit f.body).exec (s.entered f bound) with
  | mk ended u =>
    rw [hvisited] at hexec
    have hleaves : (visit f.body).Leaves (s.entered f bound) u ∧ u.resumed s = t := by
      cases ended with
      | ok v => exact ⟨⟨_, hvisited, by simp⟩, (Prod.mk.inj hexec).2⟩
      | error stop =>
        cases stop with
        | fault g => exact ⟨⟨_, hvisited, by simp⟩, (Prod.mk.inj hexec).2⟩
        | exhausted => exact absurd (Prod.mk.inj hexec).1.symm hout
    obtain ⟨hleaves, rfl⟩ := hleaves
    have hcourse := (hvisit.orderly _ (hs.isOrderly_body hf)).course_of_leaves
      (hs.entered hf bound) hleaves
    have hisolated := (hcourse.frame (hs.entered hf bound)).isolated hs hf
    exact ⟨⟨u, hleaves, rfl⟩, hisolated.size, hisolated.parent, hisolated.names, hisolated.apart⟩

/-- A call from a node of an accepted text, in a session that a run can reach. The arguments are
evaluated first, in `caller`. A call that is not accepted leaves the scopes alone. One that is
accepted runs the body in the session of the caller with one more scope, which lies in the scope of
the definition and binds the parameters to the casts of the arguments and nothing else; the scopes
that the body leaves are those that the call leaves, and the caller goes on in its own scope. -/
theorem call_isolated {code : String} {program : Node}
    (hparse : Grammar.parse code = .ok program) {n : Node} (hn : n.Part program)
    (hcall : n.isCall = true) {cs : List Node} (hcs : n.children = .ok cs)
    {s : Session} (hs : Reachable s) {f : Function} (hf : s.Knows f) (name : String) (depth : Nat)
    {t : Session} (hleaves : (callFunction (visit depth) name f cs).Leaves s t) :
    ∃ caller, (visitAll (visit depth) (callArgs cs)).Leaves s caller ∧
      (t.scopes = caller.scopes ∧
          (∀ args, (visitAll (visit depth) (callArgs cs)).exec s = (.ok args, caller) →
            ∀ bound, ¬ caller.Accepts name f args bound) ∨
        ∃ args bound entry ended,
          (visitAll (visit depth) (callArgs cs)).exec s = (.ok args, caller) ∧
          caller.Accepts name f args bound ∧ Remarks caller entry ∧
          (entry.entered f bound).scopes = caller.scopes.push (calleeScope f bound) ∧
          (entry.entered f bound).current = caller.scopes.size ∧
          (calleeScope f bound).parent = some f.scope ∧
          (∀ x, (calleeScope f bound).binds x = (bound.map (·.1)).contains x) ∧
          (visit depth f.body).Leaves (entry.entered f bound) ended ∧ t.scopes = ended.scopes ∧
          Remarks (ended.resumed entry) t) ∧
      (∀ id < s.scopes.size, SameNames (s.scope id) (t.scope id)) ∧
      (∀ id < caller.scopes.size, SameNames (caller.scope id) (t.scope id)) ∧
      ∀ id < caller.scopes.size, id ∉ caller.chain f.scope → t.scope id = caller.scope id := by
  have hcalm := Node.isCalm_of_isExpression (hn.isOrderly (Grammar.isOrderly_of_parse hparse))
    (by rw [hcall, Bool.or_true])
  have hvisit := tame_visit depth
  obtain ⟨caller, hargs, hcases⟩ := callFunction_cases hleaves
  have hfollows := follows_visitAll hvisit.calm
    (isCalm_callArgs (Node.isCalm_of_mem_children hcalm hcs))
  have hcourse := hfollows.course_of_leaves hs.sound hargs
  have hframe := hcourse.frame hs.sound
  have hcaller := hcourse.sound hs.sound
  have hbefore : ∀ id < s.scopes.size, SameNames (s.scope id) (caller.scope id) :=
    fun id hid ↦ hframe.names id hid (.inr rfl)
  rcases hcases with ⟨hsame, hrefused⟩ | ⟨args, bound, entry, ended, hok, haccepts, hentry, hrun, hended⟩
  · refine ⟨caller, hargs, .inl ⟨hsame.scopes, hrefused⟩, ?_, ?_, ?_⟩
    · intro id hid
      rw [hsame.scope_eq]
      exact hbefore id hid
    · intro id _
      rw [hsame.scope_eq]
      exact .refl _
    · intro id _ _
      exact hsame.scope_eq id
  · have hknows := hentry.sameFrame.knows (hcourse.knows hs.sound hf)
    obtain ⟨⟨u, hbody, rfl⟩, hisolated⟩ :=
      runCall_isolated hvisit (hcaller.of_sameFrame hentry.sameFrame) hknows hrun
    have hscopes := hentry.sameFrame.scopes
    have hnamesAfter : ∀ id < caller.scopes.size, SameNames (caller.scope id) (t.scope id) := by
      intro id hid
      rw [hended.scope_eq, ← hentry.scope_eq]
      exact hisolated.names id (by rwa [hscopes])
    refine ⟨caller, hargs, .inr ⟨args, bound, entry, u, hok, haccepts, hentry, ?_, ?_, rfl,
      binds_calleeScope f bound, hbody, hended.sameFrame.scopes, hended⟩, ?_, hnamesAfter, ?_⟩
    · exact congrArg (Array.push · _) hscopes
    · exact congrArg Array.size hscopes
    · intro id hid
      exact (hbefore id hid).trans (hnamesAfter id (Nat.lt_of_lt_of_le hid hframe.size))
    · intro id hid happart
      rw [hended.scope_eq, ← hentry.scope_eq]
      exact hisolated.apart id (by rwa [hscopes]) (by rwa [hentry.sameFrame.chain_eq])

/-- A call out of another function changes the variable that both see, and not the scope of the
caller. -/
theorem inner_call_isolated :
    ∃ s f cs caller t, Reachable s ∧ s.Knows f ∧ s.current = 1 ∧
      (visitAll (visit 30) (callArgs cs)).Leaves s caller ∧ (callFunction (visit 30) "g" f cs).Leaves s t ∧
      (t.scope 0).vars.get? "x" = some (.int 5) ∧ (t.scope 2).vars.has "y" = true ∧
      SameNames (s.scope 0) (t.scope 0) ∧ t.scope 1 = caller.scope 1 := by
  let code := "New int x -> 1\nFuc g(int k)[\nx -> k\nNew int y -> k\n]\nFuc h(int k)[\ng(5)\n]\nh(3)"
  let stops : Node → Session → Bool := fun n s ↦ s.current == 1 && n.rule? == some "func_call_stmt"
  let s := ((executeWithin (visitUntil stops depthLimit) code).exec Session.fresh).2
  let arg : Node := .tree "expr" [.tree "term" [.tree "factor" [.token "NUMBER" "5"]]]
  let cs : List Node := [.token "IDENT" "g", .tree "func_args" [arg]]
  let n : Node := .tree "func_call_stmt" cs
  have hs : Reachable s := ⟨some [], .execute .refl stops code⟩
  have hparse : Grammar.parse "g(5)" = .ok (.tree "start" [.tree "statement" [n]]) := by rfl
  have hpart : n.Part (.tree "start" [.tree "statement" [n]]) :=
    .child (.head _) (.child (.head _) (.refl n))
  -- One evaluation of the run gives all that is asked of it.
  have hfacts : (((s.scope 0).functions.get? "g").map (·.scope) = some 0 ∧ (s.chain s.current).contains 0 = true) ∧
      (s.current = 1 ∧ 0 < s.scopes.size) ∧
      (((visitAll (visit 30) (callArgs cs)).exec s).2.scopes.size = 2 ∧
        1 ∉ ((visitAll (visit 30) (callArgs cs)).exec s).2.chain 0) ∧
      (((s.scope 0).functions.get? "g").bind fun f ↦
        returned? ((callFunction (visit 30) "g" f cs).exec s)).map (fun t ↦
          ((t.scope 2).vars.has "y", ((t.scope 0).vars.get? "x").bind Value.int?)) = some (true, some 5) := by
    decide +kernel
  obtain ⟨hhome, ⟨hcurrent, hpositive⟩, hargs, hrun⟩ := hfacts
  obtain ⟨f, hget, hscope⟩ := Option.map_eq_some_iff.mp hhome.1
  have hknows : s.Knows f :=
    ⟨by rw [hscope]; exact List.contains_iff_mem.mp hhome.2, "g", by rwa [hscope]⟩
  rw [hget, Option.bind_some] at hrun
  obtain ⟨t, ht, hvars⟩ := Option.map_eq_some_iff.mp hrun
  obtain ⟨v, hexec⟩ := returned?_eq_some ht
  obtain ⟨hy, hx⟩ := Prod.mk.inj hvars
  obtain ⟨w, hw, hint⟩ := Option.bind_eq_some_iff.mp hx
  rw [Value.eq_int_of_int? hint] at hw
  have hleaves : (callFunction (visit 30) "g" f cs).Leaves s t := ⟨_, hexec, by simp⟩
  obtain ⟨caller, hcaller, _, hnames, _, happart⟩ :=
    call_isolated hparse hpart rfl rfl hs hknows "g" 30 hleaves
  obtain ⟨_, hexecArgs, _⟩ := id hcaller
  rw [hexecArgs] at hargs
  exact ⟨s, f, cs, caller, t, hs, hknows, hcurrent, hcaller, hleaves, hw, hy, hnames 0 hpositive,
    happart 1 (by rw [hargs.1]; decide) (by rw [hscope]; exact hargs.2)⟩

end FapLang.Run
