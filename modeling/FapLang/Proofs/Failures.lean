import FapLang.Proofs.Run.Arising
import FapLang.Proofs.Run.Inherited

/-!
Failures of statements. A visit ends as one that hides no fault does, with its fault hidden
(`exec_visit_eq_hidden`). A fault of a top-level statement is recorded, and the statements after it
are visited as if nothing had happened (`failures_are_recorded`).
-/

namespace FapLang.Run

open Interp Grammar

/-! ### Faults as they are first raised -/

/-- Visits that pass on every fault as it is. -/
def visitBare : Nat → Node → Interp Value
  | 0, _ => throw .exhausted
  | depth + 1, n => visitNode (visitBare depth) n

theorem isInternal_invalidStatement : isInternal Fault.invalidStatement.message = false := by
  decide +kernel

/-- What is shown of a fault never shows the inside. -/
theorem isInternal_hideInternal (f : Fault) : isInternal (hideInternal f).message = false := by
  unfold hideInternal
  split
  · exact isInternal_invalidStatement
  · rename_i h
    simpa using h

theorem hideInternal_hideInternal (f : Fault) : hideInternal (hideInternal f) = hideInternal f := by
  rw [hideInternal, if_neg (ne_true_of_eq_false (isInternal_hideInternal f))]

variable {α : Type}

/-- An ending, with a fault that shows the inside hidden. -/
def hidden : Except Stop α × Session → Except Stop α × Session
  | (.error (.fault f), s) => (.error (.fault (hideInternal f)), s)
  | ending => ending

theorem exec_recover_hideInternal (m : Interp α) (s : Session) :
    (recover m fun f => Interp.fail (hideInternal f)).exec s = hidden (m.exec s) := by
  rw [exec_recover]
  cases m.exec s with
  | mk outcome t =>
    cases outcome with
    | ok a => rfl
    | error stop => cases stop <;> rfl

theorem hidden_hidden (ending : Except Stop α × Session) : hidden (hidden ending) = hidden ending := by
  obtain ⟨outcome, s⟩ := ending
  cases outcome with
  | ok a => rfl
  | error stop =>
    cases stop with
    | fault f => simp only [hidden, hideInternal_hideInternal]
    | exhausted => rfl

/-- How endings that are the same once faults are hidden can look. -/
theorem hidden_eq_cases {e e' : Except Stop α × Session} (h : hidden e = hidden e') :
    (∃ a s, e = (.ok a, s) ∧ e' = (.ok a, s)) ∨
    (∃ f f' s, e = (.error (.fault f), s) ∧ e' = (.error (.fault f'), s) ∧ hideInternal f = hideInternal f') ∨
    (∃ s, e = (.error .exhausted, s) ∧ e' = (.error .exhausted, s)) := by
  obtain ⟨outcome, s⟩ := e
  obtain ⟨outcome', s'⟩ := e'
  rcases outcome with (f | _) | a <;> rcases outcome' with (f' | _) | a' <;>
    simp_all [hidden]

theorem hidden_eq_fault {ending : Except Stop α × Session} {f : Fault} {s : Session}
    (h : hidden ending = (.error (.fault f), s)) : ∃ g, ending = (.error (.fault g), s) ∧ f = hideInternal g := by
  obtain ⟨outcome, t⟩ := ending
  rcases outcome with (g | _) | a <;> simp_all [hidden]

theorem inherited_hidden : Inherited fun _ m m' => ∀ s, hidden (m.exec s) = hidden (m'.exec s) where
  refl m s := rfl
  bind {α β m m' k k'} h hk s := by
    rcases hidden_eq_cases (h s) with ⟨a, t, hm, hm'⟩ | ⟨f, f', t, hm, hm', hf⟩ | ⟨t, hm, hm'⟩
    · rw [exec_bind_ok hm, exec_bind_ok hm']
      exact hk a t
    · rw [exec_bind_error hm, exec_bind_error hm']
      simp only [hidden, hf]
    · rw [exec_bind_error hm, exec_bind_error hm']
  tidy {α m m'} rest h s := by
    rw [exec_recover, exec_recover]
    rcases hidden_eq_cases (h s) with ⟨a, t, hm, hm'⟩ | ⟨f, f', t, hm, hm', hf⟩ | ⟨t, hm, hm'⟩
    · rw [hm, hm']
    · rw [hm, hm']
      dsimp only
      rw [exec_bind, exec_bind]
      cases rest.exec t with
      | mk outcome u =>
        cases outcome with
        | ok a => simp only [exec_fail, hidden, hf]
        | error stop => rfl
    · rw [hm, hm']

/-- A visit ends as one that hides nothing does, with its fault hidden. -/
theorem exec_visit_eq_hidden (depth : Nat) (n : Node) (s : Session) :
    (visit depth n).exec s = hidden ((visitBare depth n).exec s) := by
  induction depth generalizing n s with
  | zero => rfl
  | succ depth ih =>
    rw [visit, exec_recover_hideInternal, visitBare]
    refine inherited_hidden.visitNode (fun m t => ?_) n s
    rw [ih, hidden_hidden]

/-! ### The statements of a text -/

/-- What is done before the statements of an accepted text. -/
def preparing (items : List Node) : Interp Unit := do
  modify fun s => { s with notes := #[] }
  debugIf (← get).modes.any "Parsing code..."
  let on := (← get).modes.any
  debugIf on ("Parser successful, AST has " ++ toString items.length ++ " children")
  collect (.tree "start" items)
  debugIf on ("Starting to visit " ++ toString items.length ++ " statements")
  modify fun s => { s with line := 1 }

/-- What is done at the start of a top-level statement. -/
def beginTop (i : Nat) : Interp Unit := do
  modify fun s => { s with line := i }
  debugIf (← get).modes.full ("Visiting statement " ++ toString i ++ " at line " ++ toString i)

/-- The statements of a text, with what comes after them. -/
def concluding (m : Interp Unit) : Interp Unit :=
  recover (do m; checkUnused; flushNotes (← get).notes.toList) fun f => programFailure f.message

/-- The error as which a message is recorded at the current line. -/
def Session.errorOf (s : Session) (message : String) : String :=
  errorText s.modes ((s.sourceLine? s.line).getD "") s.line message

/-- The session with an error recorded, once. -/
def Session.withError (s : Session) (message : String) : Session :=
  if s.errors.contains (s.errorOf message) then s else { s with errors := s.errors.push (s.errorOf message) }

theorem Session.sameFrame_withError (s : Session) (message : String) : SameFrame s (s.withError message) :=
  stays_reportAt s.line message s

theorem Session.errorOf_mem_withError (s : Session) (message : String) :
    s.errorOf message ∈ (s.withError message).errors := by
  unfold Session.withError
  split
  · rename_i h
    exact Array.contains_iff_mem.mp h
  · exact Array.mem_push_self

/-- A step that succeeds and keeps the frame. -/
theorem Interp.Succeeds.exists_frame {α : Type} {m : Interp α} (hm : m.Succeeds) (hstays : m.Stays) (s : Session) :
    ∃ a t, m.exec s = (.ok a, t) ∧ SameFrame s t := by
  obtain ⟨a, t, hexec⟩ := hm s
  have hframe := hstays s
  rw [hexec] at hframe
  exact ⟨a, t, hexec, hframe⟩

/-- An accepted text is run by visits of its statements, once everything is prepared. -/
theorem exec_executeWithin {code : String} {items : List Node} (hparse : parse code = .ok (.tree "start" items))
    (s : Session) : ∃ start, (preparing items).exec s = (.ok (), start) ∧ SameFrame s start ∧
      ∀ visit : Visit, (executeWithin visit code).exec s = (concluding (runProgram visit 1 items)).exec start := by
  have hdebug : ∀ on message t, ∃ a u, (debugIf on message).exec t = (.ok a, u) ∧ SameFrame t u :=
    fun on message => (succeeds_debugIf on message).exists_frame (quiet_debugIf on message).stays
  obtain ⟨_, t, hparsing, ht⟩ := hdebug s.modes.any "Parsing code..." { s with notes := #[] }
  obtain ⟨_, u, hparsed, hu⟩ :=
    hdebug t.modes.any ("Parser successful, AST has " ++ toString items.length ++ " children") t
  obtain ⟨_, v, hcollect, hv⟩ := (succeeds_collect_of_parse hparse).exists_frame (lawful_staying.collect _).1 u
  obtain ⟨_, w, hready, hw⟩ :=
    hdebug t.modes.any ("Starting to visit " ++ toString items.length ++ " statements") v
  have hclear : SameFrame s { s with notes := #[] } := .of_eq rfl
  have hline : SameFrame w { w with line := 1 } := .of_eq rfl
  refine ⟨{ w with line := 1 }, ?_, hclear.trans (ht.trans (hu.trans (hv.trans (hw.trans hline)))), fun visit => ?_⟩
  · rw [preparing, exec_bind_ok (exec_modify _ s), exec_get_bind, exec_bind_ok hparsing, exec_get_bind]
    dsimp only
    rw [exec_bind_ok hparsed, exec_bind_ok hcollect, exec_bind_ok hready, exec_modify]
  have htree : (runTree visit (.tree "start" items)).exec t =
      (runProgram visit 1 items >>= fun _ => do checkUnused; flushNotes (← get).notes.toList).exec
        { w with line := 1 } := by
    have hkids : (childrenOf (.tree "start" items)).exec t = (.ok items, t) := rfl
    rw [runTree, exec_get_bind]
    dsimp only
    rw [exec_bind_ok hkids, exec_bind_ok hparsed, exec_bind_ok hcollect, exec_bind_ok hready,
      exec_bind_ok (exec_modify _ w)]
  rw [executeWithin, exec_bind_ok (exec_modify _ s), exec_get_bind, exec_bind_ok hparsing, hparse]
  dsimp only
  rw [concluding, exec_recover, exec_recover, htree]

section Statements

variable {visit : Visit} {i : Nat} {n : Node} {s t u : Session}

theorem exec_runTop (visit : Visit) (hbegin : (beginTop i).exec s = (.ok (), t)) :
    (runTop visit i n).exec s = (recover (do let _ ← visit n) fun f => statementFault i f).exec t := by
  rw [beginTop, exec_bind_ok (exec_modify _ s), exec_get_bind] at hbegin
  rw [runTop, exec_bind_ok (exec_modify _ s), exec_get_bind, exec_bind_ok hbegin]

/-- A fault that does not show the inside is recorded. -/
theorem exec_runTop_of_fault {f : Fault} (hbegin : (beginTop i).exec s = (.ok (), t))
    (hvisit : (visit n).exec t = (.error (.fault f), u)) (hshown : isInternal f.message = false) :
    (runTop visit i n).exec s = (.ok (), u.withError f.message) := by
  rw [exec_runTop visit hbegin, exec_recover, exec_bind_error hvisit]
  dsimp only
  rw [statementFault, exec_get_bind, if_neg (ne_true_of_eq_false hshown)]
  rfl

theorem succeeds_statementFault (i : Nat) (f : Fault) : (statementFault i f).Succeeds :=
  .bind .get fun _ => .ite (succeeds_debugIf _ _) (.modify _)

theorem succeeds_beginTop (i : Nat) : (beginTop i).Succeeds :=
  .bind (.modify _) fun _ => .bind .get fun _ => succeeds_debugIf _ _

theorem quiet_beginTop (i : Nat) : (beginTop i).Quiet :=
  .bind (quiet_setLine i) fun _ => .bind .get fun _ => quiet_debugIf _ _

/-- No fault gets past the statement in which it is raised. -/
theorem exec_runTop_cases (visit : Visit) (i : Nat) (n : Node) (s : Session) :
    ∃ t, (runTop visit i n).exec s = (.ok (), t) ∨ (runTop visit i n).exec s = (.error .exhausted, t) := by
  obtain ⟨_, t, hbegin⟩ := succeeds_beginTop i s
  rw [exec_runTop visit hbegin, exec_recover, exec_bind]
  cases (visit n).exec t with
  | mk outcome u =>
    cases outcome with
    | ok v => exact ⟨u, .inl rfl⟩
    | error stop =>
      cases stop with
      | fault f =>
        obtain ⟨_, w, hexec⟩ := succeeds_statementFault i f u
        exact ⟨w, .inl hexec⟩
      | exhausted => exact ⟨u, .inr rfl⟩

theorem exec_runProgram_cases (visit : Visit) (ns : List Node) (i : Nat) (s : Session) :
    ∃ t, (runProgram visit i ns).exec s = (.ok (), t) ∨ (runProgram visit i ns).exec s = (.error .exhausted, t) := by
  induction ns generalizing i s with
  | nil => exact ⟨s, .inl rfl⟩
  | cons n rest ih =>
    obtain ⟨t, ht | ht⟩ := exec_runTop_cases visit i n s
    · rw [runProgram, exec_bind_ok ht]
      exact ih (i + 1) t
    · rw [runProgram, exec_bind_error ht]
      exact ⟨t, .inr rfl⟩

theorem exec_runProgram_append {before : List Node} (hbefore : (runProgram visit i before).exec s = (.ok (), t))
    (rest : List Node) :
    (runProgram visit i (before ++ rest)).exec s = (runProgram visit (i + before.length) rest).exec t := by
  induction before generalizing i s with
  | nil =>
    rw [← (Prod.mk.inj hbefore).2]
    rfl
  | cons n before ih =>
    obtain ⟨u, hu | hu⟩ := exec_runTop_cases visit i n s
    · rw [runProgram, exec_bind_ok hu] at hbefore
      rw [List.cons_append, runProgram, exec_bind_ok hu, ih hbefore, List.length_cons]
      congr 2
      omega
    · rw [runProgram, exec_bind_error hu] at hbefore
      cases hbefore

/-- How a text ends depends on how its statements end. -/
theorem exec_concluding_congr {m m' : Interp Unit} (h : m.exec s = m'.exec t) :
    (concluding m).exec s = (concluding m').exec t := by
  rw [concluding, concluding, exec_recover, exec_recover, exec_bind, exec_bind, h]

theorem goes_concluding {M : Manner} [hM : M.Lawful] {m : Interp Unit} (hm : m.Goes M) : (concluding m).Goes M := by
  refine .recover (.bind hm fun _ => .after quiet_checkUnused fun _ => ?_) fun f => ?_
  · exact .after .get fun _ => (quiet_flushNotes _).goes
  · exact (quiet_programFailure (ordinary_message f)).goes

end Statements

/-- A fault is shown by its message, or by a plain one if its message shows the inside. -/
theorem message_hideInternal (f : Fault) :
    (hideInternal f).message = if isInternal f.message then "Invalid statement" else f.message := by
  unfold hideInternal
  split <;> rfl

/-- The statements of an accepted text are visited in order. If a visit fails, the message is that
of the fault, or a plain one in place of one that shows the inside; its error is recorded and still
there when the run ends, and the statements after it are visited from the session of the failure
with only the error added. -/
theorem failures_are_recorded {s : Session} (hs : Arising s) {code : String} {items : List Node}
    (hparse : parse code = .ok (.tree "start" items)) :
    ∃ start, (preparing items).exec s = (.ok (), start) ∧
      (execute code).exec s = (concluding (runProgram (visit depthLimit) 1 items)).exec start ∧
      ∀ before n after, items = before ++ n :: after →
        (∃ t, (runProgram (visit depthLimit) 1 before).exec start = (.error .exhausted, t)) ∨
        ∃ t, (do runProgram (visit depthLimit) 1 before; beginTop (before.length + 1)).exec start = (.ok (), t) ∧
          ∀ f u, (visit depthLimit n).exec t = (.error (.fault f), u) →
            (∃ g, (visitBare depthLimit n).exec t = (.error (.fault g), u) ∧
              f.message = if isInternal g.message then "Invalid statement" else g.message) ∧
            isInternal f.message = false ∧
            (runProgram (visit depthLimit) 1 items).exec start =
              (runProgram (visit depthLimit) (before.length + 2) after).exec (u.withError f.message) ∧
            u.errorOf f.message ∈ ((execute code).exec s).2.errors := by
  obtain ⟨start, hprepared, hframe, hstart⟩ := exec_executeWithin hparse s
  refine ⟨start, hprepared, hstart (visit depthLimit), fun before n after hitems ↦ ?_⟩
  obtain ⟨entry, hbefore | hbefore⟩ := exec_runProgram_cases (visit depthLimit) before 1 start
  · obtain ⟨_, t, hbegin⟩ := succeeds_beginTop (before.length + 1) entry
    refine .inr ⟨t, by rw [exec_bind_ok hbefore, hbegin], fun f u hvisit ↦ ?_⟩
    obtain ⟨g, hbare, rfl⟩ := hidden_eq_fault ((exec_visit_eq_hidden depthLimit n t).symm.trans hvisit)
    have hshown := isInternal_hideInternal g
    have hrun : (runProgram (visit depthLimit) 1 items).exec start =
        (runProgram (visit depthLimit) (before.length + 2) after).exec (u.withError (hideInternal g).message) := by
      rw [hitems, exec_runProgram_append hbefore, runProgram, Nat.add_comm 1,
        exec_bind_ok (exec_runTop_of_fault hbegin hvisit hshown)]
    refine ⟨⟨g, hbare, message_hideInternal g⟩, hshown, hrun, ?_⟩
    -- What is recorded stays: from here on records are only added.
    have hbeside : Beside Manner.growing Manner.growing (visit depthLimit) :=
      visitUntil_never depthLimit ▸ beside_growing _ depthLimit
    have hall := isItem_of_parse hparse
    rw [hitems, List.forall_mem_append, List.forall_mem_cons] at hall
    have hentry : Formed entry := by
      have hend := hbeside.goes_runProgram Manner.growing_acting hall.1 1 start (hs.formed.of_sameFrame hframe)
      rw [hbefore] at hend
      exact hend.1
    have ht : Formed t := by
      have hframe := (quiet_beginTop (before.length + 1)).stays entry
      rw [hbegin] at hframe
      exact hentry.of_sameFrame hframe
    have hu : Formed u := by
      have hend := hbeside.goes_visit_item Manner.growing_acting hall.2.1 t ht
      rw [hvisit] at hend
      exact hend.1
    have hrest := goes_concluding
      (hbeside.goes_runProgram Manner.growing_acting hall.2.2 (before.length + 2))
      _ (hu.of_sameFrame (u.sameFrame_withError (hideInternal g).message))
    rw [execute, hstart, exec_concluding_congr hrun]
    exact hrest.moved.mem_errors (u.errorOf_mem_withError _)
  · exact .inl ⟨entry, hbefore⟩

/-- The fault with which a step ends, and the session that it leaves. -/
def failure? : Except Stop α × Session → Option (Fault × Session)
  | (.error (.fault f), s) => some (f, s)
  | _ => none

theorem eq_of_failure? {ending : Except Stop α × Session} {f : Fault} {s : Session}
    (h : failure? ending = some (f, s)) : ending = (.error (.fault f), s) := by
  obtain ⟨outcome, t⟩ := ending
  rcases outcome with (g | _) | a <;> simp_all [failure?]

/-- A text is taken from a number: the error is recorded, and the next statement binds its name. -/
theorem failed_difference_recorded :
    ∃ (t u : Session) (f : Fault) (n : Node), (visit depthLimit n).exec t = (.error (.fault f), u) ∧
      f.message = "unsupported operand type(s) for -: 'int' and 'str'" ∧
      u.errorOf f.message ∈ ((execute "x -> 1 - \"a\"\nx -> 2").exec Session.fresh).2.errors ∧
      (((execute "x -> 1 - \"a\"\nx -> 2").exec Session.fresh).2.scope 0).vars.has "x" = true := by
  let leaf : String → String → Node := fun kind text ↦ .tree "term" [.tree "factor" [.token kind text]]
  let n : Node := .tree "statement" [.tree "assignment" [.token "IDENT" "x",
    .tree "expr" [leaf "NUMBER" "1", .token "ADD_OP" "-", leaf "STRING" "\"a\""]]]
  let next : Node := .tree "statement" [.tree "assignment" [.token "IDENT" "x", .tree "expr" [leaf "NUMBER" "2"]]]
  let items : List Node := [n, .token "NEWLINE" "\n", next]
  have hparse : parse "x -> 1 - \"a\"\nx -> 2" = .ok (.tree "start" items) := by rfl
  have hs : Arising Session.fresh := .fresh (some [])
  obtain ⟨start, hprepared, -, hstatements⟩ := failures_are_recorded hs hparse
  obtain ⟨_, hexhausted⟩ | ⟨t, hbegin, hfailures⟩ := hstatements [] n _ rfl
  · cases hexhausted
  have hmessage : (failure? ((visit depthLimit n).exec
      ((beginTop 1).exec ((preparing items).exec Session.fresh).2).2)).map (·.1.message) =
        some "unsupported operand type(s) for -: 'int' and 'str'" := by decide +kernel
  have hstart : ((preparing items).exec Session.fresh).2 = start := congrArg Prod.snd hprepared
  have ht : ((beginTop 1).exec start).2 = t := congrArg Prod.snd hbegin
  rw [hstart, ht] at hmessage
  obtain ⟨⟨f, u⟩, hfailure, hmessage⟩ := Option.map_eq_some_iff.mp hmessage
  have hvisit := eq_of_failure? hfailure
  exact ⟨t, u, f, n, hvisit, hmessage, (hfailures f u hvisit).2.2.2, by decide +kernel⟩

end FapLang.Run
