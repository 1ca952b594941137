import FapLang.Proofs.Run.Deeds
import FapLang.Proofs.Run.Reachable

/-!
Blocks, branches, loops and calls. In a manner for what statements bind, ask for and repeat
(`Manner.Binding`, `Manner.Requesting`, `Manner.Repeating`) and for calls (`Manner.Calling`), every
visit goes on if the visits below it do (`Beside.deeper`).
-/

namespace FapLang.Run

open Interp Grammar

variable {visit : Visit} {name : String}

variable {block conditions n : Node} {s : Session} {others : List Node} {parts : LoopParts} {E M : Manner}

/-! ### Laws -/

/-- Calls and loops may be asked to end. -/
def Manner.Requesting (M : Manner) : Prop :=
  ∀ (s : Session) (result : Value) (returning breaking : Bool),
    M.moves s { s with result := result, returning := returning, breaking := breaking }

/-- A loop may bind its repeat variable in a scope. -/
structure Manner.Counting (M : Manner) (name : String) (id : Nat) : Prop where
  bind {s : Session} (hid : s.current = id) (i : Nat) : M.moves s (s.bindVar s.current name (.int i))

/-- A loop may bind its repeat variable in a scope and remove it. -/
structure Manner.Repeating (M : Manner) (name : String) (id : Nat) : Prop extends M.Counting name id where
  drop {s : Session} (hid : s.current = id) : M.moves s (s.dropVar s.current name)

/-- If bodies of functions go on in the manner `M`, calls go on in the manner `E`. -/
structure Manner.Calling (E M : Manner) : Prop where
  returns {s t : Session} {f : Function} {bound : List (String × Value)} (hs : Formed s) (hf : s.Knows f)
      (hcourse : Course .statement (s.entered f bound) t) (h : M.Reaches (s.entered f bound) t) :
      E.moves s (t.resumed s)
  fails {s t : Session} {f : Function} {bound : List (String × Value)} {g : Fault} (hs : Formed s) (hf : s.Knows f)
      (hcourse : Course .statement (s.entered f bound) t) (ht : Formed t)
      (h : M.stops (s.entered f bound) (.fault g) t) : E.stops s (.fault g) (t.resumed s)
  breaksOff {s t : Session} {f : Function} {bound : List (String × Value)} (hs : Formed s) (hf : s.Knows f)
      (ht : Formed t) (h : M.stops (s.entered f bound) .exhausted t) : E.stops s .exhausted t

theorem Manner.Calling.ends_runCall (hcalls : E.Calling M) (htame : Tame visit)
    (hbodies : ∀ n, Of .block n → (visit n).Goes M) (hs : Formed s) {f : Function} (hf : s.Knows f)
    (bound : List (String × Value)) : E.Ends s ((runCall visit f bound).exec s) := by
  have hbody := hs.body hf
  have hend := hbodies f.body hbody _ (hs.entered hf bound)
  have hcourse := htame.orderly f.body hbody.isOrderly _ (hs.entered hf bound).sound
  rw [exec_runCall]
  cases hexec : (visit f.body).exec (s.entered f bound) with
  | mk outcome t =>
    rw [hexec] at hend hcourse
    have hsize : ∀ {level}, Course level (s.entered f bound) t → s.scopes.size ≤ t.scopes.size := by
      intro level h
      have hle := h.size_le
      rw [Session.size_entered] at hle
      omega
    cases outcome with
    | ok v => exact ⟨hs.resumed hend.1 (hsize hcourse), hcalls.returns hs hf hcourse hend⟩
    | error stop =>
      cases stop with
      | fault g => exact ⟨hs.resumed hend.1 (hsize hcourse), hcalls.fails hs hf hcourse hend.1 hend.2⟩
      | exhausted => exact ⟨hend.1, hcalls.breaksOff hs hf hend.1 hend.2⟩

/-! ### Loops -/

/-- The parts of a loop. -/
def loop? : Node → Option LoopParts
  | .tree "again_stmt" cs => (LoopParts.of cs).toOption
  | _ => none

theorem loop?_of_againStmt (hn : Of .againStmt n) :
    ∃ cs parts, n = .tree "again_stmt" cs ∧ LoopParts.of cs = .ok parts ∧ Of .expr parts.times ∧ Of .block parts.block := by
  obtain ⟨times, rest, block, rfl, htimes, hrest, hblock⟩ := hn.againStmt_inv
  have hrule : block.hasRule "block" = true := by
    obtain ⟨items, rfl, -⟩ := hblock.block_inv
    rfl
  rcases hrest with rfl | ⟨var, rfl⟩
  · refine ⟨_, ⟨times, "", block⟩, rfl, ?_, htimes, hblock⟩
    exact if_pos hrule
  · refine ⟨_, ⟨times, var, block⟩, rfl, ?_, htimes, hblock⟩
    exact if_pos hrule

/-- The node is a loop over a name, and it would run in a scope. -/
def loopsOver (name : String) (id : Nat) (n : Node) (s : Session) : Bool :=
  (loop? n).any (·.var == name) && s.current == id

theorem ne_of_loopsOver {id : Nat} (h : loopsOver name id n s = false)
    (hparts : loop? n = some parts) (hvar : parts.var = name) : s.current ≠ id := by
  intro hid
  rw [loopsOver, hparts, Option.any_some, hvar, beq_self_eq_true, hid, beq_self_eq_true] at h
  cases h

/-- A step that follows a course ends in the scope in which it started. -/
theorem current_of_follows {α : Type} {level : Level} {m : Interp α} (hm : m.Follows level) {t : Session} {a : α}
    (hs : Sound s) (h : m.exec s = (.ok a, t)) : t.current = s.current := by
  have hcourse := hm s hs
  rw [h] at hcourse
  exact (Course.frame hcourse hs).current

theorem quiet_isLoopCount (v : Value) : (isLoopCount v).Quiet :=
  .ite (.bind .get fun _ => .bind (Quiet.ofExcept (Value.harmless_order _ _ _ _)) fun _ => .pure _) (.pure _)

/-! ### Parts of branches -/

/-- The block that is run for an outcome. -/
def chosen? (outcome : Bool) (block : Node) (others : List Node) : Option Node :=
  if outcome then some block else others.head?

theorem of_chosen {chosen : Node} (hn : Of .causeStmt (.tree "cause_stmt" (conditions :: block :: others))) {b : Bool}
    (h : chosen? b block others = some chosen) : Of .block chosen := by
  obtain ⟨conditions, first, rest, heq, -, hblock, hrest⟩ := hn.causeStmt_inv
  obtain ⟨-, rfl, rfl⟩ : _ ∧ block = first ∧ others = rest := by simpa using heq
  cases b with
  | true => exact Option.some.inj h ▸ hblock
  | false =>
    rcases hrest with rfl | ⟨other, rfl, hother⟩
    · simp [chosen?] at h
    · exact Option.some.inj h ▸ hother

theorem mem_of_chosen {chosen : Node} {b : Bool}
    (h : chosen? b block others = some chosen) : chosen ∈ conditions :: block :: others := by
  cases b with
  | true => exact Option.some.inj h ▸ List.mem_cons_of_mem _ (.head _)
  | false => exact .tail _ (.tail _ (List.mem_of_mem_head? h))

/-- Whether the condition of a branch holds, as the branch finds it out. -/
def deciding (visit : Visit) (conditions : Node) : Interp Bool := do
  noteStep "visit_cause_stmt"
  let v ← visit conditions
  note ["[RUNTIME] Conditions result: ", v]
  truth v

/-- What a branch says of the block that it runs. -/
def announceChosen (outcome : Bool) : Option Node → Interp Unit
  | some _ => note [if outcome then "[RUNTIME] Executing if block" else "[RUNTIME] Executing else block"]
  | none => pure ()

/-- Runs a block, if there is one. -/
def runChosen (visit : Visit) : Option Node → Interp Value
  | some block => do
    let _ ← visitBlock visit block
    return .none
  | none => return .none

theorem visitCause_eq (visit : Visit) (hn : Of .causeStmt (.tree "cause_stmt" (conditions :: block :: others))) :
    visitCause visit (.tree "cause_stmt" (conditions :: block :: others)) = (do
      let outcome ← deciding visit conditions
      announceChosen outcome (chosen? outcome block others)
      runChosen visit (chosen? outcome block others)) := by
  obtain ⟨_, _, rest, heq, hconds, -, hrest⟩ := hn.causeStmt_inv
  obtain ⟨rfl, hparts⟩ := List.cons.inj (Node.tree.inj heq).2
  cases hparts
  obtain ⟨first, more, rfl, -⟩ := hconds.conditions_inv
  have hkids : ∀ cs, childrenOf (.tree "cause_stmt" cs) = pure cs := fun _ => rfl
  have hfirst : ∀ c cs, child (c :: cs) 0 = pure c := fun _ _ => rfl
  have hsnd : ∀ c d cs, child (c :: d :: cs) 1 = pure d := fun _ _ _ => rfl
  simp only [visitCause, deciding, bind_assoc, hkids, hfirst, hsnd, pure_bind]
  refine bind_congr fun _ => bind_congr fun v => bind_congr fun _ => bind_congr fun outcome => ?_
  cases outcome with
  | true => rfl
  | false =>
    rcases hrest with rfl | ⟨other, rfl, hother⟩
    · rfl
    · obtain ⟨items, rfl, -⟩ := hother.block_inv
      rfl

theorem quiet_announceChosen (outcome : Bool) (block? : Option Node) : (announceChosen outcome block?).Quiet := by
  cases block? with
  | none => exact .pure ()
  | some => exact quiet_note _

theorem goes_deciding [hM : M.Lawful] (h : (visit conditions).Goes M) : (deciding visit conditions).Goes M :=
  .begins <| .bind h fun v => .noted <| (quiet_truth v).goes

/-! ### Parts of loops -/

theorem goes_beginLoop [hM : M.Lawful] (hset : (setBreaking false).Goes M)
    (htimes : (visit parts.times).Goes M) : (beginLoop visit parts).Goes M := by
  refine .bind htimes fun times => .after (quiet_isLoopCount times) fun _ => .ite ?_ ?_
  · refine .bind (.noted <| .bind hset fun _ => ?_) fun _ => .pure _
    refine .after (.ofExcept (Value.harmless_toInt times)) fun count => ?_
    split <;> exact .pure _
  · exact .after (quiet_report (.lead (by decide))) fun _ => .pure _

/-- The variable of a loop is removed if its name is bound. -/
theorem exec_dropRepeatVar (name : String) (s : Session) :
    ∃ t, Remarks s t ∧
      ((name.isEmpty = false ∧ s.sees name = true) ∧
          (dropRepeatVar name).exec s = (.ok (), t.dropVar t.current name) ∨
        (name.isEmpty = false → s.sees name = false) ∧ (dropRepeatVar name).exec s = (.ok (), t)) := by
  rw [dropRepeatVar]
  by_cases hempty : name.isEmpty = true
  · rw [if_pos hempty]
    exact ⟨s, .refl s, .inr ⟨by simp [hempty], rfl⟩⟩
  rw [if_neg hempty]
  obtain ⟨t, hdef, ht⟩ := tells_isDefined name s
  rw [exec_bind_ok hdef]
  refine ⟨t, ht, ?_⟩
  cases hsees : s.sees name with
  | true => exact .inl ⟨⟨Bool.eq_false_iff.mpr hempty, rfl⟩, rfl⟩
  | false => exact .inr ⟨fun _ => rfl, rfl⟩

/-! ### Statements -/

/-- The categories of the statements, and those of the nodes around them. -/
def deedForms : List Category :=
  [.constDef, .varDef, .assignment, .causeStmt, .outputStmt, .inputCall, .againStmt, .repStop, .listMethodCall,
    .listDef, .funcDef, .funcCallStmt, .backStmt, .statement, .block]

theorem deedForms_cases {c : Category} (hc : c ∈ deedForms) : c ∈ plainForms ∨ c = .causeStmt ∨ c = .againStmt ∨
    c = .repStop ∨ c = .funcDef ∨ c = .backStmt ∨ c = .statement ∨ c = .block := by
  revert c
  decide

/-- Visits of expressions go on in the manner `E`, visits of statements in the manner `M`. -/
structure Beside (E M : Manner) (visit : Visit) : Prop extends Below E visit where
  deed : ∀ c ∈ deedForms, ∀ n, Of c n → (visit n).Goes M

/-- All that statements do is done in the manner `M`, with expressions in the manner `E`. -/
structure Manner.Acting (E M : Manner) : Prop where
  binding : E.Marking M
  naming : ∀ body, Of .block body → E.Naming M body
  requesting : M.Requesting

section Requests

variable {M : Manner} (hrequests : M.Requesting)

include hrequests

theorem goes_request {g : Session → Session} (hg : ∀ s, ∃ result returning breaking,
      g s = { s with result := result, returning := returning, breaking := breaking }) :
    (modify g : Interp Unit).Goes M := by
  intro s hs
  obtain ⟨result, returning, breaking, heq⟩ := hg s
  rw [exec_modify, heq]
  exact ⟨hs.request result returning breaking, hrequests s result returning breaking⟩

theorem goes_setBreaking (b : Bool) : (setBreaking b).Goes M :=
  goes_request hrequests fun s => ⟨s.result, s.returning, b, rfl⟩

theorem goes_visitStop [hM : M.Lawful] : visitStop.Goes M :=
  .begins <| .bind (goes_setBreaking hrequests true) fun _ => .noted <| .pure _

end Requests

namespace Beside

variable {E M : Manner} [hM : M.Lawful] {visit : Visit} (hvisit : Beside E M visit)

include hvisit

theorem goes_runStatements {items : List Node} (hitems : ∀ item ∈ items, IsItem item) :
    (runStatements visit items).Goes M := by
  induction items with
  | nil => exact .pure ()
  | cons item rest ih =>
    have hrest := ih fun other hother => hitems other (List.mem_cons_of_mem item hother)
    rw [runStatements]
    rcases hitems item (.head _) with hstmt | ⟨text, rfl⟩
    · refine .ite (.after .get fun s => .ite (.pure ()) ?_) hrest
      exact .bind (hvisit.deed .statement (by decide) item hstmt) fun _ => hrest
    · exact hrest

theorem goes_visitBlock (hn : Of .block n) : (visitBlock visit n).Goes M := by
  obtain ⟨items, rfl, hitems⟩ := hn.block_inv
  exact .after (quiet_noteStep _) fun _ =>
    .bind (hvisit.goes_runStatements hitems) fun _ => .pure _

theorem goes_visitStatement (hn : Of .statement n) : (visitStatement visit n).Goes M := by
  obtain ⟨c, hc, only, rfl, honly⟩ := hn.statement_inv
  have hform : c ∈ deedForms := List.mem_append_left [Category.statement, .block] hc
  exact .after (quiet_noteStep _) fun _ => .children_bind
    (.bind (hvisit.deed c hform only honly) fun _ => .pure _)

theorem ends_runIteration (hblock : Of .block parts.block) (hs : Formed s)
    (hcounts : parts.var.isEmpty = false → M.Counting parts.var s.current) (i : Nat) :
    M.Ends s ((runIteration visit parts i).exec s) := by
  have hrun : (do let _ ← visitBlock visit parts.block; endLap i : Interp Bool).Goes M := by
    refine .bind (hvisit.goes_visitBlock hblock) fun _ => .after .get fun _ => .ite ?_ (.pure _)
    exact .noted <| .pure _
  refine .after hs (quiet_note _) fun _ t _ hframe _ ht => ?_
  by_cases hempty : parts.var.isEmpty = true
  · rw [if_pos hempty]
    exact hrun t ht
  rw [if_neg hempty]
  have hcounts := hcounts (Bool.eq_false_iff.mpr hempty)
  have hdefine : M.Ends t ((define parts.var (.int i)).exec t) := by
    rw [define, exec_get_bind]
    refine ends_change (.refl M) ⟨ht, hM.refl t⟩ (fun u hframe' hu => ?_) fun u _ hu =>
      .quiet hu (quiet_announceOutcome _ _)
    rw [← hframe'.current]
    refine ⟨hu.1.bindVar u.current _ _, hM.trans hu.2 (hcounts.bind ?_ i)⟩
    rw [hframe'.current, hframe.current]
  refine .bind hdefine fun _ u _ hu _ => ?_
  exact Goes.after (quiet_note _) (fun _ => hrun) u hu

theorem ends_runIterations (hblock : Of .block parts.block) (hs : Formed s)
    (hcounts : parts.var.isEmpty = false → M.Counting parts.var s.current) (left i : Nat) :
    M.Ends s ((runIterations visit parts left i).exec s) := by
  induction left generalizing s i with
  | zero => exact Goes.pure () s hs
  | succ left ih =>
    refine .bind (hvisit.ends_runIteration hblock hs hcounts i) fun more t hexec ht _ => ?_
    have hcur := current_of_follows (hvisit.tame.runIteration hblock.isOrderly i) hs.sound hexec
    cases more with
    | true => exact ih ht (by rwa [hcur]) (i + 1)
    | false => exact Goes.pure () t ht

omit hvisit in
theorem ends_dropRepeatVar (hs : Formed s) (hrepeats : name.isEmpty = false → M.Repeating name s.current) :
    M.Ends s ((dropRepeatVar name).exec s) := by
  obtain ⟨t, hremarks, ⟨hname, hexec⟩ | ⟨-, hexec⟩⟩ := exec_dropRepeatVar name s
  all_goals
    rw [hexec]
    have ht : M.Reaches s t := Manner.Reaches.remarks ⟨hs, hM.refl s⟩ hremarks
  · exact ⟨ht.1.dropVar t.current name, hM.trans ht.2 ((hrepeats hname.1).drop hremarks.sameFrame.current)⟩
  · exact ht

variable (hact : E.Acting M)

include hact

omit hM in
theorem phrase_within {c : Category} (hc : c ∈ phraseForms) (hn : Of c n) : (visit n).Goes M :=
  (hvisit.phrase c hc n hn).within hact.binding.within

theorem goes_visitBack (hn : Of .backStmt n) : (visitBack visit n).Goes M := by
  obtain ⟨rest, rfl, hrest⟩ := hn.backStmt_inv
  refine .begins <| .children_bind ?_
  have hgive : ∀ v, (giveBack v).Goes M := by
    intro v
    refine .bind (goes_request hact.requesting fun s => ⟨v, s.returning, s.breaking, rfl⟩) fun _ => ?_
    refine .bind (goes_request hact.requesting fun s => ⟨s.result, true, s.breaking, rfl⟩) fun _ => ?_
    exact .after .get fun _ => .noted <| .pure _
  rcases hrest with rfl | ⟨value, rfl, hvalue⟩
  · exact hgive .none
  · exact .bind (hvisit.phrase_within hact (by decide) hvalue) hgive

theorem goes_visitCause (hn : Of .causeStmt n) : (visitCause visit n).Goes M := by
  obtain ⟨conditions, block, rest, rfl, hconds, -⟩ := hn.causeStmt_inv
  rw [visitCause_eq visit hn]
  refine .bind (goes_deciding (hvisit.phrase_within hact (by decide) hconds)) fun outcome => ?_
  refine .after (quiet_announceChosen outcome _) fun _ => ?_
  cases hchosen : chosen? outcome block rest with
  | none => exact .pure _
  | some chosen => exact .bind (hvisit.goes_visitBlock (of_chosen hn hchosen)) fun _ => .pure _

theorem ends_runLoop (htimes : Of .expr parts.times) (hblock : Of .block parts.block)
    (hs : Formed s) (hrepeats : parts.var.isEmpty = false → M.Repeating parts.var s.current) :
    M.Ends s ((runLoop visit parts).exec s) := by
  have hset := goes_setBreaking hact.requesting false
  rw [runLoop_eq]
  refine .bind (goes_beginLoop hset (hvisit.phrase_within hact (by decide) htimes) s hs) fun count? t hexec ht _ => ?_
  have hcur := current_of_follows (hvisit.tame.beginLoop htimes.isOrderly) hs.sound hexec
  cases count? with
  | none => exact Goes.pure () t ht
  | some count =>
    have hcounting : parts.var.isEmpty = false → M.Counting parts.var t.current := fun hvar => by
      rw [hcur]
      exact (hrepeats hvar).toCounting
    refine .bind (hvisit.ends_runIterations hblock ht hcounting count 1) fun _ u hexec' hu _ => ?_
    have hcur' := current_of_follows (hvisit.tame.runIterations hblock.isOrderly _ 1) ht.sound hexec'
    refine .bind (ends_dropRepeatVar hu (by rwa [hcur', hcur])) fun _ w _ hw _ => ?_
    exact hset w hw

theorem ends_visitAgain {cs : List Node} (hparts : LoopParts.of cs = .ok parts)
    (htimes : Of .expr parts.times) (hblock : Of .block parts.block) (hs : Formed s)
    (hrepeats : parts.var.isEmpty = false → M.Repeating parts.var s.current) :
    M.Ends s ((visitAgain visit (.tree "again_stmt" cs)).exec s) := by
  refine .after hs (quiet_noteStep _) fun _ t _ hframe _ ht => ?_
  rw [exec_bind_ok (exec_childrenOf _ _ t), hparts]
  refine .bind (hvisit.ends_runLoop hact htimes hblock ht (by rwa [hframe.current])) fun _ u _ hu _ => ?_
  exact Goes.pure _ u hu

/-! ### Visits -/

variable [hE : E.Lawful]

/-- One more level of visits of statements, with free names and allowed loops. -/
theorem ends_visitNode {c : Category} (hc : c ∈ deedForms) (hn : Of c n) (hs : Formed s)
    (hfree : ∀ name, target? n = some name → M.Freely (marks n) name s)
    (hrepeats : c = .againStmt → ∀ parts, loop? n = some parts → parts.var.isEmpty = false →
      M.Repeating parts.var s.current) : M.Ends s ((visitNode visit n).exec s) := by
  have hB := hact.binding
  have hdeed : ∀ {step : Interp Value}, step.Goes M → ∀ t, SameFrame s t → Formed t → M.Ends t (step.exec t) :=
    fun hstep t _ ht => hstep t ht
  rcases deedForms_cases hc with hplain | rfl | rfl | rfl | rfl | rfl | rfl | rfl
  · exact ends_visitNode_plain hB hvisit.toBelow hplain hn hs hfree
  · have hgoes := hvisit.goes_visitCause hact hn
    obtain ⟨conditions, block, rest, rfl, -⟩ := hn.causeStmt_inv
    exact ends_visitTree rfl hs (hdeed hgoes)
  · obtain ⟨cs, parts, rfl, hparts, htimes, hblock⟩ := loop?_of_againStmt hn
    have hallowed := hrepeats rfl parts (by rw [loop?, hparts]; rfl)
    refine ends_visitTree rfl hs fun t hframe ht => ?_
    exact hvisit.ends_visitAgain hact hparts htimes hblock ht (by rwa [hframe.current])
  · obtain rfl := hn.repStop_inv
    exact ends_visitTree rfl hs (hdeed (goes_visitStop hact.requesting))
  · obtain ⟨name, params, body, rfl, hbody⟩ := hn.funcDef_inv
    refine ends_visitTree rfl hs fun t hframe ht => ?_
    exact ends_visitFuncDef hB _ name params hbody (hact.naming body hbody) ht
      ((hfree name rfl).of_sameFrame hframe)
  · have hgoes := hvisit.goes_visitBack hact hn
    obtain ⟨rest, rfl, -⟩ := hn.backStmt_inv
    exact ends_visitTree rfl hs (hdeed hgoes)
  · have hgoes := hvisit.goes_visitStatement hn
    obtain ⟨c, -, only, rfl, -⟩ := hn.statement_inv
    exact ends_visitTree rfl hs (hdeed hgoes)
  · have hgoes := hvisit.goes_visitBlock hn
    obtain ⟨items, rfl, -⟩ := hn.block_inv
    exact ends_visitTree rfl hs (hdeed hgoes)

/-- Visits of one level more, if they go on as the steps of the nodes do; loops are looked at apart.
-/
theorem deeper (hcalls : E.Calling M) {next : Visit} (htame : Tame next)
    (hphrase : ∀ n, (visitNode visit n).Goes E → (next n).Goes E)
    (hstep : ∀ n, (∀ s, Formed s → (∀ name, target? n = some name → M.Freely (marks n) name s) →
      M.Ends s ((visitNode visit n).exec s)) → (next n).Goes M)
    (hvalue : ∀ {n s v t}, (next n).exec s = (.ok v, t) → (visitNode visit n).exec s = (.ok v, t))
    (hloops : ∀ n, Of .againStmt n → (next n).Goes M) : Beside E M next := by
  have hbelow := hvisit.toBelow
  have hdeed : ∀ c ∈ deedForms, ∀ n, Of c n → (next n).Goes M := by
    intro c hc n hn
    by_cases hagain : c = .againStmt
    · exact hloops n (hagain ▸ hn)
    · exact hstep n fun t ht hfree => hvisit.ends_visitNode hact hc hn ht hfree fun h => absurd h hagain
  exact {
    tame := htame
    phrase := fun c hc n hn => hphrase n (goes_visitNode_phrase hbelow hc hn)
    token := fun t ht text => hphrase _ ((quiet_visitNode_token ht text).goes)
    absent := hphrase _ (.pure _)
    call := fun s hs f hf bound => hcalls.ends_runCall htame (hdeed .block (by decide)) hs hf bound
    comparison := fun h => eq_of_visitNode_comparison (hvalue h)
    logic := fun hn h => cases_of_visitNode_logicOp hn (hvalue h)
    list := fun hn h => list_of_visitNode_listLiteral hn (hvalue h)
    deed := hdeed }

end Beside

/-- A visit that may be given up at once, and is one of the node otherwise. -/
def GivesUp (m next : Interp Value) : Prop :=
  ∀ s, next.exec s = (.error .exhausted, s) ∨
    next.exec s = (recover m fun f => Interp.fail (hideInternal f)).exec s

namespace GivesUp

variable {m next : Interp Value} (h : GivesUp m next)

include h

theorem ends [hM : M.Lawful] (hs : Formed s) (hm : M.Ends s (m.exec s)) : M.Ends s (next.exec s) := by
  rcases h s with h | h
  · rw [h]
    exact ⟨hs, hM.exhausted s⟩
  · rw [h]
    exact .hide hm

theorem goes [hM : M.Lawful] (hm : m.Goes M) : next.Goes M :=
  fun s hs => h.ends hs (hm s hs)

theorem value {t : Session} {v : Value} (hvalue : next.exec s = (.ok v, t)) : m.exec s = (.ok v, t) := by
  rcases h s with h | h
  · rw [h] at hvalue
    cases hvalue
  · rw [h, exec_recover] at hvalue
    rcases hexec : m.exec s with ⟨stop | w, u⟩ <;> rw [hexec] at hvalue
    · cases stop with
      | fault f => cases hvalue
      | exhausted => cases hvalue
    · exact hvalue

end GivesUp

/-- Where no visit gets anywhere, nothing is done. -/
theorem Beside.of_exhausted [hE : E.Lawful] [hM : M.Lawful] (hcalls : E.Calling M)
    (hvisit : ∀ n s, (visit n).exec s = (.error .exhausted, s)) : Beside E M visit := by
  have htame : Tame visit :=
    ⟨fun n _ s hs => by rw [hvisit]; exact Follows.throw .exhausted s hs,
      fun n _ s hs => by rw [hvisit]; exact Follows.throw .exhausted s hs⟩
  have hphrase : ∀ n, (visit n).Goes E := fun n s hs => by rw [hvisit]; exact ⟨hs, hE.exhausted s⟩
  have hdeed : ∀ n, (visit n).Goes M := fun n s hs => by rw [hvisit]; exact ⟨hs, hM.exhausted s⟩
  exact {
    tame := htame
    phrase := fun _ _ n _ => hphrase n
    token := fun _ _ _ => hphrase _
    absent := hphrase _
    call := fun s hs f hf bound => hcalls.ends_runCall htame (fun n _ => hdeed n) hs hf bound
    comparison := fun h => absurd (hvisit _ _ ▸ h) (by simp)
    logic := fun _ h => absurd (hvisit _ _ ▸ h) (by simp)
    list := fun _ h => absurd (hvisit _ _ ▸ h) (by simp)
    deed := fun _ _ n _ => hdeed n }

theorem exec_visitUntil_succ (stops : Node → Session → Bool) (depth : Nat) (n : Node) (s : Session) :
    (visitUntil stops (depth + 1) n).exec s =
      if stops n s = true then (.error .exhausted, s)
      else (recover (visitNode (visitUntil stops depth) n) fun f => Interp.fail (hideInternal f)).exec s := by
  rw [visitUntil, exec_get_bind]
  split <;> rfl

theorem givesUp_visitUntil (stops : Node → Session → Bool) (depth : Nat) (n : Node) :
    GivesUp (visitNode (visitUntil stops depth) n) (visitUntil stops (depth + 1) n) := by
  intro s
  rw [exec_visitUntil_succ]
  split
  · exact .inl rfl
  · exact .inr rfl

/-- Visits up to some point, if only free names are bound and allowed loops begun. -/
theorem Manner.Acting.beside_visitUntil [hE : E.Lawful] [hM : M.Lawful] (hact : E.Acting M) (hcalls : E.Calling M) (stops : Node → Session → Bool)
    (hfree : ∀ n s name, Formed s → target? n = some name →
      stops n s = true ∨ M.Freely (marks n) name s)
    (hloops : ∀ n s parts, loop? n = some parts → parts.var.isEmpty = false →
      stops n s = true ∨ M.Repeating parts.var s.current) (depth : Nat) : Beside E M (visitUntil stops depth) := by
  induction depth with
  | zero => exact .of_exhausted hcalls fun _ _ => rfl
  | succ depth ih =>
    have hgives := givesUp_visitUntil stops depth
    -- A visit that is not given up is one of a node whose name is free.
    have hnext : ∀ n s, Formed s → (stops n s = false → M.Ends s ((visitNode (visitUntil stops depth) n).exec s)) →
        M.Ends s ((visitUntil stops (depth + 1) n).exec s) := by
      intro n s hs hend
      rw [exec_visitUntil_succ]
      split
      · exact ⟨hs, hM.exhausted s⟩
      · exact .hide (hend (Bool.eq_false_iff.mpr ‹_›))
    have hnames : ∀ {n s}, Formed s → stops n s = false → ∀ name,
        target? n = some name → M.Freely (marks n) name s :=
      fun {n s} hs hstops name hname => (hfree n s name hs hname).resolve_left (ne_true_of_eq_false hstops)
    refine ih.deeper hact hcalls (tame_visitUntil stops (depth + 1)) (fun n => (hgives n).goes)
      (fun n hend s hs => hnext n s hs fun hstops => hend s hs (hnames hs hstops)) (fun h => (hgives _).value h)
      fun n hn s hs => hnext n s hs fun hstops => ?_
    refine ih.ends_visitNode hact (by decide) hn hs (hnames hs hstops) fun _ parts hparts hvar => ?_
    exact (hloops n s parts hparts hvar).resolve_left (ne_true_of_eq_false hstops)

/-- Visits that begin no loops over a name in a scope. -/
theorem Manner.Acting.beside_of_loopsOver [E.Lawful] [M.Lawful] {id : Nat} (hact : E.Acting M) (hcalls : E.Calling M)
    (hfree : ∀ b other s, M.Freely b other s)
    (hloops : ∀ {bound scope}, (bound = name → scope ≠ id) → M.Repeating bound scope) {stops : Node → Session → Bool}
    (hstops : ∀ n s, loopsOver name id n s = true → stops n s = true) (depth : Nat) :
    Beside E M (visitUntil stops depth) := by
  refine hact.beside_visitUntil hcalls stops (fun _ s other _ _ => .inr (hfree _ other s))
    (fun n s parts hparts _ => ?_) depth
  by_cases hover : loopsOver name id n s = true
  · exact .inl (hstops n s hover)
  · exact .inr (hloops (ne_of_loopsOver (Bool.eq_false_iff.mpr hover) hparts))

end FapLang.Run
