import FapLang.Proofs.Run.Growth
import FapLang.Proofs.Run.Statements

/-!
Every visit follows courses: those of expressions for calm nodes, those of statements for orderly ones
(`tame_visit`). So does the run of a program text, whatever the text (`Tame.executeWithin`).
-/

namespace FapLang.Run

open Interp
open Node (activeRules)

variable {n : Node} {parts : LoopParts}

theorem hideInternal_tooManyDigits : hideInternal .tooManyDigits = .tooManyDigits := by
  rw [hideInternal, if_neg (by decide +kernel)]

theorem isCalm_argumentNodes (hn : n.isCalm = true) : ∀ c ∈ argumentNodes n.kids, c.isCalm = true := by
  intro c hc
  obtain ⟨parent, hpar, hc⟩ := Node.exists_of_mem_argumentNodes hc
  exact Node.isCalm_of_mem_kids (Node.isCalm_of_mem_kids hn parent hpar) c hc

theorem isOrderly_of_mem_kids (hn : n.isOrderly = true) : ∀ c ∈ n.kids, c.isOrderly = true := by
  cases n with
  | tree rule cs => exact Node.isOrderly_of_mem_tree hn
  | token | absent | plain => exact fun c hc => absurd hc List.not_mem_nil

/-- Neither the rule nor the kind of a calm node is active. -/
theorem Bond.Fits.not_active {name : String} (h : Bond.Fits n name) (hn : n.isCalm = true) :
    activeRules.contains name = false := by
  cases n with
  | tree rule cs =>
    obtain rfl := h.rule rfl
    rw [Node.isCalm, Bool.and_eq_true, Bool.not_eq_true'] at hn
    exact hn.1
  | token kind text =>
    obtain rfl := h.kind rfl
    rwa [Node.isCalm, Bool.not_eq_true'] at hn
  | absent | plain =>
    rcases h with h | ⟨_, h⟩
    · simp [Node.rule?] at h
    · cases h

theorem isCalm_of_rule (hn : n.isOrderly = true) {rule : String} (hrule : n.rule? = some rule)
    (hactive : activeRules.contains rule = false) : n.isCalm = true := by
  cases n with
  | tree other cs =>
    obtain rfl : other = rule := Option.some.inj hrule
    exact Node.isCalm_of_isOrderly hn hactive
  | token | absent | plain => simp [Node.rule?] at hrule

namespace Tame

variable {visit : Visit} (hvisit : Tame visit) {n : Node}

include hvisit

theorem supports_calm (hn : n.isCalm = true) : (following .expression).Supports visit visit n := by
  intro m hm
  have hinner : ∀ n : Node, n.isCalm = true → ∀ c ∈ n.inner, c.isCalm = true :=
    fun n hn c hc => Node.isCalm_of_mem_kids hn c (Node.mem_kids_of_mem_inner hc)
  replace hn : m.isCalm = true := hm.takesOver hinner hn
  have hnot : ∀ {rule}, m.rule? = some rule → activeRules.contains rule = false :=
    fun hrule => Bond.Fits.not_active (.inl hrule) hn
  have hcall := (follows_visitFuncCall hvisit.calm hvisit.orderly hn).keeps
  exact {
    inner := fun c hc => (hvisit.calm c (hinner m hn c hc)).keeps
    arguments := fun _ c hc => (hvisit.calm c (isCalm_argumentNodes hn c hc)).keeps
    prints := fun _ severity message => (quiet_writeMessage severity message).stays.follows.keeps
    warns := fun name _ v => (quiet_warnUnassigned name v).stays.follows.keeps
    calls := fun _ => hcall
    mathCalls := fun _ _ _ _ _ _ => hcall
    consts := fun hrule => absurd (hnot hrule) (by decide)
    settles := fun hrule => absurd (hnot hrule) (by decide) }

theorem supports_orderly (hn : n.isOrderly = true) : (following .statement).Supports visit visit n := by
  intro m hm
  have hinner : ∀ n : Node, n.isOrderly = true → ∀ c ∈ n.inner, c.isOrderly = true :=
    fun n hn c hc => isOrderly_of_mem_kids hn c (Node.mem_kids_of_mem_inner hc)
  replace hn : m.isOrderly = true := hm.takesOver hinner hn
  have hcall : ∀ {rule}, m.rule? = some rule → activeRules.contains rule = false →
      (following .statement).Agrees (visitFuncCall visit m) (visitFuncCall visit m) :=
    fun hrule hactive =>
      (follows_visitFuncCall hvisit.calm hvisit.orderly (isCalm_of_rule hn hrule hactive)).lift.keeps
  refine ⟨fun c hc => (hvisit.orderly c (hinner m hn c hc)).keeps, fun hrule c hc => ?_, ?_, ?_, ?_, ?_, ?_, ?_⟩
  · exact (hvisit.calm c (isCalm_argumentNodes (isCalm_of_rule hn hrule (by decide)) c hc)).lift.keeps
  · exact fun _ severity message => (quiet_writeMessage severity message).stays.follows.keeps
  · exact fun name _ v => (quiet_warnUnassigned name v).stays.follows.keeps
  · rintro (hrule | hrule)
    · exact hcall hrule (by decide)
    · exact hcall hrule (by decide)
  · exact fun hrule _ _ _ _ _ => hcall hrule (by decide)
  · intro hrule
    refine (hvisit.visitConstDef ?_).keeps
    cases m with
    | tree rule cs =>
      obtain rfl : rule = "const_def" := Option.some.inj hrule
      exact Node.isCalm_of_mem_statement hn (by decide) (by decide)
    | token | absent | plain => exact fun c hc => absurd hc List.not_mem_nil
  · intro _ target params body rest hkids name _
    exact (follows_settleFunction name params (isOrderly_of_mem_kids hn body (by simp [hkids]))).keeps

theorem beginLoop (htimes : parts.times.isOrderly = true) : (beginLoop visit parts).Follows .statement :=
  (binding_following.beginLoop (hvisit.orderly _ htimes).keeps).1

theorem runIteration (hblock : parts.block.isOrderly = true) (i : Nat) :
    (runIteration visit parts i).Follows .statement :=
  (binding_following.runIteration (binding_following.blockOf (hvisit.supports_orderly hblock)) trivial).1

theorem runIterations (hblock : parts.block.isOrderly = true) (left i : Nat) :
    (runIterations visit parts left i).Follows .statement := by
  have hblock := binding_following.blockOf (hvisit.supports_orderly hblock)
  exact (binding_following.runIterations hblock (fun _ _ => trivial) (Nat.le_succ (i + left))).1

theorem visitNode : Tame (visitNode visit) := by
  refine ⟨fun n hn => ?_, fun n hn => ?_⟩
  · have hP := plain_following .expression
    refine (hP.visitNode fun name hfits default hdefault => ?_ :
      (following .expression).rel _ (Run.visitNode visit n) (Run.visitNode visit n)).1
    exact hP.namedStep hfits (hvisit.supports_calm hn) (hfits.not_active hn) hdefault fun _ => hP.visitLogicOp n
  · have hP := plain_following .statement
    have hsupports := hvisit.supports_orderly hn
    refine (hP.visitNode fun name hfits default hdefault => ?_ :
      (following .statement).rel _ (Run.visitNode visit n) (Run.visitNode visit n)).1
    refine binding_following.namedStep hfits hsupports hdefault (fun _ => hP.visitLogicOp n) fun hname => ?_
    refine hP.visitListMethodCall binding_following (hsupports.kids fun hdef => ?_)
    exact absurd ((hfits.rule hdef).trans hname) (by decide)

/-- One more level of visits. -/
theorem deeper : Tame fun n => recover (Run.visitNode visit n) fun f => Interp.fail (hideInternal f) :=
  ⟨fun n hn => .recover (hvisit.visitNode.calm n hn) fun _ => .fail _,
    fun n hn => .recover (hvisit.visitNode.orderly n hn) fun _ => .fail _⟩

end Tame

/-- Every visit follows courses. -/
theorem tame_visit (depth : Nat) : Tame (visit depth) := by
  induction depth with
  | zero => exact ⟨fun n _ => .throw _, fun n _ => .throw _⟩
  | succ depth ih => exact ih.deeper

theorem quiet_debugIf (on : Bool) (message : String) : (debugIf on message).Quiet :=
  .ite (quiet_writeLine _ _) (.pure ())

theorem quiet_warnUnused (name : String) : (warnUnused name).Quiet :=
  .bind .get fun _ => .ite (quiet_note _) (quiet_writeLine _ _)

theorem quiet_warnAllUnused (names : List String) : (warnAllUnused names).Quiet := by
  induction names with
  | nil => exact .pure ()
  | cons name rest ih =>
    exact .bind (quiet_isFaulty name) fun _ => .ite ih (.bind (quiet_warnUnused name) fun _ => ih)

theorem quiet_checkUnused : checkUnused.Quiet :=
  .bind (quiet_noteStep _) fun _ => .bind .get fun _ => quiet_warnAllUnused _

theorem quiet_flushNotes (lines : List String) : (flushNotes lines).Quiet := by
  induction lines with
  | nil => exact .pure ()
  | cons line rest ih => exact .bind (quiet_writeLine _ _) fun _ => ih

theorem quiet_setLine (line : Int) : (modify fun s => { s with line := line } : Interp Unit).Quiet :=
  .modify (fun _ ↦ rfl) fun _ ↦ rfl

theorem quiet_clearNotes : (modify fun s => { s with notes := #[] } : Interp Unit).Quiet :=
  .modify (fun _ ↦ rfl) fun _ ↦ rfl

theorem stays_statementFault (i : Nat) (f : Fault) : (statementFault i f).Stays :=
  .bind .get fun _ => .ite (quiet_debugIf _ _).stays (stays_reportAt _ _)

theorem stays_programFailure (message : String) : (programFailure message).Stays :=
  .bind .get fun _ => .bind (quiet_debugIf _ _).stays fun _ => .ite (.pure ()) (stays_reportAt _ _)

namespace Tame

variable {visit : Visit} (hvisit : Tame visit)

include hvisit

theorem runTop (i : Nat) (hn : n.isOrderly = true) : (runTop visit i n).Follows .statement := by
  refine .after (quiet_setLine i).stays fun _ => .bind .get fun _ => ?_
  refine .after (quiet_debugIf _ _).stays fun _ => .recover ?_ fun f => (stays_statementFault i f).follows
  exact .bind (hvisit.orderly n hn) fun _ => .pure _

theorem runProgram (ns : List Node) (hns : ∀ n ∈ ns, n.isOrderly = true) (i : Nat) :
    (runProgram visit i ns).Follows .statement := by
  induction ns generalizing i with
  | nil => exact .pure ()
  | cons n rest ih =>
    refine .bind (hvisit.runTop i (hns n (.head _))) fun _ => ?_
    exact ih (fun m hm => hns m (List.mem_cons_of_mem n hm)) (i + 1)

theorem runTree {program : Node} (hprog : program.isOrderly = true) :
    (runTree visit program).Follows .statement := by
  have hB := lawful_following .statement
  suffices hbond : (following .statement).Agrees (Run.runTree visit program) (Run.runTree visit program) from hbond.1
  refine hB.look fun _ _ _ => hB.tree fun _ _ => Follows.keeps (.after (quiet_debugIf _ _).stays fun _ => ?_)
  refine .after (lawful_staying.collect program).1 fun _ => .after (quiet_debugIf _ _).stays fun _ => ?_
  refine .after (quiet_setLine 1).stays fun _ => ?_
  refine .bind (hvisit.runProgram _ (isOrderly_of_mem_kids hprog) 1) fun _ => .after quiet_checkUnused.stays fun _ => ?_
  exact .bind .get fun _ => (quiet_flushNotes _).stays.follows

/-- The run of a text follows courses of statements, whatever the text. -/
theorem executeWithin (code : String) : (executeWithin visit code).Follows .statement := by
  refine .after quiet_clearNotes.stays fun _ => .bind .get fun _ => ?_
  refine .after (quiet_debugIf _ _).stays fun _ => ?_
  cases hparse : Grammar.parse code with
  | error e => exact (stays_programFailure _).follows
  | ok program =>
    have hprog := Grammar.isOrderly_of_parse hparse
    exact .recover (hvisit.runTree hprog) fun f => (stays_programFailure _).follows

end Tame

end FapLang.Run
