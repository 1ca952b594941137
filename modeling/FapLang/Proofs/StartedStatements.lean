import FapLang.Proofs.LogicWords
import FapLang.Proofs.Requests

/-!
Which statements a run starts. A derivation of `Runs` tells which statements a statement, a block or
a loop starts, in which sessions, and how it ends. Every run has one (`runs_deed`, `runs_block`,
`runs_laps`).
-/

namespace FapLang

theorem Node.exists_of_hasRule {n : Node} {rule : String} (h : n.hasRule rule = true) : ∃ cs, n = .tree rule cs := by
  cases n with
  | tree other cs => exact ⟨cs, by rw [Option.some.inj (beq_iff_eq.mp h)]⟩
  | token | absent | plain => simp [Node.hasRule, Node.rule?] at h

namespace Run

open Interp Grammar

variable {n : Node} {s t : Session} {items : List Node} {d : Nat}

/-! ### Runs -/

/-- A statement that was started, the loops between it and the run, and where it was started. -/
structure Start where
  loops : Nat
  deed : Node
  session : Session

/-- The same statement, seen from outside of a loop. -/
def Start.within (start : Start) : Start :=
  { start with loops := start.loops + 1 }

/-- Whether a loop or a call has been asked to end. -/
def Session.isAsked (s : Session) : Bool :=
  s.returning || s.breaking

/-- Whether a statement has statements as parts that it runs. -/
def isCompound (n : Node) : Bool :=
  n.hasRule "cause_stmt" || n.hasRule "again_stmt"

/-- A statement, the statements of a block, or the iterations of a loop, from one number on. -/
inductive Task
  | deed (n : Node)
  | block (items : List Node)
  | laps (parts : LoopParts) (left i : Nat)

/-- A run of a task with visits of a depth: the statements that it starts, whether it comes to its
end, and what it leaves. -/
inductive Runs : Nat → Task → Session → List Start → Bool → Session → Prop
  | before {d : Nat} {task : Task} {s s₁ t : Session} {starts : List Start} {done : Bool} (hs : Remarks s s₁)
      (h : Runs d task s₁ starts done t) : Runs d task s starts done t
  | after {d : Nat} {task : Task} {s t t₁ : Session} {starts : List Start} {done : Bool}
      (h : Runs d task s starts done t) (ht : Remarks t t₁) : Runs d task s starts done t₁
  | simple {d : Nat} {n : Node} {s t : Session} {outcome : Except Stop Value} (hn : isCompound n = false)
      (h : (visit d n).exec s = (outcome, t)) : Runs d (.deed n) s [⟨0, n, s⟩] outcome.isOk t
  | tooDeep (n : Node) (s : Session) : Runs 0 (.deed n) s [⟨0, n, s⟩] false s
  | undecided {d : Nat} {conditions : Node} {rest : List Node} {s t : Session} {stop : Stop}
      (h : (visit d conditions).exec s = (.error stop, t)) :
      Runs (d + 1) (.deed (.tree "cause_stmt" (conditions :: rest)))
        s [⟨0, .tree "cause_stmt" (conditions :: rest), s⟩] false t
  | passed {d : Nat} {conditions block : Node} {others : List Node} {s t : Session} {b : Bool}
      (h : (visit d conditions).exec s = (.ok (.bool b), t)) (hnone : chosen? b block others = none) :
      Runs (d + 1) (.deed (.tree "cause_stmt" (conditions :: block :: others)))
        s [⟨0, .tree "cause_stmt" (conditions :: block :: others), s⟩] true t
  | branch {d : Nat} {conditions block : Node} {others items : List Node} {s t u : Session} {b : Bool}
      {starts : List Start} {done : Bool} (h : (visit d conditions).exec s = (.ok (.bool b), t))
      (hsome : chosen? b block others = some (.tree "block" items)) (hrun : Runs d (.block items) t starts done u) :
      Runs (d + 1) (.deed (.tree "cause_stmt" (conditions :: block :: others)))
        s (⟨0, .tree "cause_stmt" (conditions :: block :: others), s⟩ :: starts) done u
  | uncounted {d : Nat} {cs : List Node} {parts : LoopParts} {s t : Session} {stop : Stop}
      (hparts : LoopParts.of cs = .ok parts) (h : (beginLoop (visit d) parts).exec s = (.error stop, t)) :
      Runs (d + 1) (.deed (.tree "again_stmt" cs)) s [⟨0, .tree "again_stmt" cs, s⟩] false t
  | refused {d : Nat} {cs : List Node} {parts : LoopParts} {s t : Session}
      (hparts : LoopParts.of cs = .ok parts) (h : (beginLoop (visit d) parts).exec s = (.ok none, t)) :
      Runs (d + 1) (.deed (.tree "again_stmt" cs)) s [⟨0, .tree "again_stmt" cs, s⟩] true t
  | loop {d count : Nat} {cs : List Node} {parts : LoopParts} {s t u w : Session} {starts : List Start}
      (hparts : LoopParts.of cs = .ok parts) (h : (beginLoop (visit d) parts).exec s = (.ok (some count), t))
      (hrun : Runs d (.laps parts count 1) t starts true u) (hend : (endLoop parts.var).exec u = (.ok (), w)) :
      Runs (d + 1) (.deed (.tree "again_stmt" cs))
        s (⟨0, .tree "again_stmt" cs, s⟩ :: starts.map .within) true w
  | loopFailed {d count : Nat} {cs : List Node} {parts : LoopParts} {s t u : Session} {starts : List Start}
      (hparts : LoopParts.of cs = .ok parts) (h : (beginLoop (visit d) parts).exec s = (.ok (some count), t))
      (hrun : Runs d (.laps parts count 1) t starts false u) :
      Runs (d + 1) (.deed (.tree "again_stmt" cs))
        s (⟨0, .tree "again_stmt" cs, s⟩ :: starts.map .within) false u
  | blockEnd {d : Nat} (s : Session) : Runs d (.block []) s [] true s
  | newline {d : Nat} {item : Node} {rest : List Node} {s t : Session} {starts : List Start} {done : Bool}
      (hitem : item.hasRule "statement" = false) (hrest : Runs d (.block rest) s starts done t) :
      Runs d (.block (item :: rest)) s starts done t
  | asked {d : Nat} {items : List Node} {s : Session} (hs : s.isAsked = true) : Runs d (.block items) s [] true s
  | blockTooDeep {items : List Node} {s : Session} (hs : s.isAsked = false) : Runs 0 (.block items) s [] false s
  | statement {d : Nat} {n : Node} {rest : List Node} {s t u : Session} {starts others : List Start} {done : Bool}
      (hs : s.isAsked = false) (hdeed : Runs d (.deed n) s starts true t)
      (hrest : Runs (d + 1) (.block rest) t others done u) :
      Runs (d + 1) (.block (.tree "statement" [n] :: rest)) s (starts ++ others) done u
  | statementFailed {d : Nat} {n : Node} {rest : List Node} {s t : Session} {starts : List Start}
      (hs : s.isAsked = false) (hdeed : Runs d (.deed n) s starts false t) :
      Runs (d + 1) (.block (.tree "statement" [n] :: rest)) s starts false t
  | lapsEnd {d i : Nat} {parts : LoopParts} (s : Session) : Runs d (.laps parts 0 i) s [] true s
  | noLap {d left i : Nat} {parts : LoopParts} {s t : Session} {stop : Stop}
      (h : (beginLap parts i).exec s = (.error stop, t)) : Runs d (.laps parts (left + 1) i) s [] false t
  | lap {d left i : Nat} {parts : LoopParts} {items : List Node} {s t u w : Session} {starts others : List Start}
      {done : Bool} (hblock : parts.block = .tree "block" items) (h : (beginLap parts i).exec s = (.ok (), t))
      (hrun : Runs d (.block items) t starts true u) (hu : u.breaking = false)
      (hrest : Runs d (.laps parts left (i + 1)) u others done w) :
      Runs d (.laps parts (left + 1) i) s (starts ++ others) done w
  | lastLap {d left i : Nat} {parts : LoopParts} {items : List Node} {s t u : Session} {starts : List Start}
      (hblock : parts.block = .tree "block" items) (h : (beginLap parts i).exec s = (.ok (), t))
      (hrun : Runs d (.block items) t starts true u) (hu : u.breaking = true) :
      Runs d (.laps parts (left + 1) i) s starts true u
  | lapFailed {d left i : Nat} {parts : LoopParts} {items : List Node} {s t u : Session} {starts : List Start}
      (hblock : parts.block = .tree "block" items) (h : (beginLap parts i).exec s = (.ok (), t))
      (hrun : Runs d (.block items) t starts false u) : Runs d (.laps parts (left + 1) i) s starts false u

/-! ### Every run is told of -/

/-- All statements are told of that are visited at a depth. -/
def Tells (d : Nat) : Prop :=
  ∀ n, Of .statement (.tree "statement" [n]) → ∀ s outcome t, (visit d n).exec s = (outcome, t) →
    ∃ starts, Runs d (.deed n) s starts outcome.isOk t

/-- A block that is asked to end starts nothing. -/
theorem exec_runStatements_of_isAsked (visit : Visit) (items : List Node) (hs : s.isAsked = true) :
    (runStatements visit items).exec s = (.ok (), s) := by
  induction items with
  | nil => rfl
  | cons item rest ih =>
    have hasked : (s.returning || s.breaking) = true := hs
    rw [runStatements]
    split
    · rw [exec_get_bind, if_pos hasked, exec_pure]
    · exact ih

theorem Remarks.isAsked_eq (h : Remarks s t) : t.isAsked = s.isAsked := by
  obtain ⟨_, _, rfl⟩ := h
  rfl

/-- The statement of a node, which its visit starts. -/
theorem exec_visit_statement (d : Nat) (n : Node) (s : Session) : ∃ s₁, Remarks s s₁ ∧
      (∀ v t, (visit d n).exec s₁ = (.ok v, t) →
        ∃ u, (visit (d + 1) (.tree "statement" [n])).exec s = (.ok .none, u) ∧ Remarks t u) ∧
      ∀ stop t, (visit d n).exec s₁ = (.error stop, t) →
        ∃ stop', (visit (d + 1) (.tree "statement" [n])).exec s = (.error stop', t) := by
  obtain ⟨s₁, hs1, hok, herror⟩ := exec_visit_tree d "statement" [n] rfl (by decide) s
  obtain ⟨s2, hnote, hs2⟩ := tells_noteStep "visit_statement" s₁
  have hkids : (childrenOf (.tree "statement" [n])).exec s2 = (.ok [n], s2) := rfl
  refine ⟨s2, hs1.trans hs2, fun v t hexec => ?_, fun stop t hexec => ?_⟩
  · exact hok .none t ((exec_bind_ok hnote).trans ((exec_bind_ok hkids).trans (exec_bind_ok hexec))) rfl
  · exact herror stop t ((exec_bind_ok hnote).trans ((exec_bind_ok hkids).trans (exec_bind_error hexec)))

theorem runs_block (hd : ∀ e, d = e + 1 → Tells e) (hitems : ∀ item ∈ items, IsItem item)
    {outcome : Except Stop Unit} (h : (runStatements (visit d) items).exec s = (outcome, t)) :
    ∃ starts, Runs d (.block items) s starts outcome.isOk t := by
  induction items generalizing s with
  | nil =>
    obtain ⟨rfl, rfl⟩ := Prod.mk.inj h
    exact ⟨[], .blockEnd s⟩
  | cons item rest ih =>
    obtain ⟨hitem, hrest⟩ := List.forall_mem_cons.mp hitems
    by_cases hasked : s.isAsked = true
    · rw [exec_runStatements_of_isAsked _ _ hasked] at h
      obtain ⟨rfl, rfl⟩ := Prod.mk.inj h
      exact ⟨[], .asked hasked⟩
    have hfree : s.isAsked = false := Bool.eq_false_iff.mpr hasked
    rcases hitem with hstmt | ⟨text, rfl⟩
    · obtain ⟨c, -, n, rfl, -⟩ := hstmt.statement_inv
      have hstart : (runStatements (visit d) (.tree "statement" [n] :: rest)).exec s =
          (do let _ ← visit d (.tree "statement" [n]); runStatements (visit d) rest : Interp Unit).exec s := by
        have hnone : ¬ (s.returning || s.breaking) = true := hasked
        rw [runStatements, if_pos hstmt.hasRule_statement, exec_get_bind, if_neg hnone]
      rw [hstart] at h
      cases d with
      | zero =>
        obtain ⟨rfl, rfl⟩ := Prod.mk.inj h
        exact ⟨[], .blockTooDeep hfree⟩
      | succ e =>
        obtain ⟨s₁, hs1, hok, herror⟩ := exec_visit_statement e n s
        have hfree1 : s₁.isAsked = false := hs1.isAsked_eq.trans hfree
        cases hexec : (visit e n).exec s₁ with
        | mk first u =>
          obtain ⟨starts, hdeed⟩ := hd e rfl n hstmt s₁ first u hexec
          cases first with
          | ok v =>
            obtain ⟨w, hvisit, hw⟩ := hok v u hexec
            rw [exec_bind_ok hvisit] at h
            obtain ⟨others, hothers⟩ := ih hrest h
            exact ⟨starts ++ others, .before hs1 (.statement hfree1 hdeed (.before hw hothers))⟩
          | error stop =>
            obtain ⟨stop', hvisit⟩ := herror stop u hexec
            rw [exec_bind_error hvisit] at h
            obtain ⟨rfl, rfl⟩ := Prod.mk.inj h
            exact ⟨starts, .before hs1 (.statementFailed hfree1 hdeed)⟩
    · obtain ⟨starts, hrun⟩ := ih hrest h
      exact ⟨starts, .newline rfl hrun⟩

/-- The visit of a block, which runs its statements. -/
theorem exec_visitBlock (visit : Visit) (items : List Node) (s : Session) :
    ∃ s₁, Remarks s s₁ ∧ ∀ outcome t, (runStatements visit items).exec s₁ = (outcome, t) →
      (visitBlock visit (.tree "block" items)).exec s = (outcome.map fun _ => .none, t) := by
  obtain ⟨s₁, hnote, hs1⟩ := tells_noteStep "visit_block" s
  refine ⟨s₁, hs1, fun outcome t hexec => ?_⟩
  cases outcome with
  | ok => exact (exec_bind_ok hnote).trans (exec_bind_ok hexec)
  | error stop => exact (exec_bind_ok hnote).trans (exec_bind_error hexec)

theorem runs_visitBlock (hd : ∀ e, d = e + 1 → Tells e)
    (hitems : ∀ item ∈ items, IsItem item) {outcome : Except Stop Value}
    (h : (visitBlock (visit d) (.tree "block" items)).exec s = (outcome, t)) :
    ∃ starts, Runs d (.block items) s starts outcome.isOk t := by
  obtain ⟨s₁, hs1, hblock⟩ := exec_visitBlock (visit d) items s
  cases hexec : (runStatements (visit d) items).exec s₁ with
  | mk inner u =>
    cases (hblock inner u hexec).symm.trans h
    obtain ⟨starts, hrun⟩ := runs_block hd hitems hexec
    refine ⟨starts, .before hs1 ?_⟩
    cases inner <;> exact hrun

theorem tells_endLap (i : Nat) (s : Session) : (endLap i).Tells s (!s.breaking) := by
  refine .after (exec_get s) ?_
  by_cases hbreak : s.breaking = true
  · rw [if_pos hbreak, hbreak]
    exact .bind (tells_note rfl) fun t _ => .of_pure false t
  · rw [if_neg hbreak, Bool.eq_false_iff.mpr hbreak]
    exact .of_pure true s

theorem Remarks.breaking_eq (h : Remarks s t) : t.breaking = s.breaking := by
  obtain ⟨_, _, rfl⟩ := h
  rfl

theorem runs_laps (hd : ∀ e, d = e + 1 → Tells e) {parts : LoopParts}
    (hblock : parts.block = .tree "block" items) (hitems : ∀ item ∈ items, IsItem item) {left i : Nat}
    {outcome : Except Stop Unit} (h : (runIterations (visit d) parts left i).exec s = (outcome, t)) :
    ∃ starts, Runs d (.laps parts left i) s starts outcome.isOk t := by
  induction left generalizing s i with
  | zero =>
    obtain ⟨rfl, rfl⟩ := Prod.mk.inj h
    exact ⟨[], .lapsEnd s⟩
  | succ left ih =>
    rw [runIterations, runIteration_eq, bind_assoc] at h
    cases hbegin : (beginLap parts i).exec s with
    | mk begun u =>
      cases begun with
      | error stop =>
        rw [exec_bind_error hbegin] at h
        obtain ⟨rfl, rfl⟩ := Prod.mk.inj h
        exact ⟨[], .noLap hbegin⟩
      | ok =>
        rw [exec_bind_ok hbegin, bind_assoc] at h
        cases hbody : (visitBlock (visit d) parts.block).exec u with
        | mk inner w =>
          obtain ⟨starts, hrun⟩ := runs_visitBlock hd hitems (hblock ▸ hbody)
          cases inner with
          | error stop =>
            rw [exec_bind_error hbody] at h
            obtain ⟨rfl, rfl⟩ := Prod.mk.inj h
            exact ⟨starts, .lapFailed hblock hbegin hrun⟩
          | ok v =>
            obtain ⟨x, hend, hx⟩ := tells_endLap i w
            rw [exec_bind_ok hbody, exec_bind_ok hend] at h
            have hafter := hrun.after hx
            cases hbreak : w.breaking with
            | true =>
              rw [hbreak] at h
              obtain ⟨rfl, rfl⟩ := Prod.mk.inj h
              exact ⟨starts, .lastLap hblock hbegin hafter (hx.breaking_eq.trans hbreak)⟩
            | false =>
              rw [hbreak] at h
              obtain ⟨others, hothers⟩ := ih h
              exact ⟨starts ++ others, .lap hblock hbegin hafter (hx.breaking_eq.trans hbreak) hothers⟩

theorem decides_visit_conditions (d : Nat) (hn : Of .conditions n) : (visit d n).Decides := by
  intro s v t h
  cases d with
  | zero => cases h
  | succ d =>
    obtain ⟨outcome, u, -, hgood, hbad⟩ := judging_visit_conditions d hn s
    cases outcome with
    | ok bs => exact ⟨_, Except.ok.inj (Prod.mk.inj (h.symm.trans (hgood bs rfl))).1⟩
    | error stop =>
      obtain ⟨stop', hexec⟩ := hbad stop rfl
      cases h.symm.trans hexec

theorem runs_cause (hd : ∀ e, d = e + 1 → Tells e) (hn : Of .causeStmt n)
    {outcome : Except Stop Value} (h : (visit (d + 1) n).exec s = (outcome, t)) :
    ∃ starts, Runs (d + 1) (.deed n) s starts outcome.isOk t := by
  obtain ⟨conditions, block, others, rfl, hconds, -⟩ := hn.causeStmt_inv
  obtain ⟨s₁, hs1, hok, herror⟩ := exec_visit_tree d "cause_stmt" (conditions :: block :: others) rfl (by decide) s
  obtain ⟨s2, hs2, hcause, hstop⟩ := exec_visitCause (visit d) hn s₁
  have hs2 := hs1.trans hs2
  rcases hdecide : (visit d conditions).exec s2 with ⟨stop | v, u⟩
  · obtain ⟨stop', hvisit⟩ := herror stop u (hstop stop u hdecide)
    cases hvisit.symm.trans h
    exact ⟨_, .before hs2 (.undecided hdecide)⟩
  · obtain ⟨b, rfl⟩ := decides_visit_conditions d hconds s2 v u hdecide
    obtain ⟨u1, hu1, hexec⟩ := hcause b u hdecide
    cases hchosen : chosen? b block others with
    | none =>
      rw [hchosen] at hexec
      obtain ⟨w, hvisit, hw⟩ := hok .none u1 hexec rfl
      cases hvisit.symm.trans h
      exact ⟨_, .before hs2 (.after (.passed hdecide hchosen) (hu1.trans hw))⟩
    | some chosen =>
      obtain ⟨items, rfl, hitems⟩ := (of_chosen hn hchosen).block_inv
      rw [hchosen] at hexec
      cases hbody : (visitBlock (visit d) (.tree "block" items)).exec u1 with
      | mk inner w =>
        obtain ⟨starts, hrun⟩ := runs_visitBlock hd hitems hbody
        have hbranch := Runs.before hs2 (.branch hdecide hchosen (.before hu1 hrun))
        cases inner with
        | ok v =>
          obtain ⟨x, hvisit, hx⟩ := hok .none w (hexec.trans (exec_bind_ok hbody)) rfl
          cases hvisit.symm.trans h
          exact ⟨_, hbranch.after hx⟩
        | error stop =>
          obtain ⟨stop', hvisit⟩ := herror stop w (hexec.trans (exec_bind_error hbody))
          cases hvisit.symm.trans h
          exact ⟨_, hbranch⟩

theorem succeeds_endLoop (name : String) : (endLoop name).Succeeds :=
  .bind (succeeds_dropRepeatVar name) fun _ => .modify _

/-- The visit of a loop, which runs it. -/
theorem exec_visit_again (d : Nat) {cs : List Node} {parts : LoopParts} (hparts : LoopParts.of cs = .ok parts)
    (s : Session) : ∃ s₁, Remarks s s₁ ∧
      (∀ t, (runLoop (visit d) parts).exec s₁ = (.ok (), t) →
        ∃ u, (visit (d + 1) (.tree "again_stmt" cs)).exec s = (.ok .none, u) ∧ Remarks t u) ∧
      ∀ stop t, (runLoop (visit d) parts).exec s₁ = (.error stop, t) →
        ∃ stop', (visit (d + 1) (.tree "again_stmt" cs)).exec s = (.error stop', t) := by
  obtain ⟨s₁, hs1, hok, herror⟩ := exec_visit_tree d "again_stmt" cs rfl (by decide) s
  obtain ⟨s2, hnote, hs2⟩ := tells_noteStep "visit_again_stmt" s₁
  have hagain : (visitAgain (visit d) (.tree "again_stmt" cs)).exec s₁ =
      (do runLoop (visit d) parts; return .none : Interp Value).exec s2 := by
    rw [visitAgain, exec_bind_ok hnote, exec_bind_ok (exec_childrenOf _ _ s2), hparts]
  refine ⟨s2, hs1.trans hs2, fun t hexec => ?_, fun stop t hexec => ?_⟩
  · exact hok .none t (hagain.trans (exec_bind_ok hexec)) rfl
  · exact herror stop t (hagain.trans (exec_bind_error hexec))

theorem runs_again (hd : ∀ e, d = e + 1 → Tells e) (hn : Of .againStmt n)
    {outcome : Except Stop Value} (h : (visit (d + 1) n).exec s = (outcome, t)) :
    ∃ starts, Runs (d + 1) (.deed n) s starts outcome.isOk t := by
  obtain ⟨cs, parts, rfl, hparts, -, hblock⟩ := loop?_of_againStmt hn
  obtain ⟨items, hitem, hitems⟩ := hblock.block_inv
  obtain ⟨s₁, hs1, hok, herror⟩ := exec_visit_again d hparts s
  rw [runLoop_eq] at hok herror
  rcases hbegin : (beginLoop (visit d) parts).exec s₁ with ⟨stop | count?, u⟩
  · obtain ⟨stop', hvisit⟩ := herror stop u (exec_bind_error hbegin)
    cases hvisit.symm.trans h
    exact ⟨_, .before hs1 (.uncounted hparts hbegin)⟩
  · cases count? with
    | none =>
      obtain ⟨w, hvisit, hw⟩ := hok u (exec_bind_ok hbegin)
      cases hvisit.symm.trans h
      exact ⟨_, .before hs1 (.after (.refused hparts hbegin) hw)⟩
    | some count =>
      cases hlaps : (runIterations (visit d) parts count 1).exec u with
      | mk inner w =>
        obtain ⟨starts, hrun⟩ := runs_laps hd hitem hitems hlaps
        cases inner with
        | ok =>
          obtain ⟨_, x, hend⟩ := succeeds_endLoop parts.var w
          obtain ⟨y, hvisit, hy⟩ := hok x ((exec_bind_ok hbegin).trans ((exec_bind_ok hlaps).trans hend))
          cases hvisit.symm.trans h
          exact ⟨_, .before hs1 (.after (.loop hparts hbegin hrun hend) hy)⟩
        | error stop =>
          obtain ⟨stop', hvisit⟩ := herror stop w ((exec_bind_ok hbegin).trans (exec_bind_error hlaps))
          cases hvisit.symm.trans h
          exact ⟨_, .before hs1 (.loopFailed hparts hbegin hrun)⟩

/-- Whatever happens, a visit of a statement is told of. -/
theorem runs_deed (d : Nat) : Tells d := by
  induction d using Nat.strong_induction_on with
  | _ d ih =>
    intro n hn s outcome t h
    cases d with
    | zero =>
      cases h
      exact ⟨_, .tooDeep n s⟩
    | succ d =>
      have hd : ∀ e, d = e + 1 → Tells e := fun e he => ih e (by omega)
      by_cases hcause : n.hasRule "cause_stmt" = true
      · obtain ⟨cs, rfl⟩ := Node.exists_of_hasRule hcause
        exact runs_cause hd (hn.of_statement (by decide)) h
      by_cases hagain : n.hasRule "again_stmt" = true
      · obtain ⟨cs, rfl⟩ := Node.exists_of_hasRule hagain
        exact runs_again hd (hn.of_statement (by decide)) h
      · exact ⟨_, .simple (Bool.or_eq_false_iff.mpr ⟨Bool.eq_false_iff.mpr hcause, Bool.eq_false_iff.mpr hagain⟩) h⟩

end Run

end FapLang
