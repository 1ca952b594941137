import FapLang.Proofs.Run.Control
import FapLang.Proofs.Run.Places

/-!
Chains of conditions. The words between conditions are read off the current line of the source, so a
chain is one conjunction or one disjunction of all its conditions (`Connective.ofLine`), whatever
words were written (`causes_follow_the_line`).
-/

namespace FapLang.Run

open Interp Grammar

/-- The two ways to combine conditions. -/
inductive Connective
  | conj
  | disj
  deriving DecidableEq

namespace Connective

/-- The connective that a line of the source names; without a name it is a conjunction. -/
def ofLine (line : Option String) : Connective :=
  if line.any (Text.contains · " and ") then conj
  else if line.any (Text.contains · " or ") then disj
  else conj

def word : Connective → String
  | conj => "and"
  | disj => "or"

def holds : Connective → List Bool → Bool
  | conj, bs => bs.all id
  | disj, bs => bs.any id

end Connective

/-! ### Conditions -/

/-- Conditions are visited one after the other, up to the first one that stops. -/
inductive Judging (visit : Visit) : Session → List Node → Except Stop (List Bool) → Session → Prop
  | done {s t : Session} (h : Remarks s t) : Judging visit s [] (.ok []) t
  | next {s s₁ t u : Session} {c : Node} {cs : List Node} {b : Bool} {outcome : Except Stop (List Bool)}
      (hs : Remarks s s₁) (hc : (visit c).exec s₁ = (.ok (.bool b), t)) (hcs : Judging visit t cs outcome u) :
      Judging visit s (c :: cs) (outcome.map (b :: ·)) u
  | stop {s s₁ t : Session} {c : Node} {cs : List Node} {stop : Stop} (hs : Remarks s s₁)
      (hc : (visit c).exec s₁ = (.error stop, t)) : Judging visit s (c :: cs) (.error stop) t

namespace Judging

variable {visit : Visit} {s s₁ t u : Session} {cs : List Node} {outcome : Except Stop (List Bool)}

theorem after (h : Judging visit s₁ cs outcome t) (hs : Remarks s s₁) : Judging visit s cs outcome t := by
  cases h with
  | done h => exact .done (hs.trans h)
  | next h hc hcs => exact .next (hs.trans h) hc hcs
  | stop h hc => exact .stop (hs.trans h) hc

theorem before {bs : List Bool} (h : Judging visit s cs (.ok bs) t) (ht : Remarks t u) :
    Judging visit s cs (.ok bs) u := by
  generalize hout : (.ok bs : Except Stop (List Bool)) = outcome at h
  induction h generalizing bs with
  | done h => exact .done (h.trans ht)
  | @next _ _ _ _ _ _ b rest hs hc _ ih =>
    cases rest with
    | ok others => exact .next hs hc (ih ht rfl)
    | error stop => simp [Except.map] at hout
  | stop => cases hout

/-- Conditions that do not stop all give a truth value. -/
theorem length_eq {bs : List Bool} (h : Judging visit s cs (.ok bs) t) : bs.length = cs.length := by
  generalize hout : (.ok bs : Except Stop (List Bool)) = outcome at h
  induction h generalizing bs with
  | done =>
    cases hout
    rfl
  | @next _ _ _ _ _ _ b rest _ _ _ ih =>
    cases rest with
    | ok others =>
      cases hout
      rw [List.length_cons, List.length_cons, ih rfl]
    | error stop => simp [Except.map] at hout
  | stop => cases hout

end Judging

/-- If the step gives a value, it is a truth value. -/
def Interp.Decides (m : Interp Value) : Prop :=
  ∀ s v t, m.exec s = (.ok v, t) → ∃ b, v = .bool b

namespace Interp.Decides

protected theorem pure (b : Bool) : (pure (.bool b) : Interp Value).Decides :=
  fun _ _ _ h => ⟨b, (Except.ok.inj (Prod.mk.inj h).1).symm⟩

protected theorem fail (f : Fault) : (Interp.fail f : Interp Value).Decides :=
  fun _ _ _ h => absurd (Prod.mk.inj h).1 (by simp)

protected theorem bind {α : Type} {m : Interp α} {k : α → Interp Value} (hk : ∀ a, (k a).Decides) :
    (m >>= k).Decides := by
  intro s v t h
  obtain ⟨a, u, -, hnext⟩ := exec_bind_eq_ok h
  exact hk a u v t hnext

protected theorem recover {m : Interp Value} {handler : Fault → Interp Value} (hm : m.Decides)
    (hhandler : ∀ f, (handler f).Decides) : (recover m handler).Decides := by
  intro s v t h
  rw [exec_recover] at h
  rcases hexec : m.exec s with ⟨stop | w, u⟩ <;> rw [hexec] at h
  · cases stop with
    | fault f => exact hhandler f u v t h
    | exhausted => cases h
  · exact hm s v t (hexec.trans h)

end Interp.Decides

theorem decides_compareValues (op left right : Value) : (compareValues op left right).Decides := by
  refine .bind fun s => ?_
  have hord : ∀ r, (do return Value.bool (← Interp.ofExcept (left.order s.cells r right)) : Interp Value).Decides :=
    fun r => .bind fun b => .pure b
  dsimp only
  split
  · exact .pure _
  · exact .pure _
  · exact hord .greater
  · exact hord .less
  · exact hord .greaterEqual
  · exact hord .lessEqual
  · exact .bind fun _ => .pure false

theorem decides_visitCondition (visit : Visit) (n : Node) : (visitCondition visit n).Decides := by
  refine .bind fun _ => .bind fun cs => .bind fun _ => .bind fun left => .bind fun _ => .bind fun op => ?_
  refine .bind fun _ => .bind fun right => .bind fun _ => .recover (decides_compareValues op left right) fun f => ?_
  split
  · exact .bind fun _ => .pure false
  · exact .fail f

theorem decides_visit_condition {depth : Nat} {cs : List Node} : (visit depth (.tree "condition" cs)).Decides := by
  cases depth with
  | zero => exact fun _ _ _ h => absurd (Prod.mk.inj h).1 (by simp)
  | succ depth =>
    refine .recover ?_ fun f => .fail _
    intro s v t h
    obtain ⟨_, s₁, -, h⟩ := exec_bind_eq_ok h
    obtain ⟨w, s2, hstep, h⟩ := exec_bind_eq_ok h
    obtain ⟨_, s3, -, h⟩ := exec_bind_eq_ok h
    obtain rfl := Except.ok.inj (Prod.mk.inj h).1
    exact decides_visitCondition (visit depth) _ s₁ w s2 hstep

/-! ### The words between conditions -/

theorem Remarks.currentLine?_eq {s t : Session} (h : Remarks s t) : t.currentLine? = s.currentLine? := by
  obtain ⟨_, _, rfl⟩ := h
  rfl

/-- A word is read off the current line. -/
theorem tells_visit_logicOp (depth : Nat) (s : Session) :
    (visit (depth + 1) (.tree "logic_op" [])).Tells s (.text (Connective.ofLine s.currentLine?).word) := by
  obtain ⟨s₁, hs1, hok, -⟩ := exec_visit_tree depth "logic_op" [] rfl (by decide) s
  obtain ⟨s2, hnote, hs2⟩ := tells_noteStep "visit_logic_op" s₁
  have hcontent : (noteContent s2.currentLine?).Tells s2 () := by
    cases s2.currentLine? with
    | none => exact .of_pure () s2
    | some content => exact tells_note rfl
  obtain ⟨s3, hcontent, hs3⟩ := hcontent
  have hline : s2.currentLine? = s.currentLine? := (hs1.trans hs2).currentLine?_eq
  have hword : (logicWord s2.currentLine? (.tree "logic_op" [])).exec s3 =
      (.ok (.text (Connective.ofLine s.currentLine?).word), s3) := by
    rw [logicWord, hline, Connective.ofLine]
    split
    · rfl
    · split <;> rfl
  have hstep : (visitLogicOp (.tree "logic_op" [])).exec s₁ =
      (.ok (.text (Connective.ofLine s.currentLine?).word), s3) := by
    rw [visitLogicOp, exec_bind_ok hnote, exec_get_bind, exec_bind_ok hcontent, hword]
  obtain ⟨t, hvisit, ht⟩ := hok _ s3 hstep rfl
  exact ⟨t, hvisit, hs1.trans (hs2.trans (hs3.trans ht))⟩

/-! ### Chains -/

/-- The conditions among the children of a chain. -/
def conditionsOf (cs : List Node) : List Node :=
  cs.filter (·.hasRule "condition")

section Parts

variable {visit : Visit} {cs : List Node} (rest : List Node) (results ops : List Value) {s t : Session} {v : Value}

/-- One condition of a chain. -/
theorem exec_conditionPart (hvisit : (visit (.tree "condition" cs)).exec s = (.ok v, t)) (hshown : t.Writes [.val v]) :
    ∃ u, Remarks t u ∧ (visitConditionParts visit (.tree "condition" cs :: rest) results ops).exec s =
      (visitConditionParts visit rest (results ++ [v]) ops).exec u := by
  have hwrites : t.Writes
      [.lit "[RUNTIME] Condition ", .lit (toString (results ++ [v]).length), .lit ": ", .val v] := by
    simpa [Session.Writes, Piece.isWritable] using hshown
  obtain ⟨u, hnote, hu⟩ := tells_note hwrites
  exact ⟨u, hu, (exec_bind_ok hvisit).trans (exec_bind_ok hnote)⟩

theorem exec_conditionPart_error {stop : Stop} (hvisit : (visit (.tree "condition" cs)).exec s = (.error stop, t)) :
    (visitConditionParts visit (.tree "condition" cs :: rest) results ops).exec s = (.error stop, t) :=
  exec_bind_error hvisit

/-- One word of a chain. -/
theorem exec_wordPart (hvisit : (visit (.tree "logic_op" cs)).exec s = (.ok v, t)) (hshown : t.Writes [.val v]) :
    ∃ u, Remarks t u ∧ (visitConditionParts visit (.tree "logic_op" cs :: rest) results ops).exec s =
      (visitConditionParts visit rest results (ops ++ [v])).exec u := by
  have hwrites : t.Writes [.lit "[RUNTIME] Logic op ", .lit (toString (ops ++ [v]).length), .lit ": ", .val v] := by
    simpa [Session.Writes, Piece.isWritable] using hshown
  obtain ⟨u, hnote, hu⟩ := tells_note hwrites
  exact ⟨u, hu, (exec_bind_ok hvisit).trans (exec_bind_ok hnote)⟩

end Parts

/-- The values of the conditions after the first, and the words before them, all the same. -/
theorem judging_visitConditionParts (depth : Nat) {cs : List Node} (hcs : InTurn (Of .logicOp) (Of .condition) cs)
    (results ops : List Value) (s : Session) :
    ∃ outcome t, Judging (visit (depth + 1)) s (conditionsOf cs) outcome t ∧
      (visitConditionParts (visit (depth + 1)) cs results ops).exec s = (outcome.map fun bs =>
        (results ++ bs.map .bool, ops ++ List.replicate bs.length (.text (Connective.ofLine s.currentLine?).word)), t) := by
  induction hcs generalizing results ops s with
  | nil =>
    refine ⟨.ok [], s, .done (.refl s), ?_⟩
    simp [visitConditionParts, Except.map]
  | @cons op c rest hop hc _ ih =>
    obtain rfl := hop.logicOp_inv
    obtain ⟨left, symbol, right, rfl, -⟩ := hc.condition_inv
    obtain ⟨s₁, hword, hs1⟩ := tells_visit_logicOp depth s
    obtain ⟨s2, hs2, hwordPart⟩ := exec_wordPart _ results ops hword rfl
    rw [hwordPart]
    have hs2 := hs1.trans hs2
    cases hvisit : (visit (depth + 1) (.tree "condition" [left, .token "COMPARISON_OP" symbol, right])).exec s2 with
    | mk first t =>
      cases first with
      | error stop => exact ⟨.error stop, t, .stop hs2 hvisit, exec_conditionPart_error _ _ _ hvisit⟩
      | ok v =>
        obtain ⟨b, rfl⟩ := decides_visit_condition s2 v t hvisit
        obtain ⟨t1, ht1, hpart⟩ := exec_conditionPart rest results _ hvisit rfl
        -- The line is still the same, so the other words are the same one.
        have hline : t1.currentLine? = s.currentLine? := by
          have hplace := place_visit (depth + 1) (.tree "condition" [left, .token "COMPARISON_OP" symbol, right]) s2
          rw [hvisit] at hplace
          rw [ht1.currentLine?_eq, hplace.currentLine?_eq, hs2.currentLine?_eq]
        rw [hpart]
        obtain ⟨outcome, u, hjudging, hexec⟩ := ih (results ++ [.bool b])
          (ops ++ [.text (Connective.ofLine s.currentLine?).word]) t1
        refine ⟨outcome.map (b :: ·), u, .next hs2 hvisit (hjudging.after ht1), ?_⟩
        rw [hexec, hline]
        cases outcome with
        | error stop => rfl
        | ok bs => simp [Except.map, List.replicate_succ]

/-- Words that are all the same make one conjunction or one disjunction. -/
theorem exec_chainOperators (connective : Connective) (b : Bool) (bs : List Bool) (s : Session) :
    (chainOperators (.bool b) ((List.replicate bs.length (.text connective.word)).zip (bs.map .bool))).exec s =
      (.ok (.bool (connective.holds (b :: bs))), s) := by
  induction bs generalizing b with
  | nil => cases connective <;> cases b <;> rfl
  | cons next rest ih =>
    rw [List.length_cons, List.replicate_succ, List.map_cons, List.zip_cons_cons]
    cases connective with
    | conj =>
      cases b with
      | false => rfl
      | true =>
        cases next with
        | false => rfl
        | true => exact ih true
    | disj =>
      cases b with
      | true => rfl
      | false =>
        cases next with
        | true => rfl
        | false => exact ih false

theorem exec_combineConditions (connective : Connective) (b : Bool) (bs : List Bool) (s : Session) :
    (combineConditions (.bool b :: bs.map .bool) (List.replicate bs.length (.text connective.word))).exec s =
      (.ok (.bool (connective.holds (b :: bs))), s) := by
  rw [← exec_chainOperators]
  cases bs with
  | nil => rfl
  | cons next rest => simp [combineConditions, List.replicate_succ]

theorem Connective.holds_singleton (connective : Connective) (b : Bool) : connective.holds [b] = b := by
  cases connective <;> cases b <;> rfl

/-- A chain is visited: all its conditions, and then what the current line makes of them. -/
theorem judging_visitConditions (depth : Nat) {first : Node} {rest : List Node} (hfirst : Of .condition first)
    (hrest : InTurn (Of .logicOp) (Of .condition) rest) (s : Session) :
    ∃ outcome t, Judging (visit depth) s (conditionsOf (first :: rest)) outcome t ∧
      (visitConditions (visit depth) (.tree "conditions" (first :: rest))).exec s =
        (outcome.map fun bs => .bool ((Connective.ofLine s.currentLine?).holds bs), t) := by
  obtain ⟨left, symbol, right, rfl, -⟩ := hfirst.condition_inv
  obtain ⟨s₁, hnote1, hs1⟩ := tells_noteStep "visit_conditions" s
  obtain ⟨s2, hnote2, hs2⟩ : (note [.lit "[RUNTIME] Conditions node has ",
      .lit (toString (Node.tree "condition" [left, .token "COMPARISON_OP" symbol, right] :: rest).length),
      .lit " children"]).Tells s₁ () := tells_note rfl
  have hs2 := hs1.trans hs2
  have hline := hs2.currentLine?_eq
  cases hvisit : (visit depth (.tree "condition" [left, .token "COMPARISON_OP" symbol, right])).exec s2 with
  | mk only t =>
    cases only with
    | error stop =>
      refine ⟨.error stop, t, .stop hs2 hvisit, ?_⟩
      refine (exec_bind_ok hnote1).trans ((exec_bind_ok hnote2).trans ?_)
      cases hrest with
      | nil => exact exec_bind_error hvisit
      | cons => exact exec_bind_error (exec_conditionPart_error _ _ _ hvisit)
    | ok v =>
      obtain ⟨b, rfl⟩ := decides_visit_condition s2 v t hvisit
      cases hrest with
      | nil =>
        obtain ⟨u, hnote, hu⟩ : (note [.lit "[RUNTIME] Single condition result: ", .val (.bool b)]).Tells t () :=
          tells_note rfl
        refine ⟨.ok [b], u, .next hs2 hvisit (.done hu), ?_⟩
        refine (exec_bind_ok hnote1).trans ((exec_bind_ok hnote2).trans ?_)
        refine (exec_bind_ok hvisit).trans ((exec_bind_ok hnote).trans ?_)
        rw [exec_pure, Except.map, Connective.holds_singleton]
      | @cons op c more hop hc hmore =>
        cases depth with
        | zero => cases hvisit
        | succ depth =>
          obtain ⟨t1, ht1, hpart⟩ := exec_conditionPart (op :: c :: more) [] [] hvisit rfl
          obtain ⟨outcome, u, hjudging, hexec⟩ :=
            judging_visitConditionParts depth (.cons hop hc hmore) ([] ++ [.bool b]) [] t1
          refine ⟨outcome.map (b :: ·), u, .next hs2 hvisit (hjudging.after ht1), ?_⟩
          have hparts := hpart.trans hexec
          refine (exec_bind_ok hnote1).trans ((exec_bind_ok hnote2).trans ?_)
          cases outcome with
          | error stop => exact exec_bind_error hparts
          | ok bs =>
            refine (exec_bind_ok hparts).trans ?_
            have hplace := place_visit (depth + 1) (.tree "condition" [left, .token "COMPARISON_OP" symbol, right]) s2
            rw [hvisit] at hplace
            rw [ht1.currentLine?_eq, hplace.currentLine?_eq, hline]
            exact exec_combineConditions _ b bs u

/-- The same one level up, where a fault of a condition may be hidden. -/
theorem judging_visit_conditions (depth : Nat) {n : Node} (hn : Of .conditions n) (s : Session) :
    ∃ outcome t, Judging (visit depth) s (conditionsOf n.kids) outcome t ∧
      (∀ bs, outcome = .ok bs → (visit (depth + 1) n).exec s =
        (.ok (.bool ((Connective.ofLine s.currentLine?).holds bs)), t)) ∧
      ∀ stop, outcome = .error stop → ∃ stop', (visit (depth + 1) n).exec s = (.error stop', t) := by
  obtain ⟨first, rest, rfl, hfirst, hrest⟩ := hn.conditions_inv
  obtain ⟨s₁, hs1, hok, herror⟩ := exec_visit_tree depth "conditions" (first :: rest) rfl (by decide) s
  obtain ⟨outcome, t, hjudging, hexec⟩ := judging_visitConditions depth hfirst hrest s₁
  rw [hs1.currentLine?_eq] at hexec
  cases outcome with
  | ok bs =>
    obtain ⟨u, hvisit, hu⟩ := hok _ t hexec rfl
    refine ⟨.ok bs, u, (hjudging.before hu).after hs1, fun others heq => ?_, by simp⟩
    cases heq
    exact hvisit
  | error stop =>
    exact ⟨.error stop, t, hjudging.after hs1, by simp, fun _ _ => herror stop t hexec⟩

/-! ### Branches -/

theorem eq_none_of_runChosen {visit : Visit} {block? : Option Node} {s t : Session} {v : Value}
    (h : (runChosen visit block?).exec s = (.ok v, t)) : v = .none := by
  cases block? with
  | none => exact (Except.ok.inj (Prod.mk.inj h).1).symm
  | some block =>
    obtain ⟨_, _, -, h⟩ := exec_bind_eq_ok h
    exact (Except.ok.inj (Prod.mk.inj h).1).symm

/-- A branch statement visits its conditions, and then it runs the block for their outcome. -/
theorem exec_visitCause (visit : Visit) {conditions block : Node} {others : List Node}
    (hn : Of .causeStmt (.tree "cause_stmt" (conditions :: block :: others))) (s : Session) : ∃ s₁, Remarks s s₁ ∧
      (∀ b t, (visit conditions).exec s₁ = (.ok (.bool b), t) → ∃ t1, Remarks t t1 ∧
        (visitCause visit (.tree "cause_stmt" (conditions :: block :: others))).exec s =
          (runChosen visit (chosen? b block others)).exec t1) ∧
      ∀ stop t, (visit conditions).exec s₁ = (.error stop, t) →
        (visitCause visit (.tree "cause_stmt" (conditions :: block :: others))).exec s = (.error stop, t) := by
  obtain ⟨s₁, hnote, hs1⟩ := tells_noteStep "visit_cause_stmt" s
  rw [visitCause_eq visit hn, deciding]
  refine ⟨s₁, hs1, fun b t hvisit => ?_, fun stop t hvisit => ?_⟩
  · obtain ⟨t1, hres, ht1⟩ : (note [.lit "[RUNTIME] Conditions result: ", .val (.bool b)]).Tells t () := tells_note rfl
    have htruth : (truth (.bool b)).exec t1 = (.ok b, t1) := by cases b <;> rfl
    obtain ⟨t2, hannounce, ht2⟩ : (announceChosen b (chosen? b block others)).Tells t1 () := by
      cases chosen? b block others with
      | none => exact .of_pure () t1
      | some => cases b <;> exact tells_note rfl
    refine ⟨t2, ht1.trans ht2, ?_⟩
    simp only [bind_assoc]
    rw [exec_bind_ok hnote, exec_bind_ok hvisit, exec_bind_ok hres, exec_bind_ok htruth, exec_bind_ok hannounce]
  · exact exec_bind_error ((exec_bind_ok hnote).trans (exec_bind_error hvisit))

/-- A branch statement visits all conditions of its chain in order, and runs the block for their
conjunction or disjunction, as the line with the number of the running top-level statement says. A
condition that stops ends the statement. -/
theorem causes_follow_the_line (depth : Nat) {conditions block : Node} {others : List Node}
    (hn : Of .causeStmt (.tree "cause_stmt" (conditions :: block :: others))) (s : Session) :
    (∃ outcome t, Judging (visit depth) s (conditionsOf conditions.kids) outcome t ∧
      (∀ bs, outcome = .ok bs → bs.length = (conditionsOf conditions.kids).length ∧ ∃ t₁, Remarks t t₁ ∧
        let branch := runChosen (visit (depth + 1))
          (chosen? ((Connective.ofLine s.currentLine?).holds bs) block others)
        (∀ v u, branch.exec t₁ = (.ok v, u) →
          ∃ w, (visit (depth + 2) (.tree "cause_stmt" (conditions :: block :: others))).exec s = (.ok .none, w) ∧
            Remarks u w) ∧
        ∀ stop u, branch.exec t₁ = (.error stop, u) →
          ∃ stop', (visit (depth + 2) (.tree "cause_stmt" (conditions :: block :: others))).exec s = (.error stop', u)) ∧
      ∀ stop, outcome = .error stop →
        ∃ stop', (visit (depth + 2) (.tree "cause_stmt" (conditions :: block :: others))).exec s = (.error stop', t)) ∧
    ∀ stops i n, ((runTop (visitUntil stops depth) i n).exec s).2.line = i ∧
      ((runTop (visitUntil stops depth) i n).exec s).2.source = s.source := by
  refine ⟨?_, fun stops i n ↦ ⟨(line_runTop stops depth i n s).line, (line_runTop stops depth i n s).source⟩⟩
  obtain ⟨s₁, hs₁, hok, herror⟩ := exec_visit_tree (depth + 1) "cause_stmt" (conditions :: block :: others) rfl (by decide) s
  obtain ⟨s₂, hs₂, hcause, hstop⟩ := exec_visitCause (visit (depth + 1)) hn s₁
  have hs₂ := hs₁.trans hs₂
  obtain ⟨outcome, t, hjudging, hgood, hbad⟩ := judging_visit_conditions depth hn.conditions_of_cause s₂
  refine ⟨outcome, t, hjudging.after hs₂, fun bs heq ↦ ⟨?_, ?_⟩, fun stop heq ↦ ?_⟩
  · subst heq
    exact hjudging.length_eq
  · obtain ⟨t₁, ht₁, hexec⟩ := hcause _ t (hgood bs heq)
    rw [hs₂.currentLine?_eq] at hexec
    refine ⟨t₁, ht₁, fun v u hbranch ↦ ?_, fun stop u hbranch ↦ herror stop u (hexec.trans hbranch)⟩
    obtain rfl := eq_none_of_runChosen hbranch
    exact hok .none u (hexec.trans hbranch) rfl
  · obtain ⟨stop', hvisit⟩ := hbad stop heq
    exact herror stop' t (hstop stop' t hvisit)

/-- On a line with ` or ` in it the block is run, though only the second condition holds. -/
theorem disjunction_on_its_line :
    ∃ s n t, parse "Cause 1 > 2 or 2 > 1 [rep.stop]" = .ok (.tree "start" [.tree "statement" [n]]) ∧
      s.currentLine? = some "Cause 1 > 2 or 2 > 1 [rep.stop]" ∧ s.breaking = false ∧
      (visit 22 n).exec s = (.ok .none, t) ∧ t.breaking = true := by
  let s : Session := { Session.fresh with source := #["Cause 1 > 2 or 2 > 1 [rep.stop]"], line := 1 }
  let number : String → Node := fun digits ↦ .tree "expr" [.tree "term" [.tree "factor" [.token "NUMBER" digits]]]
  let greater : String → String → Node := fun a b ↦ .tree "condition" [number a, .token "COMPARISON_OP" ">", number b]
  let conditions : Node := .tree "conditions" [greater "1" "2", .tree "logic_op" [], greater "2" "1"]
  let block : Node := .tree "block" [.tree "statement" [.tree "rep_stop" []]]
  have hparse : parse "Cause 1 > 2 or 2 > 1 [rep.stop]" =
      .ok (.tree "start" [.tree "statement" [.tree "cause_stmt" [conditions, block]]]) := by rfl
  have hn : Of .causeStmt (.tree "cause_stmt" [conditions, block]) := (of_parse_statement hparse).of_statement (by decide)
  have hrun : (returned? ((visit 22 (.tree "cause_stmt" [conditions, block])).exec s)).map (·.breaking) = some true := by
    decide +kernel
  obtain ⟨t, ht, hbreaking⟩ := Option.map_eq_some_iff.mp hrun
  obtain ⟨v, hexec⟩ := returned?_eq_some ht
  -- The statement comes to its end, so both conditions are judged and the branch comes to its end.
  obtain ⟨⟨outcome, u, -, hbranch, hstop⟩, -⟩ := causes_follow_the_line 20 hn s
  cases outcome with
  | error stop =>
    obtain ⟨_, hfails⟩ := hstop stop rfl
    cases hexec.symm.trans hfails
  | ok bs =>
    obtain ⟨-, t₁, -, hok, herror⟩ := hbranch bs rfl
    cases hchosen : (runChosen (visit 21) (chosen? ((Connective.ofLine s.currentLine?).holds bs) block [])).exec t₁ with
    | mk inner w =>
      cases inner with
      | error stop =>
        obtain ⟨_, hfails⟩ := herror stop w hchosen
        cases hexec.symm.trans hfails
      | ok =>
        obtain ⟨x, hvisit, -⟩ := hok _ w hchosen
        obtain rfl : t = x := (Prod.mk.inj (hexec.symm.trans hvisit)).2
        exact ⟨s, .tree "cause_stmt" [conditions, block], t, hparse, rfl, rfl, hvisit, hbreaking⟩

end FapLang.Run
