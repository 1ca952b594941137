import FapLang.Proofs.Run.Manner

/-!
Expressions go on in every lawful manner in which the visits of their parts and the calls of functions do. Their
trees have the shapes of the grammar, so no part is missing, and no message tells of a wrong shape.
-/

namespace FapLang.Run

open Interp Grammar

variable {n : Node} {s t : Session} {c : Category} {args ns rest : List Node} {ops : List Value} {v : Value}

/-! ### Quiet steps -/

theorem quiet_textOf (n : Node) : (textOf n).Quiet := by
  refine .ofExcept ?_
  cases n with
  | token => exact .ok _
  | tree | absent | plain => exact .error rfl

theorem quiet_visitQuoted (n : Node) : (visitQuoted n).Quiet :=
  .bind (quiet_noteStep _) fun _ => .bind (quiet_textOf n) fun _ => .pure _

theorem quiet_visitNumber (n : Node) : (visitNumber n).Quiet :=
  .bind (quiet_noteStep _) fun _ => .bind (quiet_textOf n) fun text => Quiet.ofExcept (harmless_numberOf text)

theorem quiet_visitText (step : String) (n : Node) : (visitText step n).Quiet :=
  .bind (quiet_noteStep _) fun _ => .bind (quiet_textOf n) fun _ => .pure _

theorem quiet_visitIdent (n : Node) : (visitIdent n).Quiet := by
  refine .bind (quiet_noteStep _) fun _ => .bind (quiet_textOf n) fun name => ?_
  refine .bind (quiet_markUsed name) fun _ => .bind (quiet_note _) fun _ => ?_
  refine .bind (quiet_isDefined name) fun _ => .ite ?_ ?_
  · exact .bind (quiet_valueOf name) fun v => .bind (quiet_warnUnassigned name v) fun _ => .pure v
  · refine Quiet.of_mild (lawful_staying.lament _ name).1 ?_
    refine .bind (quiet_report (.around (by decide))).mild fun _ => ?_
    exact .bind (quiet_isFaulty name).mild fun _ => .ite (.pure _) (.bind (mild_blame name) fun _ => .pure _)

/-- The member that an access finds is one that the object holds. -/
theorem holds_of_accessed {object member : String} (h : (accessed n).exec s = (.ok (object, member, some v), t)) :
    ∃ cells, v.holds cells member = .ok true := by
  obtain ⟨cs, s1, -, h⟩ := exec_bind_eq_ok h
  obtain ⟨first, s2, -, h⟩ := exec_bind_eq_ok h
  obtain ⟨second, s3, -, h⟩ := exec_bind_eq_ok h
  obtain ⟨object', s4, -, h⟩ := exec_bind_eq_ok h
  obtain ⟨member', s5, -, h⟩ := exec_bind_eq_ok h
  obtain ⟨defined, s6, -, h⟩ := exec_bind_eq_ok h
  split at h
  · obtain ⟨w, s7, -, h⟩ := exec_bind_eq_ok h
    rw [exec_get_bind] at h
    obtain ⟨found, s8, hholds, h⟩ := exec_bind_eq_ok h
    split at h
    · rename_i hfound
      have hres := Except.ok.inj (congrArg Prod.fst h)
      simp only [Prod.mk.injEq, Option.some.injEq] at hres
      obtain ⟨-, rfl, rfl⟩ := hres
      refine ⟨s7.cells, ?_⟩
      cases hw : w.holds s7.cells member' with
      | ok b =>
        rw [hw] at hholds
        rw [Except.ok.inj (congrArg Prod.fst hholds), hfound]
      | error f =>
        rw [hw] at hholds
        cases hholds
    · obtain ⟨_, s9, -, h⟩ := exec_bind_eq_ok h
      cases h
  · obtain ⟨_, s7, -, h⟩ := exec_bind_eq_ok h
    cases h

theorem quiet_accessed (rule : String) (object member : Node) (rest : List Node) :
    (accessed (.tree rule (object :: member :: rest))).Quiet := by
  change Quiet (do
    let object ← textOf object
    let member ← textOf member
    if ← isDefined object then
      let v ← valueOf object
      if ← Interp.ofExcept (v.holds (← get).cells member) then return (object, member, some v)
      else
        report ("Object '" ++ object ++ "' has no member '" ++ member ++ "'")
        return (object, member, none)
    else
      report ("Object '" ++ object ++ "' is not defined")
      return (object, member, none))
  refine .bind (quiet_textOf object) fun object => .bind (quiet_textOf member) fun member => ?_
  refine .bind (quiet_isDefined object) fun _ => .ite ?_ ?_
  · refine .bind (quiet_valueOf object) fun v => .bind .get fun s => .bind (Quiet.ofExcept (v.harmless_holds _ _)) fun _ => ?_
    refine .ite (.pure _) (.bind (quiet_report ?_) fun _ => .pure _)
    exact .append (.append (.around (by decide)) _) _
  · exact .bind (quiet_report (.around (by decide))) fun _ => .pure _

theorem quiet_visitMemberAccess (rule : String) (object member : Node) (rest : List Node) :
    (visitMemberAccess (.tree rule (object :: member :: rest))).Quiet := by
  refine .bind (quiet_noteStep _) fun _ => .bind (quiet_accessed rule object member rest) fun found => ?_
  rcases found with ⟨object, member, _ | v⟩
  · exact .pure _
  · exact .pure _

theorem quiet_visitMemberExpr (rule : String) (object member : Node) (rest : List Node) :
    (visitMemberExpr (.tree rule (object :: member :: rest))).Quiet := by
  refine .bind (quiet_noteStep _) fun _ => (quiet_accessed rule object member rest).bind_ok fun s found t hexec => ?_
  rcases found with ⟨object, member, _ | v⟩
  · exact .pure _
  · obtain ⟨cells, hholds⟩ := holds_of_accessed hexec
    refine .ite (.bind (quiet_isDefined _) fun _ => .ite (quiet_valueOf _) ?_)
      (Quiet.ofExcept (Value.harmless_member_of_holds hholds))
    exact .bind (quiet_report (.append (.lead (by decide)) _)) fun _ => .pure _

theorem quiet_visitLogicOp (n : Node) : (visitLogicOp n).Quiet := by
  refine .bind (quiet_noteStep _) fun _ => .bind .get fun s => .bind ?_ fun _ => ?_
  · cases s.currentLine? with
    | some content => exact quiet_note _
    | none => exact .pure ()
  · refine .ite (.pure _) (.ite (.pure _) (.bind (Quiet.ofExcept ?_) fun cs => ?_))
    · cases n with
      | tree => exact .ok _
      | token | absent | plain => exact .error rfl
    · split
      · exact .bind (quiet_note _) fun _ => .pure _
      · exact .pure _

/-! ### Computations -/

theorem quiet_compute {op : Cells → Except Fault Computed} (hop : ∀ cells, Harmless (op cells)) :
    (compute op).Quiet := by
  refine .bind .get fun s => .bind (Quiet.ofExcept (hop s.cells)) fun c => ?_
  cases c with
  | value v => exact .pure v
  | items vs => exact quiet_newList vs

theorem quiet_divideValues (left right : Value) : (divideValues left right).Quiet := by
  unfold divideValues
  split
  · exact .bind (quiet_report (.lead (by decide))) fun _ => .pure _
  · next hzero =>
    have hdivisor : right.isZero = false := Bool.not_eq_true _ ▸ hzero
    exact .bind (quiet_compute fun _ => left.harmless_div hdivisor) fun _ => .pure _

theorem quiet_applyInSum (op left right : Value) : (applyInSum op left right).Quiet := by
  have hadd : (addValues left right).Quiet := by
    refine .ite ?_ (quiet_compute fun cells => left.harmless_add cells right)
    exact .bind (quiet_strOf left) fun _ => .bind (quiet_strOf right) fun _ => .pure _
  rw [applyInSum.eq_def]
  split
  · exact .bind hadd fun _ => .pure _
  · exact .bind (quiet_compute fun _ => left.harmless_sub right) fun _ => .pure _
  · exact .bind (quiet_compute fun cells => left.harmless_mul cells right) fun _ => .pure _
  · exact quiet_divideValues left right
  · exact .pure _

theorem quiet_applyInProduct (op left right : Value) : (applyInProduct op left right).Quiet := by
  rw [applyInProduct.eq_def]
  split
  · exact .bind (quiet_compute fun cells => left.harmless_mul cells right) fun _ => .pure _
  · exact quiet_divideValues left right
  · exact .pure _

theorem quiet_zeroWith {message : String} (h : Ordinary message) : (zeroWith message).Quiet :=
  .bind (quiet_report h) fun _ => .pure _

/-- A power of zero may be undefined, but then the error that it is turned into is recorded. -/
theorem quiet_powerOf (base exponent : Value) :
    (recover (powerOf base exponent) fun f => zeroWith ("Power calculation error: " ++ f.message)).Quiet := by
  have hhandler : ∀ f : Fault, (zeroWith ("Power calculation error: " ++ f.message)).Quiet := fun f =>
    quiet_zeroWith (.append (.lead (by decide)) _)
  unfold powerOf
  cases base.pow exponent with
  | error f => exact hhandler f
  | ok result =>
    have hnoted : (do
        note ["[RUNTIME] squFor result: ", base, "^", exponent, " = ", result]
        return wholeResult result : Interp Value).Quiet := .bind (quiet_note _) fun _ => .pure _
    exact Quiet.recover hnoted fun f _ => hhandler f

theorem quiet_squareRoot (v : Value) : (squareRoot v).Quiet := by
  refine .bind .get fun s => .bind (Quiet.ofExcept (v.harmless_order _ _ _)) fun _ => .ite ?_ ?_
  · exact quiet_zeroWith (.lead (by decide))
  cases v.numeric? with
  | none => exact Quiet.fail rfl
  | some m => exact .bind (Quiet.ofExcept m.harmless_sqrt) fun _ => .bind (quiet_note _) fun _ => .pure _

theorem quiet_cubeRoot (v : Value) : (cubeRoot v).Quiet := by
  refine .bind (Quiet.ofExcept (v.harmless_pow_float (by decide))) fun root => .bind (quiet_note _) fun _ => ?_
  split
  · exact .pure _
  · exact Quiet.fail rfl

theorem quiet_truth (v : Value) : (truth v).Quiet :=
  .bind .get fun _ => .pure _

theorem quiet_conjunction (v : Value) (rest : List Value) : (conjunction v rest).Quiet := by
  induction rest generalizing v with
  | nil => exact .pure v
  | cons next rest ih =>
    refine .bind (quiet_truth v) fun _ => .ite ?_ (.pure v)
    exact .bind (quiet_truth next) fun _ => .ite (ih next) (.pure next)

/-- The values of logical operators. -/
def IsLogic (v : Value) : Prop :=
  v = .text "and" ∨ v = .text "or"

theorem quiet_chainOperators (v : Value) (rest : List (Value × Value)) (hrest : ∀ pair ∈ rest, IsLogic pair.1) :
    (chainOperators v rest).Quiet := by
  induction rest generalizing v with
  | nil => exact .pure v
  | cons pair rest ih =>
    obtain ⟨op, next⟩ := pair
    have htail : ∀ pair ∈ rest, IsLogic pair.1 := fun pair h => hrest pair (.tail _ h)
    rcases hrest _ (.head _) with hop | hop
    · obtain rfl : op = .text "and" := hop
      exact .bind (quiet_truth v) fun _ => .bind (quiet_truth _) fun _ => .ite (ih _ htail) (.pure _)
    · obtain rfl : op = .text "or" := hop
      exact .bind (quiet_truth v) fun _ => .bind (quiet_truth _) fun _ => .ite (.pure _) (ih _ htail)

/-- Between conditions there is one operator less than there are conditions. -/
theorem quiet_combineConditions (first : Value) {rest : List Value} (hlen : rest.length = ops.length)
    (hops : ∀ op ∈ ops, IsLogic op) : (combineConditions (first :: rest) ops).Quiet := by
  have hchain : (chainOperators first (ops.zip rest)).Quiet := by
    refine quiet_chainOperators first _ fun pair hpair => hops pair.1 ?_
    exact (List.of_mem_zip hpair).1
  rw [combineConditions.eq_def]
  split
  · exact .bind (quiet_note _) fun _ => quiet_conjunction _ _
  · rename_i heq hrest
    cases heq
    rwa [if_pos hlen]
  · rename_i heq
    cases heq

/-- The comparison that a token of the grammar names is known. -/
theorem quiet_compareValues {op : String} (hop : Terminal.comparison.Spells op.toList) (left right : Value) :
    (compareValues (.text op) left right).Quiet := by
  have hord : ∀ (cells : Cells) r, (do return Value.bool (← Interp.ofExcept (left.order cells r right)) :
      Interp Value).Quiet := fun cells r => .bind (Quiet.ofExcept (left.harmless_order cells r right)) fun _ => .pure _
  have hmem : op ∈ [">=", "<=", "?", "!", ">", "<"] := by
    obtain ⟨text, htext, heq⟩ := List.mem_map.mp (Pattern.oneOf_resume hop).1
    rwa [← String.toList_inj.mp heq]
  refine .bind .get fun s => ?_
  simp only [List.mem_cons, List.not_mem_nil, or_false] at hmem
  rcases hmem with rfl | rfl | rfl | rfl | rfl | rfl
  · exact hord s.cells .greaterEqual
  · exact hord s.cells .lessEqual
  · exact .pure _
  · exact .pure _
  · exact hord s.cells .greater
  · exact hord s.cells .less

/-! ### Lists, channels and arguments -/

theorem quiet_namedList? (name : String) : (namedList? name).Quiet := by
  refine .bind (quiet_isDefined name) fun _ => .ite (.bind (quiet_valueOf name) fun v => ?_) ?_
  · split
    · exact .pure _
    · exact .bind (quiet_report (.around (by decide))) fun _ => .pure _
  · exact quiet_report_blame name (.around (by decide)) _

theorem quiet_elementAt (cell : Nat) (index : Value) : (elementAt cell index).Quiet := by
  refine .bind (quiet_itemsOf cell) fun items => ?_
  split
  · exact .ite (.bind (quiet_reportPieces (.lead (by decide)) _) fun _ => .pure _) (.pure _)
  · exact .bind (quiet_report (.append (.lead (by decide)) _)) fun _ => .pure _

theorem quiet_readLine (prompt : String) : (readLine prompt).Quiet := by
  refine .bind .get fun s => ?_
  cases s.input with
  | none => exact .pure _
  | some text =>
    refine .bind (Quiet.modify (fun _ ↦ rfl) fun _ ↦ rfl) fun _ => ?_
    split
    · exact .pure _
    · exact .bind (Quiet.modify (fun _ ↦ rfl) fun _ ↦ rfl) fun _ => .pure _

theorem quiet_argumentText (v : Value) : (argumentText v).Quiet := by
  refine .ite (.bind (quiet_strOf v) fun _ => .pure _) (.bind .get fun s => ?_)
  split
  · exact .pure _
  · exact .bind (quiet_report (.append (.lead (by decide)) _)) fun _ => .pure _

theorem quiet_castArgs (function : String) (sig : List (Value × Value)) (pairs : List (Value × Value))
    (i : Nat) : (castArgs function sig i pairs).Quiet := by
  induction pairs generalizing i with
  | nil => exact .pure _
  | cons pair rest ih =>
    obtain ⟨param, arg⟩ := pair
    refine .bind .get fun _ => .bind (quiet_strOf _) fun type => .bind (quiet_cast arg type _) fun v => ?_
    refine .ite (.bind (quiet_report ?_) fun _ => .pure _) ?_
    · exact .append (.append (.append (.append (.around (by decide)) _) _) _) _
    refine .bind (quiet_nameOfValue param) fun name => .bind (ih (i + 1)) fun others? => ?_
    cases others? with
    | none => exact .pure _
    | some others => exact .pure _

/-! ### Steps that visit -/

section Visiting

variable {M : Manner} [hM : M.Lawful] {visit : Visit} (hvisit : Below M visit)

include hvisit

omit hvisit in
theorem goes_visitAll (hns : ∀ n ∈ ns, (visit n).Goes M) : (visitAll visit ns).Goes M := by
  induction ns with
  | nil => exact .pure []
  | cons n rest ih =>
    refine .bind (hns n (.head _)) fun v => ?_
    exact .bind (ih fun m hm => hns m (List.mem_cons_of_mem n hm)) fun _ => .pure _

theorem goes_foldOperators {t : Terminal} (ht : t.isKept = true) (hc : c ∈ phraseForms)
    {apply : Value → Value → Value → Interp Progress} (happly : ∀ op left right, (apply op left right).Quiet)
    (hns : InTurn (IsToken t) (Of c) ns) (left : Value) : (foldOperators visit apply left ns).Goes M := by
  induction hns generalizing left with
  | nil => exact .pure left
  | cons hop hopd _ ih =>
    obtain ⟨text, rfl, -⟩ := hop
    refine .bind (hvisit.token t ht text) fun op => .bind (hvisit.phrase c hc _ hopd) fun right => ?_
    refine .after (happly op left right) fun progress => ?_
    cases progress with
    | more v => exact ih v
    | done v => exact .pure v

theorem goes_visitChain (step label : String) {t : Terminal} (ht : t.isKept = true)
    (hc : c ∈ phraseForms) {apply : Value → Value → Value → Interp Progress}
    (happly : ∀ op left right, (apply op left right).Quiet) {first : Node}
    (hfirst : Of c first) (hrest : InTurn (IsToken t) (Of c) rest) :
    (visitChain step apply visit (.tree label (first :: rest))).Goes M := by
  refine .begins <| .children_bind ?_
  have hvisited := hvisit.phrase c hc first hfirst
  cases rest with
  | nil => exact hvisited
  | cons op rest =>
    exact .bind hvisited fun left => goes_foldOperators hvisit ht hc happly hrest left

variable (label : String)

theorem goes_visitPower (target : Node) (hargs : ∀ n ∈ args, Of .expr n) :
    (visitPower visit (.tree label (target :: args))).Goes M := by
  refine .noted <| .children_bind ?_
  have htwo : (zeroWith "squFor function requires two arguments: base and exponent").Goes M :=
    (quiet_zeroWith (.lead (by decide))).goes
  rcases args with _ | ⟨base, _ | ⟨exponent, rest⟩⟩
  · exact htwo
  · exact htwo
  · refine .bind (hvisit.expr (hargs base (by simp))) fun base => ?_
    refine .bind (hvisit.expr (hargs exponent (by simp))) fun exponent => .noted ?_
    refine .ite ((quiet_zeroWith (.lead (by decide))).goes) (.ite ?_ ?_)
    · exact (quiet_zeroWith (.lead (by decide))).goes
    · exact (quiet_powerOf base exponent).goes

theorem goes_visitRoot (target : Node) (hargs : ∀ n ∈ args, Of .expr n) :
    (visitRoot visit (.tree label (target :: args))).Goes M := by
  refine .noted <| .children_bind ?_
  have htwo : (zeroWith "rootFor function requires two arguments: value and root_type").Goes M :=
    (quiet_zeroWith (.lead (by decide))).goes
  rcases args with _ | ⟨v, _ | ⟨degree, rest⟩⟩
  · exact htwo
  · exact htwo
  · refine .bind (hvisit.expr (hargs v (by simp))) fun v => ?_
    refine .bind (hvisit.expr (hargs degree (by simp))) fun degree => .noted ?_
    refine .ite ((quiet_zeroWith (.lead (by decide))).goes) ?_
    have hformat : ∀ (lead : String) (rest : List Piece), Ordinary lead →
        (do zeroWith (← format (.lit lead :: rest)) : Interp Value).Goes M := by
      intro lead rest hlead
      refine .bind_ok ((quiet_format _).goes) fun _ _ _ hexec => ?_
      exact (quiet_zeroWith (ordinary_of_format hlead hexec)).goes
    split
    · exact hformat _ _ (.lead (by decide))
    · refine .after .get fun s => .ite ((quiet_squareRoot v).goes) (.ite ((quiet_cubeRoot v).goes) ?_)
      exact hformat _ _ (.lead (by decide))

/-- Roots with one operand. -/
theorem goes_visitSquareRoot_cubeRoot (target : Node) (hargs : ∀ n ∈ args, Of .expr n) :
    (visitSquareRoot visit (.tree label (target :: args))).Goes M ∧
      (visitCubeRoot visit (.tree label (target :: args))).Goes M := by
  constructor <;> refine .noted <| .children_bind ?_ <;> cases args with
  | nil => exact (quiet_zeroWith (.lead (by decide))).goes
  | cons v rest =>
    refine .bind (hvisit.expr (hargs v (by simp))) fun v => .ite ((quiet_zeroWith (.lead (by decide))).goes) ?_
    first | exact (quiet_squareRoot v).goes | exact (quiet_cubeRoot v).goes

theorem goes_visitAbs {operand : Node} (hopd : Of .expr operand) :
    (visitAbs visit (.tree label [operand])).Goes M := by
  refine .begins <| .children_bind ?_
  refine .bind (hvisit.expr hopd) fun v => .noted ?_
  refine .ite ((quiet_zeroWith (.lead (by decide))).goes) (.ite ?_ ?_)
  · exact (quiet_zeroWith (.append (.lead (by decide)) _)).goes
  · exact .noted <| .pure _

theorem goes_visitListLiteral (hn : Of .listLiteral n) : (visitListLiteral visit n).Goes M := by
  obtain ⟨items, rfl, hitems⟩ := hn.listLiteral_inv
  refine .begins <| .children_bind (.bind (goes_visitAll ?_) fun _ => ?_)
  · rcases hitems with rfl | hitems
    · exact List.forall_mem_singleton.mpr hvisit.absent
    · exact fun item hitem => hvisit.expr (hitems item hitem)
  · exact (quiet_newList _).goes

theorem goes_visitListAccess (hn : Of .listAccess n) : (visitListAccess visit n).Goes M := by
  obtain ⟨name, index, rfl, hindex⟩ := hn.listAccess_inv
  refine .begins <| .children_bind (.child_bind rfl (.child_bind rfl ?_))
  refine .after (.pure name) fun name => .bind (hvisit.expr hindex) fun index => ?_
  refine .after (quiet_isFaulty name) fun _ => .ite (.pure _) (.after (quiet_namedList? name) fun cell? => ?_)
  cases cell? with
  | some cell => exact (quiet_elementAt cell index).goes
  | none => exact .pure _

theorem goes_visitCondition (hn : Of .condition n) : (visitCondition visit n).Goes M := by
  obtain ⟨left, op, right, rfl, hleft, hop, hright⟩ := hn.condition_inv
  refine .begins <| .children_bind (.child_bind rfl ?_)
  refine .bind (hvisit.expr hleft) fun left => .child_bind rfl ?_
  refine .bind_ok (hvisit.token .comparison rfl op) fun _ opv _ hexec => .child_bind rfl ?_
  obtain rfl := hvisit.comparison hexec
  refine .bind (hvisit.expr hright) fun right => .noted ?_
  have hcompare := quiet_compareValues hop left right
  refine Quiet.goes (.recover hcompare fun f hf => ?_)
  split
  · refine .bind (quiet_report ?_) fun _ => .pure _
    exact .append (.append (.append (.around (by decide)) _) _) _
  · exact Quiet.fail hf

omit [M.Lawful] hvisit in
theorem visitConditionParts_condition (hn : Of .condition n) (rest : List Node) (results ops : List Value) :
    visitConditionParts visit (n :: rest) results ops = (do
      let v ← visit n
      note ["[RUNTIME] Condition ", toString (results ++ [v]).length, ": ", v]
      visitConditionParts visit rest (results ++ [v]) ops) := by
  obtain ⟨left, op, right, rfl, -⟩ := hn.condition_inv
  rfl

omit [M.Lawful] hvisit in
theorem visitConditionParts_logicOp (hn : Of .logicOp n) (rest : List Node) (results ops : List Value) :
    visitConditionParts visit (n :: rest) results ops = (do
      let v ← visit n
      note ["[RUNTIME] Logic op ", toString (ops ++ [v]).length, ": ", v]
      visitConditionParts visit rest results (ops ++ [v])) := by
  obtain rfl := hn.logicOp_inv
  rfl

/-- The values and the operators of a chain of conditions are added in pairs. -/
theorem goes_visitConditionParts {α : Type} (hns : InTurn (Of .logicOp) (Of .condition) ns)
    (first : Value) {rest : List Value} (hlen : rest.length = ops.length) (hops : ∀ op ∈ ops, IsLogic op)
    {k : List Value × List Value → Interp α}
    (hk : ∀ rest ops : List Value, rest.length = ops.length → (∀ op ∈ ops, IsLogic op) →
      (k (first :: rest, ops)).Goes M) : (visitConditionParts visit ns (first :: rest) ops >>= k).Goes M := by
  induction hns generalizing rest ops with
  | nil => exact hk rest ops hlen hops
  | @cons op condition others hop hcond _ ih =>
    rw [visitConditionParts_logicOp hop, bind_assoc]
    refine .bind_ok (hvisit.phrase .logicOp (by decide) op hop) fun _ opv _ hexec => ?_
    rw [bind_assoc]
    refine .noted ?_
    rw [visitConditionParts_condition hcond, bind_assoc]
    refine .bind (hvisit.phrase .condition (by decide) condition hcond) fun v => ?_
    rw [bind_assoc]
    refine .noted <| ih (by simp [hlen]) fun w hw => ?_
    rcases List.mem_append.mp hw with hw | hw
    · exact hops w hw
    · exact List.mem_singleton.mp hw ▸ hvisit.logic hop hexec

theorem goes_visitConditions (hn : Of .conditions n) : (visitConditions visit n).Goes M := by
  obtain ⟨first, rest, rfl, hfirst, hrest⟩ := hn.conditions_inv
  have hvisited := hvisit.phrase .condition (by decide) first hfirst
  refine .begins <| .children_bind (.noted ?_)
  cases rest with
  | nil => exact .bind hvisited fun v => .noted <| .pure v
  | cons op others =>
    change Goes M (visitConditionParts visit (first :: op :: others) [] [] >>= fun parts =>
      combineConditions parts.1 parts.2)
    rw [visitConditionParts_condition hfirst, bind_assoc]
    refine .bind hvisited fun v => ?_
    rw [bind_assoc]
    refine .noted ?_
    refine goes_visitConditionParts hvisit hrest v rfl (by simp) ?_
    exact fun rest ops hlen hops => (quiet_combineConditions v hlen hops).goes

theorem goes_visitInputExpr (hn : Of .inputCall n) : (visitInputExpr visit n).Goes M := by
  obtain ⟨prompt, rfl⟩ := hn.inputCall_inv
  refine .begins <| .children_bind ?_
  refine .bind (hvisit.token .quotedText rfl prompt) fun prompt => .noted ?_
  refine .after (quiet_strOf prompt) fun shown => .after (quiet_readLine _) fun read => ?_
  split
  · exact .noted <| .pure _
  · exact .after (quiet_report (.lead (by decide))) fun _ => .pure _
  · exact .after (quiet_report (.lead (by decide))) fun _ => .pure _

theorem goes_visitInput (hn : Of .inputCall n) : (visitInput visit n).Goes M :=
  .begins <| .bind (goes_visitInputExpr hvisit hn) fun _ => .pure _

theorem goes_outputTexts (ns : List Node) (hns : ∀ n ∈ ns, Of .expr n) (i : Nat) : (outputTexts visit i ns).Goes M := by
  induction ns generalizing i with
  | nil => exact .pure _
  | cons n rest ih =>
    have hn := hns n (.head _)
    obtain ⟨first, others, rfl, -⟩ := hn.expr_inv
    unfold outputTexts
    refine .bind (hvisit.expr hn) fun v => .ite ?_ (.after (quiet_argumentText v) fun text? => ?_)
    · refine .after (quiet_report ?_) fun _ => .pure _
      exact .around (by decide)
    · cases text? with
      | none => exact .pure _
      | some text =>
        refine .bind (ih (fun m hm => hns m (.tail _ hm)) (i + 1)) fun texts? => ?_
        cases texts? with
        | none => exact .pure _
        | some texts => exact .pure _

theorem goes_visitOutput (hn : Of .outputStmt n) : (visitOutput visit n).Goes M := by
  obtain ⟨target, rest, rfl, htarget, hrest⟩ := hn.outputStmt_inv
  have hrule : target.hasRule "member_access" = true := by
    obtain ⟨object, member, rfl⟩ := htarget.memberAccess_inv
    rfl
  refine .begins <| .children_bind (.child_bind rfl ?_)
  rw [if_pos hrule]
  refine .bind (hvisit.phrase .memberAccess (by decide) target htarget) fun name => ?_
  refine .noted <| .after (quiet_strOf name) fun name => .bind ?_ fun _ => .pure _
  have hargs : ∀ n ∈ argumentNodes (target :: rest), Of .expr n := by
    rcases hrest with rfl | ⟨args, rfl, hargs⟩
    · exact fun n hn => absurd hn List.not_mem_nil
    · exact hargs
  refine .ite ((quiet_report (.append (.lead (by decide)) _)).goes) ?_
  split
  · exact (quiet_report (.append (.lead (by decide)) _)).goes
  · refine .bind (goes_outputTexts hvisit _ hargs 1) fun texts? => ?_
    cases texts? with
    | none => exact .pure ()
    | some texts => exact (quiet_writeMessage _ _).goes

/-! ### Calls -/

theorem ends_callFunction_manner {f : Function} (hs : Formed s) (hf : s.Knows f) (name : String)
    {cs : List Node} (hargs : ∀ n ∈ callArgs cs, Of .expr n) : M.Ends s ((callFunction visit name f cs).exec s) := by
  have hcalm : ∀ n ∈ callArgs cs, n.isCalm = true := fun n hn => (hargs n hn).isCalm rfl
  have hcourse := follows_visitAll hvisit.tame.calm hcalm s hs.sound
  refine Manner.Ends.bind (goes_visitAll (fun n hn => hvisit.expr (hargs n hn)) s hs) fun args t hexec ht _ => ?_
  rw [hexec] at hcourse
  have hft : t.Knows f := Course.knows hcourse hs.sound hf
  rw [exec_bind_ok (exec_itemsOf f.params t)]
  cases hsig : signature (t.cells.getD f.params #[]).toList with
  | error g => exact ⟨ht, hM.spoilt hft hsig⟩
  | ok sig =>
    rw [exec_bind_ok (exec_ofExcept_ok sig t)]
    by_cases hlen : args.length ≠ sig.length
    · rw [if_pos hlen]
      refine Goes.after (quiet_report ?_) (fun _ => .pure _) t ht
      exact .append (.append (.append (.around (by decide)) _) _) _
    · rw [if_neg hlen]
      refine Manner.Ends.after ht (quiet_castArgs name sig _ 1)
        fun bound? u _ hcast _ hu => ?_
      cases bound? with
      | none => exact Goes.pure _ u hu
      | some bound =>
        refine Manner.Ends.after hu (quiet_note _) fun _ w _ hnote _ hw => ?_
        have hfw := hnote.knows (hcast.knows hft)
        refine Manner.Ends.bind (hvisit.call w hw f hfw bound) fun result x _ hx _ => ?_
        exact Goes.after (quiet_note _) (fun _ => .pure result) x hx

theorem goes_visitFuncCall (label name : String) (hargs : ∀ n ∈ callArgs (.token "IDENT" name :: rest), Of .expr n) :
    (visitFuncCall visit (.tree label (.token "IDENT" name :: rest))).Goes M := by
  refine .begins <| .children_bind (.child_bind rfl (.after (.pure name) fun name => ?_))
  refine .after (quiet_markUsed name) fun _ => .after (quiet_isFaulty name) fun _ => .ite (.pure _) ?_
  refine .after (quiet_isFunction name) fun _ => .ite (fun s hs => ?_) ?_
  · refine Manner.Ends.after hs (quiet_function? name) fun f? t hexec hframe _ ht => ?_
    cases f? with
    | none =>
      refine Goes.after (quiet_report ?_) (fun _ => .pure _) t ht
      exact .around (by decide)
    | some f =>
      exact ends_callFunction_manner hvisit ht (hframe.knows (knows_of_function? hs.sound hexec)) name hargs
  · exact (quiet_report_blame name (.around (by decide)) _).goes

omit [M.Lawful] hvisit in
theorem forall_callArgs {target : Node} (hrest : AreArgs "func_args" rest) :
    ∀ n ∈ callArgs (target :: rest), Of .expr n := by
  rcases hrest with rfl | ⟨args, rfl, hargs⟩
  · exact fun n hn => absurd hn List.not_mem_nil
  · exact hargs

theorem goes_visitFuncCallStmt (hn : Of .funcCallStmt n) : (visitFuncCallStmt visit n).Goes M := by
  obtain ⟨name, rest, rfl, hrest⟩ := hn.funcCallStmt_inv
  refine .begins <| .bind ?_ fun _ => .pure _
  exact goes_visitFuncCall hvisit _ name (forall_callArgs hrest)

theorem goes_visitMathCall (hn : Of .mathFuncCall n) : (visitMathCall visit n).Goes M := by
  obtain ⟨name, args, rfl, hargs⟩ := hn.mathFuncCall_inv
  refine .begins <| .children_bind (.noted ?_)
  refine .noted <| .after (quiet_markUsed _) fun _ => ?_
  split
  · exact goes_visitPower hvisit _ _ hargs
  · exact goes_visitRoot hvisit _ _ hargs
  · exact (goes_visitSquareRoot_cubeRoot hvisit _ _ hargs).1
  · exact (goes_visitSquareRoot_cubeRoot hvisit _ _ hargs).2
  · refine goes_visitFuncCall hvisit _ name ?_
    -- The arguments are trees of expressions, not a list of arguments.
    unfold callArgs
    split
    · rename_i inner _ heq
      have hmem : Node.tree "func_args" inner ∈ args := by
        rw [(List.cons.inj heq).2]
        exact .head _
      obtain ⟨first, others, hexpr, -⟩ := (hargs _ hmem).expr_inv
      exact absurd (Node.tree.inj hexpr).1 (by decide)
    · rename_i heq
      rwa [← (List.cons.inj heq).2]
    · rename_i heq
      simp at heq

theorem goes_visitFactor (hn : Of .factor n) : (visitFactor visit n).Goes M := by
  obtain ⟨only, rfl, honly⟩ := hn.factor_inv
  refine .begins <| .children_bind ?_
  rcases honly with ⟨t, ht, text, rfl, -⟩ | ⟨c, hc, honly⟩
  · have hkept : ∀ t ∈ [Terminal.number, .quotedText, .ident], t.isKept = true := by decide
    exact hvisit.token t (hkept t ht) text
  simp only [List.mem_cons, List.not_mem_nil, or_false] at hc
  rcases hc with rfl | rfl | rfl | rfl | rfl | rfl | rfl | rfl
  · obtain ⟨object, member, rfl⟩ := honly.memberAccessExpr_inv
    exact (quiet_visitMemberExpr _ _ _ _).goes
  · have hgoes := goes_visitInputExpr hvisit honly
    obtain ⟨prompt, rfl⟩ := honly.inputCall_inv
    exact hgoes
  · have hgoes := goes_visitMathCall hvisit honly
    obtain ⟨name, args, rfl, -⟩ := honly.mathFuncCall_inv
    exact hgoes
  · have hgoes := goes_visitListLiteral hvisit honly
    obtain ⟨items, rfl, -⟩ := honly.listLiteral_inv
    exact hgoes
  · have hgoes := goes_visitListAccess hvisit honly
    obtain ⟨name, index, rfl, -⟩ := honly.listAccess_inv
    exact hgoes
  · obtain ⟨operand, rfl, hopd⟩ := honly.absExpr_inv
    exact goes_visitAbs hvisit _ hopd
  · obtain ⟨name, rest, rfl, hrest⟩ := honly.funcCall_inv
    exact goes_visitFuncCall hvisit _ name (forall_callArgs hrest)
  · have hgoes := hvisit.expr honly
    obtain ⟨first, rest, rfl, -⟩ := honly.expr_inv
    exact hgoes

/-! ### Visits -/

omit hvisit in
theorem goes_visitTree {rule : String} {step : Interp Value}
    (hstep : (if rule = "token" then visitToken visit else (namedStep visit rule).getD visitUnknown) n = step)
    (hgoes : step.Goes M) : (visitTree visit rule n).Goes M := by
  refine .begins ?_
  dsimp only
  rw [hstep]
  exact .bind hgoes fun v => .after (quiet_noteResult _ v) fun _ => .pure v

/-- One more level of visits in expressions. -/
theorem goes_visitNode_phrase (hc : c ∈ phraseForms) (hn : Of c n) : (visitNode visit n).Goes M := by
  simp only [phraseForms, List.mem_cons, List.not_mem_nil, or_false] at hc
  rcases hc with rfl | rfl | rfl | rfl | rfl | rfl | rfl | rfl
  · obtain ⟨first, rest, rfl, hfirst, hrest⟩ := hn.expr_inv
    exact goes_visitTree rfl
      (goes_visitChain hvisit _ _ rfl (by decide) quiet_applyInSum hfirst hrest)
  · obtain ⟨first, rest, rfl, hfirst, hrest⟩ := hn.term_inv
    exact goes_visitTree rfl
      (goes_visitChain hvisit _ _ rfl (by decide) quiet_applyInProduct hfirst hrest)
  · have hgoes := goes_visitFactor hvisit hn
    obtain ⟨only, rfl, -⟩ := hn.factor_inv
    exact goes_visitTree rfl hgoes
  · have hgoes := goes_visitCondition hvisit hn
    obtain ⟨left, op, right, rfl, -⟩ := hn.condition_inv
    exact goes_visitTree rfl hgoes
  · have hgoes := goes_visitConditions hvisit hn
    obtain ⟨first, rest, rfl, -⟩ := hn.conditions_inv
    exact goes_visitTree rfl hgoes
  · obtain rfl := hn.logicOp_inv
    exact goes_visitTree rfl ((quiet_visitLogicOp _).goes)
  · obtain ⟨object, member, rfl⟩ := hn.memberAccess_inv
    exact goes_visitTree rfl ((quiet_visitMemberAccess _ _ _ _).goes)
  · have hgoes := goes_visitListLiteral hvisit hn
    obtain ⟨items, rfl, -⟩ := hn.listLiteral_inv
    exact goes_visitTree rfl hgoes

end Visiting

/-! ### Tokens and operators -/

section Tokens

variable {visit : Visit}

theorem visitNode_token (kind text : String) : visitNode visit (.token kind text) = (do
      noteStep ("visit_" ++ kind)
      let v ← (namedStep visit kind).getD (visitText "visit_unknown_token") (.token kind text)
      noteResult [.lit "[RUNTIME] Visited token ", .lit kind, .lit " '", .lit text, .lit "'"] v
      return v) :=
  rfl

theorem quiet_visitNode_of_step {kind : String} {step : Node → Interp Value} (hquiet : ∀ n, (step n).Quiet)
    (hstep : (namedStep visit kind).getD (visitText "visit_unknown_token") = step) (text : String) :
    (visitNode visit (.token kind text)).Quiet := by
  rw [visitNode_token, hstep]
  exact .bind (quiet_noteStep _) fun _ => .bind (hquiet _) fun v => .bind (quiet_noteResult _ v) fun _ => .pure v

theorem quiet_visitNode_token {t : Terminal} (ht : t.isKept = true) (text : String) :
    (visitNode visit (.token t.name text)).Quiet := by
  cases t
  case ident => exact quiet_visitNode_of_step quiet_visitIdent rfl text
  case number => exact quiet_visitNode_of_step quiet_visitNumber rfl text
  case quotedText => exact quiet_visitNode_of_step quiet_visitQuoted rfl text
  case newline => exact quiet_visitNode_of_step (quiet_visitText "visit_unknown_token") rfl text
  case comparison => exact quiet_visitNode_of_step (quiet_visitText "visit_COMPARISON_OP") rfl text
  case addOp => exact quiet_visitNode_of_step (quiet_visitText "visit_ADD_OP") rfl text
  case mulOp => exact quiet_visitNode_of_step (quiet_visitText "visit_MUL_OP") rfl text
  all_goals cases ht

/-- An operator stands for its own text. -/
theorem eq_of_visitNode_operator {kind step text : String}
    (hstep : (namedStep visit kind).getD (visitText "visit_unknown_token") = visitText step)
    (h : (visitNode visit (.token kind text)).exec s = (.ok v, t)) : v = .text text := by
  rw [visitNode_token, hstep] at h
  obtain ⟨_, _, -, h⟩ := exec_bind_eq_ok h
  obtain ⟨w, _, hw, h⟩ := exec_bind_eq_ok h
  obtain ⟨_, _, -, h⟩ := exec_bind_eq_ok h
  obtain ⟨_, _, -, hw⟩ := exec_bind_eq_ok hw
  rw [← Except.ok.inj (Prod.mk.inj h).1, ← Except.ok.inj (Prod.mk.inj hw).1]

theorem eq_of_visitNode_comparison {text : String}
    (h : (visitNode visit (.token "COMPARISON_OP" text)).exec s = (.ok v, t)) : v = .text text :=
  eq_of_visitNode_operator rfl h

theorem logicWord_cases {content : Option String} {rule : String}
    (h : (logicWord content (.tree rule [])).exec s = (.ok v, t)) : v = .text "and" ∨ v = .text "or" := by
  rw [logicWord] at h
  split at h
  · exact .inl (Except.ok.inj (Prod.mk.inj h).1).symm
  · split at h
    · exact .inr (Except.ok.inj (Prod.mk.inj h).1).symm
    · exact .inl (Except.ok.inj (Prod.mk.inj h).1).symm

theorem cases_of_visitNode_logicOp (hn : Of .logicOp n)
    (h : (visitNode visit n).exec s = (.ok v, t)) : v = .text "and" ∨ v = .text "or" := by
  obtain rfl := hn.logicOp_inv
  change (noteStep "visit_logic_op" >>= fun _ => visitLogicOp (.tree "logic_op" []) >>= fun v =>
    noteResult [.lit "[RUNTIME] Visited ", .lit "logic_op"] v >>= fun _ => pure v).exec s = (.ok v, t) at h
  obtain ⟨_, _, -, h⟩ := exec_bind_eq_ok h
  obtain ⟨w, _, hw, h⟩ := exec_bind_eq_ok h
  obtain ⟨_, _, -, h⟩ := exec_bind_eq_ok h
  cases h
  obtain ⟨_, _, -, hw⟩ := exec_bind_eq_ok hw
  obtain ⟨_, _, -, hw⟩ := exec_bind_eq_ok hw
  obtain ⟨_, _, -, hw⟩ := exec_bind_eq_ok hw
  exact logicWord_cases hw

theorem list_of_visitNode_listLiteral (hn : Of .listLiteral n)
    (h : (visitNode visit n).exec s = (.ok v, t)) : ∃ cell, v = .list cell := by
  obtain ⟨items, rfl, -⟩ := hn.listLiteral_inv
  change (noteStep "visit_list_literal" >>= fun _ => visitListLiteral visit (.tree "list_literal" items) >>= fun v =>
    noteResult [.lit "[RUNTIME] Visited ", .lit "list_literal"] v >>= fun _ => pure v).exec s = (.ok v, t) at h
  obtain ⟨_, _, -, h⟩ := exec_bind_eq_ok h
  obtain ⟨w, _, hw, h⟩ := exec_bind_eq_ok h
  obtain ⟨_, _, -, h⟩ := exec_bind_eq_ok h
  cases h
  obtain ⟨_, _, -, hw⟩ := exec_bind_eq_ok hw
  obtain ⟨_, _, -, hw⟩ := exec_bind_eq_ok hw
  obtain ⟨_, _, -, hw⟩ := exec_bind_eq_ok hw
  exact ⟨_, (Except.ok.inj (Prod.mk.inj hw).1).symm⟩

end Tokens

end FapLang.Run
