import FapLang.Proofs.Run.Arising

/-!
Division by zero. A term looks at each divisor before it divides, and `squFor` turns the fault of a
power of zero into an error on record. So no visit of an expression stops for a division by zero
(`division_by_zero_stops_nothing`).
-/

namespace FapLang

/-! ### Zeros -/

namespace Value

/-- The zeros of the three kinds of numbers. -/
theorem isZero_iff (v : Value) : v.isZero = true ↔ v = int 0 ∨ v = bool false ∨
    (∃ x, v = float x ∧ (x == 0) = true) ∨ ∃ z, v = complex z ∧ (z.re == 0 && z.im == 0) = true := by
  cases v with
  | bool b => cases b <;> simp [isZero, numeric?, Numeric.isZero]
  | int | float | complex => simp [isZero, numeric?, Numeric.isZero]
  | none | text | list | record | function | node | scope => simp [isZero, numeric?]

/-- A number below zero, but not infinitely so. -/
def isFiniteNegative : Value → Bool
  | int n => n < 0
  | float x => x < 0 && !Number.isInfinite x
  | _ => false

/-- Why zero cannot be raised to a finite negative power. -/
def zeroPowerFault : Value → Fault
  | int n => if Number.leastInfinite ≤ n.natAbs then .intTooLarge else .zeroToNegativePower
  | _ => .zeroToNegativePower

end Value

theorem Numeric.powReal_zero {m n : Numeric} (hm : m.isZero = true) (hreal : ∀ z, m ≠ .complex z)
    (hn : n.isFiniteNegative = true) :
    powReal m n = n.toComplex.bind fun _ ↦ .error .zeroToNegativePower := by
  have hpositive : ¬ Number.leastInfinite ≤ (0 : Int).natAbs := by decide +kernel
  have hbase : ∃ w, m.toComplex = .ok w := by
    cases m with
    | int a =>
      obtain rfl := LawfulBEq.eq_of_beq hm
      exact ⟨_, by rw [toComplex, intToFloat, if_neg hpositive]; rfl⟩
    | float x => exact ⟨_, rfl⟩
    | complex z => exact absurd rfl (hreal z)
  obtain ⟨w, hw⟩ := hbase
  simp only [powReal, hm, hn, hw]
  rfl

theorem Numeric.pow_eq_powReal {m n : Numeric} (hm : ∀ z, m ≠ .complex z) (hn : n.isFiniteNegative = true) :
    m.pow n = powReal m n := by
  cases m with
  | complex z => exact absurd rfl (hm z)
  | int a =>
    cases n with
    | int b => rw [Numeric.pow, if_pos (of_decide_eq_true hn)]
    | float y => rw [Numeric.pow] <;> nofun
    | complex w => cases hn
  | float x =>
    cases n with
    | int | float => rw [Numeric.pow] <;> nofun
    | complex w => cases hn

/-- A power of a real zero. -/
theorem Value.pow_zero {base exponent : Value} (hbase : base.isZero = true) (hreal : base.isReal = true)
    (hexp : exponent.isFiniteNegative = true) : base.pow exponent = .error exponent.zeroPowerFault := by
  obtain ⟨m, hm, hzero, hkind⟩ : ∃ m, base.numeric? = some m ∧ m.isZero = true ∧ ∀ z, m ≠ .complex z := by
    rcases base.isZero_iff.mp hbase with rfl | rfl | ⟨x, rfl, hx⟩ | ⟨z, rfl, -⟩
    · exact ⟨.int 0, rfl, rfl, nofun⟩
    · exact ⟨.int 0, rfl, rfl, nofun⟩
    · exact ⟨.float x, rfl, hx, nofun⟩
    · simp [isReal, isInt, isFloat] at hreal
  have hvalue : ∀ n, exponent.numeric? = some n → base.pow exponent = (m.pow n).bind fun r ↦ .ok (ofNumeric r) := by
    intro n hn
    rw [Value.pow, hm, hn]
    rfl
  cases exponent with
  | int n =>
    have hn : (Numeric.int n).isFiniteNegative = true := hexp
    rw [hvalue _ rfl, Numeric.pow_eq_powReal hkind hn, Numeric.powReal_zero hzero hkind hn, Numeric.toComplex,
      Numeric.intToFloat, zeroPowerFault]
    split <;> rfl
  | float y =>
    have hy : (Numeric.float y).isFiniteNegative = true := hexp
    rw [hvalue _ rfl, Numeric.pow_eq_powReal hkind hy, Numeric.powReal_zero hzero hkind hy]
    rfl
  | none | bool | complex | text | list | record | function | node | scope => cases hexp

namespace Run

open Interp Grammar

/-! ### The manner in which nothing is divided by zero -/

/-- The manner in which records are added and no fault tells of a division by zero. -/
def Manner.dividing : Manner where
  moves := Growth
  stops s stop t := Growth s t ∧ ∀ f, stop = .fault f → f.kind ≠ .zeroDivision

theorem kind_of_member {v : Value} {name : String} {f : Fault} (h : v.member name = .error f) :
    f.kind ≠ .zeroDivision := by
  unfold Value.member at h
  split at h
  · exact Except.error.inj h ▸ by decide
  · exact Except.error.inj h ▸ by decide
  · split at h
    · split at h
      · cases h
      · rw [← Except.error.inj h, Fault.kind]
        decide
    · rw [← Except.error.inj h, Fault.kind]
      decide

theorem kind_of_signature {params : List Value} {f : Fault} (h : signature params = .error f) :
    f.kind ≠ .zeroDivision := by
  obtain ⟨v, name, -, hv⟩ := exists_member_of_signature h
  exact kind_of_member hv

instance Manner.dividing_lawful : Manner.dividing.Lawful where
  refl := .refl
  trans := .trans
  prepend h1 h2 := ⟨h1.trans h2.1, h2.2⟩
  caught h := h.1
  hidden {s t f} h := by
    refine ⟨h.1, fun g hg => ?_⟩
    rw [← Stop.fault.inj hg, hideInternal]
    split
    · decide
    · exact h.2 f rfl
  aside _ hgrowth := hgrowth
  fault s f hf := ⟨.refl s, fun g hg => Stop.fault.inj hg ▸ Fault.kind_of_isGrave hf⟩
  exhausted s := ⟨.refl s, by simp⟩
  spoilt {s g f} hg hf := ⟨.refl s, fun h heq => Stop.fault.inj heq ▸ kind_of_signature hf⟩

theorem Manner.dividing_acting : Manner.dividing.Acting Manner.dividing :=
  acting_of_growing

theorem Manner.dividing_calling : Manner.dividing.Calling Manner.dividing where
  returns := growing_calling.returns
  fails {s t f bound g} hs hf hcourse ht h := ⟨growing_calling.fails (g := g) hs hf hcourse ht h.1, h.2⟩
  breaksOff hs hf ht h := ⟨growing_calling.breaksOff hs hf ht h.1, by simp⟩

theorem beside_dividing (depth : Nat) : Beside Manner.dividing Manner.dividing (visit depth) := by
  rw [← visitUntil_never]
  exact Manner.dividing_acting.beside_visitUntil Manner.dividing_calling _ (fun _ _ _ _ _ => .inr (.of_imp id))
    (fun _ _ _ _ _ => .inr ⟨⟨fun _ _ => .of_eq rfl rfl rfl⟩, fun _ => .of_eq rfl rfl rfl⟩) depth

/-- A visit of an expression stops for no division by zero. -/
theorem kind_of_visit_expr {s t : Session} (hs : Formed s) {n : Node} (hn : Of .expr n) {depth : Nat} {f : Fault}
    (h : (visit depth n).exec s = (.error (.fault f), t)) : f.kind ≠ .zeroDivision := by
  have hend := (beside_dividing depth).expr hn s hs
  rw [h] at hend
  exact hend.2.2 f rfl

/-! ### Terms -/

/-- The first factors of a term have been multiplied and divided. -/
inductive Multiplied (visit : Visit) (s : Session) (first : Node) : List Node → Value → Session → Prop
  | first {v : Value} {t : Session} (h : (visit first).exec s = (.ok v, t)) : Multiplied visit s first [] v t
  | next {before : List Node} {op operand : Node} {left sign right v : Value} {t t₁ u w : Session}
      (h : Multiplied visit s first before left t) (hop : (visit op).exec t = (.ok sign, t₁))
      (hoperand : (visit operand).exec t₁ = (.ok right, u))
      (happly : (applyInProduct sign left right).exec u = (.ok (.more v), w)) :
      Multiplied visit s first (before ++ [op, operand]) v w

/-- A term is about to divide by a value: all before it has been computed. -/
def Divides (visit : Visit) (s : Session) (first : Node) (before : List Node) (operand : Node) (right : Value)
    (u : Session) : Prop :=
  ∃ left sign t t₁, Multiplied visit s first before left t ∧
    (visit (.token "MUL_OP" "/")).exec t = (.ok sign, t₁) ∧ (visit operand).exec t₁ = (.ok right, u)

theorem exec_foldOperators_cons {visit : Visit} {apply : Value → Value → Value → Interp Progress}
    {left sign right : Value} {op operand : Node} {t t₁ u : Session} (hop : (visit op).exec t = (.ok sign, t₁))
    (hopd : (visit operand).exec t₁ = (.ok right, u)) (rest : List Node) :
    (∀ v w, (apply sign left right).exec u = (.ok (.more v), w) →
      (foldOperators visit apply left (op :: operand :: rest)).exec t = (foldOperators visit apply v rest).exec w) ∧
    ∀ v w, (apply sign left right).exec u = (.ok (.done v), w) →
      (foldOperators visit apply left (op :: operand :: rest)).exec t = (.ok v, w) := by
  rw [foldOperators, exec_bind_ok hop, exec_bind_ok hopd]
  exact ⟨fun v w happly => by rw [exec_bind_ok happly], fun v w happly => by rw [exec_bind_ok happly]; rfl⟩

/-- What is left of a term goes on from the value so far. -/
theorem Multiplied.exec_fold {visit : Visit} {s t : Session} {first : Node} {before : List Node} {v : Value}
    (h : Multiplied visit s first before v t) (rest : List Node) :
    (do foldOperators visit applyInProduct (← visit first) (before ++ rest)).exec s =
      (foldOperators visit applyInProduct v rest).exec t := by
  induction h generalizing rest with
  | first h => rw [exec_bind_ok h, List.nil_append]
  | next _ hop hopd happly ih =>
    rw [List.append_assoc, ih]
    exact (exec_foldOperators_cons hop hopd rest).1 _ _ happly

theorem visitChain_eq {step : String} {apply : Value → Value → Value → Interp Progress} {visit : Visit} {rule : String}
    {first : Node} {rest : List Node} (hrest : rest ≠ []) :
    visitChain step apply visit (.tree rule (first :: rest)) = (do
      noteStep step
      foldOperators visit apply (← visit first) rest) := by
  cases rest with
  | nil => exact absurd rfl hrest
  | cons op rest => rfl

/-- An operator between factors stands for its text. -/
theorem exec_visit_mulOp {depth : Nat} {op : String} {sign : Value} {t t₁ : Session}
    (h : (visit depth (.token "MUL_OP" op)).exec t = (.ok sign, t₁)) : sign = .text op := by
  cases depth with
  | zero => cases h
  | succ depth =>
    rw [visit, exec_recover] at h
    rcases hexec : (visitNode (visit depth) (.token "MUL_OP" op)).exec t with ⟨stop | v, u⟩ <;> rw [hexec] at h
    · cases stop <;> exact absurd (Prod.mk.inj h).1 (by simp)
    · cases h
      exact eq_of_visitNode_operator rfl hexec

theorem writes_zero (s : Session) : s.Writes [.val (.int 0)] := by
  have hzero : (Value.int 0).isPlain = true := by decide +kernel
  rw [Session.Writes, List.all_cons, List.all_nil, Bool.and_true]
  exact Value.isWritable_of_isPlain hzero s.cells

theorem exec_divide (left : Value) {right : Value} (hright : right.isZero = true) (u : Session) :
    (applyInProduct (.text "/") left right).exec u =
      (.ok (.done (.int 0)), ((report "Division by zero").exec u).2) := by
  have happly : applyInProduct (.text "/") left right = divideValues left right := rfl
  rw [happly, divideValues, if_pos hright]
  rfl

/-- A term that divides by zero gives zero with the error on record, and ends there. -/
theorem exec_visit_term (depth : Nat) (s : Session) (first : Node) (before : List Node) (operand : Node)
    (after : List Node) :
    ∃ s1, Remarks s s1 ∧ ∀ right u, Divides (visit depth) s1 first before operand right u → right.isZero = true →
      ∃ t, (visit (depth + 1) (.tree "term" (first :: (before ++ .token "MUL_OP" "/" :: operand :: after)))).exec s =
        (.ok (.int 0), t) ∧ t.Reports "Division by zero" ∧ Remarks ((report "Division by zero").exec u).2 t := by
  obtain ⟨s1, hs1, hvisit, -⟩ := exec_visit_tree depth "term"
    (first :: (before ++ .token "MUL_OP" "/" :: operand :: after)) rfl (by decide) s
  obtain ⟨s2, hnote, hs2⟩ := tells_noteStep "visit_term" s1
  refine ⟨s2, hs1.trans hs2, ?_⟩
  rintro right u ⟨left, sign, t, t₁, hleft, hop, hopd⟩ hzero
  obtain rfl := exec_visit_mulOp hop
  have hterm : (visitTerm (visit depth) (.tree "term" (first :: (before ++ .token "MUL_OP" "/" :: operand ::
      after)))).exec s1 = (.ok (.int 0), ((report "Division by zero").exec u).2) := by
    rw [visitTerm, visitChain_eq (by simp), exec_bind_ok hnote, hleft.exec_fold]
    exact (exec_foldOperators_cons hop hopd after).2 _ _ (exec_divide left hzero u)
  obtain ⟨w, hexec, hw⟩ := hvisit _ _ hterm (writes_zero _)
  refine ⟨w, hexec, ?_, hw⟩
  obtain ⟨notes, events, rfl⟩ := hw
  exact reports_report "Division by zero" u

/-! ### Powers -/

/-- The text that puts a power of zero with a finite negative exponent on record. -/
def powerProblem (base exponent : Value) : String :=
  if base.isReal then "Power calculation error: " ++ exponent.zeroPowerFault.message
  else "squFor function requires numeric arguments"

/-- The tree of a call of `squFor` as a factor. -/
def powerCall (base exponent : Node) (rest : List Node) : Node :=
  .tree "factor" [.tree "math_func_call" (.token "IDENT" "squFor" :: base :: exponent :: rest)]

/-- What a power does with its arguments. -/
def raise (base exponent : Value) : Interp Value := do
  note ["[RUNTIME] squFor arguments: base=", base, ", exponent=", exponent]
  if base.isNone || exponent.isNone then zeroWith "squFor function arguments cannot be None"
  else if !base.isReal || !exponent.isReal then zeroWith "squFor function requires numeric arguments"
  else recover (powerOf base exponent) fun f => zeroWith ("Power calculation error: " ++ f.message)

theorem exec_raise {b e : Value} (hb : b.isZero = true) (he : e.isFiniteNegative = true) (u : Session) :
    (u.Writes [.val b, .val e] → ∃ w, (raise b e).exec u = (.ok (.int 0), w) ∧
      Remarks ((report (powerProblem b e)).exec u).2 w) ∧
    (¬ u.Writes [.val b, .val e] → (raise b e).exec u = (.error (.fault .tooManyDigits), u)) := by
  have hbase : b.isNone = false := by
    rcases b.isZero_iff.mp hb with rfl | rfl | ⟨x, rfl, -⟩ | ⟨z, rfl, -⟩ <;> rfl
  obtain ⟨hexp, hreal⟩ : e.isNone = false ∧ e.isReal = true := by
    cases e with
    | int | float => exact ⟨rfl, rfl⟩
    | none | bool | complex | text | list | record | function | node | scope =>
      simp [Value.isFiniteNegative] at he
  constructor
  · intro hwrites
    have hshown : u.Writes ["[RUNTIME] squFor arguments: base=", b, ", exponent=", e] := by
      simpa [Session.Writes, Piece.isWritable] using hwrites
    obtain ⟨v, hnoted, hv⟩ := tells_note hshown
    have hzero : ∀ message, (zeroWith message).exec v = (.ok (.int 0), ((report message).exec v).2) := fun _ => rfl
    refine ⟨((report (powerProblem b e)).exec v).2, ?_, hv.report _⟩
    rw [raise, exec_bind_ok hnoted, hbase, hexp, hreal, powerProblem]
    cases hb' : b.isReal with
    | false => exact hzero _
    | true =>
      have hpower : (powerOf b e).exec v = (.error (.fault e.zeroPowerFault), v) := by
        rw [powerOf, Value.pow_zero hb hb' he]
        rfl
      change (recover (powerOf b e) fun f => zeroWith ("Power calculation error: " ++ f.message)).exec v = _
      rw [exec_recover, hpower]
      exact hzero _
  · intro hwrites
    have hshown : ¬ u.Writes ["[RUNTIME] squFor arguments: base=", b, ", exponent=", e] := by
      simpa [Session.Writes, Piece.isWritable] using hwrites
    rw [raise, note, exec_bind, exec_bind_error (exec_checkWritable_of_not_writes hshown)]

theorem exec_visitFactor_power (visit : Visit) (base exponent : Node) (rest : List Node) (s : Session) :
    ∃ s1, Remarks { s with used := s.used.insert "squFor" } s1 ∧
      (visitFactor visit (powerCall base exponent rest)).exec s =
        (do raise (← visit base) (← visit exponent)).exec s1 := by
  let cs := Node.token "IDENT" "squFor" :: base :: exponent :: rest
  obtain ⟨s1, h1, hs1⟩ := tells_noteStep "visit_factor" s
  obtain ⟨s2, h2, hs2⟩ := tells_noteStep "visit_math_func_call" s1
  obtain ⟨s3, h3, hs3⟩ := @tells_note s2
    ["[RUNTIME] Math function call node has ", toString cs.length, " children"] rfl
  obtain ⟨s4, h4, hs4⟩ := @tells_note s3 ["[RUNTIME] Function name: ", "squFor"] rfl
  have h5 : (markUsed "squFor").exec s4 = (.ok (), { s4 with used := s4.used.insert "squFor" }) := rfl
  obtain ⟨s6, h6, hs6⟩ :=
    @tells_note { s4 with used := s4.used.insert "squFor" } ["[RUNTIME] Handling squFor function"] rfl
  refine ⟨s6, ?_, ?_⟩
  · obtain ⟨notes, events, rfl⟩ := ((hs1.trans hs2).trans hs3).trans hs4
    exact .trans ⟨notes, events, rfl⟩ hs6
  · rw [powerCall, visitFactor, exec_bind_ok h1]
    change (visitMathCall visit (.tree "math_func_call" cs)).exec s1 = _
    have hkids : (childrenOf (.tree "math_func_call" cs)).exec s2 = (.ok cs, s2) := rfl
    rw [visitMathCall, exec_bind_ok h2, exec_bind_ok hkids, exec_bind_ok h3]
    change (note ["[RUNTIME] Function name: ", "squFor"] >>= fun _ => markUsed "squFor" >>= fun _ =>
      visitPower visit (.tree "math_func_call" cs)).exec s3 = _
    rw [exec_bind_ok h4, exec_bind_ok h5, visitPower, exec_bind_ok h6]
    rfl

/-- A power of zero with a finite negative exponent gives zero with the error on record, unless an
argument is too long to be written. -/
theorem exec_visit_power (depth : Nat) (s : Session) (base exponent : Node) (rest : List Node) :
    ∃ s1, Remarks { s with used := s.used.insert "squFor" } s1 ∧ ∀ b e t u,
      (visit depth base).exec s1 = (.ok b, t) → (visit depth exponent).exec t = (.ok e, u) →
      b.isZero = true → e.isFiniteNegative = true →
      (u.Writes [.val b, .val e] → ∃ w, (visit (depth + 1) (powerCall base exponent rest)).exec s = (.ok (.int 0), w) ∧
        w.Reports (powerProblem b e) ∧ Remarks ((report (powerProblem b e)).exec u).2 w) ∧
      (¬ u.Writes [.val b, .val e] →
        (visit (depth + 1) (powerCall base exponent rest)).exec s = (.error (.fault .tooManyDigits), u)) := by
  obtain ⟨s1, hs1, hvisit⟩ := @exec_visit_eq "factor" (visitFactor (visit depth)) depth
    [.tree "math_func_call" (.token "IDENT" "squFor" :: base :: exponent :: rest)] rfl (by decide) s
  obtain ⟨s2, hs2, hfactor⟩ := exec_visitFactor_power (visit depth) base exponent rest s1
  refine ⟨s2, ?_, fun b e t u hbase hexp hb he => ?_⟩
  · obtain ⟨notes, events, rfl⟩ := hs1
    exact .trans ⟨notes, events, rfl⟩ hs2
  rw [exec_bind_ok hbase, exec_bind_ok hexp] at hfactor
  obtain ⟨hret, hstops⟩ := exec_raise hb he u
  rw [powerCall, hvisit]
  refine ⟨fun hwrites => ?_, fun hwrites => ?_⟩
  · obtain ⟨v, hraise, hv⟩ := hret hwrites
    obtain ⟨w, hexec, hw⟩ :=
      exec_shownStep (fun f => Interp.fail (hideInternal f)) (hfactor.trans hraise) (writes_zero v)
    refine ⟨w, hexec, ?_, hv.trans hw⟩
    obtain ⟨notes, events, rfl⟩ := hv.trans hw
    exact reports_report _ u
  · rw [exec_shownStep_fault (hfactor.trans (hstops hwrites)), hideInternal_tooManyDigits]
    rfl

/-! ### All expressions -/

/-- No visit of an expression stops for a division by zero. A term that divides by a zero of any
kind gives zero at once, with the error on record. So does a power of zero with a finite negative
exponent if the arguments can be written; otherwise the visit stops for that. -/
theorem division_by_zero_stops_nothing {s : Session} (hs : Arising s) (depth : Nat) :
    (∀ n, Of .expr n → ∀ f t, (visit depth n).exec s = (.error (.fault f), t) → f.kind ≠ .zeroDivision) ∧
    (∀ v : Value, v.isZero = true ↔ v = .int 0 ∨ v = .bool false ∨
      (∃ x, v = .float x ∧ (x == 0) = true) ∨ ∃ z, v = .complex z ∧ (z.re == 0 && z.im == 0) = true) ∧
    (∀ first before operand after, ∃ s₁, Remarks s s₁ ∧
      ∀ right u, Divides (visit depth) s₁ first before operand right u → right.isZero = true →
        ∃ t, (visit (depth + 1) (.tree "term" (first :: (before ++ .token "MUL_OP" "/" :: operand :: after)))).exec s =
          (.ok (.int 0), t) ∧ t.Reports "Division by zero" ∧ Remarks ((report "Division by zero").exec u).2 t) ∧
    ∀ base exponent rest, ∃ s₁, Remarks { s with used := s.used.insert "squFor" } s₁ ∧ ∀ b e t u,
      (visit depth base).exec s₁ = (.ok b, t) → (visit depth exponent).exec t = (.ok e, u) →
      b.isZero = true → e.isFiniteNegative = true →
      (u.Writes [.val b, .val e] → ∃ w, (visit (depth + 1) (powerCall base exponent rest)).exec s = (.ok (.int 0), w) ∧
        w.Reports (powerProblem b e) ∧ Remarks ((report (powerProblem b e)).exec u).2 w) ∧
      (¬ u.Writes [.val b, .val e] →
        (visit (depth + 1) (powerCall base exponent rest)).exec s = (.error (.fault .tooManyDigits), u)) :=
  ⟨fun _ hn _ _ h ↦ kind_of_visit_expr hs.formed hn h, Value.isZero_iff, exec_visit_term depth s,
    exec_visit_power depth s⟩

/-- The term `1 / 0` in a fresh session. -/
theorem quotient_of_one_and_zero :
    ∃ t, (visit 4 (.tree "term" [.tree "factor" [.token "NUMBER" "1"], .token "MUL_OP" "/",
      .tree "factor" [.token "NUMBER" "0"]])).exec { Session.fresh with input := some [] } = (.ok (.int 0), t) ∧
      t.Reports "Division by zero" := by
  have hs : Arising { Session.fresh with input := some [] } := .fresh (some [])
  obtain ⟨s₁, ⟨notes, events, rfl⟩, hdivide⟩ := (division_by_zero_stops_nothing hs 3).2.2.1
    (.tree "factor" [.token "NUMBER" "1"]) [] (.tree "factor" [.token "NUMBER" "0"]) []
  let u : Session := { Session.fresh with input := some [], notes := notes, events := events }
  have hone : (visit 3 (.tree "factor" [.token "NUMBER" "1"])).exec u = (.ok (.int 1), u) := rfl
  have hsign : (visit 3 (.token "MUL_OP" "/")).exec u = (.ok (.text "/"), u) := rfl
  have hzero : (visit 3 (.tree "factor" [.token "NUMBER" "0"])).exec u = (.ok (.int 0), u) := rfl
  obtain ⟨t, hexec, hreports, -⟩ :=
    hdivide (.int 0) u ⟨_, _, u, u, .first hone, hsign, hzero⟩ ((Value.isZero_iff _).mpr (.inl rfl))
  exact ⟨t, hexec, hreports⟩

end Run

end FapLang
