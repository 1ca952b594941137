import FapLang.Run.Atom

/-!
Faults of operations on values. Operators, conversions and comparisons lack no part, but for
members, and none of them divides by zero if its caller has looked at the divisor (`Harmless`), but
for powers of zero.
-/

namespace FapLang

variable {f : Fault}

/-- Whether a part that was asked for is missing. -/
def Fault.isLacking (f : Fault) : Bool :=
  f.kind = .index || f.kind = .key

/-- A part is missing, or a divisor was zero. -/
def Fault.isGrave (f : Fault) : Bool :=
  f.isLacking || f.kind = .zeroDivision

theorem Fault.isLacking_of_isGrave (h : f.isGrave = false) : f.isLacking = false :=
  (Bool.or_eq_false_iff.mp h).1

theorem Fault.kind_of_isGrave (h : f.isGrave = false) : f.kind ≠ .zeroDivision :=
  of_decide_eq_false (Bool.or_eq_false_iff.mp h).2

/-- A computation that asks for no part that is missing and divides by no zero. -/
def Harmless {α : Type} (e : Except Fault α) : Prop :=
  ∀ f, e = .error f → f.isGrave = false

theorem exists_of_mapM_error {α β : Type} {g : α → Except Fault β} {as : List α}
    (h : as.mapM g = .error f) : ∃ a ∈ as, g a = .error f := by
  induction as with
  | nil => simp [pure, Except.pure] at h
  | cons a as ih =>
    rw [List.mapM_cons] at h
    cases ha : g a with
    | error e =>
      rw [ha] at h
      exact ⟨a, (.head _), by rw [ha, (Except.error.inj h : e = f)]⟩
    | ok b =>
      rw [ha] at h
      cases has : as.mapM g with
      | error e =>
        rw [has] at h
        obtain ⟨c, hc, hfault⟩ := ih (by rw [has, (Except.error.inj h : e = f)])
        exact ⟨c, List.mem_cons_of_mem a hc, hfault⟩
      | ok bs =>
        rw [has] at h
        simp [bind, Except.bind, pure, Except.pure] at h

namespace Harmless

variable {α β : Type}

protected theorem ok (a : α) : Harmless (.ok a : Except Fault α) :=
  fun _ h => absurd h (by simp)

protected theorem error (hf : f.isGrave = false) : Harmless (.error f : Except Fault α) :=
  fun _ h => Except.error.inj h ▸ hf

protected theorem bind {e : Except Fault α} {k : α → Except Fault β} (he : Harmless e)
    (hk : ∀ a, Harmless (k a)) : Harmless (e >>= k) := by
  cases e with
  | ok a => exact hk a
  | error f => exact fun g hg => he g (congrArg Except.error (Except.error.inj hg))

protected theorem map {e : Except Fault α} (he : Harmless e) (g : α → β) : Harmless (e.map g) := by
  cases e with
  | ok a => exact .ok _
  | error f => exact .error (he f rfl)

protected theorem ite {c : Prop} [Decidable c] {e e' : Except Fault α} (he : Harmless e) (he' : Harmless e') :
    Harmless (if c then e else e') :=
  iteInduction (fun _ => he) fun _ => he'

end Harmless

namespace Numeric

theorem harmless_intToFloat (n : Int) : Harmless (intToFloat n) :=
  .ite (.error rfl) (.ok _)

theorem harmless_toComplex (m : Numeric) : Harmless m.toComplex := by
  cases m with
  | int n => exact .bind (harmless_intToFloat n) fun _ => .ok _
  | float | complex => exact .ok _

theorem harmless_lift (onInt : Int → Int → Int) (onFloat : Float → Float → Float)
    (onComplex : Number.Complex → Number.Complex → Number.Complex) (m n : Numeric) :
    Harmless (lift onInt onFloat onComplex m n) := by
  unfold lift
  split
  · exact .ok _
  · exact .bind (harmless_intToFloat _) fun _ => .ok _
  · exact .bind (harmless_intToFloat _) fun _ => .ok _
  · exact .ok _
  · exact .bind (harmless_toComplex _) fun _ => .bind (harmless_toComplex _) fun _ => .ok _

theorem harmless_divFloat (x : Float) {y : Float} (hy : (y == 0) = false) : Harmless (divFloat x y) := by
  rw [divFloat, hy, if_neg Bool.false_ne_true]
  exact .ok _

theorem harmless_div (m : Numeric) {n : Numeric} (hn : n.isZero = false) : Harmless (div m n) := by
  unfold div
  split
  · rw [divInt, if_neg (ne_of_beq_false hn)]
    exact .bind (.ite (.error rfl) (.ok _)) fun _ => .ok _
  · exact .bind (harmless_intToFloat _) fun _ => .bind (harmless_divFloat _ hn) fun _ => .ok _
  · rw [if_neg (ne_of_beq_false hn)]
    exact .bind (harmless_intToFloat _) fun _ => .ok _
  · exact .bind (harmless_divFloat _ hn) fun _ => .ok _
  · refine .bind (harmless_toComplex _) fun z => ?_
    rw [hn, if_neg Bool.false_ne_true]
    exact .bind (harmless_toComplex _) fun _ => .ok _

theorem harmless_powFinite (x y : Float) : Harmless (powFinite x y) := by
  refine .ite ?_ (.ite (.ok _) (.ite (.error rfl) (.ok _)))
  split
  · exact .ok _
  · exact .error rfl

theorem harmless_powReal (m : Numeric) {n : Numeric} (hn : n.isFiniteNegative = false) :
    Harmless (powReal m n) := by
  refine .bind (harmless_toComplex m) fun _ => .bind (harmless_toComplex n) fun _ => ?_
  rw [hn, Bool.and_false, if_neg Bool.false_ne_true]
  exact .ite (.ok _) (.ite (.ok _) (.ite (.ok _) (.ite (.ok _) (.ite (.ok _)
    (.ite (.ok _) (harmless_powFinite _ _))))))

/-- Powers by a number that is not negative. -/
theorem harmless_pow_float (m : Numeric) {y : Float} (hy : ¬ y < 0) : Harmless (pow m (float y)) := by
  cases m with
  | int | float => exact harmless_powReal _ (by simp [isFiniteNegative, hy])
  | complex z =>
    refine .bind (harmless_toComplex _) fun exponent => ?_
    split
    · exact .ok _
    · exact .error rfl

theorem harmless_sqrt (m : Numeric) : Harmless m.sqrt := by
  cases m with
  | int n => exact .bind (harmless_intToFloat n) fun _ => .ok _
  | float | complex => exact .ok _

end Numeric

namespace Value

theorem harmless_numericOp (operator : String) {op : Numeric → Numeric → Except Fault Numeric} {v w : Value}
    (hop : ∀ m n, w.numeric? = some n → Harmless (op m n)) : Harmless (numericOp operator op v w) := by
  unfold numericOp
  split
  · next hw => exact .bind (hop _ _ hw) fun _ => .ok _
  · exact .error rfl

theorem harmless_add (cells : Cells) (v w : Value) : Harmless (v.add cells w) := by
  unfold add
  split
  · exact .ok _
  · exact .error rfl
  · exact harmless_numericOp _ fun m n _ => Numeric.harmless_lift _ _ _ m n

theorem harmless_sub (v w : Value) : Harmless (v.sub w) :=
  harmless_numericOp _ fun m n _ => Numeric.harmless_lift _ _ _ m n

variable (v : Value)

theorem harmless_repeatCount : Harmless v.repeatCount := by
  unfold repeatCount
  split
  · exact .ite (.ok _) (.error rfl)
  · exact .error rfl

theorem harmless_mul (cells : Cells) (v w : Value) : Harmless (v.mul cells w) := by
  unfold mul
  split
  iterate 4
    · exact .bind (harmless_repeatCount _) fun _ => .ok _
  · exact harmless_numericOp _ fun m n _ => Numeric.harmless_lift _ _ _ m n

/-- Division by what has been found not to be zero. -/
theorem harmless_div {w : Value} (hw : w.isZero = false) : Harmless (v.div w) := by
  refine harmless_numericOp _ fun m n hn => Numeric.harmless_div m ?_
  rw [isZero, hn] at hw
  exact hw

theorem harmless_pow_float {y : Float} (hy : ¬ y < 0) : Harmless (v.pow (.float y)) := by
  unfold pow
  split
  · next hn =>
    cases hn
    exact .bind (Numeric.harmless_pow_float _ hy) fun _ => .ok _
  · exact .error rfl

theorem harmless_holds (cells : Cells) (v : Value) (name : String) : Harmless (v.holds cells name) := by
  unfold holds
  split
  · exact .ok _
  · exact .ok _
  · split
    · exact .ok _
    · exact .error rfl

/-- A value that holds a name has it as a member, or has no members at all. -/
theorem harmless_member_of_holds {cells : Cells} {v : Value} {name : String} (h : v.holds cells name = .ok true) :
    Harmless (v.member name) := by
  unfold member
  split
  · exact .error rfl
  · exact .error rfl
  · rename_i htext hlist
    unfold holds at h
    split at h
    · exact absurd rfl (htext _)
    · exact absurd rfl (hlist _)
    · cases hfields : v.fields? with
      | none => exact .error rfl
      | some fields =>
        rw [hfields] at h
        have hany : (fields.any fun field => field.1 == name) = true := Except.ok.inj h
        obtain ⟨field, hmem, hfield⟩ := List.any_eq_true.mp hany
        dsimp only
        cases hlookup : fields.lookup name with
        | some w => exact .ok w
        | none =>
          have hname : name ≠ field.1 := by simpa using List.lookup_eq_none_iff.mp hlookup field hmem
          exact absurd (beq_iff_eq.mp hfield).symm hname

theorem harmless_orderWithin (cells : Cells) (r : Relation) (fuel : Nat) (v w : Value) :
    Harmless (orderWithin cells r fuel v w) := by
  induction fuel generalizing v w with
  | zero => exact .error rfl
  | succ fuel ih =>
    unfold orderWithin
    split
    · exact .ok _
    · dsimp only
      split
      · exact ih _ _
      · exact .ok _
    · split
      · exact .error rfl
      · exact .error rfl
      · exact .ok _
      · exact .error rfl

theorem harmless_order (cells : Cells) (r : Relation) (v w : Value) : Harmless (v.order cells r w) :=
  harmless_orderWithin cells r _ v w

theorem harmless_ofReading (text : String) (reading : Number.IntReading) : Harmless (ofReading text reading) := by
  cases reading with
  | value n => exact .ok _
  | tooLong | malformed => exact .error rfl

theorem harmless_toInt : Harmless v.toInt := by
  unfold toInt
  split
  · exact .ok _
  · exact .ok _
  · exact .ite (.error rfl) (.ite (.error rfl) (.ok _))
  · exact harmless_ofReading _ _
  · exact .error rfl

theorem harmless_castInt : Harmless v.castInt := by
  unfold castInt
  split
  · exact .ite (harmless_toInt _) (.error rfl)
  · exact .ite (harmless_toInt _) (.error rfl)
  · exact harmless_toInt _

theorem harmless_castFloat : Harmless v.castFloat := by
  unfold castFloat
  split
  · exact .ok _
  · exact .bind (Numeric.harmless_intToFloat _) fun _ => .ok _
  · exact .ok _
  · split
    · exact .ok _
    · exact .error rfl
  · exact .error rfl

theorem harmless_str (cells : Cells) (v : Value) : Harmless (v.str cells) :=
  .ite (.ok _) (.error rfl)

end Value

theorem Run.harmless_numberOf (text : String) : Harmless (numberOf text) := by
  unfold numberOf
  refine .ite ?_ (Value.harmless_toInt _)
  split
  · exact .ok _
  · exact .error rfl

end FapLang
