import FapLang.Number.Numeral

/-!
Integers that can be written. The integers that numerals spell and the integer parts of floating-point numbers
are among them.
-/

namespace FapLang.Number

/-- An integer that can be written. -/
abbrev Writable :=
  { n : Int // isWritable n = true }

theorem digitValue?_lt {c : Char} {d : Nat} (h : Text.digitValue? c = some d) : d < 10 := by
  unfold Text.digitValue? at h
  obtain ⟨start, hstart, rfl⟩ := Option.map_eq_some_iff.mp h
  have hrange := List.find?_some hstart
  simp only [Bool.and_eq_true, decide_eq_true_eq] at hrange
  omega

theorem readDigits_lt (afterDigit : Bool) (cs : List Char) : ∀ d ∈ (readDigits afterDigit cs).1, d < 10 := by
  fun_induction readDigits afterDigit cs with
  | case1 => simp
  | case2 afterDigit c rest d hd ds left hread ih =>
    intro e he
    rw [hread] at ih
    rcases List.mem_cons.mp he with rfl | he
    · exact digitValue?_lt hd
    · exact ih e he
  | case3 next rest _ _ ih => exact ih
  | case4 => simp
  | case5 => simp

theorem ofDigits_lt {ds : List Nat} (h : ∀ d ∈ ds, d < 10) : ofDigits ds < Nat.pow 10 ds.length := by
  have hfold : ∀ start, ds.foldl (fun n d => 10 * n + d) start < (start + 1) * Nat.pow 10 ds.length := by
    induction ds with
    | nil =>
      intro start
      simp
    | cons d rest ih =>
      intro start
      have hd := h d (.head _)
      have hrest := ih (fun e he => h e (List.mem_cons_of_mem d he)) (10 * start + d)
      calc (d :: rest).foldl (fun n d => 10 * n + d) start
          < (10 * start + d + 1) * Nat.pow 10 rest.length := hrest
        _ ≤ (10 * start + 10) * Nat.pow 10 rest.length := Nat.mul_le_mul_right _ (by omega)
        _ = (start + 1) * Nat.pow 10 (d :: rest).length := by
          change _ = (start + 1) * (Nat.pow 10 rest.length * 10)
          rw [Nat.mul_comm (Nat.pow 10 rest.length) 10, ← Nat.mul_assoc, Nat.succ_mul start 10, Nat.mul_comm start 10]
  have hzero := hfold 0
  rwa [Nat.zero_add, Nat.one_mul] at hzero

/-- An integer that is no longer than one that can be written can be written. -/
theorem isWritable_of_natAbs_le {m n : Int} (hle : m.natAbs ≤ n.natAbs) (hn : isWritable n = true) :
    isWritable m = true := by
  rw [isWritable, decide_eq_true_eq] at hn ⊢
  exact Nat.lt_of_le_of_lt hle hn

/-- An integer with few enough digits can be written, whatever its sign. -/
theorem isWritable_signed (negative : Bool) {n digits : Nat} (hn : n < Nat.pow 10 digits)
    (hdigits : digits ≤ digitLimit) : isWritable (if negative then -(n : Int) else n) = true := by
  have habs : (if negative then -(n : Int) else n).natAbs = n := by
    cases negative with
    | true => exact (Int.natAbs_neg _).trans (Int.natAbs_natCast n)
    | false => exact Int.natAbs_natCast n
  rw [isWritable, habs, decide_eq_true_eq]
  generalize digitLimit = limit at hdigits ⊢
  exact Nat.lt_of_lt_of_le hn (Nat.pow_le_pow_right (by decide) hdigits)

theorem isWritable_digit {n : Nat} (h : n < 10) : isWritable n = true :=
  isWritable_signed false (show n < Nat.pow 10 1 from h) (by decide)

/-- A numeral that can be read spells an integer that can be written. -/
theorem isWritable_of_readInt {s : String} {n : Int} (h : readInt s = .value n) : isWritable n = true := by
  have hbound := ofDigits_lt (readDigits_lt false (readSign (Text.trim s.toList)).2)
  unfold readInt at h
  dsimp only at h
  by_cases hlong : digitLimit < (readDigits false (readSign (Text.trim s.toList)).2).1.length
  · rw [if_pos hlong] at h
    cases h
  rw [if_neg hlong] at h
  split at h
  · cases h
  · rw [← IntReading.value.inj h]
    exact isWritable_signed _ hbound (Nat.le_of_not_lt hlong)

theorem significand_lt (x : Float) : (Dyadic.ofFloat x).significand < Nat.pow 2 53 := by
  have hfrac : x.toBits.toNat % Nat.pow 2 52 < Nat.pow 2 52 := Nat.mod_lt _ (Nat.two_pow_pos 52)
  have htop : Nat.pow 2 53 = Nat.pow 2 52 + Nat.pow 2 52 := rfl
  unfold Dyadic.ofFloat
  dsimp only
  repeat' split
  all_goals omega

/-- The integer part of a number has few digits. -/
theorem isWritable_truncate (x : Float) : isWritable (truncate x) = true := by
  have hexp : (Dyadic.ofFloat x).exponent ≤ 972 := by
    unfold Dyadic.ofFloat
    dsimp only
    repeat' split
    all_goals omega
  have hscaled : ∀ exponent bound : Nat, exponent ≤ bound →
      (Dyadic.ofFloat x).significand * 2 ^ exponent < Nat.pow 10 (53 + bound) := by
    intro exponent bound hle
    calc (Dyadic.ofFloat x).significand * 2 ^ exponent
        < 2 ^ 53 * 2 ^ exponent := Nat.mul_lt_mul_of_pos_right (significand_lt x) (Nat.two_pow_pos exponent)
      _ ≤ 2 ^ 53 * 2 ^ bound := Nat.mul_le_mul_left _ (Nat.pow_le_pow_right (by omega) hle)
      _ = 2 ^ (53 + bound) := (Nat.pow_add 2 53 bound).symm
      _ ≤ Nat.pow 10 (53 + bound) := Nat.pow_le_pow_left (by omega) _
  refine isWritable_signed _ ?_ (by decide : 53 + 972 ≤ digitLimit)
  by_cases hpos : 0 ≤ (Dyadic.ofFloat x).exponent
  · rw [if_pos hpos]
    exact hscaled _ 972 (by omega)
  · rw [if_neg hpos]
    have hzero := hscaled 0 972 (by omega)
    rw [Nat.pow_zero, Nat.mul_one] at hzero
    exact Nat.lt_of_le_of_lt (Nat.div_le_self _ _) hzero

end FapLang.Number
