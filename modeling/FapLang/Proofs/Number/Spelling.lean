import FapLang.Number.Numeral
import FapLang.Proofs.IntegerExpressions

/-!
Spellings of numbers: digits without a needless zero in front, then perhaps a point with digits and an exponent.
Integers and finite numbers are written so (`Spelling.text_ofInt`, `exists_spelling`).
-/

namespace FapLang.Number

structure AreDigits (ds : List Char) : Prop where
  nonempty : ds ≠ []
  all : ∀ c ∈ ds, isAsciiDigit c = true

/-- Digits in front of a point: a single zero, or no zero in front. -/
structure IsWhole (ds : List Char) : Prop extends AreDigits ds where
  proper : ds.head? = some '0' → ds = ['0']

/-- Nothing, or a point with digits after it. -/
inductive IsFraction : List Char → Prop
  | none : IsFraction []
  | point {ds : List Char} (hds : AreDigits ds) : IsFraction ('.' :: ds)

/-- Nothing, or an exponent with its sign. -/
inductive IsPower : List Char → Prop
  | none : IsPower []
  | mark {sign : Char} {ds : List Char} (hsign : sign = '-' ∨ sign = '+') (hds : AreDigits ds) :
    IsPower ('e' :: sign :: ds)

structure Spelling where
  negative : Bool
  whole : List Char
  fraction : List Char
  power : List Char
  isWhole : IsWhole whole
  isFraction : IsFraction fraction
  isPower : IsPower power

namespace Spelling

variable (w : Spelling)

def sign : List Char :=
  if w.negative then ['-'] else []

def text : List Char :=
  w.sign ++ (w.whole ++ (w.fraction ++ w.power))

/-- Neither a point nor an exponent. -/
def isInteger : Bool :=
  w.fraction.isEmpty && w.power.isEmpty

/-- The characters of spellings. -/
def chars : List Char :=
  ['0', '1', '2', '3', '4', '5', '6', '7', '8', '9'] ++ ['-', '.', 'e', '+']

theorem mem_chars_of_digit {c : Char} (h : isAsciiDigit c = true) : c ∈ chars :=
  List.mem_append_left _ (mem_digits_of_isAsciiDigit h)

theorem text_mem_chars : ∀ c ∈ w.text, c ∈ chars := by
  obtain ⟨negative, whole, fraction, power, hwhole, hfraction, hpower⟩ := w
  simp only [text, sign, List.forall_mem_append]
  refine ⟨?_, fun c hc ↦ mem_chars_of_digit (hwhole.all c hc), ?_, ?_⟩
  · cases negative <;> simp [chars]
  · cases hfraction with
    | none => simp
    | point hds => exact List.forall_mem_cons.mpr ⟨by decide, fun c hc ↦ mem_chars_of_digit (hds.all c hc)⟩
  · cases hpower with
    | none => simp
    | mark hsign hds =>
      rcases hsign with rfl | rfl
      all_goals
        refine List.forall_mem_cons.mpr ⟨by decide, List.forall_mem_cons.mpr ⟨by decide, ?_⟩⟩
        exact fun c hc ↦ mem_chars_of_digit (hds.all c hc)

end Spelling

theorem areDigits_digitText (n : Nat) : AreDigits (digitText n) where
  nonempty := Nat.toDigits_ne_nil
  all _ hc := Nat.isDigit_of_mem_toDigits (by decide) (by decide) hc

/-- Only the text of zero starts with a zero. -/
theorem eq_zero_of_head_digitText {n : Nat} (h : (digitText n).head? = some '0') : n = 0 := by
  induction n using Nat.strongRecOn with
  | _ n ih =>
    rw [digitText, Nat.toDigits_eq_if (by decide)] at h
    split at h
    · next hlt =>
      have hzero : ∀ d : Fin 10, (Nat.digitChar d == '0') = true → d = 0 := by decide
      exact congrArg Fin.val (hzero ⟨n, hlt⟩ (by simpa using h))
    · next hge =>
      rw [List.head?_append, Option.or_of_isSome (by simp [Nat.toDigits_ne_nil])] at h
      have hzero := ih (n / 10) (by omega) h
      omega

theorem isWhole_digitText (n : Nat) : IsWhole (digitText n) where
  toAreDigits := areDigits_digitText n
  proper h := by
    rw [eq_zero_of_head_digitText h]
    rfl

/-- Digits that start like the text of a positive number have no zero in front. -/
theorem isWhole_of_head {ds : List Char} {n : Nat} (hn : n ≠ 0) (hds : ∀ c ∈ ds, isAsciiDigit c = true)
    (hhead : ds.head? = (digitText n).head?) : IsWhole ds where
  nonempty := by
    rintro rfl
    exact Nat.toDigits_ne_nil (List.head?_eq_none_iff.mp hhead.symm)
  all := hds
  proper h := absurd (eq_zero_of_head_digitText (hhead ▸ h)) hn

theorem isPower_exponentText (e : Int) : IsPower ('e' :: exponentText e) := by
  have hdigits := areDigits_digitText e.natAbs
  refine .mark (by split <;> simp) ?_
  split
  · exact ⟨List.cons_ne_nil _ _, List.forall_mem_cons.mpr ⟨rfl, hdigits.all⟩⟩
  · exact hdigits

theorem digits_zeros (count : Nat) : ∀ c ∈ List.replicate count '0', isAsciiDigit c = true := by
  intro c hc
  rw [List.eq_of_mem_replicate hc]
  rfl

theorem isFraction_zero : IsFraction ['.', '0'] :=
  .point ⟨by decide, List.forall_mem_singleton.mpr rfl⟩

def Spelling.ofInt (n : Int) : Spelling :=
  ⟨n < 0, digitText n.natAbs, [], [], isWhole_digitText _, .none, .none⟩

theorem Spelling.text_ofInt (n : Int) : (ofInt n).text = (intText n).toList := by
  rw [intText, String.toList_ofList]
  by_cases h : n < 0 <;> simp [text, sign, ofInt, h]

/-- A decimal is written with a point or an exponent. -/
theorem exists_spelling_text (negative : Bool) (d : Decimal) : ∃ w : Spelling, w.negative = negative ∧
    d.text true = w.whole ++ (w.fraction ++ w.power) ∧ w.isInteger = false := by
  by_cases hzero : d.digits = 0
  · refine ⟨⟨negative, ['0'], ['.', '0'], [], isWhole_digitText 0, isFraction_zero, .none⟩, rfl, ?_, rfl⟩
    simp [Decimal.text, hzero, digitText]
  obtain ⟨hne, hds⟩ := areDigits_digitText d.digits
  unfold Decimal.text
  rw [if_neg hzero]
  dsimp only
  split
  · split
    · next first second rest heq =>
      rw [heq] at hds
      obtain ⟨hfirst, hrest⟩ := List.forall_mem_cons.mp hds
      refine ⟨⟨negative, [first], '.' :: second :: rest, _, ?_, .point ⟨List.cons_ne_nil _ _, hrest⟩,
        isPower_exponentText _⟩, rfl, rfl, rfl⟩
      exact isWhole_of_head hzero (List.forall_mem_singleton.mpr hfirst) (by rw [heq]; rfl)
    · exact ⟨⟨negative, _, [], _, isWhole_digitText _, .none, isPower_exponentText _⟩, rfl, rfl, rfl⟩
  · split
    · refine ⟨⟨negative, digitText d.digits ++ List.replicate d.exponent.toNat '0', _, [], ?_, isFraction_zero, .none⟩,
        rfl, rfl, rfl⟩
      refine isWhole_of_head hzero (List.forall_mem_append.mpr ⟨hds, digits_zeros _⟩) ?_
      rw [List.head?_append, Option.or_of_isSome (by simpa using hne)]
    · generalize hcut : (((digitText d.digits).length : Int) - 1 + d.exponent).toNat + 1 = cut
      split
      · refine ⟨⟨negative, (digitText d.digits).take cut, '.' :: (digitText d.digits).drop cut, [], ?_,
          .point ⟨?_, fun c hc ↦ hds c (List.mem_of_mem_drop hc)⟩, .none⟩, rfl, by rw [List.append_nil], rfl⟩
        · refine isWhole_of_head hzero (fun c hc ↦ hds c (List.mem_of_mem_take hc)) ?_
          rw [List.head?_take, if_neg (by omega)]
        · rw [ne_eq, List.drop_eq_nil_iff]
          omega
      · exact ⟨⟨negative, ['0'], '.' :: _, [], isWhole_digitText 0, .point ⟨List.append_ne_nil_of_right_ne_nil _ hne,
          List.forall_mem_append.mpr ⟨digits_zeros _, hds⟩⟩, .none⟩, rfl, congrArg ('0' :: ·) (List.append_nil _).symm, rfl⟩

/-- A finite number is written with a point or an exponent. -/
theorem exists_spelling {x : Float} (hnan : isNaN x = false) (hinfinite : isInfinite x = false) :
    ∃ w : Spelling, (floatText x).toList = w.text ∧ w.isInteger = false := by
  obtain ⟨w, hnegative, htext, hinteger⟩ := exists_spelling_text (isNegative x) (shortest (Dyadic.ofFloat x))
  refine ⟨w, ?_, hinteger⟩
  simp only [floatText, String.toList_ofList, signed, magnitudeText, hnan, hinfinite, htext, Spelling.text, Spelling.sign,
    hnegative]
  cases isNegative x <;> rfl

end FapLang.Number
