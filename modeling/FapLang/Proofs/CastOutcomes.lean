import FapLang.Proofs.IntegerExpressions
import FapLang.Proofs.Value.Kind

/-!
How casts end. A cast gives a value of the type, or nothing with the failure on record. Two things
stop a run instead: an integer without a finite number near it, and a value that cannot be written
(`cast_returns_iff`).
-/

namespace FapLang

variable {cells : Cells} {v : Value}

namespace Value

/-! ### Conversions -/

/-- The fault for which a cast stops the run. -/
def castFault? (cells : Cells) (type : String) (v : Value) : Option Fault :=
  match type, v with
  | "int", int _ => Option.none
  | "float", int n => if Number.leastInfinite ≤ n.natAbs then some .intTooLarge else Option.none
  | "int", v | "float", v | "str", v => if v.isWritable cells then Option.none else some .tooManyDigits
  | _, _ => Option.none

/-- A fault that casts put on record. -/
def isCastProblem (f : Fault) : Bool :=
  f.kind = .typing || f.kind = .value

theorem isCastProblem_of_castInt {f : Fault} (h : v.castInt = .error f) : isCastProblem f = true := by
  cases v with
  | bool | int => simp [castInt, toInt] at h
  | none | complex | list | record | function | node | scope => exact Except.error.inj h ▸ rfl
  | text s =>
    unfold castInt at h
    dsimp only at h
    split at h
    · cases hread : Number.readInt s with
      | value n => simp [toInt, hread, ofReading] at h
      | tooLong | malformed =>
        rw [toInt, hread] at h
        exact Except.error.inj h ▸ rfl
    · exact Except.error.inj h ▸ rfl
  | float x =>
    unfold castInt at h
    dsimp only at h
    split at h
    · next hwhole =>
      unfold Number.isWhole at hwhole
      simp only [Bool.and_eq_true, Bool.not_eq_true'] at hwhole
      simp [toInt, hwhole.1.1, hwhole.1.2] at h
    · exact Except.error.inj h ▸ rfl

theorem castFloat_int (n : Int) : (int n).castFloat =
    if Number.leastInfinite ≤ n.natAbs then .error .intTooLarge else .ok (float (Number.ofInt n)) := by
  unfold castFloat Numeric.intToFloat
  dsimp only
  split <;> rfl

theorem isCastProblem_of_castFloat {f : Fault} (hv : ∀ n, v ≠ int n) (h : v.castFloat = .error f) :
    isCastProblem f = true := by
  cases v with
  | int n => exact absurd rfl (hv n)
  | bool | float => simp [castFloat] at h
  | none | complex | list | record | function | node | scope => exact Except.error.inj h ▸ rfl
  | text s =>
    unfold castFloat at h
    dsimp only at h
    split at h
    · cases h
    · exact Except.error.inj h ▸ rfl

/-- A value that cannot be written, other than an integer, is no number and no text. -/
theorem exists_error_of_unwritable (hv : ∀ n, v ≠ int n)
    (h : v.isWritable cells = false) : (∃ f, v.castInt = .error f) ∧ ∃ f, v.castFloat = .error f := by
  cases v with
  | int n => exact absurd rfl (hv n)
  | none | bool | float | complex | text | node | scope => cases h.symm
  | list | record | function => exact ⟨⟨_, rfl⟩, _, rfl⟩

theorem castFault?_of_ne_int (cells : Cells) (hv : ∀ n, v ≠ int n) :
    v.castFault? cells "int" = (if v.isWritable cells then Option.none else some .tooManyDigits) ∧
      v.castFault? cells "float" = if v.isWritable cells then Option.none else some .tooManyDigits := by
  cases v with
  | int n => exact absurd rfl (hv n)
  | none | bool | float | complex | text | list | record | function | node | scope => exact ⟨rfl, rfl⟩

theorem castFault?_float (cells : Cells) (n : Int) : (int n).castFault? cells "float" =
    if Number.leastInfinite ≤ n.natAbs then some .intTooLarge else Option.none :=
  rfl

theorem castFault?_str (cells : Cells) (v : Value) :
    v.castFault? cells "str" = if v.isWritable cells then Option.none else some .tooManyDigits := by
  cases v <;> rfl

/-- A type to which nothing is cast. -/
theorem castFault?_of_other (cells : Cells) (v : Value) {type : String} (hint : type ≠ "int")
    (hfloat : type ≠ "float") (hstr : type ≠ "str") :
    v.castFault? cells type = Option.none ∧ v.castBy cells type = .error Option.none := by
  constructor
  · unfold castFault?
    split <;> first | contradiction | rfl
  · unfold castBy
    split <;> first | contradiction | rfl

end Value

namespace Run

open Interp

/-! ### Casts -/

/-- The text that puts a failed cast on record. -/
def castProblem (cells : Cells) (v : Value) (type name : String) : Option Fault → String
  | some f =>
    let reason := if f.message.isEmpty then "" else " - " ++ f.message
    let message : List Piece := ["Cannot cast '", v, "' to type '", type, "'", forName name, reason]
    String.join (message.map (·.shown cells))
  | none => "Unsupported type: '" ++ type ++ "'" ++ forName name

/-- The session after a cast for a name has failed. -/
def Session.castFailed (s : Session) (name message : String) : Session :=
  let t := ((report message).exec s).2
  if name.isEmpty then t else { t with faulty := t.faulty.push name }

variable {v w : Value} {type name : String} {s : Session}

theorem reports_castFailed (s : Session) (name message : String) : (s.castFailed name message).Reports message := by
  have hreports := reports_report message s
  unfold Session.castFailed
  dsimp only
  split <;> exact hreports

theorem faulty_castFailed (s : Session) (name message : String) :
    (s.castFailed name message).faulty = if name = "" then s.faulty else s.faulty.push name := by
  have hreport : ((report message).exec s).2.faulty = s.faulty := by
    rw [report, reportAt, exec_modify]
    dsimp only
    split <;> rfl
  rw [Session.castFailed]
  simp only [String.isEmpty_iff]
  split
  · exact hreport
  · rw [← hreport]

/-- A failure on record, and the name that it was for. -/
theorem exec_recordFailure (s : Session) (message : String) :
    (do report message; blameUnlessEmpty name; return Value.none : Interp Value).exec s =
      (.ok .none, s.castFailed name message) := by
  have hreport : (report message).exec s = (.ok (), ((report message).exec s).2) := rfl
  rw [exec_bind_ok hreport, blameUnlessEmpty, Session.castFailed]
  cases name.isEmpty <;> rfl

theorem exec_castFailure (f : Fault) (hv : v.isWritable s.cells = true) : (castFailure v type name f).exec s =
      (.ok .none, s.castFailed name (castProblem s.cells v type name (some f))) := by
  rw [← exec_recordFailure, castFailure, reportPieces, format]
  have hwrites : ∀ reason : String, s.Writes ["Cannot cast '", v, "' to type '", type, "'", forName name, reason] := by
    simp [Session.Writes, Piece.isWritable, hv]
  rw [exec_bind, exec_bind, exec_bind, exec_checkWritable (hwrites _)]
  rfl

theorem exec_castFailure_of_unwritable (f : Fault) (hv : v.isWritable s.cells = false) :
    (castFailure v type name f).exec s = (.error (.fault .tooManyDigits), s) := by
  have hwrites : ∀ reason : String,
      ¬ s.Writes ["Cannot cast '", v, "' to type '", type, "'", forName name, reason] := by
    simp [Session.Writes, Piece.isWritable, hv]
  rw [castFailure, reportPieces, format, exec_bind, exec_bind, exec_bind, exec_checkWritable_of_not_writes (hwrites _)]

/-- Where a conversion ends that stops for a fault, or gives a value or records a failure. -/
def Session.castEnd (s : Session) (v : Value) (type name : String) :
    Option Fault → Except (Option Fault) Value → Except Stop Value × Session
  | some f, _ => (.error (.fault f), s)
  | none, .ok w => (.ok w, s)
  | none, .error why => (.ok .none, s.castFailed name (castProblem s.cells v type name why))

/-- A conversion that fails for what casts record ends as the value can be written or not. -/
theorem exec_castResult {e : Except Fault Value} (hprob : ∀ f, e = .error f → Value.isCastProblem f = true)
    (hunwritable : v.isWritable s.cells = false → ∃ f, e = .error f) : (castResult v type name e).exec s =
      s.castEnd v type name (if v.isWritable s.cells then none else some .tooManyDigits) (e.mapError some) := by
  have hfail : ∀ f, e = .error f → castResult v type name e = castFailure v type name f := by
    rintro f rfl
    have hkind := hprob f rfl
    simp only [Value.isCastProblem, Bool.or_eq_true, decide_eq_true_eq] at hkind
    rcases hkind with hkind | hkind
    · rw [castResult, hkind]
    · rw [castResult, hkind]
  cases hv : v.isWritable s.cells with
  | false =>
    obtain ⟨g, hg⟩ := hunwritable hv
    exact hfail g hg ▸ exec_castFailure_of_unwritable g hv
  | true =>
    cases e with
    | ok a => rfl
    | error g => exact hfail g rfl ▸ exec_castFailure g hv

theorem exec_castTo (v : Value) (type name : String) (s : Session) : (castTo v type name).exec s =
      s.castEnd v type name (v.castFault? s.cells type) (v.castBy s.cells type) := by
  rw [castTo, exec_get_bind]
  dsimp only
  split
  · by_cases hint : ∃ n, v = .int n
    · obtain ⟨n, rfl⟩ := hint
      rfl
    · have hother : ∀ n, v ≠ .int n := fun n hn => hint ⟨n, hn⟩
      rw [(Value.castFault?_of_ne_int s.cells hother).1]
      exact exec_castResult (fun _ => Value.isCastProblem_of_castInt)
        fun hv => (Value.exists_error_of_unwritable hother hv).1
  · by_cases hint : ∃ n, v = .int n
    · obtain ⟨n, rfl⟩ := hint
      rw [Value.castFault?_float, Value.castBy, Value.castFloat_int]
      split <;> rfl
    · have hother : ∀ n, v ≠ .int n := fun n hn => hint ⟨n, hn⟩
      rw [(Value.castFault?_of_ne_int s.cells hother).2]
      exact exec_castResult (fun _ => Value.isCastProblem_of_castFloat hother)
        fun hv => (Value.exists_error_of_unwritable hother hv).2
  · rw [Value.castFault?_str]
    have hstr : v.isWritable s.cells = false → (v.str s.cells).map Value.text = .error .tooManyDigits := by
      intro hv
      rw [Value.str, hv]
      rfl
    refine exec_castResult (fun f hf => ?_) fun hv => ⟨_, hstr hv⟩
    cases hv : v.isWritable s.cells with
    | false =>
      rw [hstr hv] at hf
      exact Except.error.inj hf ▸ rfl
    | true =>
      rw [Value.str, hv] at hf
      simp [Except.map] at hf
  · next hint hfloat hstr =>
    obtain ⟨hnone, hby⟩ := Value.castFault?_of_other s.cells v hint hfloat hstr
    rw [hnone, hby]
    exact exec_recordFailure s _

/-- What a cast gives is an integer, a number or a text, as the type says. -/
theorem cases_of_castBy (h : v.castBy cells type = .ok w) :
    (type = "int" ∧ ∃ n, w = .int n) ∨ (type = "float" ∧ ∃ x, w = .float x) ∨ (type = "str" ∧ ∃ text, w = .text text) := by
  rcases Value.castBy_cases h with ⟨rfl, hint⟩ | ⟨rfl, hfloat⟩ | hstr
  · obtain ⟨n, rfl, -⟩ := Value.exists_int_of_castInt hint
    exact .inl ⟨rfl, n, rfl⟩
  · exact .inr (.inl ⟨rfl, Value.exists_float_of_castFloat hfloat⟩)
  · exact .inr (.inr hstr)

theorem typeName_of_castBy (h : v.castBy cells type = .ok w) : w.typeName = type := by
  rcases cases_of_castBy h with ⟨rfl, n, rfl⟩ | ⟨rfl, x, rfl⟩ | ⟨rfl, text, rfl⟩ <;> rfl

/-- A value of the type stays as it is. -/
theorem castBy_again (h : v.castBy cells type = .ok w) (others : Cells) : w.castBy others type = .ok w := by
  rcases cases_of_castBy h with ⟨rfl, n, rfl⟩ | ⟨rfl, x, rfl⟩ | ⟨rfl, text, rfl⟩ <;> rfl

theorem Remarks.castFailed {t : Session} (h : Remarks s t) (name message : String) :
    Remarks (s.castFailed name message) (t.castFailed name message) := by
  obtain ⟨notes, events, heq⟩ := h.report message
  unfold Session.castFailed
  rw [heq]
  dsimp only
  split <;> exact ⟨notes, events, rfl⟩

/-- A cast returns unless a finite number is wanted near an integer that has none, or a value that
cannot be written would have to be shown; then it stops for the fault and nothing is recorded. What
it returns is a value of the type, or nothing, with the failure on record or an error before. -/
theorem cast_returns_iff (s : Session) (v : Value) (type name : String) :
    ((∃ w t, (cast v type name).exec s = (.ok w, t)) ↔
      s.shuns name = true ∨ v.castFault? s.cells type = none) ∧
    (s.shuns name = true → (cast v type name).Tells s .none) ∧
    (s.shuns name = false →
      (∀ f, v.castFault? s.cells type = some f →
        ∃ t, (cast v type name).exec s = (.error (.fault f), t) ∧ Remarks s t) ∧
      (v.castFault? s.cells type = none →
        (∀ w, v.castBy s.cells type = .ok w → (cast v type name).Tells s w ∧ w.typeName = type) ∧
        ∀ why, v.castBy s.cells type = .error why → ∃ t, (cast v type name).exec s = (.ok .none, t) ∧
          t.Reports (castProblem s.cells v type name why) ∧
          Remarks (s.castFailed name (castProblem s.cells v type name why)) t)) := by
  obtain ⟨u, hu, hcast⟩ := exec_cast v type name s
  cases hname : s.shuns name with
  | true =>
    rw [hname, if_pos rfl] at hcast
    exact ⟨⟨fun _ ↦ .inl rfl, fun _ ↦ ⟨_, _, hcast⟩⟩, fun _ ↦ ⟨u, hcast, hu⟩, by simp⟩
  | false =>
    rw [hname, if_neg Bool.false_ne_true, exec_castTo, Session.castEnd.eq_def, hu.cells_eq] at hcast
    cases hfault : v.castFault? s.cells type with
    | some f =>
      rw [hfault] at hcast
      refine ⟨by simp [hcast], by simp, fun _ ↦ ⟨?_, by simp⟩⟩
      rintro g ⟨⟩
      exact ⟨u, hcast, hu⟩
    | none =>
      refine ⟨⟨fun _ ↦ .inr rfl, fun _ ↦ ?_⟩, by simp, fun _ ↦ ⟨by simp, fun _ ↦ ⟨fun w hby ↦ ?_, fun why hby ↦ ?_⟩⟩⟩
      · rw [hcast, hfault]
        cases v.castBy s.cells type <;> exact ⟨_, _, rfl⟩
      · rw [hfault, hby] at hcast
        exact ⟨⟨u, hcast, hu⟩, typeName_of_castBy hby⟩
      · rw [hfault, hby] at hcast
        exact ⟨_, hcast, reports_castFailed u name _, hu.castFailed name _⟩

/-- The integer `10 ^ 400` is not near any finite number. -/
theorem huge_integer_stops_cast :
    ∃ t, (cast (.int (Nat.pow 10 400)) "float" "x").exec Session.fresh = (.error (.fault .intTooLarge), t) ∧
      Remarks Session.fresh t := by
  have hhuge : (Value.int (Nat.pow 10 400)).castFault? Session.fresh.cells "float" = some .intTooLarge := by
    rw [Value.castFault?_float, if_pos (by decide +kernel)]
  have hknown : Session.fresh.shuns "x" = false := by simp [Session.shuns, Session.fresh, Session.blank]
  exact ((cast_returns_iff Session.fresh (.int (Nat.pow 10 400)) "float" "x").2.2 hknown).1 _ hhuge

/-! ### What casts return -/

/-- What a cast returns. A value is of the type and cast to itself, with nothing recorded. Without a
value, the name had an error already, or the failure is on record and the name has been added to
those with an error. -/
theorem cast_gives_value_or_records {t : Session} (h : (cast v type name).exec s = (.ok w, t)) :
    (w ≠ .none → type ∈ ["int", "float", "str"] ∧ w.typeName = type ∧ t.errors = s.errors ∧ t.faulty = s.faulty ∧
      ∀ u other, u.shuns other = false → (cast w type other).Tells u w) ∧
    (w = .none → (s.shuns name = true ∧ Remarks s t) ∨ (s.shuns name = false ∧
      ∃ why, v.castBy s.cells type = .error why ∧ t.Reports (castProblem s.cells v type name why) ∧
        Remarks (s.castFailed name (castProblem s.cells v type name why)) t ∧
        t.faulty = if name = "" then s.faulty else s.faulty.push name)) := by
  obtain ⟨u, hu, hcast⟩ := exec_cast v type name s
  rw [h] at hcast
  cases hname : s.shuns name with
  | true =>
    rw [hname, if_pos rfl] at hcast
    obtain ⟨hw, rfl⟩ := Prod.mk.inj hcast
    exact ⟨fun hne ↦ absurd (Except.ok.inj hw) hne, fun _ ↦ .inl ⟨rfl, hu⟩⟩
  | false =>
    rw [hname, if_neg Bool.false_ne_true, exec_castTo, Session.castEnd.eq_def, hu.cells_eq] at hcast
    cases hfault : v.castFault? s.cells type with
    | some f =>
      rw [hfault] at hcast
      cases hcast
    | none =>
      cases hby : v.castBy s.cells type with
      | ok a =>
        rw [hfault, hby] at hcast
        cases hcast
        have htype := typeName_of_castBy hby
        refine ⟨fun _ ↦ ⟨?_, htype, hu.errors_eq, hu.faulty_eq, fun r other hother ↦ ?_⟩, fun hnone ↦ ?_⟩
        · rcases cases_of_castBy hby with ⟨rfl, -⟩ | ⟨rfl, -⟩ | ⟨rfl, -⟩ <;> simp
        · exact tells_cast_of_castBy hother (castBy_again hby r.cells)
        · rcases cases_of_castBy hby with ⟨-, _, rfl⟩ | ⟨-, _, rfl⟩ | ⟨-, _, rfl⟩ <;> cases hnone
      | error why =>
        rw [hfault, hby] at hcast
        cases hcast
        refine ⟨fun hne ↦ absurd rfl hne, fun _ ↦ .inr ⟨rfl, why, rfl, ?_⟩⟩
        refine ⟨reports_castFailed u name _, hu.castFailed name _, ?_⟩
        rw [faulty_castFailed, hu.faulty_eq]

/-- A truth value is cast to an integer; a type to which nothing is cast makes the name faulty. -/
theorem truth_cast_and_list_refused :
    (∃ t, (cast (.bool true) "int" "x").exec Session.fresh = (.ok (.int 1), t) ∧
      t.faulty = #[] ∧ (cast (.int 1) "int" "x").Tells t (.int 1)) ∧
    ∃ t, (cast (.int 1) "list" "x").exec Session.fresh = (.ok .none, t) ∧ t.faulty = #["x"] := by
  have hknown : Session.fresh.shuns "x" = false := by simp [Session.shuns, Session.fresh, Session.blank]
  obtain ⟨t, hvalue, -⟩ := tells_cast_of_castBy hknown (show (Value.bool true).castBy Session.fresh.cells "int" = .ok (.int 1) from rfl)
  obtain ⟨u, hu, hunsupported⟩ := exec_cast (.int 1) "list" "x" Session.fresh
  rw [hknown, if_neg Bool.false_ne_true] at hunsupported
  have hnone := hunsupported.trans (exec_castTo (.int 1) "list" "x" u)
  obtain ⟨-, -, -, hfaulty, hagain⟩ := (cast_gives_value_or_records hvalue).1 (by simp)
  refine ⟨⟨_, hvalue, hfaulty, hagain _ _ ?_⟩, _, hnone, ?_⟩
  · rw [Session.shuns, hfaulty]
    exact hknown
  · rcases (cast_gives_value_or_records hnone).2 rfl with ⟨hshuns, -⟩ | ⟨-, -, -, -, -, hblamed⟩
    · rw [hknown] at hshuns
      cases hshuns
    · rw [hblamed, if_neg (by decide)]
      rfl

/-! ### Integers as texts -/

theorem looksIntegral_text (l : IntLiteral) : Value.looksIntegral (String.ofList l.text) = true := by
  have hdigits : Value.isDigits l.digits = true := by
    rw [Value.isDigits, Bool.and_eq_true]
    refine ⟨by simp [l.nonempty], List.all_eq_true.mpr fun c hc => ?_⟩
    rw [Text.isDigit, Text.isDecimal, (digit_facts (l.decimal c hc)).1]
    rfl
  rw [Value.looksIntegral, String.toList_ofList, IntLiteral.text]
  split
  · next rest heq =>
    split at heq
    · rwa [← (List.cons.inj heq).2]
    · have hminus := l.decimal '-' (by rw [heq]; exact .head _)
      cases hminus
  · next hminus =>
    split
    · next hneg => exact absurd (if_pos hneg) (hminus l.digits)
    · exact hdigits

/-- The text of an integer with few enough digits, as a numeral. -/
def numeralOf (n : Int) (h : (Nat.toDigits 10 n.natAbs).length ≤ Number.digitLimit) : IntLiteral where
  isNegative := n < 0
  digits := Number.digitText n.natAbs
  nonempty := Nat.toDigits_ne_nil
  decimal _ hc := Nat.isDigit_of_mem_toDigits (by decide) (by decide) hc
  short := h

section Numerals

variable {n : Int} (h : (Nat.toDigits 10 n.natAbs).length ≤ Number.digitLimit)

theorem intText_eq_text : Number.intText n = String.ofList (numeralOf n h).text := by
  rw [Number.intText, IntLiteral.text]
  simp only [numeralOf, decide_eq_true_eq]

/-- A numeral spells the integer that it is the text of. -/
theorem value_numeralOf : (numeralOf n h).value = n := by
  have hmagnitude : (numeralOf n h).magnitude = n.natAbs := by
    rw [IntLiteral.magnitude, ← Nat.ofDigitChars_eq_foldl]
    exact Nat.ofDigitChars_ten_toDigits
  rw [IntLiteral.value, hmagnitude]
  simp only [numeralOf, decide_eq_true_eq]
  omega

include h in
theorem isWritable_of_length (cells : Cells) : (Value.int n).isWritable cells = true := by
  have hbound : ∀ limit, 0 < limit → (Nat.toDigits 10 n.natAbs).length ≤ limit → n.natAbs < Nat.pow 10 limit :=
    fun limit hlimit => (Nat.length_toDigits_le_iff (by decide) hlimit).mp
  change Number.isWritable n = true
  rw [Number.isWritable, decide_eq_true_eq]
  exact hbound _ (by decide) h

include h in
/-- An integer with few enough digits is the same after it has been a text. -/
theorem integers_survive_texts (s : Session) {first second : String} (hfirst : s.shuns first = false)
    (hsecond : s.shuns second = false) :
    (do cast (← cast (.int n) "str" first) "int" second : Interp Value).Tells s (.int n) := by
  have hwritable := isWritable_of_length h s.cells
  have hstr : (Value.int n).str s.cells = .ok (Number.intText n) := if_pos hwritable
  have htext : (cast (.int n) "str" first).Tells s (.text (Number.intText n)) := by
    refine tells_cast_of_castBy hfirst ?_
    rw [Value.castBy, hstr]
    rfl
  refine htext.bind fun t ht ↦ ?_
  have hknown : t.shuns second = false := by
    rw [Session.shuns, ht.faulty_eq]
    exact hsecond
  refine tells_cast_of_castBy hknown ?_
  rw [intText_eq_text h, Value.castBy, Value.castInt, if_pos (looksIntegral_text _), Value.toInt, IntLiteral.readInt_text,
    value_numeralOf]
  rfl

end Numerals

theorem negative_integer_survives_text :
    (do cast (← cast (.int (-120)) "str" "") "int" "" : Interp Value).Tells Session.fresh (.int (-120)) :=
  integers_survive_texts (by decide) Session.fresh rfl rfl

end Run

end FapLang
