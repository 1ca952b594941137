import FapLang.Grammar.Token
import Mathlib.Data.List.TakeWhile

/-!
Lexemes. Whatever a pattern takes off the front of a text is a lexeme, it is taken again before
every text that does not go on with it (`Pattern.take?_resume`), and it is never empty
(`Terminal.take?_ne_nil`).
-/

namespace FapLang.Grammar

variable {cs rest : List Char} {p : Pattern}
variable {word : List Char}

/-- A token without its place in a text. -/
abbrev Lexeme := Terminal × List Char

/-- The pattern takes the word as a whole. -/
def Pattern.Spells (p : Pattern) (word : List Char) : Prop :=
  p.take? word = some (word, [])

def Terminal.Spells (t : Terminal) (word : List Char) : Prop :=
  t.pattern.Spells word

instance (p : Pattern) (word : List Char) : Decidable (p.Spells word) :=
  inferInstanceAs (Decidable (_ = _))

instance (t : Terminal) (word : List Char) : Decidable (t.Spells word) :=
  inferInstanceAs (Decidable (t.pattern.Spells word))

/-! ### What patterns take -/

/-- A run of a class ends where a character outside of it follows. -/
theorem takeWhile_append_eq {p : Char → Bool} (hword : ∀ c ∈ word, p c = true)
    (hrest : ∀ c, rest.head? = some c → p c = false) :
    (word ++ rest).takeWhile p = word ∧ (word ++ rest).dropWhile p = rest := by
  rw [List.takeWhile_append_of_pos hword, List.dropWhile_append_of_pos hword]
  cases rest with
  | nil => simp
  | cons c rest => simp [hrest c rfl]

theorem head?_dropWhile_eq_false {p : Char → Bool} {c : Char} (h : (cs.dropWhile p).head? = some c) : p c = false := by
  have hnot := List.head?_dropWhile_not p cs
  rw [h] at hnot
  simpa using hnot

theorem takeRun_eq_some_iff {p : Char → Bool} : takeRun p cs = some (word, rest) ↔
      cs = word ++ rest ∧ word ≠ [] ∧ (∀ c ∈ word, p c = true) ∧
        ∀ c, rest.head? = some c → p c = false := by
  simp only [takeRun, List.isEmpty_iff]
  constructor
  · intro h
    split_ifs at h with hempty
    cases h
    exact ⟨List.takeWhile_append_dropWhile.symm, hempty, fun c hc => List.mem_takeWhile_imp hc,
      fun c hc => head?_dropWhile_eq_false hc⟩
  · rintro ⟨rfl, hempty, hall, hrest⟩
    rw [(takeWhile_append_eq hall hrest).1, (takeWhile_append_eq hall hrest).2, if_neg hempty]

theorem takeLiteral_eq_some_iff {text : String} :
    takeLiteral text cs = some (word, rest) ↔ word = text.toList ∧ cs = word ++ rest := by
  simp only [takeLiteral, List.isPrefixOf_iff_prefix]
  constructor
  · intro h
    split_ifs at h with hstart
    cases h
    obtain ⟨after, rfl⟩ := hstart
    simp [← String.length_toList]
  · rintro ⟨rfl, rfl⟩
    simp [← String.length_toList]

theorem takeAnyCase_eq_some_iff {text : String} : takeAnyCase text cs = some (word, rest) ↔
      cs = word ++ rest ∧ word.map Number.lowerAscii = text.toList := by
  simp only [takeAnyCase, ← String.length_toList]
  constructor
  · intro h
    split_ifs at h with hfront
    cases h
    exact ⟨(List.take_append_drop _ _).symm, hfront⟩
  · rintro ⟨rfl, hword⟩
    have hlen : text.toList.length = word.length := by rw [← hword, List.length_map]
    simp [hlen, hword]

theorem takeIdentifier_eq_some_iff : takeIdentifier cs = some (word, rest) ↔
      ∃ c tail, word = c :: tail ∧ cs = word ++ rest ∧ isLetter c = true ∧
        (∀ d ∈ tail, isNameChar d = true) ∧ ∀ d, rest.head? = some d → isNameChar d = false := by
  constructor
  · intro h
    cases cs with
    | nil => simp [takeIdentifier] at h
    | cons c cs =>
      simp only [takeIdentifier] at h
      split_ifs at h with hletter
      cases h
      refine ⟨c, cs.takeWhile isNameChar, rfl, ?_, hletter, fun d hd => List.mem_takeWhile_imp hd,
        fun d hd => head?_dropWhile_eq_false hd⟩
      rw [List.cons_append, List.takeWhile_append_dropWhile]
  · rintro ⟨c, tail, rfl, rfl, hletter, htail, hrest⟩
    rw [List.cons_append, takeIdentifier, if_pos hletter, (takeWhile_append_eq htail hrest).1,
      (takeWhile_append_eq htail hrest).2]

/-- A fraction that was taken is taken again before a text that does not go on with it. -/
theorem takeFraction_resume {whole left : List Char} (h : takeFraction whole rest = (word, left)) :
    ∃ fraction, word = whole ++ fraction ∧ rest = fraction ++ left ∧
      ∀ after, (∀ c, after.head? = some c → isAsciiDigit c = false ∧ c ≠ '.') →
        takeFraction whole (fraction ++ after) = (word, after) := by
  have hnone : ∀ after : List Char, (∀ c, after.head? = some c → isAsciiDigit c = false ∧ c ≠ '.') →
      takeFraction whole after = (whole, after) := by
    intro after hafter
    unfold takeFraction
    split
    · exact absurd rfl (hafter '.' rfl).2
    · rfl
  unfold takeFraction at h
  split at h
  · split at h
    · rename_i digits left' hrun
      cases h
      obtain ⟨rfl, hne, hdigits, -⟩ := takeRun_eq_some_iff.mp hrun
      refine ⟨'.' :: digits, rfl, rfl, fun after hafter => ?_⟩
      have hagain : takeRun isAsciiDigit (digits ++ after) = some (digits, after) :=
        takeRun_eq_some_iff.mpr ⟨rfl, hne, hdigits, fun c hc => (hafter c hc).1⟩
      simp only [List.cons_append, takeFraction, hagain]
    · cases h
      exact ⟨[], by simp, rfl, hnone⟩
  · cases h
    exact ⟨[], by simp, rfl, hnone⟩

theorem takeNumeral_resume (h : takeNumeral cs = some (word, rest)) : cs = word ++ rest ∧
      ∀ after, (∀ c, after.head? = some c → isAsciiDigit c = false ∧ c ≠ '.') →
        takeNumeral (word ++ after) = some (word, after) := by
  -- Both branches take a run of digits and a fraction; the sign is the only difference.
  have hresume : ∀ (sign cs : List Char), (takeRun isAsciiDigit cs).map
      (fun cut => takeFraction (sign ++ cut.1) cut.2) = some (word, rest) →
      ∃ ds fraction, ds ≠ [] ∧ (∀ c ∈ ds, isAsciiDigit c = true) ∧ word = sign ++ ds ++ fraction ∧
        cs = ds ++ fraction ++ rest ∧
        ∀ after, (∀ c, after.head? = some c → isAsciiDigit c = false ∧ c ≠ '.') →
          (takeRun isAsciiDigit (ds ++ fraction ++ after)).map
            (fun cut => takeFraction (sign ++ cut.1) cut.2) = some (word, after) := by
    intro sign cs h
    obtain ⟨⟨ds, left⟩, hrun, hfrac⟩ := Option.map_eq_some_iff.mp h
    obtain ⟨rfl, hne, hdigits, hstop⟩ := takeRun_eq_some_iff.mp hrun
    obtain ⟨fraction, rfl, rfl, hagain⟩ := takeFraction_resume hfrac
    refine ⟨ds, fraction, hne, hdigits, rfl, by simp, fun after hafter => ?_⟩
    have hstart : takeRun isAsciiDigit (ds ++ (fraction ++ after)) = some (ds, fraction ++ after) := by
      refine takeRun_eq_some_iff.mpr ⟨rfl, hne, hdigits, fun c hc => ?_⟩
      cases fraction with
      | nil => exact (hafter c hc).1
      | cons d fraction => exact hstop c hc
    rw [List.append_assoc, hstart, Option.map_some, hagain after hafter]
  unfold takeNumeral at h
  split at h
  · obtain ⟨ds, fraction, -, -, rfl, rfl, hagain⟩ := hresume ['-'] _ h
    refine ⟨by simp, fun after hafter => ?_⟩
    simpa [takeNumeral] using hagain after hafter
  · obtain ⟨ds, fraction, hne, hdigits, rfl, rfl, hagain⟩ := hresume [] _ h
    refine ⟨by simp, fun after hafter => ?_⟩
    have hsign : ∀ tail, ds ++ fraction ++ after ≠ '-' :: tail := by
      intro tail hcontra
      cases ds with
      | nil => exact hne rfl
      | cons d ds =>
        cases hcontra
        cases hdigits '-' (.head _)
    have hopen : takeNumeral (ds ++ fraction ++ after) =
        (takeRun isAsciiDigit (ds ++ fraction ++ after)).map
          (fun cut => takeFraction cut.1 cut.2) := by
      unfold takeNumeral
      split
      · rename_i tail heq
        exact absurd heq (hsign tail)
      · rfl
    change takeNumeral (ds ++ fraction ++ after) = _
    rw [hopen]
    exact hagain after hafter

theorem lineEndRun_resume (cs : List Char) : cs = (lineEndRun cs).1 ++ (lineEndRun cs).2 ∧
      ∀ after, (∀ c, after.head? = some c → c ≠ '\n' ∧ c ≠ '\r') →
        lineEndRun ((lineEndRun cs).1 ++ after) = ((lineEndRun cs).1, after) := by
  fun_induction lineEndRun cs with
  | case1 rest run left hrun ih =>
    rw [hrun] at ih
    refine ⟨by simp [← ih.1], fun after hafter => ?_⟩
    simp only [List.cons_append, lineEndRun, ih.2 after hafter]
  | case2 rest run left hrun ih =>
    rw [hrun] at ih
    refine ⟨by simp [← ih.1], fun after hafter => ?_⟩
    simp only [List.cons_append, lineEndRun, ih.2 after hafter]
  | case3 cs hcarriage hfeed =>
    refine ⟨rfl, fun after hafter => ?_⟩
    simp only [List.nil_append]
    unfold lineEndRun
    split
    · exact absurd rfl (hafter '\r' rfl).2
    · exact absurd rfl (hafter '\n' rfl).1
    · rfl

theorem takeLineEnds_eq_some_iff :
    takeLineEnds cs = some (word, rest) ↔ word ≠ [] ∧ lineEndRun cs = (word, rest) := by
  unfold takeLineEnds
  split
  · rename_i left hrun
    simp only [hrun, Prod.mk.injEq]
    constructor
    · intro h
      cases h
    · rintro ⟨hne, rfl, -⟩
      exact absurd rfl hne
  · rename_i hne
    rw [Option.some.injEq]
    exact ⟨fun h => ⟨fun hnil => hne rest (h.trans (by rw [hnil])), h⟩, fun h => h.2⟩

theorem takeQuoted_eq_some_iff : takeQuoted cs = some (word, rest) ↔
      ∃ inner, word = '"' :: inner ++ ['"'] ∧ cs = word ++ rest ∧ ∀ c ∈ inner, c ≠ '"' := by
  constructor
  · intro h
    unfold takeQuoted at h
    split at h
    · rename_i tail
      split at h
      · rename_i left hleft
        cases h
        refine ⟨tail.takeWhile (· ≠ '"'), rfl, ?_, fun c hc => by simpa using List.mem_takeWhile_imp hc⟩
        rw [List.append_assoc, List.cons_append, List.singleton_append, ← hleft, List.takeWhile_append_dropWhile]
      · cases h
    · cases h
  · rintro ⟨inner, rfl, rfl, hinner⟩
    have hsplit : (inner ++ '"' :: rest).takeWhile (· ≠ '"') = inner ∧
        (inner ++ '"' :: rest).dropWhile (· ≠ '"') = '"' :: rest :=
      takeWhile_append_eq (fun c hc => by simpa using hinner c hc)
        (fun c hc => by simpa using (Option.some.inj hc).symm)
    simp only [List.cons_append, List.append_assoc, List.nil_append, takeQuoted]
    rw [hsplit.1, hsplit.2]
    simp

namespace Pattern

/-- A lexeme of the pattern ends before this text, whatever follows later. -/
def EndsBefore : Pattern → List Char → Prop
  | identifier, after => ∀ c, after.head? = some c → isNameChar c = false
  | numeral, after => ∀ c, after.head? = some c → isAsciiDigit c = false ∧ c ≠ '.'
  | lineEnds, after => ∀ c, after.head? = some c → c ≠ '\n' ∧ c ≠ '\r'
  | blankRun, after => ∀ c, after.head? = some c → isGap c = false
  | oneOf texts, after =>
    ∀ s ∈ texts, ∀ t ∈ texts, t.toList <+: s.toList ++ after → t.toList <+: s.toList
  | _, _ => True

theorem endsBefore_nil (p : Pattern) : p.EndsBefore [] := by
  cases p <;> simp [EndsBefore]

theorem oneOf_resume {texts : List String} (h : (oneOf texts).take? cs = some (word, rest)) :
    word ∈ texts.map String.toList ∧ cs = word ++ rest ∧
      ∀ after, (oneOf texts).EndsBefore after →
        (oneOf texts).take? (word ++ after) = some (word, after) := by
  obtain ⟨before, text, behind, rfl, htext, hbefore⟩ := List.findSome?_eq_some_iff.mp h
  obtain ⟨rfl, rfl⟩ := takeLiteral_eq_some_iff.mp htext
  refine ⟨by simp, rfl, fun after hafter => ?_⟩
  refine List.findSome?_eq_some_iff.mpr ⟨before, text, behind, rfl, ?_, fun other hother => ?_⟩
  · exact takeLiteral_eq_some_iff.mpr ⟨rfl, rfl⟩
  · -- A text that is tried earlier and matches now would have matched before.
    have hmiss : ¬ other.toList <+: text.toList ++ rest := by
      have hnone := hbefore other hother
      simpa [takeLiteral] using hnone
    have hmiss' : ¬ other.toList <+: text.toList ++ after := by
      intro hstart
      have hshort := hafter text (by simp) other (by simp [hother]) hstart
      exact hmiss (hshort.trans (List.prefix_append _ _))
    simpa [takeLiteral] using hmiss'

/-- What a pattern takes stands at the front of the text, and is taken again before every text that
does not go on with it. -/
theorem take?_resume (h : p.take? cs = some (word, rest)) :
    cs = word ++ rest ∧ ∀ after, p.EndsBefore after → p.take? (word ++ after) = some (word, after) := by
  cases p with
  | identifier =>
    obtain ⟨c, tail, rfl, rfl, hletter, htail, -⟩ := takeIdentifier_eq_some_iff.mp h
    exact ⟨rfl, fun after hafter => takeIdentifier_eq_some_iff.mpr ⟨c, tail, rfl, rfl, hletter, htail, hafter⟩⟩
  | numeral => exact takeNumeral_resume h
  | lineEnds =>
    obtain ⟨hne, hrun⟩ := takeLineEnds_eq_some_iff.mp h
    have hresume := lineEndRun_resume cs
    rw [hrun] at hresume
    exact ⟨hresume.1, fun after hafter => takeLineEnds_eq_some_iff.mpr ⟨hne, hresume.2 after hafter⟩⟩
  | blankRun =>
    obtain ⟨rfl, hne, hall, -⟩ := takeRun_eq_some_iff.mp h
    exact ⟨rfl, fun after hafter => takeRun_eq_some_iff.mpr ⟨rfl, hne, hall, hafter⟩⟩
  | quotedText =>
    obtain ⟨inner, rfl, rfl, hinner⟩ := takeQuoted_eq_some_iff.mp h
    exact ⟨rfl, fun after _ => takeQuoted_eq_some_iff.mpr ⟨inner, rfl, rfl, hinner⟩⟩
  | word text =>
    obtain ⟨rfl, rfl⟩ := takeLiteral_eq_some_iff.mp h
    exact ⟨rfl, fun after _ => takeLiteral_eq_some_iff.mpr ⟨rfl, rfl⟩⟩
  | anyCase text =>
    obtain ⟨rfl, hword⟩ := takeAnyCase_eq_some_iff.mp h
    exact ⟨rfl, fun after _ => takeAnyCase_eq_some_iff.mpr ⟨rfl, hword⟩⟩
  | oneOf texts => exact (oneOf_resume h).2

theorem take?_spells (h : p.take? cs = some (word, rest)) : cs = word ++ rest ∧ p.Spells word := by
  obtain ⟨hcs, hagain⟩ := take?_resume h
  refine ⟨hcs, ?_⟩
  have hspells := hagain [] p.endsBefore_nil
  rwa [List.append_nil] at hspells

theorem Spells.take?_append {after : List Char} (h : p.Spells word)
    (hafter : p.EndsBefore after) : p.take? (word ++ after) = some (word, after) :=
  (take?_resume h).2 after hafter

/-- A pattern that does not match the empty word. -/
def isSolid : Pattern → Bool
  | .word text | .anyCase text => !text.toList.isEmpty
  | oneOf texts => texts.all fun text => !text.toList.isEmpty
  | _ => true

theorem take?_ne_nil (hsolid : p.isSolid = true)
    (h : p.take? cs = some (word, rest)) : word ≠ [] := by
  cases p with
  | identifier =>
    obtain ⟨c, tail, rfl, -⟩ := takeIdentifier_eq_some_iff.mp h
    exact List.cons_ne_nil _ _
  | numeral =>
    rintro rfl
    obtain ⟨-, hagain⟩ := takeNumeral_resume h
    cases hagain [] (by simp)
  | lineEnds => exact (takeLineEnds_eq_some_iff.mp h).1
  | blankRun => exact (takeRun_eq_some_iff.mp h).2.1
  | quotedText =>
    obtain ⟨inner, rfl, -⟩ := takeQuoted_eq_some_iff.mp h
    exact List.cons_ne_nil _ _
  | word text =>
    obtain ⟨rfl, -⟩ := takeLiteral_eq_some_iff.mp h
    simpa [isSolid] using hsolid
  | anyCase text =>
    obtain ⟨-, hword⟩ := takeAnyCase_eq_some_iff.mp h
    rintro rfl
    simp [isSolid, ← hword] at hsolid
  | oneOf texts =>
    obtain ⟨text, htext, rfl⟩ := List.mem_map.mp (oneOf_resume h).1
    simp only [isSolid, List.all_eq_true] at hsolid
    simpa using hsolid text htext

end Pattern

theorem Terminal.pattern_isSolid (t : Terminal) : t.pattern.isSolid = true := by
  cases t <;> decide

theorem Terminal.take?_ne_nil {t : Terminal}
    (h : t.pattern.take? cs = some (word, rest)) : word ≠ [] :=
  Pattern.take?_ne_nil t.pattern_isSolid h

theorem Terminal.mem_all (t : Terminal) : t ∈ Terminal.all ++ [Terminal.finish] := by
  cases t <;> decide

end FapLang.Grammar
