import FapLang.Check.Prepare
import Mathlib.Data.List.Infix
import Mathlib.Data.List.TakeWhile

/-!
Occurrences of a pattern in a text (`occursIn_iff`), the blanks at its ends (`trim_eq_nil_iff`), and
its lines: put together, lines come apart again (`lines_unlines`), and the lines that are kept of a
program are never blank (`prepared_not_blank`).
-/

namespace FapLang.Text

variable {pattern cs a b : List Char} {sep c : Char}

theorem occursIn_iff : occursIn pattern cs = true ↔ pattern <:+: cs := by
  unfold occursIn
  induction cs with
  | nil =>
    rw [cutAt?, List.infix_nil]
    by_cases hempty : pattern = []
    · simp [hempty]
    · simp [hempty]
  | cons c cs ih =>
    rw [cutAt?, List.infix_cons_iff, ← List.isPrefixOf_iff_prefix, ← ih]
    by_cases hstart : pattern.isPrefixOf (c :: cs) = true
    · simp [hstart]
    · simp [hstart]

theorem contains_iff {s p : String} : contains s p = true ↔ p.toList <:+: s.toList :=
  occursIn_iff

theorem prefix_of_prefix_append_cons (hsep : sep ∉ pattern) (h : pattern <+: a ++ sep :: b) : pattern <+: a := by
  induction a generalizing pattern with
  | nil =>
    cases pattern with
    | nil => exact List.prefix_refl _
    | cons d pattern =>
      obtain ⟨rfl, -⟩ := List.cons_prefix_cons.mp h
      exact absurd (.head _) hsep
  | cons d a ih =>
    cases pattern with
    | nil => exact List.nil_prefix
    | cons e pattern =>
      obtain ⟨rfl, hrest⟩ := List.cons_prefix_cons.mp h
      exact List.cons_prefix_cons.mpr ⟨rfl, ih (fun hmem => hsep (.tail _ hmem)) hrest⟩

/-- A pattern does not reach over a character that it does not hold. -/
theorem infix_append_cons_iff (hsep : sep ∉ pattern) :
    pattern <:+: a ++ sep :: b ↔ pattern <:+: a ∨ pattern <:+: b := by
  constructor
  · intro h
    induction a with
    | nil =>
      rcases List.infix_cons_iff.mp h with hstart | hpart
      · exact .inl (prefix_of_prefix_append_cons (a := []) hsep hstart).isInfix
      · exact .inr hpart
    | cons d a ih =>
      rcases List.infix_cons_iff.mp h with hstart | hpart
      · exact .inl (prefix_of_prefix_append_cons (a := d :: a) hsep hstart).isInfix
      · exact (ih hpart).imp_left fun ha => List.infix_cons_iff.mpr (.inr ha)
  · rintro (h | h)
    · exact h.trans (List.prefix_append a (sep :: b)).isInfix
    · exact h.trans ((List.suffix_cons sep b).trans (List.suffix_append a (sep :: b))).isInfix

theorem mem_trimEnd (hc : c ∈ cs) (hblank : isBlank c = false) : c ∈ trimEnd cs := by
  induction cs with
  | nil => cases hc
  | cons d cs ih =>
    rw [trimEnd]
    rcases List.mem_cons.mp hc with rfl | hc
    · split
      · simp [hblank]
      · exact .head _
    · have hmem := ih hc
      split
      · rename_i hnil
        rw [hnil] at hmem
        cases hmem
      · exact .tail _ hmem

theorem mem_trimStart (hc : c ∈ cs) (hblank : isBlank c = false) : c ∈ trimStart cs := by
  rw [← List.takeWhile_append_dropWhile (p := isBlank) (l := cs)] at hc
  rcases List.mem_append.mp hc with hc | hc
  · exact absurd (List.mem_takeWhile_imp hc) (by simp [hblank])
  · exact hc

/-- Trimming leaves nothing of blanks, and of nothing else. -/
theorem trim_eq_nil_iff : trim cs = [] ↔ ∀ c ∈ cs, isBlank c = true := by
  constructor
  · intro h c hc
    by_contra hblank
    have hmem := mem_trimEnd (mem_trimStart hc (by simpa using hblank)) (by simpa using hblank)
    rw [trim] at h
    rw [h] at hmem
    exact List.not_mem_nil hmem
  · intro h
    have hstart : trimStart cs = [] := List.dropWhile_eq_nil_iff.mpr h
    rw [trim, hstart, trimEnd]

theorem splitAtChar_ne_nil (sep : Char) (cs : List Char) : splitAtChar sep cs ≠ [] := by
  cases cs with
  | nil => simp [splitAtChar]
  | cons c rest =>
    rw [splitAtChar]
    split
    · simp
    · split_ifs <;> simp

theorem splitAtChar_cons (sep c : Char) (rest : List Char) :
    ∃ piece pieces, splitAtChar sep rest = piece :: pieces ∧ splitAtChar sep (c :: rest) =
      if c = sep then [] :: piece :: pieces else (c :: piece) :: pieces := by
  cases hsplit : splitAtChar sep rest with
  | nil => exact absurd hsplit (splitAtChar_ne_nil sep rest)
  | cons piece pieces => exact ⟨piece, pieces, rfl, by rw [splitAtChar, hsplit]⟩

theorem not_mem_of_mem_splitAtChar {piece : List Char} (h : piece ∈ splitAtChar sep cs) : sep ∉ piece := by
  induction cs generalizing piece with
  | nil =>
    rw [splitAtChar, List.mem_singleton] at h
    simp [h]
  | cons c rest ih =>
    obtain ⟨first, others, hrest, hcons⟩ := splitAtChar_cons sep c rest
    rw [hrest] at ih
    rw [hcons] at h
    by_cases hc : c = sep
    · rw [if_pos hc, List.mem_cons] at h
      rcases h with rfl | h
      · exact List.not_mem_nil
      · exact ih h
    · rw [if_neg hc, List.mem_cons] at h
      rcases h with rfl | h
      · intro hmem
        rcases List.mem_cons.mp hmem with heq | hmem
        · exact hc heq.symm
        · exact ih (.head _) hmem
      · exact ih (.tail _ h)

theorem splitAtChar_of_not_mem (h : sep ∉ cs) : splitAtChar sep cs = [cs] := by
  induction cs with
  | nil => rfl
  | cons c rest ih =>
    obtain ⟨hc, hrest⟩ := not_or.mp (mt List.mem_cons.mpr h)
    rw [splitAtChar, ih hrest]
    exact if_neg (Ne.symm hc)

theorem splitAtChar_append_cons (h : sep ∉ cs) (rest : List Char) :
    splitAtChar sep (cs ++ sep :: rest) = cs :: splitAtChar sep rest := by
  induction cs with
  | nil =>
    obtain ⟨piece, pieces, hrest, hcons⟩ := splitAtChar_cons sep sep rest
    rw [List.nil_append, hcons, if_pos rfl, hrest]
  | cons c cs ih =>
    obtain ⟨hc, hcs⟩ := not_or.mp (mt List.mem_cons.mpr h)
    rw [List.cons_append, splitAtChar, ih hcs]
    exact if_neg (Ne.symm hc)

theorem lines_ne_nil (s : String) : lines s ≠ [] := by
  rw [lines, Ne, List.map_eq_nil_iff]
  exact splitAtChar_ne_nil _ _

theorem not_mem_of_mem_lines {s line : String} (h : line ∈ lines s) : '\n' ∉ line.toList := by
  obtain ⟨piece, hpiece, rfl⟩ := List.mem_map.mp h
  rw [String.toList_ofList]
  exact not_mem_of_mem_splitAtChar hpiece

/-- Lines that are put together come apart again. -/
theorem lines_unlines {ls : List String} (hne : ls ≠ []) (hls : ∀ line ∈ ls, '\n' ∉ line.toList) :
    lines (unlines ls) = ls := by
  have hsplit : splitAtChar '\n' (unlines ls).toList = ls.map String.toList := by
    rw [unlines, String.toList_intercalate]
    induction ls with
    | nil => exact absurd rfl hne
    | cons line rest ih =>
      obtain ⟨hline, hrest⟩ := List.forall_mem_cons.mp hls
      cases rest with
      | nil => simp [List.intercalate, splitAtChar_of_not_mem hline]
      | cons next rest =>
        rw [List.map_cons, List.map_cons, List.intercalate_cons_cons, List.append_assoc]
        have hih := ih (List.cons_ne_nil next rest) hrest
        rw [List.map_cons] at hih
        rw [show "\n".toList = ['\n'] from rfl, List.singleton_append, splitAtChar_append_cons hline]
        exact congrArg (line.toList :: ·) hih
  rw [lines, hsplit, List.map_map]
  simp

end FapLang.Text

namespace FapLang.Check

open Text

/-- The lines of code, from inside a block comment or from outside. -/
def keptLines (inside : Bool) : List String → List String
  | [] => []
  | line :: rest =>
    match LineKind.of line, inside with
    | .blockStart, _ => keptLines true rest
    | .blockEnd, _ => keptLines false rest
    | .code, false => dropTrailingBlanks line :: keptLines false rest
    | _, inside => keptLines inside rest

theorem lines_prepareFrom (n : Nat) (opened : Option Nat) (ls : List String) :
    (prepareFrom n opened ls).lines = keptLines opened.isSome ls := by
  fun_induction prepareFrom n opened ls with
  | case1 | case2 => rfl
  | _ => simp_all [keptLines, Prepared.complain, Prepared.keep]

theorem exists_of_mem_keptLines {inside : Bool} {ls : List String} {line : String} (h : line ∈ keptLines inside ls) :
    ∃ other ∈ ls, LineKind.of other = .code ∧ line = dropTrailingBlanks other := by
  have hrest : ∀ {rest first}, (∃ other ∈ rest, LineKind.of other = .code ∧ line = dropTrailingBlanks other) →
      ∃ other ∈ first :: rest, LineKind.of other = .code ∧ line = dropTrailingBlanks other :=
    fun ⟨other, hmem, hother⟩ => ⟨other, List.mem_cons_of_mem _ hmem, hother⟩
  fun_induction keptLines inside ls with
  | case1 => cases h
  | case2 | case3 | case5 => exact hrest (by tauto)
  | case4 first rest hkind ih =>
    rcases List.mem_cons.mp h with rfl | h
    · exact ⟨first, (.head _), hkind, rfl⟩
    · exact hrest (ih h)

/-- A line that is kept holds more than blanks. -/
theorem prepareFrom_not_blank (n : Nat) (opened : Option Nat) (lines : List String) :
    ∀ line ∈ (prepareFrom n opened lines).lines, ∃ c ∈ line.toList, isBlank c = false := by
  intro line hline
  rw [lines_prepareFrom] at hline
  obtain ⟨other, -, hkind, rfl⟩ := exists_of_mem_keptLines hline
  have hcode : ¬ ∀ c ∈ other.toList, isBlank c = true := by
    intro hall
    simp [LineKind.of, trim_eq_nil_iff.mpr hall] at hkind
  push Not at hcode
  obtain ⟨c, hc, hblank⟩ := hcode
  refine ⟨c, ?_, by simpa using hblank⟩
  rw [dropTrailingBlanks, String.toList_ofList]
  exact mem_trimEnd hc (by simpa using hblank)

/-- What is left of a program text is empty or holds more than blanks. -/
theorem prepared_not_blank (code : String) : (prepare code).text = "" ∨ trim (prepare code).text.toList ≠ [] := by
  cases hlines : (prepare code).lines with
  | nil =>
    left
    rw [Prepared.text, hlines]
    rfl
  | cons line rest =>
    right
    obtain ⟨c, hc, hblank⟩ := prepareFrom_not_blank 1 none (lines code) line (by
      rw [← prepare, hlines]
      exact .head _)
    rw [Ne, trim_eq_nil_iff]
    intro hall
    have hmem : c ∈ (prepare code).text.toList := by
      rw [Prepared.text, hlines, unlines, String.toList_intercalate, List.map_cons]
      cases rest <;> simp [List.intercalate, hc]
    exact absurd (hall c hmem) (by simp [hblank])

end FapLang.Check
