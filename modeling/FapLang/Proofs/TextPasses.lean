import FapLang.Proofs.CommentLines
import FapLang.Proofs.LineRules

/-!
The passes over a program text before it is checked. Preparing a text and taking its directives out
are both done after one time, and it does not matter which comes first
(`text_passes_settle_and_commute`).
-/

namespace FapLang

namespace Text

theorem trimEnd_trimEnd (cs : List Char) : trimEnd (trimEnd cs) = trimEnd cs := by
  induction cs with
  | nil => rfl
  | cons c rest ih =>
    rw [trimEnd]
    split
    · split
      · rfl
      · next hblank => rw [trimEnd, trimEnd, if_neg hblank]
    · next hkept =>
      rw [trimEnd, ih]
      split
      · next hnil => exact absurd hnil hkept
      · rfl

theorem trimStart_trimEnd (cs : List Char) : trimStart (trimEnd cs) = trimEnd (trimStart cs) := by
  unfold trimStart
  induction cs with
  | nil => rfl
  | cons c rest ih =>
    by_cases hblank : isBlank c = true
    · rw [List.dropWhile_cons_of_pos hblank, ← ih, trimEnd]
      split
      · next hnil => rw [if_pos hblank, hnil]
      · rw [List.dropWhile_cons_of_pos hblank]
    · rw [List.dropWhile_cons_of_neg hblank, trimEnd]
      split
      · rw [if_neg hblank, List.dropWhile_cons_of_neg hblank]
      · rw [List.dropWhile_cons_of_neg hblank]

theorem trim_trimEnd (cs : List Char) : trim (trimEnd cs) = trim cs := by
  rw [trim, trimStart_trimEnd, trimEnd_trimEnd, trim]

theorem dropTrailingBlanks_idem (s : String) : dropTrailingBlanks (dropTrailingBlanks s) = dropTrailingBlanks s := by
  rw [dropTrailingBlanks, dropTrailingBlanks, String.toList_ofList, trimEnd_trimEnd]

theorem dropOuterBlanks_dropTrailingBlanks (s : String) : dropOuterBlanks (dropTrailingBlanks s) = dropOuterBlanks s := by
  rw [dropOuterBlanks, dropTrailingBlanks, String.toList_ofList, trim_trimEnd, dropOuterBlanks]

end Text

namespace Check

open Text (dropTrailingBlanks dropOuterBlanks)

variable {ls : List String}

theorem LineKind.of_dropTrailingBlanks (line : String) : LineKind.of (dropTrailingBlanks line) = LineKind.of line := by
  rw [of, dropTrailingBlanks, String.toList_ofList, Text.trim_trimEnd, of]

theorem directive?_dropTrailingBlanks (line : String) : directive? (dropTrailingBlanks line) = directive? line := by
  rw [directive?, Text.dropOuterBlanks_dropTrailingBlanks, directive?]

/-- Lines of code without blanks at their ends are kept as they are. -/
theorem prepareFrom_of_code (n : Nat) (hls : ∀ line ∈ ls, LineKind.of line = .code ∧ dropTrailingBlanks line = line) :
    prepareFrom n none ls = ⟨ls, []⟩ := by
  induction ls generalizing n with
  | nil => rfl
  | cons line rest ih =>
    obtain ⟨⟨hkind, hline⟩, hrest⟩ := List.forall_mem_cons.mp hls
    simp only [prepareFrom, hkind, ih (n + 1) hrest, Prepared.keep, hline]

/-- The line that lines put together have when there are none is kept as little as none. -/
theorem lines_prepare_unlines (hls : ∀ line ∈ ls, '\n' ∉ line.toList) :
    (prepare (Text.unlines ls)).lines = keptLines false ls := by
  rw [prepare, lines_prepareFrom]
  rcases ls with _ | ⟨line, rest⟩
  · decide
  · rw [Text.lines_unlines (List.cons_ne_nil _ _) hls]
    rfl

theorem prepare_prepared (code : String) : prepare (prepare code).text = ⟨(prepare code).lines, []⟩ := by
  have hcode : ∀ line ∈ (prepare code).lines, LineKind.of line = .code ∧ dropTrailingBlanks line = line := by
    intro line hline
    rw [prepare, lines_prepareFrom] at hline
    obtain ⟨other, -, hkind, rfl⟩ := exists_of_mem_keptLines hline
    exact ⟨(LineKind.of_dropTrailingBlanks other).trans hkind, Text.dropTrailingBlanks_idem other⟩
  rcases lines_prepared code with ⟨hnone, -⟩ | ⟨-, hlines⟩
  · rw [Prepared.text, hnone]
    rfl
  · rw [prepare, hlines, prepareFrom_of_code 1 hcode]

theorem not_mem_of_mem_withoutDirectives (hls : ∀ line ∈ ls, '\n' ∉ line.toList) :
    ∀ line ∈ withoutDirectives ls, '\n' ∉ line.toList :=
  fun line hline => hls line (List.mem_filter.mp hline).1

theorem withoutDirectives_unlines (hls : ∀ line ∈ ls, '\n' ∉ line.toList) :
    Text.unlines (withoutDirectives (Text.lines (Text.unlines ls))) = Text.unlines (withoutDirectives ls) := by
  rcases ls with _ | ⟨line, rest⟩
  · decide
  · rw [Text.lines_unlines (List.cons_ne_nil _ _) hls]

theorem extractDirectives_unlines (hls : ∀ line ∈ ls, '\n' ∉ line.toList) (hnone : ∀ line ∈ ls, directive? line = none) :
    extractDirectives (Text.unlines ls) = (.quiet, Text.unlines ls) := by
  rcases ls with _ | ⟨line, rest⟩
  · rfl
  · have hlines := Text.lines_unlines (List.cons_ne_nil line rest) hls
    rw [Program.extractDirectives_quiet (by rwa [hlines]), hlines]

/-- Directives are lines of code, so they leave the comments alone. -/
theorem keptLines_withoutDirectives (inside : Bool) (ls : List String) :
    keptLines inside (withoutDirectives ls) = withoutDirectives (keptLines inside ls) := by
  unfold withoutDirectives
  induction ls generalizing inside with
  | nil => rfl
  | cons line rest ih =>
    cases hdirective : directive? line with
    | none =>
      rw [List.filter_cons_of_pos (by rw [hdirective]; rfl)]
      cases hkind : LineKind.of line <;> cases inside <;>
        simp [keptLines, hkind, ih, directive?_dropTrailingBlanks, hdirective]
    | some change =>
      have hkind : LineKind.of line = .code := by
        by_contra hne
        cases (directive?_eq_none hne).symm.trans hdirective
      rw [List.filter_cons_of_neg (by rw [hdirective]; simp)]
      cases inside <;> simp [keptLines, hkind, ih, directive?_dropTrailingBlanks, hdirective]

/-- Preparing a prepared text gives it back and records nothing, taking the directives out of a text
without directives gives it back and switches nothing on, and the two can be done in either order.
-/
theorem text_passes_settle_and_commute (c : Checker) (code : String) :
    c.prepare (c.prepare code).2 = (c, (c.prepare code).2) ∧
    extractDirectives (extractDirectives code).2 = (.quiet, (extractDirectives code).2) ∧
    (c.prepare (extractDirectives code).2).2 = (extractDirectives (c.prepare code).2).2 := by
  have hlines : ∀ line ∈ Text.lines code, '\n' ∉ line.toList := fun _ hline ↦ Text.not_mem_of_mem_lines hline
  refine ⟨?_, ?_, ?_⟩
  · simp only [Checker.prepare, prepare_prepared]
    rfl
  · refine extractDirectives_unlines (not_mem_of_mem_withoutDirectives hlines) fun line hline ↦ ?_
    exact Option.isNone_iff_eq_none.mp (List.mem_filter.mp hline).2
  · have hkept : ∀ line ∈ keptLines false _, _ := not_mem_of_mem_keptLines hlines
    simp only [Checker.prepare, extractDirectives, Prepared.text]
    rw [lines_prepare_unlines (not_mem_of_mem_withoutDirectives hlines), keptLines_withoutDirectives, prepare,
      lines_prepareFrom]
    exact (withoutDirectives_unlines hkept).symm

end Check

end FapLang
