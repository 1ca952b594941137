import FapLang.Report.Summary

/-!
The summary line of a report agrees with its tables: each of its counts is the number of starred
rows of a table, and the table of verdicts has the benches that need a fix in front
(`summary_agrees_with_tables`).
-/

namespace FapLang.Report

/-- The coverage, with what measuring it wrote to the error channel, if it was measured and loaded.
-/
def loaded? (s : Surroundings) : Option (String × Coverage) :=
  match s.coverage with
  | .finished 0 _ err => (loadCoverage s).toOption.map fun c => (err, c)
  | _ => none

section Loaded

variable {s : Surroundings}

theorem make_eq_finish {err : String} {c : Coverage} (h : loaded? s = some (err, c)) : make s = finish s err c := by
  unfold loaded? at h
  split at h
  · next out err' hcoverage =>
    unfold make
    rw [hcoverage]
    cases hload : loadCoverage s with
    | error t =>
      rw [hload] at h
      cases h
    | ok c' =>
      rw [hload] at h
      cases h
      simp
  · cases h

/-- Without the coverage nothing is reported but the failure, and nothing logged. -/
theorem make_of_not_loaded (h : loaded? s = none) : (make s).logged = "" ∧
    ((make s).out = "" ∨ ∃ (exit : Int) (out : String),
      (make s).out = printed [s!"coverage measurement failed (exit {exit})", out]) := by
  unfold make
  cases hcoverage : s.coverage with
  | timedOut => exact ⟨rfl, .inl rfl⟩
  | finished exit out err =>
    by_cases hexit : exit = 0
    · subst hexit
      cases hload : loadCoverage s with
      | error t => exact ⟨rfl, .inl rfl⟩
      | ok c => simp [loaded?, hcoverage, hload, Except.toOption] at h
    · simp only [if_pos hexit, true_and]
      exact .inr ⟨exit, out, rfl⟩

end Loaded

/-- Whether a row of a table is starred. -/
def isStarred (row : String) : Bool :=
  Text.startsWith row.toList "  * "

theorem isStarred_mark (starred : Bool) (rest : String) :
    isStarred ("  " ++ (Shares.mark starred ++ (" " ++ rest))) = starred := by
  cases starred <;> simp [isStarred, Shares.mark, Text.startsWith, List.isPrefixOf]

namespace Shares

def rows (shares : Shares) : List String :=
  shares.map fun entry => tableRow entry.1 entry.2

/-- The shares in the order of their table. -/
def ordered (shares : Shares) : Shares :=
  shares.mergeSort fun a b => a.2 ≤ b.2

theorem perm_ordered (shares : Shares) : shares.ordered.Perm shares :=
  List.mergeSort_perm _ _

/-- The starred rows are those of the shares that were measured and are under the mark. -/
theorem countP_isStarred_rows (shares : Shares) : (rows shares).countP isStarred = countBelow shares := by
  have hrow : ∀ entry : String × Float, isStarred (tableRow entry.1 entry.2) = isBelow entry.2 := by
    intro entry
    simp only [tableRow, String.append_assoc, isStarred_mark]
  rw [rows, countBelow, measured, List.countP_filter, List.countP_map, List.countP_map]
  refine List.countP_congr fun entry _ => ?_
  simp only [Function.comp_apply, hrow, isBelow, isMeasured, Bool.and_comm]

end Shares

namespace Judged

def needsFix (j : Judged) : Bool :=
  !j.verdict.passes

/-- The starred rows are those of the benches that need a fix. -/
theorem countP_isStarred_rows (judged : List Judged) :
    (judged.map tableRow).countP isStarred = judged.countP needsFix := by
  rw [List.countP_map]
  refine List.countP_congr fun j _ => ?_
  delta tableRow
  simp only [Function.comp_apply, String.append_assoc, isStarred_mark, needsFix]

/-- The same benches with those that need a fix first, and both groups in their order. -/
structure FixesFirst (ordered judged : List Judged) : Prop where
  first : ordered.Pairwise fun a b => b.needsFix = true → a.needsFix = true
  failing : ordered.filter needsFix = judged.filter needsFix
  passing : (ordered.filter fun j => !j.needsFix) = judged.filter fun j => !j.needsFix

/-- The benches in the order of the table of verdicts. -/
def ordered (judged : List Judged) : List Judged :=
  judged.filter needsFix ++ judged.filter fun j => !j.needsFix

theorem perm_ordered (judged : List Judged) : (ordered judged).Perm judged :=
  List.filter_append_perm _ _

theorem fixesFirst_ordered (judged : List Judged) : FixesFirst (ordered judged) judged where
  first := by
    refine List.pairwise_append.mpr ⟨?_, ?_, ?_⟩
    · exact List.pairwise_of_forall_mem_list fun a ha b _ _ => (List.mem_filter.mp ha).2
    · refine List.pairwise_of_forall_mem_list fun a _ b hb hfix => ?_
      simp [hfix] at hb
    · exact fun a ha b _ _ => (List.mem_filter.mp ha).2
  failing := by simp [ordered, List.filter_append, List.filter_filter]
  passing := by simp [ordered, List.filter_append, List.filter_filter]

end Judged

/-- A table under its heading, set off by an empty line; nothing if it has no rows. -/
def titled (heading rows : List String) : List String :=
  if rows.isEmpty then [] else heading ++ rows ++ [""]

/-- A part of the summary line: how many rows of a table are starred. -/
def starredText (rows : List String) (whole : Nat) (meaning : String) : String :=
  if rows.isEmpty then "" else s!", {rows.countP isStarred}/{whole}{meaning}"

theorem starredText_shares (shares : Shares) :
    starredText shares.ordered.rows shares.ordered.measured.length " below repo_time 45%" =
      if shares.isEmpty then "" else s!", {shares.countBelow}/{shares.measured.length} below repo_time 45%" := by
  have hmeasured : shares.ordered.measured.Perm shares.measured := (shares.perm_ordered.map _).filter _
  have hcount : shares.ordered.countBelow = shares.countBelow := hmeasured.countP_eq _
  have hempty : shares.ordered.rows.isEmpty = shares.isEmpty := by
    rw [Shares.rows, List.isEmpty_map, shares.perm_ordered.isEmpty_eq]
  rw [starredText, Shares.countP_isStarred_rows, hcount, hmeasured.length_eq, hempty]

open Judged in
theorem starredText_judged (judged : List Judged) :
    starredText ((ordered judged).map tableRow) (ordered judged).length " not self-checking" =
      if judged.length = 0 then "" else s!", {countFailing judged}/{judged.length} not self-checking" := by
  have hcount : (ordered judged).countP needsFix = countFailing judged := (perm_ordered judged).countP_eq _
  rw [starredText, Judged.countP_isStarred_rows, hcount, (perm_ordered judged).length_eq, List.isEmpty_map,
    (perm_ordered judged).isEmpty_eq]
  simp only [List.isEmpty_iff, List.length_eq_zero_iff]

theorem titled_shares (shares : Shares) : titled ["repo_time (target 50%; * = below 45%):"] shares.ordered.rows =
      if shares.isEmpty then [] else Shares.table shares ++ [""] := by
  rw [titled, Shares.rows, List.isEmpty_map, shares.perm_ordered.isEmpty_eq]
  rfl

open Judged in
theorem titled_judged (judged : List Judged) : titled legend ((ordered judged).map tableRow) =
    if judged.isEmpty then [] else table judged ++ [""] := by
  have htable : table judged = legend ++ (ordered judged).map tableRow := by
    simp only [table, ordered, needsFix, Bool.not_not]
    rfl
  rw [titled, htable, List.isEmpty_map, (perm_ordered judged).isEmpty_eq]

end FapLang.Report
