import FapLang.Proofs.TextPasses

/-!
The line numbers of errors. The check counts the lines that are left, so the number of an error is
that of the line it is about exactly if no line above has been taken out, and is smaller otherwise
(`line_numbers_count_left_lines`).
-/

namespace FapLang.Check

open Text (dropTrailingBlanks dropOuterBlanks)

/-- Each line that is left has a place in the text, and the lines before it are left before that
place. -/
theorem exists_split_of_left {ls : List String} {inside : Bool} {k : Nat} {kept : String}
    (h : (withoutDirectives (keptLines inside ls))[k]? = some kept) :
    ∃ before line after, ls = before ++ line :: after ∧ kept = dropTrailingBlanks line ∧
      (withoutDirectives (keptLines inside before)).length = k := by
  induction ls generalizing inside k with
  | nil => simp [keptLines, withoutDirectives] at h
  | cons first rest ih =>
    -- What the first line does to the lines after it, it does to any lines.
    have hskip : ∀ inside', (∀ more, withoutDirectives (keptLines inside (first :: more)) =
        withoutDirectives (keptLines inside' more)) → ∃ before line after, first :: rest = before ++ line :: after ∧
          kept = dropTrailingBlanks line ∧ (withoutDirectives (keptLines inside before)).length = k := by
      intro inside' hsame
      rw [hsame] at h
      obtain ⟨before, line, after, hls, hkept, hlen⟩ := ih h
      exact ⟨first :: before, line, after, congrArg (first :: ·) hls, hkept, by rw [hsame, hlen]⟩
    by_cases hcode : LineKind.of first = .code ∧ inside = false
    · obtain ⟨hkind, rfl⟩ := hcode
      have hcons : ∀ more, keptLines false (first :: more) = dropTrailingBlanks first :: keptLines false more := by
        intro more
        simp [keptLines, hkind]
      cases hdirective : directive? first with
      | some change =>
        refine hskip false fun more => ?_
        rw [hcons, withoutDirectives, List.filter_cons_of_neg (by simp [directive?_dropTrailingBlanks, hdirective])]
        rfl
      | none =>
        have hleft : ∀ more, withoutDirectives (keptLines false (first :: more)) =
            dropTrailingBlanks first :: withoutDirectives (keptLines false more) := by
          intro more
          rw [hcons, withoutDirectives, List.filter_cons_of_pos (by simp [directive?_dropTrailingBlanks, hdirective])]
          rfl
        rw [hleft] at h
        cases k with
        | zero => exact ⟨[], first, rest, rfl, by simpa using h.symm, rfl⟩
        | succ k =>
          obtain ⟨before, line, after, hls, hkept, hlen⟩ := ih h
          exact ⟨first :: before, line, after, congrArg (first :: ·) hls, hkept, by rw [hleft, List.length_cons, hlen]⟩
    · cases hkind : LineKind.of first with
      | blockStart => exact hskip true fun more => by simp [keptLines, hkind]
      | blockEnd => exact hskip false fun more => by simp [keptLines, hkind]
      | blank | comment => exact hskip inside fun more => by simp [keptLines, hkind]
      | code =>
        obtain rfl : inside = true := by
          cases inside with
          | true => rfl
          | false => exact absurd ⟨hkind, rfl⟩ hcode
        exact hskip true fun more => by simp [keptLines, hkind]

theorem length_left_le (inside : Bool) (ls : List String) :
    (withoutDirectives (keptLines inside ls)).length ≤ ls.length := by
  refine (List.length_filter_le _ _).trans ?_
  induction ls generalizing inside with
  | nil => rfl
  | cons line rest ih =>
    cases hkind : LineKind.of line <;> cases inside <;> simp [keptLines, hkind, ih, Nat.le_succ_of_le]

/-- All lines are left exactly if all are lines of code and none is a directive. -/
theorem length_left_eq_iff (ls : List String) : (withoutDirectives (keptLines false ls)).length = ls.length ↔
    ∀ line ∈ ls, LineKind.of line = .code ∧ directive? line = none := by
  induction ls with
  | nil => simp [keptLines, withoutDirectives]
  | cons line rest ih =>
    rw [List.forall_mem_cons, ← ih, List.length_cons]
    have hless := fun inside => length_left_le inside rest
    by_cases hcode : LineKind.of line = .code
    · cases hdirective : directive? line with
      | none => simp [keptLines, withoutDirectives, hcode, directive?_dropTrailingBlanks, hdirective]
      | some change =>
        have hlen := hless false
        simp only [withoutDirectives] at hlen
        simp [keptLines, withoutDirectives, hcode, directive?_dropTrailingBlanks, hdirective]
        omega
    · refine iff_of_false ?_ fun h => hcode h.1.1
      have htrue := hless true
      have hfalse := hless false
      cases hkind : LineKind.of line <;> simp [keptLines, hkind] at hcode ⊢ <;> omega

/-- A checked line that is refused is the line `original` of the text, below the lines `before`; its
error has the number after the number of lines that are left of those. That is its own number, and
the line that is quoted is this line, exactly if all lines before it are code and none is a
directive. The other errors are about comments or about brackets and quotes. -/
theorem line_numbers_count_left_lines (checker : Checker) (text : String) :
    let c : Checker := { checker with source := (Text.lines text).toArray }
    let code := (extractDirectives text).2
    (∀ e ∈ (c.check code).errors, c.Refuses code e ∨
      ∃ p ∈ (prepare code).problems ++ balanceProblems (prepare code).lines, e = c.errorAt p.line p.message) ∧
    ∀ (k : Nat) (line message : String), (prepare code).lines[k]? = some line →
      judge (dropOuterBlanks line) = .invalid message →
      c.errorAt (k + 1 : Nat) message ∈ (c.check code).errors ∧
      ∃ before original after, Text.lines text = before ++ original :: after ∧ line = dropTrailingBlanks original ∧
        k = (withoutDirectives (keptLines false before)).length ∧ k ≤ before.length ∧
        (k = before.length ↔ ∀ other ∈ before, LineKind.of other = .code ∧ directive? other = none) ∧
        (k = before.length → c.sourceLine? (k + 1 : Nat) = some line) := by
  intro c code
  have hlines : ∀ line ∈ Text.lines text, '\n' ∉ line.toList := fun _ hline ↦ Text.not_mem_of_mem_lines hline
  have hleft : (prepare code).lines = withoutDirectives (keptLines false (Text.lines text)) :=
    (lines_prepare_unlines (not_mem_of_mem_withoutDirectives hlines)).trans (keptLines_withoutDirectives false _)
  refine ⟨fun e he ↦ ?_, fun k line message hline hjudge ↦
    ⟨(c.mem_errors_check code).mpr (.inr (.inl ⟨k, line, message, hline, hjudge, rfl⟩)), ?_⟩⟩
  · rcases (c.mem_errors_check code).mp he with ⟨p, hp, he⟩ | hrefuses | ⟨-, -, -, p, hp, he⟩
    · exact .inr ⟨p, List.mem_append_left _ hp, he⟩
    · exact .inl hrefuses
    · exact .inr ⟨p, List.mem_append_right _ hp, he⟩
  · rw [hleft] at hline
    obtain ⟨before, original, after, htext, hkept, rfl⟩ := exists_split_of_left hline
    refine ⟨before, original, after, htext, hkept, rfl, length_left_le false before, length_left_eq_iff before,
      fun hall ↦ ?_⟩
    have horiginal : (Text.lines text)[before.length]? = some original := by rw [htext]; simp
    simp only [Checker.sourceLine?, c, hall]
    simp [horiginal, hkept]

/-- A line that is refused below a directive and a blank line is the fourth, and has the number of
the second. -/
theorem refused_line_has_number_of_another :
    ∃ e ∈ ((Checker.start ⟨true, false⟩ (Text.lines "@debug=true\n\nx -> 1\nfoo").toArray).check
        (extractDirectives "@debug=true\n\nx -> 1\nfoo").2).errors,
      e = Run.errorText ⟨true, false⟩ "" 2
        "Invalid statement: 'foo' - looks like a variable name but not used in assignment" ∧
      (Text.lines "@debug=true\n\nx -> 1\nfoo")[3]? = some "foo" := by
  have hline : (prepare (extractDirectives "@debug=true\n\nx -> 1\nfoo").2).lines[1]? = some "foo" := by decide +kernel
  have hjudge : judge (dropOuterBlanks "foo") =
      .invalid "Invalid statement: 'foo' - looks like a variable name but not used in assignment" := by decide +kernel
  obtain ⟨hmem, -⟩ := (line_numbers_count_left_lines (.start ⟨true, false⟩ #[]) "@debug=true\n\nx -> 1\nfoo").2
    1 "foo" _ hline hjudge
  exact ⟨_, hmem, by decide +kernel, by decide +kernel⟩

end FapLang.Check
