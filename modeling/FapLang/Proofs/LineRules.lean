import FapLang.Check.Checker
import FapLang.Proofs.Text.Pieces

/-!
What the check of a text decides. Each of its three passes adds to the list of errors if and only if
it finds something to complain about, so the list is empty exactly for the texts that keep all rules
(`check_finds_nothing_iff`).
-/

namespace FapLang.Check

open Run (Modes errorText)
open Text (dropOuterBlanks)

/-! ### Block comments -/

/-- The kinds of lines of a text with all its block comments closed by the first end after them. -/
inductive CommentsClosed : List LineKind → Prop
  | nil : CommentsClosed []
  | outside {kind : LineKind} {rest : List LineKind} (hstart : kind ≠ .blockStart) (hend : kind ≠ .blockEnd)
      (h : CommentsClosed rest) : CommentsClosed (kind :: rest)
  | comment {inner rest : List LineKind} (hinner : .blockEnd ∉ inner) (h : CommentsClosed rest) :
      CommentsClosed (.blockStart :: (inner ++ .blockEnd :: rest))

/-- The lines close the comment in which they begin, if there is one, and all others. -/
def ClosesFrom (inside : Bool) (kinds : List LineKind) : Prop :=
  if inside then ∃ inner rest, kinds = inner ++ .blockEnd :: rest ∧ .blockEnd ∉ inner ∧ CommentsClosed rest
  else CommentsClosed kinds

variable {kind : LineKind} {rest : List LineKind}

theorem not_commentsClosed_blockEnd : ¬ CommentsClosed (.blockEnd :: rest) := by
  rintro (_ | ⟨-, hend, -⟩)
  exact hend rfl

theorem commentsClosed_blockStart_iff : CommentsClosed (.blockStart :: rest) ↔ ClosesFrom true rest := by
  constructor
  · intro h
    cases h with
    | outside hstart => exact absurd rfl hstart
    | comment hinner h => exact ⟨_, _, rfl, hinner, h⟩
  · rintro ⟨inner, after, rfl, hinner, h⟩
    exact .comment hinner h

theorem commentsClosed_cons_iff (hstart : kind ≠ .blockStart) (hend : kind ≠ .blockEnd) :
    CommentsClosed (kind :: rest) ↔ CommentsClosed rest := by
  constructor
  · intro h
    cases h with
    | outside _ _ h => exact h
    | comment => exact absurd rfl hstart
  · exact .outside hstart hend

theorem closesFrom_blockEnd_iff : ClosesFrom true (.blockEnd :: rest) ↔ CommentsClosed rest := by
  constructor
  · rintro ⟨inner, after, heq, hinner, h⟩
    cases inner with
    | nil => rwa [(List.cons.inj heq).2]
    | cons first inner =>
      rw [← (List.cons.inj heq).1] at hinner
      exact absurd (.head _) hinner
  · exact fun h => ⟨[], rest, rfl, List.not_mem_nil, h⟩

theorem closesFrom_cons_iff (hend : kind ≠ .blockEnd) : ClosesFrom true (kind :: rest) ↔ ClosesFrom true rest := by
  constructor
  · rintro ⟨inner, after, heq, hinner, h⟩
    cases inner with
    | nil => exact absurd (List.cons.inj heq).1 hend
    | cons first inner => exact ⟨inner, after, (List.cons.inj heq).2, fun hmem => hinner (.tail _ hmem), h⟩
  · rintro ⟨inner, after, rfl, hinner, h⟩
    refine ⟨kind :: inner, after, rfl, fun hmem => ?_, h⟩
    rcases List.mem_cons.mp hmem with heq | hmem
    · exact hend heq.symm
    · exact hinner hmem

theorem problems_prepareFrom_eq_nil_iff (n : Nat) (opened : Option Nat) (ls : List String) :
    (prepareFrom n opened ls).problems = [] ↔ ClosesFrom opened.isSome (ls.map LineKind.of) := by
  fun_induction prepareFrom n opened ls with
  | case1 => exact iff_of_true rfl .nil
  | case2 =>
    refine iff_of_false (List.cons_ne_nil _ _) ?_
    rintro ⟨inner, after, heq, -, -⟩
    exact List.append_ne_nil_of_right_ne_nil inner (List.cons_ne_nil _ _) heq.symm
  | case3 n opened line rest hkind ih | case4 n opened line rest hkind ih =>
    rw [ih, List.map_cons, hkind]
    cases opened with
    | none => exact (commentsClosed_cons_iff (by decide) (by decide)).symm
    | some start => exact (closesFrom_cons_iff (by decide)).symm
  | case5 n line rest hkind ih =>
    rw [ih, List.map_cons, hkind]
    exact commentsClosed_blockStart_iff.symm
  | case6 n line rest start hkind ih =>
    rw [ih, List.map_cons, hkind]
    exact closesFrom_blockEnd_iff.symm
  | case7 n line rest hkind ih =>
    rw [List.map_cons, hkind]
    exact iff_of_false (List.cons_ne_nil _ _) not_commentsClosed_blockEnd
  | case8 n line rest hkind ih =>
    rw [List.map_cons, hkind]
    exact ih.trans (commentsClosed_cons_iff (by decide) (by decide)).symm
  | case9 n line rest start hkind ih | case10 n line rest start hkind ih =>
    rw [ih, List.map_cons, hkind]
    exact (closesFrom_cons_iff (by decide)).symm

/-! ### The list of errors -/

namespace Checker

variable (c : Checker) {e : String}

variable (line : Int) (n : Nat)

variable (message : String) (text : String) (ls : List String)

theorem errors_note : (c.note line message).errors = c.errors := by
  unfold note
  split <;> rfl

/-- What the texts of errors depend on: the trace modes and the source. -/
def frame : Modes × Array String :=
  (c.modes, c.source)

theorem frame_note : (c.note line message).frame = c.frame := by
  unfold note
  split <;> rfl

theorem frame_report : (c.report line message).frame = c.frame := by
  unfold report
  dsimp only
  split <;> rfl

/-- The error with a message that is recorded for a line number. -/
def errorAt (line : Int) (message : String) : String :=
  Run.errorText c.modes ((c.sourceLine? line).getD "") line message

variable {c} in
theorem errorAt_congr {d : Checker} (h : d.frame = c.frame) : d.errorAt = c.errorAt := by
  have hmodes : d.modes = c.modes := congrArg Prod.fst h
  have hsource : d.source = c.source := congrArg Prod.snd h
  funext line message
  rw [errorAt, errorAt, sourceLine?, sourceLine?, hmodes, hsource]

theorem mem_errors_report :
    e ∈ (c.report line message).errors ↔ e ∈ c.errors ∨ e = c.errorAt line message := by
  unfold report
  dsimp only
  rw [← errorAt]
  split
  · next hold =>
    refine (or_iff_left_of_imp ?_).symm
    rintro rfl
    exact List.contains_iff_mem.mp hold
  · rw [List.mem_append, List.mem_singleton]

/-- An error that is reported is in the list afterwards, after those that were there. -/
theorem errors_report :
    ∃ content, errorText c.modes content line message ∈ (c.report line message).errors ∧
      ((c.report line message).errors = c.errors ∨
        (c.report line message).errors = c.errors ++ [errorText c.modes content line message]) := by
  refine ⟨(c.sourceLine? line).getD "", ?_⟩
  unfold report
  dsimp only
  split
  · rename_i hmem
    exact ⟨List.contains_iff_mem.mp hmem, .inl rfl⟩
  · exact ⟨List.mem_append_right _ (List.mem_singleton_self _), .inr rfl⟩

theorem frame_reportAll (problems : List Problem) : (c.reportAll problems).frame = c.frame := by
  induction problems generalizing c with
  | nil => rfl
  | cons problem rest ih => exact (ih _).trans (c.frame_report _ _)

theorem mem_errors_reportAll (problems : List Problem) :
    e ∈ (c.reportAll problems).errors ↔ e ∈ c.errors ∨ ∃ p ∈ problems, e = c.errorAt p.line p.message := by
  induction problems generalizing c with
  | nil => simp [reportAll]
  | cons problem rest ih =>
    have hrest := ih (c.report problem.line problem.message)
    rw [errorAt_congr (c.frame_report _ _), mem_errors_report, or_assoc] at hrest
    rw [List.exists_mem_cons_iff]
    exact hrest

/-! ### Lines -/

theorem checkLine_snd : (c.checkLine line text).2 = (judge text).isValid := by
  unfold checkLine
  cases judge text with
  | valid what => rfl
  | invalid message => rfl

theorem forall_checkLine_iff :
    (∀ (d : Checker) (line : Int), (d.checkLine line text).2 = true) ↔ (judge text).isValid = true := by
  simp only [checkLine_snd]
  exact ⟨fun h => h (start .quiet #[]) 0, fun h _ _ => h⟩

theorem frame_checkLine : (c.checkLine line text).1.frame = c.frame := by
  unfold checkLine
  cases judge text with
  | valid what => exact (frame_note _ _ _).trans (c.frame_note _ _)
  | invalid message => exact (frame_report _ _ _).trans (c.frame_note _ _)

theorem errors_checkLine_of_valid {line : Int} {text : String} (h : (c.checkLine line text).2 = true) :
    (c.checkLine line text).1.errors = c.errors := by
  rw [checkLine_snd] at h
  unfold checkLine
  cases hjudge : judge text with
  | valid what => exact (errors_note _ _ _).trans (c.errors_note _ _)
  | invalid message =>
    rw [hjudge] at h
    cases h

/-- The error of a line that is refused is in the list afterwards. -/
theorem errors_checkLine_of_invalid {line : Int} {text : String} (h : (c.checkLine line text).2 = false) :
    ∃ content message, errorText c.modes content line message ∈ (c.checkLine line text).1.errors ∧
      ((c.checkLine line text).1.errors = c.errors ∨
        (c.checkLine line text).1.errors = c.errors ++ [errorText c.modes content line message]) := by
  rw [checkLine_snd] at h
  unfold checkLine
  cases hjudge : judge text with
  | valid what =>
    rw [hjudge] at h
    cases h.symm
  | invalid message =>
    obtain ⟨content, herror⟩ := (c.note line ("Checking syntax: " ++ text)).errors_report line message
    rw [show (c.note _ _).modes = c.modes from congrArg Prod.fst (c.frame_note _ _), errors_note] at herror
    exact ⟨content, message, herror⟩

theorem errors_checkLine_eq_nil_iff :
    (c.checkLine line text).1.errors = [] ↔ c.errors = [] ∧ (c.checkLine line text).2 = true := by
  cases hvalid : (c.checkLine line text).2 with
  | true => rw [c.errors_checkLine_of_valid hvalid, and_iff_left rfl]
  | false =>
    obtain ⟨_, _, hmem, -⟩ := c.errors_checkLine_of_invalid hvalid
    exact iff_of_false (List.ne_nil_of_mem hmem) fun h => Bool.false_ne_true h.2

theorem mem_errors_checkLine : e ∈ (c.checkLine line text).1.errors ↔
      e ∈ c.errors ∨ ∃ message, judge text = .invalid message ∧ e = c.errorAt line message := by
  unfold checkLine
  cases judge text with
  | valid what => simp [errors_note]
  | invalid message => simp [mem_errors_report, errors_note, errorAt_congr (c.frame_note _ _)]

theorem frame_checkLines : (c.checkLines n ls).frame = c.frame := by
  induction ls generalizing c n with
  | nil => rfl
  | cons line rest ih =>
    rw [checkLines, ih]
    split
    · exact c.frame_note _ _
    · exact (frame_checkLine _ _ _).trans (c.frame_note _ _)

/-- Among lines that are not blank, the error of a refused line has the number of the line. -/
theorem mem_errors_checkLines {ls : List String} (hls : ∀ line ∈ ls, dropOuterBlanks line ≠ "") :
    e ∈ (c.checkLines n ls).errors ↔ e ∈ c.errors ∨ ∃ (k : Nat) (line message : String), ls[k]? = some line ∧
      judge (dropOuterBlanks line) = .invalid message ∧ e = c.errorAt (k + n : Nat) message := by
  induction ls generalizing c n with
  | nil => simp [checkLines]
  | cons first rest ih =>
    obtain ⟨hfirst, hrest⟩ := List.forall_mem_cons.mp hls
    have hfull : (dropOuterBlanks first).isEmpty = false :=
      Bool.eq_false_iff.mpr fun h => hfirst (String.isEmpty_iff.mp h)
    have hframe := (frame_checkLine (c.note n "Processing line") n (dropOuterBlanks first)).trans (c.frame_note _ _)
    rw [checkLines, hfull, if_neg Bool.false_ne_true, ih _ _ hrest, mem_errors_checkLine, errorAt_congr hframe,
      errorAt_congr (c.frame_note _ _), errors_note, or_assoc]
    refine or_congr_right ⟨?_, ?_⟩
    · rintro (⟨message, hjudge, he⟩ | ⟨k, line, message, hline, hjudge, he⟩)
      · exact ⟨0, first, message, rfl, hjudge, by rwa [Nat.zero_add]⟩
      · exact ⟨k + 1, line, message, hline, hjudge, by rwa [Nat.add_right_comm]⟩
    · rintro ⟨k, line, message, hline, hjudge, he⟩
      cases k with
      | zero =>
        obtain rfl : first = line := by simpa using hline
        exact .inl ⟨message, hjudge, by rwa [Nat.zero_add] at he⟩
      | succ k => exact .inr ⟨k, line, message, hline, hjudge, by rwa [Nat.add_right_comm] at he⟩

/-! ### Brackets and quotes -/

theorem errors_noteLines : (c.noteLines n ls).errors = c.errors := by
  induction ls generalizing c n with
  | nil => rfl
  | cons line rest ih =>
    rw [noteLines, ih]
    split
    · rfl
    · exact c.errors_note _ _

theorem frame_noteLines : (c.noteLines n ls).frame = c.frame := by
  induction ls generalizing c n with
  | nil => rfl
  | cons line rest ih =>
    rw [noteLines, ih]
    split
    · rfl
    · exact c.frame_note _ _

theorem mem_errors_checkBalance : e ∈ (c.checkBalance ls).errors ↔
    e ∈ c.errors ∨ c.modes.full = true ∧ ∃ p ∈ balanceProblems ls, e = c.errorAt p.line p.message := by
  unfold checkBalance
  cases c.modes.full with
  | true =>
    rw [if_pos rfl, mem_errors_reportAll, errors_noteLines, errorAt_congr (c.frame_noteLines _ _), and_iff_right rfl]
  | false => simp

theorem errors_checkBalance_eq_nil_iff :
    (c.checkBalance ls).errors = [] ↔ c.errors = [] ∧ (c.modes.full = true → balanceProblems ls = []) := by
  simp only [List.eq_nil_iff_forall_not_mem, mem_errors_checkBalance, not_or, not_and, not_exists]
  exact ⟨fun h => ⟨fun e => (h e).1, fun hfull p hp => (h _).2 hfull p hp rfl⟩,
    fun h e => ⟨h.1 e, fun hfull p hp => absurd hp (h.2 hfull p)⟩⟩

/-- The error is that of a checked line which is refused. -/
def Refuses (code e : String) : Prop :=
  ∃ (k : Nat) (line message : String), (Check.prepare code).lines[k]? = some line ∧
    judge (dropOuterBlanks line) = .invalid message ∧ e = c.errorAt (k + 1 : Nat) message

end Checker

/-! ### Whole texts -/

theorem dropOuterBlanks_ne_empty {code line : String} (h : line ∈ (prepare code).lines) :
    dropOuterBlanks line ≠ "" := by
  obtain ⟨c, hc, hblank⟩ := prepareFrom_not_blank 1 none (Text.lines code) line h
  intro hempty
  have htrim : Text.trim line.toList = [] := by
    rw [dropOuterBlanks] at hempty
    exact String.ofList_eq_empty_iff.mp hempty
  exact absurd (Text.trim_eq_nil_iff.mp htrim c hc) (ne_true_of_eq_false hblank)

theorem not_mem_trimEnd {cs : List Char} {c : Char} (h : c ∉ cs) : c ∉ Text.trimEnd cs := by
  induction cs with
  | nil => exact List.not_mem_nil
  | cons d rest ih =>
    obtain ⟨hd, hrest⟩ := not_or.mp (mt List.mem_cons.mpr h)
    unfold Text.trimEnd
    split
    · split
      · exact List.not_mem_nil
      · exact fun hmem => hd (List.mem_singleton.mp hmem)
    · exact fun hmem => (List.mem_cons.mp hmem).elim hd (ih hrest)

/-- The lines that are kept are lines. -/
theorem not_mem_of_mem_keptLines {inside : Bool} {ls : List String} (hls : ∀ line ∈ ls, '\n' ∉ line.toList) :
    ∀ line ∈ keptLines inside ls, '\n' ∉ line.toList := by
  intro line hline
  obtain ⟨other, hother, -, rfl⟩ := exists_of_mem_keptLines hline
  rw [Text.dropTrailingBlanks, String.toList_ofList]
  exact not_mem_trimEnd (hls other hother)

/-- The prepared text is blank if no line is kept; otherwise its lines are those that are kept. -/
theorem lines_prepared (code : String) :
    ((prepare code).lines = [] ∧ (Text.trim (prepare code).text.toList).isEmpty = true) ∨
      (Text.trim (prepare code).text.toList).isEmpty = false ∧
        Text.lines (prepare code).text = (prepare code).lines := by
  rcases hlines : (prepare code).lines with _ | ⟨line, rest⟩
  · exact .inl ⟨rfl, by rw [Prepared.text, hlines]; rfl⟩
  · have hkept : ∀ kept ∈ (prepare code).lines, '\n' ∉ kept.toList := by
      rw [prepare, lines_prepareFrom]
      exact not_mem_of_mem_keptLines fun _ h => Text.not_mem_of_mem_lines h
    have htext : Text.lines (prepare code).text = line :: rest := by
      rw [Prepared.text, Text.lines_unlines (by rw [hlines]; exact List.cons_ne_nil _ _) hkept, hlines]
    refine .inr ⟨?_, htext⟩
    rcases prepared_not_blank code with hempty | htrim
    · rw [hempty] at htext
      have hline : line = "" := (List.cons.inj htext).1.symm
      have hmem : line ∈ (prepare code).lines := hlines ▸ (.head _)
      exact absurd (by rw [hline]; rfl) (dropOuterBlanks_ne_empty hmem)
    · rwa [List.isEmpty_eq_false_iff]

namespace Checker

variable (c : Checker) {e : String}

/-- The errors of a check are about block comments, about refused lines, or else about brackets and
quotes. -/
theorem mem_errors_check (code : String) : e ∈ (c.check code).errors ↔
    (∃ p ∈ (Check.prepare code).problems, e = c.errorAt p.line p.message) ∨ c.Refuses code e ∨
      ((∀ other, ¬ c.Refuses code other) ∧ (Check.prepare code).problems = [] ∧ c.modes.full = true ∧
        ∃ p ∈ balanceProblems (Check.prepare code).lines, e = c.errorAt p.line p.message) := by
  have hprepared : ({ c with errors := [], notes := [] }.reportAll (Check.prepare code).problems).frame = c.frame :=
    frame_reportAll _ _
  have hcomments : ∀ e, e ∈ ({ c with errors := [], notes := [] }.reportAll (Check.prepare code).problems).errors ↔
      ∃ p ∈ (Check.prepare code).problems, e = c.errorAt p.line p.message := by
    intro e
    rw [mem_errors_reportAll, or_iff_right List.not_mem_nil]
    rfl
  unfold check prepare
  dsimp only
  generalize ({ c with errors := [], notes := [] } : Checker).reportAll (Check.prepare code).problems = prepared at *
  have hfilled : ∀ line ∈ (Check.prepare code).lines, dropOuterBlanks line ≠ "" :=
    fun _ hline => dropOuterBlanks_ne_empty hline
  have hlines : ∀ e, e ∈ (prepared.checkLines 1 (Check.prepare code).lines).errors ↔
      e ∈ prepared.errors ∨ c.Refuses code e := by
    intro e
    rw [prepared.mem_errors_checkLines 1 hfilled, errorAt_congr hprepared]
    rfl
  have hchecked := (prepared.frame_checkLines 1 (Check.prepare code).lines).trans hprepared
  rcases lines_prepared code with ⟨hnone, hblank⟩ | ⟨hfull, htext⟩
  · have hrefuses : ∀ other, ¬ c.Refuses code other := by
      rintro other ⟨k, line, message, hline, -⟩
      rw [hnone] at hline
      cases hline
    have hbalance : balanceProblems (Check.prepare code).lines = [] := by rw [hnone]; rfl
    rw [if_pos hblank, hcomments, hbalance]
    simp [hrefuses]
  · rw [hfull, if_neg Bool.false_ne_true, htext]
    generalize prepared.checkLines 1 (Check.prepare code).lines = checked at *
    have hmodes : checked.modes = c.modes := congrArg Prod.fst hchecked
    have hempty : checked.errors.isEmpty = true ↔
        (∀ other, ¬ c.Refuses code other) ∧ (Check.prepare code).problems = [] := by
      rw [List.isEmpty_iff, List.eq_nil_iff_forall_not_mem, List.eq_nil_iff_forall_not_mem]
      simp only [hlines, hcomments, not_or, not_exists, not_and]
      exact ⟨fun h => ⟨fun other => (h other).2, fun p hp => (h _).1 p hp rfl⟩,
        fun h other => ⟨fun p hp => absurd hp (h.2 p), h.1 other⟩⟩
    by_cases h : checked.errors.isEmpty = true
    · rw [if_pos h, mem_errors_checkBalance, hmodes, errorAt_congr hchecked, hlines, hcomments, or_assoc,
        and_iff_right (hempty.mp h).1, and_iff_right (hempty.mp h).2]
    · rw [if_neg h, hlines, hcomments]
      exact or_congr_right (or_iff_left fun hlast => mt hempty.mpr h ⟨hlast.1, hlast.2.1⟩).symm

end Checker

/-- The list is empty at the end if none of the three passes finds anything. -/
theorem errors_check_eq_nil_iff (c : Checker) (code : String) : (c.check code).errors = [] ↔
      CommentsClosed ((Text.lines code).map LineKind.of) ∧
      (∀ line ∈ (prepare code).lines, (judge (dropOuterBlanks line)).isValid = true) ∧
      (c.modes.full = true → balanceProblems (prepare code).lines = []) := by
  have hcomments : (prepare code).problems = [] ↔ CommentsClosed ((Text.lines code).map LineKind.of) :=
    problems_prepareFrom_eq_nil_iff 1 none (Text.lines code)
  have hlines : (∀ e, ¬ c.Refuses code e) ↔
      ∀ line ∈ (prepare code).lines, (judge (dropOuterBlanks line)).isValid = true := by
    constructor
    · intro h line hline
      cases hjudge : judge (dropOuterBlanks line) with
      | valid what => rfl
      | invalid message =>
        obtain ⟨k, hk⟩ := List.getElem?_of_mem hline
        exact absurd ⟨k, line, message, hk, hjudge, rfl⟩ (h _)
    · rintro h e ⟨k, line, message, hk, hjudge, -⟩
      have hvalid := h line (List.mem_of_getElem? hk)
      rw [hjudge] at hvalid
      cases hvalid
  rw [List.eq_nil_iff_forall_not_mem, ← hcomments, ← hlines]
  simp only [Checker.mem_errors_check, not_or]
  constructor
  · intro h
    have hnone : (prepare code).problems = [] := List.eq_nil_iff_forall_not_mem.mpr fun p hp => (h _).1 ⟨p, hp, rfl⟩
    have hrefuses := fun e => (h e).2.1
    refine ⟨hnone, hrefuses, fun hfull => List.eq_nil_iff_forall_not_mem.mpr fun p hp => ?_⟩
    exact (h _).2.2 ⟨hrefuses, hnone, hfull, p, hp, rfl⟩
  · rintro ⟨hnone, hrefuses, hbalance⟩ e
    refine ⟨?_, hrefuses e, ?_⟩
    · rintro ⟨p, hp, -⟩
      rw [hnone] at hp
      cases hp
    · rintro ⟨-, -, hfull, p, hp, -⟩
      rw [hbalance hfull] at hp
      cases hp

/-- A text passes the check, whatever the checker has recorded before, if and only if its block
comments are closed and close one, every line that is left is valid, and, in the full trace mode,
the scan for brackets and quotes finds nothing. A line is invalid exactly if an error is recorded
for it: then its error is in the list, new or not, and otherwise the list stays as it is. -/
theorem check_finds_nothing_iff (c : Checker) (code : String) :
    ((c.check code).errors = [] ↔
      CommentsClosed ((Text.lines code).map LineKind.of) ∧
      (∀ line ∈ (prepare code).lines, ∀ (d : Checker) (n : Int),
        (d.checkLine n (Text.dropOuterBlanks line)).2 = true) ∧
      (c.modes.full = true → balanceProblems (prepare code).lines = [])) ∧
    ∀ (n : Int) (line : String),
      ((c.checkLine n line).2 = false ↔ ({ c with errors := [] }.checkLine n line).1.errors ≠ []) ∧
      ((c.checkLine n line).2 = true → (c.checkLine n line).1.errors = c.errors) ∧
      ((c.checkLine n line).2 = false → ∃ content message,
        errorText c.modes content n message ∈ (c.checkLine n line).1.errors ∧
        ((c.checkLine n line).1.errors = c.errors ∨
          (c.checkLine n line).1.errors = c.errors ++ [errorText c.modes content n message])) := by
  refine ⟨?_, fun n line ↦ ⟨?_, c.errors_checkLine_of_valid, c.errors_checkLine_of_invalid⟩⟩
  · simp only [Checker.forall_checkLine_iff]
    exact errors_check_eq_nil_iff c code
  · rw [Ne, Checker.errors_checkLine_eq_nil_iff, and_iff_right rfl, Checker.checkLine_snd, Checker.checkLine_snd,
      Bool.not_eq_true]

/-- A comment line may stand in a block comment, and a start of one too. -/
example : CommentsClosed (["x -> 1", "#X", "@None y", "#X z", "#Y"].map LineKind.of) :=
  .outside (by decide) (by decide) (@CommentsClosed.comment [.comment, .blockStart] [] (by decide) .nil)

end FapLang.Check
