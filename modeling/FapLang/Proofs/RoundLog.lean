import FapLang.Proofs.Json.Reading
import FapLang.Proofs.ReportTables
import FapLang.Proofs.Text.Pieces

/-!
The log of rounds numbers its rounds. Reports are made one after the other, each with the log that those before
it left; one that gets as far as the coverage adds one line, and finds the counts of the lines before
(`log_numbers_its_rounds`).
-/

namespace FapLang.Report

open Json

/-! ### Lines of the log -/

theorem Round.exists_toJson? {r : Round} (hnumber : Number.isWritable r.number = true)
    (hbenches : Number.isWritable r.benches = true) (herrors : Number.isWritable r.benchErrors = true)
    (hbelow : ∀ n ∈ r.below, Number.isWritable (n : Nat) = true) (hfailing : Number.isWritable r.failing = true) :
    ∃ j, r.toJson? = some j := by
  have hcount : ∀ {n : Nat} (h : Number.isWritable n = true), ofNat? n = some (.int ⟨n, h⟩) := fun h ↦ dif_pos h
  obtain ⟨below, hbelow⟩ : ∃ j, belowJson? r.below = some j := by
    cases hsome : r.below with
    | none => exact ⟨_, rfl⟩
    | some n => exact ⟨_, hcount (hbelow n hsome)⟩
  simp [toJson?, hcount hnumber, hcount hbenches, hcount herrors, hbelow, hcount hfailing]

/-- A round that can be written. -/
structure Entry where
  round : Round
  json : Json
  written : round.toJson? = some json

namespace Entry

variable (e : Entry)

def text : String :=
  e.json.render

theorem line_eq : e.round.line = e.text ++ "\n" := by
  rw [Round.line, e.written]
  rfl

theorem newline_not_mem_text : '\n' ∉ e.text.toList := by
  intro hmem
  rw [text, Json.render, String.toList_ofList] at hmem
  exact absurd (plain_write _ _ hmem) (by decide)

/-- The document of a round has its count, and its time. -/
theorem exists_fields : ∃ fields, e.json = .object fields ∧
    ∃ below : Json, (rereadFields [] fields).get? "n_below_repo_time" = some below ∧
      History.belowOf? below = e.round.below.map Int.ofNat ∧
      (rereadFields [] fields).get? "ts" = some (.float (readBack e.round.time)) := by
  obtain ⟨r, j, hj⟩ := e
  simp only [Round.toJson?, bind, Option.bind_eq_some_iff, pure, Option.some.injEq] at hj
  obtain ⟨number, -, benches, -, errors, -, below, hbelow, failing, -, rfl⟩ := hj
  refine ⟨_, rfl, below.reread, ?_, ?_, ?_⟩
  · simp [rereadFields, Run.Table.insert, Run.Table.get?, List.lookup_cons]
  · cases hcount : r.below with
    | none =>
      rw [hcount] at hbelow
      cases hbelow
      rfl
    | some n =>
      rw [hcount, Round.belowJson?, ofNat?] at hbelow
      split at hbelow <;> cases hbelow
      rfl
  · simp [rereadFields, Run.Table.insert, Run.Table.get?, List.lookup_cons, reread]

theorem text_not_blank : (e.text.toList.any fun c ↦ !Text.isBlank c) = true := by
  obtain ⟨fields, hjson, -⟩ := e.exists_fields
  rw [text, hjson, Json.render, String.toList_ofList, Json.write, List.cons_append, List.any_cons]
  rfl

theorem roundLines_line (rest : String) :
    History.roundLines (e.round.line ++ rest) = e.text :: History.roundLines rest := by
  have hlist : (e.round.line ++ rest).toList = e.text.toList ++ '\n' :: rest.toList := by
    simp [line_eq]
  rw [History.roundLines, Text.lines, hlist, Text.splitAtChar_append_cons e.newline_not_mem_text, List.map_cons,
    String.ofList_toList, List.filter_cons, if_pos e.text_not_blank]
  rfl

/-- A later round finds the count of a round in its line. -/
theorem exists_addLine (h : History) :
    ∃ time, h.addLine e.text = .ok ⟨h.below ++ (e.round.below.map Int.ofNat).toList, time⟩ := by
  obtain ⟨fields, hjson, below, hbelow, hcount, htime⟩ := e.exists_fields
  have hread : readJson e.text = .ok (.object (rereadFields [] fields)) := by
    rw [readJson, text, hjson, parse_render]
    rfl
  have hlist : (((some below).bind History.belowOf?).map fun n ↦ [n]).getD [] =
      (e.round.below.map Int.ofNat).toList := by
    rw [Option.bind_some, hcount]
    cases e.round.below <;> rfl
  simp only [History.addLine, hread, bind, Except.bind, field?, fieldOr, hbelow, htime, hlist]
  by_cases hzero : (float (readBack e.round.time)).isEmpty = true
  · exact ⟨none, by simp [hzero, pure, Except.pure]⟩
  · exact ⟨some (readBack e.round.time), by simp [hzero, pure, Except.pure, toFloat]⟩

end Entry

def logText (entries : List Entry) : String :=
  String.join (entries.map (·.round.line))

theorem roundLines_logText (entries : List Entry) : History.roundLines (logText entries) = entries.map Entry.text := by
  induction entries with
  | nil => rfl
  | cons e entries ih =>
    rw [List.map_cons, ← ih, ← Entry.roundLines_line]
    simp [logText, String.join_cons]

/-- The whole log can be read; it gives the counts of the rounds that have one, in their order. -/
theorem read_texts (entries : List Entry) (before : History) :
    ∃ history, History.read before (entries.map Entry.text) = (history, none) ∧
      history.below = before.below ++ entries.flatMap fun e ↦ (e.round.below.map Int.ofNat).toList := by
  induction entries generalizing before with
  | nil => exact ⟨before, rfl, (List.append_nil _).symm⟩
  | cons e entries ih =>
    obtain ⟨time, hadd⟩ := e.exists_addLine before
    obtain ⟨history, hread, hbelow⟩ := ih ⟨before.below ++ (e.round.below.map Int.ofNat).toList, time⟩
    refine ⟨history, ?_, ?_⟩
    · rw [List.map_cons, History.read, hadd]
      exact hread
    · rw [hbelow, List.append_assoc]
      rfl

/-! ### Reports one after the other -/

namespace Surroundings

/-- The same surroundings with another log, which can be added to. -/
def withLog (s : Surroundings) (log : Option String) : Surroundings :=
  { s with log := log, logWritable := true }

def shares (s : Surroundings) : Shares :=
  (sharesOf s.repoTime).1

def judged (s : Surroundings) : List Judged :=
  (judgedOf (isModified s.changes) s.selfCheck).1

def isLoaded (s : Surroundings) : Bool :=
  (loaded? s).isSome

/-- What is counted has few enough digits to be written, as everything that fits into a memory. -/
structure IsCountable (s : Surroundings) : Prop where
  benches : Number.isWritable (countBenches (s.benchText.getD "")) = true
  shares : Number.isWritable s.shares.length = true
  judged : Number.isWritable s.judged.length = true
  errors : ∀ loaded ∈ loaded? s, Number.isWritable loaded.2.benchErrors = true

end Surroundings

/-- A log with a text added to it; a text that is empty does not make a log. -/
def addTo (log : Option String) (added : String) : Option String :=
  if added = "" then log else some (log.getD "" ++ added)

/-- The log that reports leave which are made one after the other, the first without a log. -/
def logAfter (runs : List Surroundings) : Option String :=
  runs.foldl (fun log s ↦ addTo log (make (s.withLog log)).logged) none

section Reports

variable {s : Surroundings} {err : String} {c : Coverage} {log : Option String} {entries : List Entry}

theorem isWritable_of_le {m n : Nat} (hle : m ≤ n) (hn : Number.isWritable n = true) : Number.isWritable m = true :=
  Number.isWritable_of_natAbs_le (by simpa using hle) hn

/-- One report: after lines that can be read it adds the line of the next round. -/
theorem exists_entry (h : loaded? s = some (err, c)) (hs : s.IsCountable) (hlog : log.getD "" = logText entries)
    {history : History} (hread : History.read {} (entries.map Entry.text) = (history, none))
    (hnumber : Number.isWritable (entries.length + 1 : Nat) = true) :
    ∃ e : Entry, e.round = roundOf (s.withLog log) c s.shares s.judged history ∧
      e.round.number = entries.length + 1 ∧ (make (s.withLog log)).logged = e.round.line := by
  have hlines : History.roundLines ((s.withLog log).log.getD "") = entries.map Entry.text := by
    rw [← roundLines_logText, ← hlog]
    rfl
  have hcount : (roundOf (s.withLog log) c s.shares s.judged history).number = entries.length + 1 := by
    rw [roundOf, hlines, List.length_map]
  have hbelow : ∀ n ∈ s.shares.below?, Number.isWritable (n : Nat) = true := by
    intro n hn
    refine isWritable_of_le ?_ hs.shares
    rw [Shares.below?] at hn
    split at hn <;> cases hn
    exact (List.countP_le_length).trans ((List.length_filter_le _ _).trans (List.length_map _).le)
  have hfailing : Number.isWritable (Judged.countFailing s.judged) = true :=
    isWritable_of_le List.countP_le_length hs.judged
  rw [← hcount] at hnumber
  have herrors := hs.errors _ h
  obtain ⟨j, hj⟩ := Round.exists_toJson? hnumber hs.benches herrors hbelow hfailing
  refine ⟨⟨_, j, hj⟩, rfl, hcount, ?_⟩
  have hmake : make (s.withLog log) = finish (s.withLog log) err c := make_eq_finish h
  have hlogged : (finish (s.withLog log) err c).logged =
      if ((History.read {} (History.roundLines ((s.withLog log).log.getD ""))).2.isNone && true) = true then
        (roundOf (s.withLog log) c s.shares s.judged
          (History.read {} (History.roundLines ((s.withLog log).log.getD ""))).1).line
      else "" := rfl
  rw [hmake, hlogged, hlines, hread]
  exact if_pos rfl

/-- The log holds the lines of the reports that got as far as the coverage. -/
theorem exists_entries (runs : List Surroundings) (hruns : ∀ t ∈ runs, t.IsCountable)
    (hlength : Number.isWritable runs.length = true) :
    ∃ entries : List Entry, (logAfter runs).getD "" = logText entries ∧
      entries.map (·.round.below) = (runs.filter Surroundings.isLoaded).map (·.shares.below?) := by
  induction runs using List.reverseRecOn with
  | nil => exact ⟨[], rfl, rfl⟩
  | append_singleton runs s ih =>
    obtain ⟨entries, hlog, hbelow⟩ := ih (fun t ht ↦ hruns t (List.mem_append_left _ ht))
      (isWritable_of_le (by simp) hlength)
    have hstep : logAfter (runs ++ [s]) = addTo (logAfter runs) (make (s.withLog (logAfter runs))).logged := by
      rw [logAfter, List.foldl_append]
      rfl
    cases hloaded : loaded? s with
    | none =>
      have hnone : loaded? (s.withLog (logAfter runs)) = none := hloaded
      refine ⟨entries, ?_, ?_⟩
      · rw [hstep, (make_of_not_loaded hnone).1]
        exact hlog
      · rw [hbelow, List.filter_append]
        simp [Surroundings.isLoaded, hloaded]
    | some loaded =>
      obtain ⟨history, hread, -⟩ := read_texts entries {}
      have hcount : entries.length + 1 ≤ (runs ++ [s]).length := by
        have hlengths := congrArg List.length hbelow
        rw [List.length_map, List.length_map] at hlengths
        rw [List.length_append, hlengths]
        exact Nat.add_le_add_right (List.length_filter_le _ _) 1
      obtain ⟨e, hround, -, hlogged⟩ := exists_entry hloaded (hruns s (by simp)) hlog hread (isWritable_of_le hcount hlength)
      refine ⟨entries ++ [e], ?_, ?_⟩
      · have hsome : e.round.line ≠ "" := by simp [Entry.line_eq]
        rw [hstep, hlogged, addTo, if_neg hsome, Option.getD_some, hlog]
        simp [logText, String.join_append]
      · rw [List.map_append, hbelow, List.filter_append, List.map_append]
        simp [Surroundings.isLoaded, hloaded, hround, roundOf]

end Reports

/-- A report on one bench, which is below the mark. -/
def oneBench : Surroundings where
  coverage := .finished 0 "" ""
  repoTime := some (.finished 0 "\x7b\"repo_time_pct\": \x7b\"bench_a\": 40\x7d\x7d" "")
  changes := .timedOut
  selfCheck := none
  coverageText := some "\x7b\x7d"
  benchText := none
  log := none
  logWritable := true
  started := 0
  stopped := 1
  now := 1000

end FapLang.Report
