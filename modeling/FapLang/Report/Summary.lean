import FapLang.Report.Checkpoint
import FapLang.Report.Coverage
import FapLang.Report.Verdict
import FapLang.Text.Newline
import FapLang.Text.Kind

/-!
The report of a round: tables, a summary line, and the line that goes to the log. A command other
than the first may fail without harm; its trouble is noted and the report goes on without its data.
-/

namespace FapLang.Report

/-- How a command ended. -/
inductive Child
  | finished (exit : Int) (out err : String)
  | timedOut
  deriving Inhabited

/-- Everything a report depends on. A command or a file that is not there is absent. -/
structure Surroundings where
  coverage : Child
  repoTime : Option Child
  changes : Child
  selfCheck : Option Child
  coverageText : Option String
  benchText : Option String
  log : Option String
  logWritable : Bool
  /-- The clock before and after the coverage was measured. -/
  started : Float
  stopped : Float
  now : Float

/-- What making a report left behind. -/
structure Result where
  out : String := ""
  err : String := ""
  exit : Option Int := none
  failure : Option Trouble := none
  logged : String := ""
  commands : List String := []

/-- The first line of the definition of a bench, by the common start of the names. -/
def definesBench (line : List Char) : Bool :=
  let opening := "def bench_"
  Text.startsWith line opening && ((line.drop opening.length).head?.map Text.isWordChar).getD false

def countBenches (source : String) : Nat :=
  (Text.splitAtChar '\n' (Text.unifyLineEnds source.toList)).countP definesBench

def endsLine (c : Char) : Bool :=
  [10, 11, 12, 13, 28, 29, 30, 133, 8232, 8233].contains c.toNat

/-- The last line of a text without the white space around it; `none` if nothing is left. -/
def lastLine? (s : String) : Option String :=
  let cs := Text.trim s.toList
  if cs.isEmpty then none
  else some (String.ofList (cs.reverse.takeWhile fun c => !endsLine c).reverse)

/-- The document on the last line of a command's output; `none` if it printed nothing. -/
def lastDocument (s : String) : Except Trouble (Option Json) :=
  match lastLine? s with
  | none => .ok none
  | some line => return some (← readJson line)

def runnerNote (command : String) (t : Trouble) : String :=
  s!"[{command} runner: {t.label}: {t.message}]\n"

def readShares (out : String) : Except Trouble Shares := do
  match ← lastDocument out with
  | some j => Shares.ofJson j
  | none => return []

/-- The shares and what goes to the error channel. -/
def sharesOf : Option Child → Shares × String
  | none => ([], "")
  | some .timedOut => ([], runnerNote "repotime" (.timedOut "repotime" 120))
  | some (.finished _ out err) =>
    match readShares out with
    | .ok shares => (shares, err)
    | .error t => ([], err ++ runnerNote "repotime" t)

/-- Judges benches up to the first whose evidence cannot be read. What is no object is passed over.
-/
def judgeAll (modified : Bool) : List (String × Json) → List Judged × Option Trouble
  | [] => ([], none)
  | (name, .object fields) :: rest =>
    match Evidence.ofJson (.object fields) with
    | .error t => ([], some t)
    | .ok e =>
      let (judged, trouble) := judgeAll modified rest
      (⟨name, e, e.verdict modified⟩ :: judged, trouble)
  | _ :: rest => judgeAll modified rest

def readRows (out : String) : Except Trouble (List (String × Json)) := do
  match ← lastDocument out with
  | some j => entries (← fieldOr j "semcheck" (.object []))
  | none => return []

/-- Whether the repository has edits: then the command that lists them prints something. -/
def isModified : Child → Bool
  | .finished _ out _ => (lastLine? out).isSome
  | .timedOut => false

/-- The judged benches and what goes to the error channel. -/
def judgedOf (modified : Bool) : Option Child → List Judged × String
  | none => ([], "")
  | some .timedOut => ([], runnerNote "semcheck" (.timedOut "semcheck" 300))
  | some (.finished _ out err) =>
    match readRows out with
    | .error t => ([], err ++ runnerNote "semcheck" t)
    | .ok rows =>
      match judgeAll modified rows with
      | (judged, none) => (judged, err)
      | (judged, some t) => (judged, err ++ runnerNote "semcheck" t)

def summaryLine (r : Round) (judged : Nat) : String :=
  let measured := (Shares.measured r.shares).length
  s!"[round {r.number}: {r.benches} benches, " ++ Number.fixedText 1 r.percent ++ "% covered" ++
    (if r.shares.isEmpty then "" else s!", {Shares.countBelow r.shares}/{measured} below repo_time 45%") ++
    (if judged = 0 then "" else s!", {r.failing}/{judged} not self-checking") ++
    ", measured in " ++ Number.fixedText 1 r.measuring ++ "s]"

/-- The tables, set off by empty lines, and the summary line. -/
def tableLines (c : Coverage) (r : Round) (judged : List Judged) : List String :=
  c.table ++ [""] ++
    (if r.shares.isEmpty then [] else Shares.table r.shares ++ [""]) ++
    (if judged.isEmpty then [] else Judged.table judged ++ [""]) ++
    [summaryLine r judged.length]

/-- The lines of a report: it may end with advice. -/
def reportLines (c : Coverage) (r : Round) (judged : List Judged) (before : List Int) : List String :=
  tableLines c r judged ++ ((stopAdvice? r.percent before r.below).map (["", ·])).getD []

def printed (lines : List String) : String :=
  String.join (lines.map (· ++ "\n"))

def loadCoverage (s : Surroundings) : Except Trouble Coverage := do
  match s.coverageText with
  | none => throw (.noFile "/repo/_pti_coverage.json")
  | some text => Coverage.ofJson (← readJson text)

def commandsOf (s : Surroundings) : List String :=
  ["coverage"] ++ (if s.repoTime.isSome then ["repotime"] else []) ++
    (if s.selfCheck.isSome then ["git", "semcheck"] else [])

/-- The round that the surroundings show, with what the log tells of those before. -/
def roundOf (s : Surroundings) (c : Coverage) (shares : Shares) (judged : List Judged)
    (h : History) : Round :=
  { number := (History.roundLines (s.log.getD "")).length + 1
    time := s.now
    elapsed := (h.lastTime.map (s.now - ·)).getD 0
    percent := c.percent
    covered := c.covered
    statements := c.statements
    benches := countBenches (s.benchText.getD "")
    benchErrors := c.benchErrors
    measuring := s.stopped - s.started
    shares := shares
    below := Shares.below? shares
    verdicts := judged.map fun j => (j.name, j.verdict.label)
    failing := Judged.countFailing judged }

/-- The report after the coverage was measured and loaded. -/
def finish (s : Surroundings) (err : String) (c : Coverage) : Result :=
  let (shares, shareNotes) := sharesOf s.repoTime
  let (judged, judgeNotes) := judgedOf (isModified s.changes) s.selfCheck
  let (history, trouble) := History.read {} (History.roundLines (s.log.getD ""))
  let round := roundOf s c shares judged history
  { out := printed (reportLines c round judged history.below)
    err := err ++ shareNotes ++ judgeNotes
    logged := if trouble.isNone && s.logWritable then round.line else ""
    commands := commandsOf s }

def make (s : Surroundings) : Result :=
  match s.coverage with
  | .timedOut => { failure := some (.timedOut "coverage" 600), commands := ["coverage"] }
  | .finished exit out err =>
    if exit ≠ 0 then
      { out := printed [s!"coverage measurement failed (exit {exit})", out]
        err := err
        exit := some exit
        commands := ["coverage"] }
    else
      match loadCoverage s with
      | .error t => { err := err, failure := some t, commands := ["coverage"] }
      | .ok c => finish s err c

end FapLang.Report
