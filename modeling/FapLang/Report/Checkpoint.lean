import FapLang.Json.Write
import FapLang.Number.Fixed
import FapLang.Report.Trouble
import FapLang.Text.Line

/-!
The log of rounds. Each round of measuring adds one line to it, and later rounds look back at how many
benches were below the mark: when that number has not improved for three rounds, work is over.
-/

namespace FapLang.Report

/-- A round of measuring. -/
structure Round where
  number : Nat
  time : Float
  /-- Seconds since the round before. -/
  elapsed : Float
  percent : Float
  covered : Number.Writable
  statements : Number.Writable
  benches : Nat
  benchErrors : Nat
  /-- Seconds that measuring the coverage took. -/
  measuring : Float
  shares : Run.Table Float
  below : Option Nat
  verdicts : Run.Table String
  failing : Nat

namespace Round

def belowJson? : Option Nat → Option Json
  | none => some .null
  | some n => Json.ofNat? n

/-- A round can be written if its counts can. -/
def toJson? (r : Round) : Option Json := do
  return .object [
    ("round", ← Json.ofNat? r.number),
    ("ts", .float r.time),
    ("wall_since_prev_s", .float (Number.roundPlaces 2 r.elapsed)),
    ("coverage_pct", .float r.percent),
    ("covered_lines", .int r.covered),
    ("num_statements", .int r.statements),
    ("n_bench_fns", ← Json.ofNat? r.benches),
    ("n_bench_errors", ← Json.ofNat? r.benchErrors),
    ("cov_measure_s", .float (Number.roundPlaces 3 r.measuring)),
    ("repo_time_pct", .object (r.shares.map fun (name, share) ↦ (name, .float share))),
    ("n_below_repo_time", ← belowJson? r.below),
    ("semcheck", .object (r.verdicts.map fun (name, verdict) ↦ (name, .text verdict))),
    ("n_not_self_checking", ← Json.ofNat? r.failing)]

/-- The line of a round; there is none if the round cannot be written. -/
def line (r : Round) : String :=
  (r.toJson?.map fun j ↦ j.render ++ "\n").getD ""

end Round

/-- What the log tells of the rounds before. -/
structure History where
  below : List Int := []
  lastTime : Option Float := none

namespace History

/-- The lines of a log that hold a round. -/
def roundLines (log : String) : List String :=
  (Text.lines log).filter fun line => line.toList.any fun c => !Text.isBlank c

def belowOf? : Json → Option Int
  | .int n => some n.val
  | .bool b => some (if b then 1 else 0)
  | _ => none

def addLine (h : History) (line : String) : Except Trouble History := do
  let j ← readJson line
  let below ← field? j "n_below_repo_time"
  let time ← fieldOr j "ts" .null
  return {
    below := h.below ++ ((below.bind belowOf?).map fun n => [n]).getD []
    lastTime := ← (match time with
      | .null => return none
      | time => return some (← toFloat time)) }

/-- Reads line by line up to the first that cannot be read, if there is one. -/
def read : History → List String → History × Option Trouble
  | h, [] => (h, none)
  | h, line :: rest =>
    match h.addLine line with
    | .ok h => read h rest
    | .error t => (h, some t)

end History

/-- The least number met, and how many came after it was first met. -/
structure Plateau where
  best : Int
  since : Nat
  deriving DecidableEq, Repr

namespace Plateau

def next (p : Plateau) (n : Int) : Plateau :=
  if n < p.best then ⟨n, 0⟩ else ⟨p.best, p.since + 1⟩

def ofCounts : List Int → Option Plateau
  | [] => none
  | first :: rest => some (rest.foldl next ⟨first, 0⟩)

/-- Work is over after so many rounds without improvement. -/
def patience : Nat := 3

end Plateau

/-- Advice to stop. -/
def stopText (reason : String) : String :=
  ">>> STOP: repo_time converged (" ++ reason ++ "). Finalize microbench.py now. <<<"

def Plateau.advice (p : Plateau) : String :=
  stopText ("no improvement in " ++ (s!"{p.since} rounds; best " ++ Number.intText p.best ++ " below"))

/-- The advice when no share is under the mark. -/
def doneAdvice : String :=
  stopText "0 below"

/-- The coverage in percent from which on work may be over. -/
def coverageGoal : Float := 60

/-- The advice to stop, if there is one, after the rounds before and the current one. -/
def stopAdvice? (percent : Float) (before : List Int) (below : Option Nat) : Option String :=
  match below, Plateau.ofCounts (before ++ (below.map Int.ofNat).toList) with
  | some current, some p =>
    if coverageGoal ≤ percent then
      if current = 0 then some doneAdvice
      else if Plateau.patience ≤ p.since then some p.advice else none
    else none
  | _, _ => none

end FapLang.Report
