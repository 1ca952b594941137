import FapLang.Json.Write
import FapLang.Report.RepoTime
import FapLang.Text.Line

/-!
Verdicts on benches. From the fingerprints of a bench's results, their type and the times of its calls
follows whether the bench checks itself: the first trouble that applies is the verdict.
-/

namespace FapLang.Report

inductive Verdict
  | repoModified
  | error
  | returnsNone
  | unstable
  | returnsInput
  | lowRepoTime
  | tooFast
  | paramInvariant
  | okUnparam
  | ok
  deriving DecidableEq, Repr

namespace Verdict

def label : Verdict → String
  | error => "error"
  | returnsNone => "returns-none"
  | unstable => "unstable"
  | returnsInput => "returns-input"
  | lowRepoTime => "low-repo-time"
  | tooFast => "too-fast"
  | paramInvariant => "param-invariant"
  | repoModified => "repo-modified"
  | okUnparam => "ok-unparam"
  | ok => "ok"

def passes : Verdict → Bool
  | okUnparam | ok => true
  | _ => false

end Verdict

/-- What is known of a bench's calls. Fingerprints are compared as written. -/
structure Evidence where
  /-- The type of the results, or a failure in angle brackets. -/
  returned : Option String
  stable : List String
  byParams : List String
  paramPrints : List String
  /-- Times of the calls in milliseconds. -/
  times : List Float
  /-- The part of each call's time that the repository's code took, from zero to one. -/
  fractions : List Float

namespace Evidence

def prints (j : Json) : List String :=
  (items j).map Json.render

def values (j : Json) : Except Trouble (List Json) := do
  return (← entries j).map (·.2)

def ofJson (j : Json) : Except Trouble Evidence := do
  let returned := match ← fieldOr j "ret_type" .null with
    | .text s => some s
    | _ => none
  let stable := prints (← fieldOr j "fp_stable" (.list []))
  let byParams := (← values (← fieldOr j "fp_by_param" (.object []))).map Json.render
  let paramPrints := prints (← fieldOr j "param_fps" (.list []))
  let times ← (← values (← fieldOr j "repo_tt_ms" (.object []))).mapM toFloat
  let fractions ← (← values (← fieldOr j "repo_frac" (.object []))).mapM toFloat
  return {
    returned := returned
    stable := stable
    byParams := byParams
    paramPrints := paramPrints
    times := times
    fractions := fractions }

/-- The middle of the times, or the mean of the two in the middle; zero if there are none. -/
def medianTime (e : Evidence) : Float :=
  let sorted := e.times.mergeSort fun a b => a ≤ b
  let middle := sorted.length / 2
  if sorted.length % 2 = 1 then sorted.getD middle 0
  else (sorted.getD (middle - 1) 0 + sorted.getD middle 0) / 2

/-- The least fraction; zero if there are none. -/
def leastFraction (e : Evidence) : Float :=
  match e.fractions with
  | [] => 0
  | first :: rest => rest.foldl (fun least x => if x < least then x else least) first

def hasFailed (e : Evidence) : Bool :=
  match e.returned with
  | none => true
  | some type => type = "?" || Text.startsWith type.toList "<"

def allEqual : List String → Bool
  | [] => true
  | first :: rest => rest.all (· == first)

def isStable (e : Evidence) : Bool :=
  !e.stable.isEmpty && allEqual e.stable

/-- Whether the first result is one of the parameters. -/
def givesInput (e : Evidence) : Bool :=
  e.stable.head?.any fun print ↦ e.paramPrints.contains print

def verdict (modified : Bool) (e : Evidence) : Verdict :=
  if modified then .repoModified
  else if e.hasFailed then .error
  else if e.returned == some "NoneType" then .returnsNone
  else if !e.isStable then .unstable
  else if e.givesInput then .returnsInput
  else if !e.fractions.isEmpty && e.leastFraction < 0.5 then .lowRepoTime
  else if !e.times.isEmpty && e.medianTime < 1 then .tooFast
  else if 2 ≤ e.byParams.length && allEqual e.byParams then .paramInvariant
  else if e.byParams.length < 2 then .okUnparam
  else .ok

end Evidence

/-- A bench with what is known of it and the verdict on it. -/
structure Judged where
  name : String
  evidence : Evidence
  verdict : Verdict

namespace Judged

def tableRow (j : Judged) : String :=
  "  " ++ Shares.mark (!j.verdict.passes) ++ " " ++ Text.fillRight 32 j.name ++ " " ++
    Text.fillRight 16 j.verdict.label ++ " (" ++ j.evidence.returned.getD "?" ++ ", repo " ++
    Number.fixedText 0 (100 * j.evidence.leastFraction) ++ "%) " ++
    Number.fixedText 1 j.evidence.medianTime ++ "ms"

def legend : List String := [
  "self-check (* = fix needed):",
  "  returns-none: run() has no return — collect and return the call results",
  "  unstable: seed RNG in setup; avoid time/uuid/id in the return",
  "  returns-input: return repo output, not the parameter value",
  "  low-repo-time: <50% of run() time is in repo code — move glue to setup",
  "  param-invariant: return something derived from run()'s work, not setup",
  "  repo-modified: revert edits to repo files (git checkout -- <path>)"]

/-- The benches that need a fix come first, both groups in their order. -/
def table (judged : List Judged) : List String :=
  let failing := judged.filter fun j => !j.verdict.passes
  let passing := judged.filter fun j => j.verdict.passes
  legend ++ (failing ++ passing).map tableRow

def countFailing (judged : List Judged) : Nat :=
  judged.countP fun j => !j.verdict.passes

end Judged

end FapLang.Report
