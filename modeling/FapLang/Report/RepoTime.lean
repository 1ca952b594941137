import FapLang.Number.Fixed
import FapLang.Report.Trouble
import FapLang.Text.Pad

/-!
The share of its time that each bench spends in the repository's own code, in percent. A negative share
stands for a bench that could not be measured.
-/

namespace FapLang.Report

abbrev Shares := Run.Table Float

/-- Shares under this mark need work. -/
def shareFloor : Float := 45

namespace Shares

def isMeasured (share : Float) : Bool :=
  0 ≤ share

def isBelow (share : Float) : Bool :=
  0 ≤ share && share < shareFloor

def measured (shares : Shares) : List Float :=
  (shares.map (·.2)).filter isMeasured

/-- How many measured shares are under the mark. -/
def countBelow (shares : Shares) : Nat :=
  (measured shares).countP (· < shareFloor)

/-- The same, unless nothing was measured. -/
def below? (shares : Shares) : Option Nat :=
  if (measured shares).isEmpty then none else some (countBelow shares)

def ofJson (j : Json) : Except Trouble Shares := do
  let shares ← entries (← fieldOr j "repo_time_pct" (.object []))
  shares.mapM fun (name, share) => return (name, ← toFloat share)

def mark (starred : Bool) : String :=
  if starred then "*" else " "

def tableRow (name : String) (share : Float) : String :=
  let failed := share < 0
  "  " ++ mark (isBelow share) ++ " " ++ Text.fillRight 32 name ++ " " ++
    Text.fillLeft 5 (Number.fixedText 1 (if failed then 0 else share)) ++ "%" ++
    (if failed then "  <error>" else "")

/-- The least share comes first. -/
def table (shares : Shares) : List String :=
  let rows := shares.mergeSort fun a b => a.2 ≤ b.2
  "repo_time (target 50%; * = below 45%):" :: rows.map fun (name, share) => tableRow name share

end Shares

end FapLang.Report
