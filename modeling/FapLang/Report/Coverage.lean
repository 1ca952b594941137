import FapLang.Json.Write
import FapLang.Number.Fixed
import FapLang.Report.Trouble
import FapLang.Text.Line
import FapLang.Text.Pad

/-!
Line coverage of a repository and its table. The files with the least coverage come first, of two with
the same coverage the longer one.
-/

namespace FapLang.Report

structure FileCoverage where
  name : String
  statements : Number.Writable
  missing : Number.Writable
  percent : Float
  /-- The lines that did not run, as they are written. -/
  lines : List String

structure Coverage where
  percent : Float
  covered : Number.Writable
  statements : Number.Writable
  benchErrors : Nat
  files : List FileCoverage

/-- The parts of a path without empty ones; a step up cancels the part before it. -/
def pathParts (path : String) : List String :=
  let step := fun (done : List String) (part : String) =>
    if part = "" || part = "." then done
    else if part = ".." then done.dropLast
    else done ++ [part]
  ((Text.splitAtChar '/' path.toList).map String.ofList).foldl step []

/-- Where the repository lies. -/
def repository : String := "repo"

/-- An absolute path as seen from the repository; a relative one stays as it is. -/
def displayPath (path : String) : String :=
  if !Text.startsWith path.toList "/" then path
  else
    match pathParts path with
    | first :: rest =>
      if first = repository then (if rest.isEmpty then "." else String.intercalate "/" rest)
      else String.intercalate "/" (".." :: first :: rest)
    | [] => ".."

namespace FileCoverage

def lineText : Json → String
  | .int n => Number.intText n.val
  | j => j.render

def ofJson (name : String) (j : Json) : Except Trouble FileCoverage := do
  let summary ← fieldOr j "summary" (.object [])
  return {
    name := displayPath name
    statements := ← intField summary "num_statements"
    missing := ← intField summary "missing_lines"
    percent := ← floatField summary "percent_covered"
    lines := (items (← fieldOr j "missing_lines" (.list []))).map lineText }

def comesFirst (a b : FileCoverage) : Bool :=
  a.percent < b.percent || (a.percent == b.percent && b.statements.val ≤ a.statements.val)

/-- At most so many missing lines are shown. -/
def shownLines : Nat := 12

def linesText (f : FileCoverage) : String :=
  String.intercalate "," (f.lines.take shownLines) ++
    (if shownLines < f.lines.length then "…" else "")

end FileCoverage

namespace Coverage

def ofJson (j : Json) : Except Trouble Coverage := do
  let totals ← fieldOr j "totals" (.object [])
  let percent ← floatField totals "percent_covered"
  let covered ← intField totals "covered_lines"
  let statements ← intField totals "num_statements"
  let info ← fieldOr j "meta" (.object [])
  let errors ← entries (← fieldOr info "_pti_bench_errors" (.object []))
  let files ← entries (← fieldOr j "files" (.object []))
  return {
    percent := percent
    covered := covered
    statements := statements
    benchErrors := errors.length
    files := ← files.mapM fun (name, f) => FileCoverage.ofJson name f }

/-- At most so many files are shown. -/
def shownFiles : Nat := 120

/-- At most so many characters of a file's name are shown. -/
def shownName : Nat := 60

def cutName (name : String) : String :=
  String.ofList (name.toList.take shownName)

def tableRow (width : Nat) (name : String) (statements missing : Int) (percent : Float) : String :=
  Text.fillRight width name ++ "  " ++ Text.fillLeft 5 (Number.intText statements) ++ "  " ++
    Text.fillLeft 4 (Number.intText missing) ++ "  " ++
    Text.fillLeft 4 (Number.fixedText 0 percent) ++ "%"

def table (c : Coverage) : List String :=
  let files := (c.files.mergeSort FileCoverage.comesFirst).take shownFiles
  let width := files.foldl (fun w f => max w (cutName f.name).length) "Name".length
  let rule := String.ofList (List.replicate (width + 42) '-')
  let row := fun (f : FileCoverage) =>
    tableRow width (cutName f.name) f.statements.val f.missing.val f.percent ++ "  " ++ f.linesText
  (Text.fillRight width "Name" ++ "  Stmts  Miss  Cover  Missing") :: rule ::
    files.map row ++
    [rule, tableRow width "TOTAL" c.statements.val (c.statements.val - c.covered.val) c.percent]

end Coverage

end FapLang.Report
