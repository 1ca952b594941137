import FapLang.Measure.Fingerprint
import FapLang.Run.Table
import FapLang.Text.Line

/-!
Benches and what repeated calls of them show. A bench is called twice without parameters and once with
each of its parameter sets; a row holds the fingerprints of what came back. A bench that fails ends its
row there.
-/

namespace FapLang.Measure

abbrev Params := List (String × Outcome)

/-- What a call gives depends on its parameters and on the number of calls before it. -/
structure Bench where
  call : Nat → Params → Except String Outcome
  sets : List Params := []

namespace Bench

def giving (o : Outcome) : Nat → Params → Except String Outcome :=
  fun _ _ => .ok o

/-- Gives one, two, three and so on. -/
def counting : Nat → Params → Except String Outcome :=
  fun earlier _ => .ok (.int (earlier + 1))

def echoing (key : String) : Nat → Params → Except String Outcome :=
  fun _ params => .ok ((params.lookup key).getD .none)

def failing (kind : String) : Nat → Params → Except String Outcome :=
  fun _ _ => .error kind

end Bench

structure Row where
  /-- The type of what came back, or the kind of a failure in angle brackets. -/
  returned : String
  stable : List String := []
  byParams : Run.Table String := []
  timed : Run.Names := []
  paramPrints : List String := []

namespace Row

def fail (row : Row) (kind : String) : Row :=
  { row with returned := "<" ++ kind ++ ">" }

/-- A parameter set as `name=value` pairs in the order of the names; a dash if there are none. -/
def tag (params : Params) : String :=
  let sorted := params.mergeSort fun a b ↦ a.1 ≤ b.1
  if params.isEmpty then "-"
  else String.intercalate "," (sorted.map fun (name, value) ↦ name ++ "=" ++ value.str)

/-- Adds the calls with the remaining parameter sets. -/
def addCalls (a : Abridging) (bench : Bench) : List Params → Nat → Row → Row
  | [], _, row => row
  | params :: rest, earlier, row =>
    match bench.call earlier params with
    | .error kind => row.fail kind
    | .ok o =>
      addCalls a bench rest (earlier + 1)
        { row with
          byParams := row.byParams.insert (tag params) (o.fingerprint a)
          timed := row.timed.insert (tag params)
          paramPrints := row.paramPrints ++ params.map fun (_, value) ↦ value.fingerprint a }

def ofBench (a : Abridging) (bench : Bench) : Row :=
  match bench.call 0 [], bench.call 1 [] with
  | .error kind, _ => fail { returned := "" } kind
  | .ok _, .error kind => fail { returned := "" } kind
  | .ok o, .ok again =>
    addCalls a bench bench.sets 2
      { returned := o.typeName
        stable := [o.fingerprint a, again.fingerprint a]
        timed := ["<default>"] }

end Row

/-- Whether something of this name is taken for a bench. -/
def isBenchName (name : String) : Bool :=
  Text.startsWith name.toList "bench_"

/-- The rows of the benches of a module, in the order of their names. -/
def survey (benches : Run.Table Bench) : List (String × Row) :=
  let chosen := benches.filter fun (name, _) => isBenchName name
  (chosen.mergeSort fun a b => a.1 ≤ b.1).map fun (name, bench) => (name, Row.ofBench .plain bench)

end FapLang.Measure
