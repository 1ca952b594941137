import FapLang.Json.Read
import FapLang.Number.Arith

/-!
What can go wrong while a report is made, and the questions put to JSON documents that can go wrong.
-/

namespace FapLang.Report

inductive Trouble
  | unreadable (e : Json.JsonError)
  | fault (f : Fault)
  | timedOut (command : String) (seconds : Nat)
  | noFile (path : String)
  deriving DecidableEq

namespace Trouble

def label : Trouble → String
  | unreadable _ => "JSONDecodeError"
  | fault f => f.kind.label
  | timedOut _ _ => "TimeoutExpired"
  | noFile _ => "FileNotFoundError"

def message : Trouble → String
  | unreadable e => e.message
  | fault f => f.message
  | timedOut command seconds => s!"Command '{command}' timed out after {seconds} seconds"
  | noFile path => "[Errno 2] No such file or directory: " ++ Text.quoted path

end Trouble

/-- Reads a document; an integer that is too long counts as a fault of its own. -/
def readJson (s : String) : Except Trouble Json :=
  match Json.parse s with
  | .ok j => .ok j
  | .error e =>
    match e.flaw with
    | .tooLong digits => .error (.fault (.numeralTooLong digits))
    | _ => .error (.unreadable e)

/-- A field of an object. Only objects can be asked. -/
def field? (j : Json) (name : String) : Except Trouble (Option Json) :=
  match j with
  | .object fields => .ok (Run.Table.get? fields name)
  | j => .error (.fault (.noMember j.typeName "get"))

/-- A field of an object, or the given document in place of an absent or empty one. -/
def fieldOr (j : Json) (name : String) (fallback : Json) : Except Trouble Json := do
  match ← field? j name with
  | some value => return if value.isEmpty then fallback else value
  | none => return fallback

def entries (j : Json) : Except Trouble (Run.Table Json) :=
  match j with
  | .object fields => .ok fields
  | j => .error (.fault (.noMember j.typeName "items"))

/-- The items of a list; other documents have none. -/
def items : Json → List Json
  | .list items => items
  | _ => []

def toFloat : Json → Except Trouble Float
  | .bool b => .ok (if b then 1 else 0)
  | .int n => (Numeric.intToFloat n.val).mapError .fault
  | .float x => .ok x
  | .text s =>
    match Number.readFloat s with
    | some x => .ok x
    | none => .error (.fault (.floatText s))
  | j => .error (.fault (.notReal j.typeName))

def toInt : Json → Except Trouble Number.Writable
  | .bool b => .ok ⟨b.toNat, Number.isWritable_digit (Nat.lt_of_le_of_lt b.toNat_le (by decide))⟩
  | .int n => .ok n
  | .float x =>
    if Number.isNaN x then .error (.fault .notANumberToInt)
    else if Number.isInfinite x then .error (.fault .infiniteToInt)
    else .ok ⟨Number.truncate x, Number.isWritable_truncate x⟩
  | .text s =>
    match hread : Number.readInt s with
    | .value n => .ok ⟨n, Number.isWritable_of_readInt hread⟩
    | .tooLong digits => .error (.fault (.numeralTooLong digits))
    | .malformed => .error (.fault (.intText s))
  | j => .error (.fault (.notIntegral j.typeName))

def floatField (j : Json) (name : String) : Except Trouble Float := do
  toFloat (← fieldOr j name (.float 0))

def intField (j : Json) (name : String) : Except Trouble Number.Writable := do
  toInt (← fieldOr j name (.bool false))

end FapLang.Report
