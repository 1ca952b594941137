import FapLang.Run.Lookup
import FapLang.Value.Convert

/-!
Casting a value to a declared type. A cast that fails is recorded and gives nothing; the name it was for,
if any, becomes faulty, and casts for a faulty name are not tried.
-/

namespace FapLang.Run

def forName (name : String) : String :=
  if name.isEmpty then "" else " for variable '" ++ name ++ "'"

def blameUnlessEmpty (name : String) : Interp Unit :=
  if name.isEmpty then pure () else blame name

def castFailure (v : Value) (type name : String) (f : Fault) : Interp Value := do
  let reason := if f.message.isEmpty then "" else " - " ++ f.message
  reportPieces ["Cannot cast '", v, "' to type '", type, "'", forName name, reason]
  blameUnlessEmpty name
  return .none

/-- Faults of typing and of value are failed casts; other faults are passed on. -/
def castResult (v : Value) (type name : String) : Except Fault Value → Interp Value
  | .ok w => pure w
  | .error f =>
    match f.kind with
    | .typing | .value => castFailure v type name f
    | _ => Interp.fail f

def castTo (v : Value) (type name : String) : Interp Value := do
  let cells := (← get).cells
  match type with
  | "int" => castResult v type name v.castInt
  | "float" => castResult v type name v.castFloat
  | "str" => castResult v type name ((v.str cells).map Value.text)
  | _ => do
    report ("Unsupported type: '" ++ type ++ "'" ++ forName name)
    blameUnlessEmpty name
    return .none

/-- Casts a value for a name, which may be empty. -/
def cast (v : Value) (type name : String) : Interp Value := do
  noteStep "cast_type"
  if !name.isEmpty && (← isFaulty name) then return .none
  else castTo v type name

end FapLang.Run
