import FapLang.Run.Table
import FapLang.Value.Text

/-!
Sessions: the scopes and lists made so far, what has been written and what is left to read, the
names met, the errors recorded and the state of the innermost loop and call.
-/

namespace FapLang.Run

/-- The two trace modes: `debug` shows what scopes do, `full` also every step. -/
structure Modes where
  debug : Bool
  full : Bool
  deriving DecidableEq, Repr

def Modes.quiet : Modes := ⟨false, false⟩

def Modes.any (m : Modes) : Bool := m.debug || m.full

structure Scope where
  vars : Table Value
  constants : Table Value
  functions : Table Function
  modes : Modes
  /-- The enclosing scope. -/
  parent : Option Nat

def Scope.empty (parent : Option Nat) : Scope :=
  { vars := [], constants := [], functions := [], modes := .quiet, parent := parent }

def Scope.binds (s : Scope) (name : String) : Bool :=
  s.vars.has name || s.constants.has name || s.functions.has name

inductive Channel
  | out
  | err
  deriving DecidableEq, Repr

/-- A text written to a channel. -/
structure Event where
  channel : Channel
  text : String
  /-- Whether an output statement writes it. -/
  isOutput : Bool := false
  /-- Whether a line is read right after it. -/
  isPrompt : Bool := false

structure Session where
  scopes : Array Scope
  cells : Cells
  /-- The scope in which statements run. -/
  current : Nat
  used : Names
  defined : Names
  assigned : Names
  warned : Names
  errors : Array String
  /-- Names with an error, which statements leave alone from then on. -/
  faulty : Array String
  hasOutput : Bool
  modes : Modes
  source : Array String
  line : Int
  /-- Trace lines that wait to be written. -/
  notes : Array String
  breaking : Bool
  returning : Bool
  result : Value
  events : Array Event
  /-- The text left to read; nothing if there is no input at all. -/
  input : Option (List Char)

namespace Session

/-- One empty scope and nothing else. -/
def blank : Session :=
  { scopes := #[Scope.empty none], cells := #[], current := 0, used := [], defined := [],
    assigned := [], warned := [], errors := #[], faulty := #[], hasOutput := false, modes := .quiet,
    source := #[], line := 0, notes := #[], breaking := false, returning := false, result := .none,
    events := #[], input := some [] }

/-- The objects every program knows. -/
def builtins : Table Value := [
  ("out", .record [("Info", .text "out.Info"), ("Warn", .text "out.Warn"),
    ("Error", .text "out.Error")]),
  ("rep", .record [("stop", .text "rep.stop")]),
  ("now", .record [("repeat", .text "now.repeat")]),
  ("back", .record [("value", .text "back.value")])]

def fresh : Session :=
  { blank with scopes := #[{ Scope.empty none with vars := builtins }] }

def setScope (s : Session) (id : Nat) (f : Scope → Scope) : Session :=
  { s with scopes := s.scopes.modify id f }

/-- Sets the trace modes of the session and of its current scope. -/
def setModes (s : Session) (modes : Modes) (source : Array String) : Session :=
  { s.setScope s.current (fun scope => { scope with modes := modes }) with
    modes := modes, source := source }

def scope (s : Session) (id : Nat) : Scope :=
  s.scopes.getD id (Scope.empty none)

/-- The line of the source with a number, without the blanks at its end. -/
def sourceLine? (s : Session) (line : Int) : Option String :=
  if 0 < line then (s.source[(line - 1).toNat]?).map Text.dropTrailingBlanks else none

def written (s : Session) (channel : Channel) : String :=
  String.join ((s.events.toList.filter (·.channel = channel)).map (·.text))

end Session

/-- Why a step ends without a value. -/
inductive Stop
  | fault (f : Fault)
  /-- Steps were nested deeper than allowed. -/
  | exhausted

/-- A step of a run. What it has changed before it stops stays changed. -/
abbrev Interp (α : Type) := ExceptT Stop (StateM Session) α

namespace Interp

def fail {α : Type} (f : Fault) : Interp α :=
  throw (.fault f)

def ofExcept {α : Type} : Except Fault α → Interp α
  | .ok a => pure a
  | .error f => fail f

/-- Recovers from a fault; running out of depth is passed on. -/
def recover {α : Type} (step : Interp α) (handler : Fault → Interp α) : Interp α :=
  tryCatch step fun stop =>
    match stop with
    | .fault f => handler f
    | .exhausted => throw .exhausted

end Interp

end FapLang.Run
