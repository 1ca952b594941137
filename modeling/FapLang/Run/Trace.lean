import FapLang.Run.Session
import FapLang.Value.Arith

/-!
What a run writes: lines on its two channels, trace lines that wait until the end, and the list of
errors. A text made of values exists only if all of them can be written, whether it is shown or not.
-/

namespace FapLang.Run

/-- A piece of a message. -/
inductive Piece
  | lit (s : String)
  | val (v : Value)
  /-- Values shown as a list. -/
  | all (vs : List Value)

instance : Coe String Piece := ⟨.lit⟩

instance : Coe Value Piece := ⟨.val⟩

def Piece.isWritable (cells : Cells) : Piece → Bool
  | lit _ => true
  | val v => v.isWritable cells
  | all vs => vs.all (·.isWritable cells)

def Piece.shown (cells : Cells) : Piece → String
  | lit s => s
  | val v => v.shown cells
  | all vs => "[" ++ String.intercalate ", " (vs.map (Value.inner cells nestingLimit [])) ++ "]"

def colour (code : String) (s : String) : String :=
  "\x1b[" ++ code ++ "m" ++ s ++ "\x1b[0m"

def write (channel : Channel) (s : String) : Interp Unit :=
  modify fun session => { session with events := session.events.push { channel := channel, text := s } }

def writeLine (channel : Channel) (s : String) : Interp Unit :=
  write channel (s ++ "\n")

/-- Makes sure that a message has a text. -/
def checkWritable (message : List Piece) : Interp Unit := do
  let s ← get
  if message.all (·.isWritable s.cells) then pure () else Interp.fail .tooManyDigits

def format (message : List Piece) : Interp String := do
  checkWritable message
  let s ← get
  return String.join (message.map (·.shown s.cells))

def strOf (v : Value) : Interp String :=
  format [.val v]

/-- Adds a trace line that quotes a line of the source. -/
def addNote (line : Int) (code : String) (message : String) : Interp Unit :=
  modify fun s =>
    if s.modes.full then
      match s.sourceLine? line with
      | some content =>
        let text := colour code ("[Line " ++ toString line ++ ": " ++ content ++ "] " ++ message)
        { s with notes := s.notes.push text }
      | none => s
    else s

/-- A trace line about the current line. Its text is made only if it is shown. -/
def note (message : List Piece) : Interp Unit := do
  checkWritable message
  let s ← get
  if s.modes.full then
    addNote s.line "33" (String.join (message.map (·.shown s.cells)))
  else pure ()

def callNote (line : Int) (step : String) : Interp Unit :=
  addNote line "38;2;255;165;0" ("[METHOD CALL] " ++ step ++ "()")

/-- A trace line that a step of the run begins. -/
def noteStep (step : String) : Interp Unit := do
  callNote (← get).line ("RuntimeChecker." ++ step)

/-- The text of an error as the modes want it. -/
def errorText (modes : Modes) (content : String) (line : Int) (message : String) : String :=
  let body := colour "91" ("[ERROR] " ++ message)
  if modes.full then colour "33" ("[Line " ++ toString line ++ ": " ++ content ++ "]") ++ " " ++ body
  else if modes.debug then colour "33" ("[Line " ++ toString line ++ "]") ++ " " ++ body
  else body

/-- Records an error, once. -/
def reportAt (line : Int) (message : String) : Interp Unit :=
  modify fun s =>
    let text := errorText s.modes ((s.sourceLine? line).getD "") line message
    if s.errors.contains text then s else { s with errors := s.errors.push text }

def report (message : String) : Interp Unit :=
  reportAt 0 message

def reportPieces (message : List Piece) : Interp Unit := do
  report (← format message)

/-- Marks a name as faulty. -/
def blame (name : String) : Interp Unit :=
  modify fun s => { s with faulty := s.faulty.push name }

def isFaulty (name : String) : Interp Bool := do
  return (← get).faulty.contains name

def markUsed (name : String) : Interp Unit :=
  modify fun s => { s with used := s.used.insert name }

def markDefined (name : String) : Interp Unit :=
  modify fun s => { s with defined := s.defined.insert name }

def markAssigned (name : String) : Interp Unit :=
  modify fun s => { s with assigned := s.assigned.insert name }

def markWarned (name : String) : Interp Unit :=
  modify fun s => { s with warned := s.warned.insert name }

/-- A new list. -/
def newList (items : Array Value) : Interp Value :=
  modifyGet fun s => (.list s.cells.size, { s with cells := s.cells.push items })

def itemsOf (cell : Nat) : Interp (Array Value) := do
  return (← get).cells.getD cell #[]

def setItems (cell : Nat) (f : Array Value → Array Value) : Interp Unit :=
  modify fun s => { s with cells := s.cells.modify cell f }

def commit : Computed → Interp Value
  | .value v => pure v
  | .items vs => newList vs

end FapLang.Run
