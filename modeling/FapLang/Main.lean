import FapLang.Program

/-!
The command line: runs the program file that the first argument names. Input is read a line at a time,
and only when the program asks for it.
-/

namespace FapLang.Main

open Run (Event)

def readError (path : String) : IO.Error → ReadError
  | .noFileOrDirectory .. => .notFound path
  | .permissionDenied .. => .other ("[Errno 13] Permission denied: " ++ Text.quoted path)
  | e => .other (toString e)

def readFile (path : String) : IO (Except ReadError (List UInt8)) := do
  try
    return .ok (← IO.FS.readBinFile path).toList
  catch e => return .error (readError path e)

def write (event : Event) : IO Unit := do
  match event.channel with
  | .out => (← IO.getStdout).putStr event.text
  | .err => (← IO.getStderr).putStr event.text

/-- Runs a text on the lines read so far, and again with one more while the run asks for it. -/
partial def converse (text given : String) (lines done : Nat) : IO Unit := do
  let events := Program.run text (some given.toList)
  let known := Program.upToPrompt lines events
  (known.drop done).forM write
  if known.length < events.length then
    (← IO.getStdout).flush
    let line ← (← IO.getStdin).getLine
    if line.isEmpty then (events.drop known.length).forM write
    else converse text (given ++ line) (lines + 1) known.length

/-- Runs the file at a path. -/
def runPath (path : String) : IO Unit := do
  match (← readFile path).bind decodeFile with
  | .ok text => converse text "" 0 0
  | .error e => (Program.unreadable e).forM write

end FapLang.Main

def main (args : List String) : IO Unit := do
  match args with
  | [] => FapLang.Program.usage.forM FapLang.Main.write
  | path :: _ => FapLang.Main.runPath path
