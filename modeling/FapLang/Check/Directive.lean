import FapLang.Run.Session
import FapLang.Text.Line

/-!
Directives: lines that switch a trace mode on or off. They apply to the whole program, the last one of
each kind counts, and they do not belong to the code.
-/

namespace FapLang.Check

open Run (Modes)

/-- What a directive does to the modes. -/
def directive? (line : String) : Option (Modes → Modes) :=
  match Text.dropOuterBlanks line with
  | "@debug=true" => some fun m => { m with debug := true }
  | "@debug=false" => some fun m => { m with debug := false }
  | "@debugPL=true" => some fun m => { m with full := true }
  | "@debugPL=false" => some fun m => { m with full := false }
  | _ => none

def directivesOf (lines : List String) : Modes :=
  (lines.filterMap directive?).foldl (fun m f => f m) .quiet

def withoutDirectives (lines : List String) : List String :=
  lines.filter fun line => (directive? line).isNone

/-- The modes that a text asks for, and the text without its directives. -/
def extractDirectives (code : String) : Modes × String :=
  let lines := Text.lines code
  (directivesOf lines, Text.unlines (withoutDirectives lines))

end FapLang.Check
