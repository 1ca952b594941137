/-!
Lines and other pieces of a text. A text of `n` line ends has `n + 1` lines, so a text that ends with a
line end has an empty last line, and the empty text has one empty line.
-/

namespace FapLang.Text

/-- Cuts at every occurrence of a separator; there is always at least one piece. -/
def splitAtChar (sep : Char) : List Char → List (List Char)
  | [] => [[]]
  | c :: rest =>
    match splitAtChar sep rest with
    | [] => [[c]]
    | piece :: pieces => if c = sep then [] :: piece :: pieces else (c :: piece) :: pieces

def lines (s : String) : List String :=
  (splitAtChar '\n' s.toList).map String.ofList

def unlines (ls : List String) : String :=
  String.intercalate "\n" ls

/-- The text after the first occurrence of a pattern, with the text before it. -/
def cutAt? (pattern : List Char) : List Char → Option (List Char × List Char)
  | [] => if pattern.isEmpty then some ([], []) else none
  | c :: rest =>
    if pattern.isPrefixOf (c :: rest) then some ([], (c :: rest).drop pattern.length)
    else (cutAt? pattern rest).map fun (before, after) => (c :: before, after)

def occursIn (pattern cs : List Char) : Bool :=
  (cutAt? pattern cs).isSome

def contains (s pattern : String) : Bool :=
  occursIn pattern.toList s.toList

/-- The pieces between the occurrences of a pattern, taken from the left, with so many cuts at most.
-/
def splitAtMost : Nat → List Char → List Char → List (List Char)
  | 0, _, cs => [cs]
  | cuts + 1, pattern, cs =>
    match cutAt? pattern cs with
    | none => [cs]
    | some (before, after) => before :: splitAtMost cuts pattern after

def splitAtAll (pattern cs : List Char) : List (List Char) :=
  splitAtMost cs.length pattern cs

def startsWith (cs : List Char) (s : String) : Bool :=
  s.toList.isPrefixOf cs

def endsWith (cs : List Char) (s : String) : Bool :=
  s.toList.isSuffixOf cs

end FapLang.Text
