import FapLang.Text.CodeRange

/-!
White space in the wide sense of the Unicode standard, and the cuts that go by it: trimming either end
of a text and splitting it into words.
-/

namespace FapLang.Text

def blanks : List CodeRange := [
  (9, 13), (28, 32), (133, 133), (160, 160), (5760, 5760), (8192, 8202),
  (8232, 8233), (8239, 8239), (8287, 8287), (12288, 12288)]

def isBlank (c : Char) : Bool :=
  inRanges blanks c

def trimStart (cs : List Char) : List Char :=
  cs.dropWhile isBlank

def trimEnd : List Char → List Char
  | [] => []
  | c :: rest =>
    match trimEnd rest with
    | [] => if isBlank c then [] else [c]
    | kept => c :: kept

/-- Drops the white space at both ends. -/
def trim (cs : List Char) : List Char :=
  trimEnd (trimStart cs)

def dropTrailingBlanks (s : String) : String :=
  String.ofList (trimEnd s.toList)

def dropOuterBlanks (s : String) : String :=
  String.ofList (trim s.toList)

/-- The words of a text whose current word, in reverse, is the first argument. -/
def wordsFrom : List Char → List Char → List (List Char)
  | word, [] => if word.isEmpty then [] else [word.reverse]
  | word, c :: rest =>
    if isBlank c then
      if word.isEmpty then wordsFrom [] rest else word.reverse :: wordsFrom [] rest
    else wordsFrom (c :: word) rest

/-- The maximal runs of characters that are not white space. -/
def words (cs : List Char) : List (List Char) :=
  wordsFrom [] cs

end FapLang.Text
