/-!
Columns of text: a text filled up with spaces to a least width, on its right or on its left.
-/

namespace FapLang.Text

def spaces (count : Nat) : String :=
  String.ofList (List.replicate count ' ')

def fillRight (width : Nat) (s : String) : String :=
  s ++ spaces (width - s.length)

def fillLeft (width : Nat) (s : String) : String :=
  spaces (width - s.length) ++ s

end FapLang.Text
