/-!
Line ends of files. A carriage return, with or without a line feed after it, counts as one line feed.
-/

namespace FapLang.Text

def unifyLineEnds : List Char → List Char
  | [] => []
  | '\r' :: '\n' :: rest => '\n' :: unifyLineEnds rest
  | '\r' :: rest => '\n' :: unifyLineEnds rest
  | c :: rest => c :: unifyLineEnds rest

end FapLang.Text
