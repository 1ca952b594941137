/-!
Classes of characters, given as ranges of code points.
-/

namespace FapLang.Text

/-- A first and a last code point, both included. -/
abbrev CodeRange := Nat × Nat

def inRanges (ranges : List CodeRange) (c : Char) : Bool :=
  ranges.any fun range ↦ range.1 ≤ c.toNat && c.toNat ≤ range.2

end FapLang.Text
