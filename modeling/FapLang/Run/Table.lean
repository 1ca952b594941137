/-!
Tables that keep the order in which names were first bound. Binding a name again keeps its place.
-/

namespace FapLang.Run

abbrev Table (α : Type) := List (String × α)

namespace Table

variable {α : Type}

def get? (t : Table α) (name : String) : Option α :=
  t.lookup name

def has (t : Table α) (name : String) : Bool :=
  t.any (·.1 == name)

def insert (t : Table α) (name : String) (a : α) : Table α :=
  match t with
  | [] => [(name, a)]
  | entry :: rest => if entry.1 == name then (name, a) :: rest else entry :: insert rest name a

def erase (t : Table α) (name : String) : Table α :=
  t.filter (·.1 != name)

end Table

/-- Names without order or repetition. -/
abbrev Names := List String

def Names.insert (names : Names) (name : String) : Names :=
  if names.contains name then names else names ++ [name]

end FapLang.Run
