import FapLang.Proofs.Run.Statements

/-!
The kinds of values. An assignment casts the new value to the type that the variable keeps, so that what it binds
is of the kind of the old value (`kind_of_cast`).
-/

namespace FapLang

inductive Kind
  | none
  | int
  | float
  | complex
  | text
  | list
  | record
  | function
  | node
  | scope
  deriving DecidableEq, Repr

def Node.kind : Node → Kind
  | tree _ _ | token _ _ => .node
  | absent => .none
  | plain _ => .text

namespace Value

/-- Truth values are integers. -/
def kind : Value → Kind
  | none => .none
  | bool _ | int _ => .int
  | float _ => .float
  | complex _ => .complex
  | text _ => .text
  | list _ => .list
  | record _ => .record
  | function _ => .function
  | node n => n.kind
  | scope _ => .scope

theorem kind_of_castInt {v w : Value} (h : v.castInt = .ok w) : w.kind = .int := by
  obtain ⟨n, rfl, -⟩ := exists_int_of_castInt h
  rfl

theorem kind_of_castFloat {v w : Value} (h : v.castFloat = .ok w) : w.kind = .float := by
  obtain ⟨x, rfl⟩ := exists_float_of_castFloat h
  rfl

end Value

namespace Run

theorem kind_of_keptType (v : Value) :
    (keptType v = "int" → v.kind = .int) ∧ (keptType v = "float" → v.kind = .float) ∧
      (keptType v = "str" → v.kind = .text) := by
  cases v with
  | node n => cases n <;> simp [keptType, Value.typeName, Node.typeName, Value.isInt, Value.kind, Node.kind]
  | none | bool | int | float | complex | text | list | record | function | scope =>
    simp [keptType, Value.typeName, Value.isInt, Value.kind]

/-- What an assignment binds is of the kind of the value that was there, which was no function. -/
theorem kind_of_cast {v w old : Value} {name : String} {s t : Session} (hs : Sound s)
    (h : (cast v (keptType old) name).exec s = (.ok w, t)) (hw : ¬ w.isNone = true) :
    w.kind = old.kind ∧ w.kind ≠ .function := by
  obtain ⟨hint, hfloat, htext⟩ := kind_of_keptType old
  rcases cast_cases hs h with ⟨rfl, -⟩ | ⟨htype, hcast⟩ | ⟨htype, hcast⟩ | ⟨htype, text, rfl⟩
  · exact absurd rfl hw
  · rw [Value.kind_of_castInt hcast, hint htype]
    exact ⟨rfl, by decide⟩
  · rw [Value.kind_of_castFloat hcast, hfloat htype]
    exact ⟨rfl, by decide⟩
  · rw [htext htype]
    exact ⟨rfl, by rintro ⟨⟩⟩

end Run

end FapLang
