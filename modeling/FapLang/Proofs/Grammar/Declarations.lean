import FapLang.Proofs.Grammar.Conditional
import FapLang.Proofs.Grammar.Orderly

/-!
Declarations. The type of a declaration is told by the rule of its node alone.
-/

namespace FapLang

/-- A declaration as it is written. -/
structure Declaration where
  isConst : Bool
  type : String
  name : String
  initial? : Option Node

namespace Node

/-- The type that a node names. -/
def namedType? : Node → Option String
  | tree "type_int" [] => some "int"
  | tree "type_float" [] => some "float"
  | tree "type_str" [] => some "str"
  | _ => none

/-- The declaration that a node is. -/
def declaration? : Node → Option Declaration
  | tree "var_def" [type, token "IDENT" name] =>
    type.namedType?.map fun type ↦ ⟨false, type, name, none⟩
  | tree "var_def" [type, token "IDENT" name, initial] =>
    type.namedType?.map fun type ↦ ⟨false, type, name, some initial⟩
  | tree "const_def" [type, token "IDENT" name, initial] =>
    type.namedType?.map fun type ↦ ⟨true, type, name, some initial⟩
  | _ => none

def isDeclaration : Node → Bool
  | tree rule _ => rule = "var_def" || rule = "const_def"
  | _ => false

end Node

namespace Grammar

variable {symbols : List Symbol} {ls : List Lexeme} {next : Terminal} {nodes : List Node}

theorem nodes_of_dropped {t : Terminal} (ht : t.isKept = false) (word : List Char) : Lexeme.nodes (t, word) = [] := by
  rw [Lexeme.nodes, if_neg (ne_true_of_eq_false ht)]

/-- A word that is not kept puts nothing into the tree. -/
theorem Derives.dropped_inv {t : Terminal} (h : DerivesAny (.terminal t :: symbols) ls next nodes)
    (ht : t.isKept = false) : ∃ rest, DerivesAny symbols rest next nodes := by
  obtain ⟨word, rest, after, _, _, rfl, hrest⟩ := h.terminal_inv
  rw [nodes_of_dropped ht, List.nil_append]
  exact ⟨rest, hrest⟩

end Grammar

end FapLang
