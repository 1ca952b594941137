import FapLang.Grammar.Parse
import FapLang.Proofs.Grammar.Lexeme

/-!
Derivations of the grammar: which lexemes a sequence of symbols stands for and which nodes it puts
into the tree. A derivation knows the terminal that comes next, so `allowed` can tell which
productions may be finished before it.
-/

namespace FapLang.Grammar

namespace Lexeme

/-- What a lexeme puts into the tree. -/
def nodes (x : Lexeme) : List Node :=
  if x.1.isKept then [.token x.1.name (String.ofList x.2)] else []

/-- The terminal that stands first in a sequence of lexemes with `next` after it. -/
def leading (ls : List Lexeme) (next : Terminal) : Terminal :=
  match ls with
  | [] => next
  | x :: _ => x.1

@[simp] theorem leading_nil (next : Terminal) : leading [] next = next := rfl

@[simp] theorem leading_cons (x : Lexeme) (ls : List Lexeme) (next : Terminal) : leading (x :: ls) next = x.1 := rfl

/-- What stands first in a sequence with another one after it. -/
theorem leading_append (first second : List Lexeme) (next : Terminal) :
    leading (first ++ second) next = leading first (leading second next) := by
  cases first <;> rfl

end Lexeme

open Lexeme

/-- A category with a tree of its own gives one node. -/
theorem Production.build_length (p : Production) (children : List Node)
    (hspliced : p.category.isSpliced = false) : (p.build children).length = 1 := by
  unfold Production.build
  rw [hspliced]
  by_cases habsent : (p.marksAbsence && children.isEmpty) = true
  · rw [if_neg (by simp), if_pos habsent, List.length_singleton]
  · rw [if_neg (by simp), if_neg habsent, List.length_singleton]

/-- The symbols stand for the lexemes `ls`, before the terminal `next`, and contribute `nodes` to
the tree. -/
inductive Derives (allowed : Production → Terminal → Prop) :
    List Symbol → List Lexeme → Terminal → List Node → Prop
  | nil (next : Terminal) : Derives allowed [] [] next []
  | terminal {t : Terminal} {word : List Char} {symbols : List Symbol} {rest : List Lexeme}
      {next : Terminal} {nodes : List Node} (hword : t.Spells word)
      (hrest : Derives allowed symbols rest next nodes) :
      Derives allowed (.terminal t :: symbols) ((t, word) :: rest) next
        (Lexeme.nodes (t, word) ++ nodes)
  | category {p : Production} {symbols : List Symbol} {phrase rest : List Lexeme} {next : Terminal}
      {inner nodes : List Node} (hallowed : allowed p (leading rest next))
      (hinner : Derives allowed p.symbols phrase (leading rest next) inner)
      (hrest : Derives allowed symbols rest next nodes) :
      Derives allowed (.category p.category :: symbols) (phrase ++ rest) next
        (p.build inner ++ nodes)

/-- Derivations of the grammar, wherever their productions stand. -/
abbrev DerivesAny (symbols : List Symbol) (ls : List Lexeme) (next : Terminal) (nodes : List Node) : Prop :=
  Derives (fun p _ ↦ p ∈ productions) symbols ls next nodes

namespace Derives

variable {allowed other : Production → Terminal → Prop} {symbols : List Symbol} {ls : List Lexeme}
  {next : Terminal} {nodes : List Node}

/-- More productions allow more derivations. -/
theorem mono (hle : ∀ p t, allowed p t → other p t) (h : Derives allowed symbols ls next nodes) :
    Derives other symbols ls next nodes := by
  induction h with
  | nil next => exact .nil next
  | terminal hword _ ih => exact .terminal hword ih
  | category hallowed _ _ ihinner ihrest => exact .category (hle _ _ hallowed) ihinner ihrest

/-- Where only the production matters, a derivation stands before every terminal. -/
theorem change_next {kept : Production → Prop} (h : Derives (fun p _ => kept p) symbols ls next nodes)
    (after : Terminal) : Derives (fun p _ => kept p) symbols ls after nodes := by
  induction h generalizing after with
  | nil next => exact .nil after
  | terminal hword _ ih => exact .terminal hword (ih after)
  | category hallowed _ _ ihinner ihrest => exact .category hallowed (ihinner _) (ihrest after)

theorem nil_inv (h : Derives allowed [] ls next nodes) : ls = [] ∧ nodes = [] := by
  cases h
  exact ⟨rfl, rfl⟩

theorem terminal_inv {t : Terminal} (h : Derives allowed (.terminal t :: symbols) ls next nodes) :
    ∃ word rest after, t.Spells word ∧ ls = (t, word) :: rest ∧
      nodes = Lexeme.nodes (t, word) ++ after ∧ Derives allowed symbols rest next after := by
  cases h with
  | terminal hword hrest => exact ⟨_, _, _, hword, rfl, rfl, hrest⟩

theorem category_inv {c : Category} (h : Derives allowed (.category c :: symbols) ls next nodes) :
    ∃ p phrase rest inner after, p.category = c ∧ ls = phrase ++ rest ∧
      nodes = p.build inner ++ after ∧ allowed p (leading rest next) ∧
      Derives allowed p.symbols phrase (leading rest next) inner ∧
      Derives allowed symbols rest next after := by
  generalize hsyms : Symbol.category c :: symbols = all at h
  cases h with
  | nil => cases hsyms
  | terminal => cases hsyms
  | @category p _ phrase rest _ inner after hallowed hinner hrest =>
    obtain ⟨hc, rfl⟩ := List.cons.inj hsyms
    exact ⟨p, phrase, rest, inner, after, (Symbol.category.inj hc).symm, rfl, rfl, hallowed, hinner, hrest⟩

/-- A single category: one production and nothing after it. -/
theorem single_inv {c : Category} (h : Derives allowed [.category c] ls next nodes) :
    ∃ p inner, p.category = c ∧ nodes = p.build inner ∧ allowed p next ∧
      Derives allowed p.symbols ls next inner := by
  obtain ⟨p, phrase, rest, inner, after, hc, rfl, rfl, hallowed, hinner, hrest⟩ := h.category_inv
  obtain ⟨rfl, rfl⟩ := hrest.nil_inv
  simp only [List.append_nil, leading_nil] at hallowed hinner ⊢
  exact ⟨p, inner, hc, rfl, hallowed, hinner⟩

theorem single {p : Production} (hallowed : allowed p next) (h : Derives allowed p.symbols ls next nodes) :
    Derives allowed [.category p.category] ls next (p.build nodes) := by
  have hder : Derives allowed [.category p.category] (ls ++ []) next (p.build nodes ++ []) :=
    .category hallowed h (.nil next)
  simpa using hder

theorem single_terminal {t : Terminal} {word : List Char} (hword : t.Spells word) :
    Derives allowed [.terminal t] [(t, word)] next (Lexeme.nodes (t, word)) := by
  have hder : Derives allowed [.terminal t] [(t, word)] next (Lexeme.nodes (t, word) ++ []) :=
    .terminal hword (.nil next)
  simpa using hder

/-- Two derivations in a row; the first stands before what the second begins with. -/
theorem append {first second : List Symbol} {ls1 ls2 : List Lexeme} {nodes1 nodes2 : List Node}
    (h1 : Derives allowed first ls1 (leading ls2 next) nodes1) (h2 : Derives allowed second ls2 next nodes2) :
    Derives allowed (first ++ second) (ls1 ++ ls2) next (nodes1 ++ nodes2) := by
  generalize hafter : leading ls2 next = after at h1
  induction h1 with
  | nil _ => simpa using h2
  | terminal hword _ ih =>
    rw [List.append_assoc]
    exact .terminal hword (ih hafter)
  | category hallowed hinner _ _ ihrest =>
    subst hafter
    rw [List.append_assoc, List.append_assoc]
    rw [← leading_append] at hallowed hinner
    exact .category hallowed hinner (ihrest rfl)

end Derives

end FapLang.Grammar
