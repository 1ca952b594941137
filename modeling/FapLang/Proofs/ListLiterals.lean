import FapLang.Proofs.Grammar.Conditional
import FapLang.Proofs.Run.Remarks
import Mathlib.Data.List.Forall2

/-!
List literals. The machine reads a literal as a list definition with one child for each element
(`parse_listDef`), and these are evaluated from left to right (`Evaluates`). A literal without
elements has one absent child, and one element (`list_literals_hold_values`).
-/

namespace FapLang

open Grammar Lexeme

variable {trees : List Node} {phrases : List (List Lexeme)}

/-! ### Literals and their trees -/

/-- The lexemes of an expression that the machine reads, without the long form of the word for
input. -/
structure IsElement (ls : List Lexeme) : Prop where
  derives : ∃ next nodes, Derives (fun p _ ↦ p ∈ productions) [.category .expr] ls next nodes
  spares : SparesReserved ls
  short : ¬ HasLong ls

/-- Elements after the first one, each after a comma. -/
def moreLexemes (phrases : List (List Lexeme)) : List Lexeme :=
  phrases.flatMap fun ls ↦ (.comma, [',']) :: ls

def elementLexemes : List (List Lexeme) → List Lexeme
  | [] => []
  | first :: rest => first ++ moreLexemes rest

/-- The symbols that stand for the elements in a rule. -/
def elementSymbols : List (List Lexeme) → List Symbol
  | [] => []
  | [_] => [.category .expr]
  | _ :: _ :: _ => [.category .expr, .category .moreExprs]

def literalLexemes (phrases : List (List Lexeme)) : List Lexeme :=
  (.openBracket, ['[']) :: (elementLexemes phrases ++ [(.closeBracket, [']'])])

/-- The children of a literal. -/
def literalKids (trees : List Node) : List Node :=
  if trees.isEmpty then [.absent] else trees

def literalTree (trees : List Node) : Node :=
  .tree "list_literal" (literalKids trees)

/-- The trees are those of the elements, one for one. -/
def ElementTrees (phrases : List (List Lexeme)) (trees : List Node) : Prop :=
  List.Forall₂ (fun ls tree ↦ DerivesInline [.category .expr] ls .closeBracket [tree]) phrases trees

theorem exists_elementTrees (h : ∀ ls ∈ phrases, IsElement ls) : ∃ trees, ElementTrees phrases trees := by
  induction phrases with
  | nil => exact ⟨[], .nil⟩
  | cons ls rest ih =>
    obtain ⟨hfirst, hrest⟩ := List.forall_mem_cons.mp h
    obtain ⟨trees, htrees⟩ := ih hrest
    obtain ⟨next, nodes, hder⟩ := hfirst.derives
    obtain ⟨tree, htree, -⟩ := exists_inline_tree hder .closeBracket
    exact ⟨tree :: trees, .cons htree htrees⟩

/-- More elements go on with a row of elements. -/
theorem derives_moreExprs {nodes : List Node} {ls : List Lexeme}
    (h : ElementTrees phrases trees) (hrow : DerivesInline [.category .moreExprs] ls .closeBracket nodes) :
    DerivesInline [.category .moreExprs] (ls ++ moreLexemes phrases) .closeBracket (nodes ++ trees) := by
  induction h generalizing ls nodes with
  | nil => simpa [moreLexemes] using hrow
  | @cons phrase tree phrases trees hphrase _ ih =>
    have hnext : DerivesInline [.terminal .comma, .category .expr] ((.comma, [',']) :: phrase) .closeBracket
        [tree] :=
      .terminal (by decide) hphrase
    have hboth : DerivesInline [.category .moreExprs, .terminal .comma, .category .expr]
        (ls ++ (.comma, [',']) :: phrase) .closeBracket (nodes ++ [tree]) :=
      (hrow.change_next .comma).append hnext
    have hrow' : DerivesInline [.category .moreExprs] (ls ++ (.comma, [',']) :: phrase) .closeBracket
        (nodes ++ [tree]) :=
      .rule (i := 46) rfl rfl hboth
    simpa [moreLexemes] using ih hrow'

theorem derives_elements (h : ElementTrees phrases trees) :
    DerivesInline (elementSymbols phrases) (elementLexemes phrases) .closeBracket trees := by
  cases h with
  | nil => exact .nil _
  | @cons phrase tree phrases trees hphrase hrest =>
    cases hrest with
    | nil => simpa [elementSymbols, elementLexemes, moreLexemes] using hphrase
    | @cons second tree' phrases trees hsnd hrest =>
      have hnext : DerivesInline [.terminal .comma, .category .expr] ((.comma, [',']) :: second) .closeBracket
          [tree'] :=
        .terminal (by decide) hsnd
      have hmore : DerivesInline [.category .moreExprs] ((.comma, [',']) :: second) .closeBracket [tree'] :=
        .rule (i := 45) rfl rfl hnext
      exact (hphrase.change_next .comma).append (derives_moreExprs hrest hmore)

/-- The rule of a literal with as many elements. -/
def literalRule (phrases : List (List Lexeme)) : Production where
  category := .listLiteral
  label := "list_literal"
  symbols := .terminal .openBracket :: (elementSymbols phrases ++ [.terminal .closeBracket])
  marksAbsence := phrases.isEmpty

theorem build_literalRule
    (h : phrases.length = trees.length) : (literalRule phrases).build trees = [literalTree trees] := by
  have hempty : phrases.isEmpty = trees.isEmpty := by
    cases phrases <;> cases trees <;> simp_all
  rw [Production.build, literalTree, literalKids]
  by_cases hnone : trees.isEmpty = true <;> simp [literalRule, Category.isSpliced, hempty, hnone]

theorem literalRule_mem (phrases : List (List Lexeme)) : literalRule phrases ∈ inlineRules := by
  match phrases with
  | [] => exact mem_inlineRules.mpr ⟨List.mem_of_getElem? (i := 88) rfl, rfl, rfl⟩
  | [_] => exact mem_inlineRules.mpr ⟨List.mem_of_getElem? (i := 87) rfl, rfl, rfl⟩
  | _ :: _ :: _ => exact mem_inlineRules.mpr ⟨List.mem_of_getElem? (i := 86) rfl, rfl, rfl⟩

/-- A literal has the tree of its elements, wherever it stands. -/
theorem derives_literal (h : ElementTrees phrases trees) (next : Terminal) :
    DerivesInline [.category .listLiteral] (literalLexemes phrases) next [literalTree trees] := by
  have hclose : DerivesInline [.terminal .closeBracket] [(.closeBracket, [']'])] next [] :=
    .single_terminal (by decide)
  have hall : DerivesInline (literalRule phrases).symbols (literalLexemes phrases) next (trees ++ []) :=
    .terminal (by decide) ((derives_elements h).append hclose)
  rw [List.append_nil] at hall
  rw [← build_literalRule h.length_eq]
  exact .single (literalRule_mem phrases) hall

/-! ### Reading a list definition -/

/-- The frames of a list definition before its literal. -/
def listDefFrames : List Frame :=
  [⟨106, []⟩, ⟨68, [.token "IDENT" "a"]⟩, ⟨36, []⟩, ⟨18, []⟩, ⟨0, []⟩]

theorem reaches_listDef (text : List Char) :
    Reaches automaton (Situation.start ("New List a => ".toList ++ text)) ⟨listDefFrames, ' ' :: text, none⟩ := by
  have hnew : (Candidates.of (automaton.terminals 0)).lex ("New List a => ".toList ++ text) =
      .token (.new, ['N', 'e', 'w'])
        (' ' :: 'L' :: 'i' :: 's' :: 't' :: ' ' :: 'a' :: ' ' :: '=' :: '>' :: ' ' :: text) :=
    Candidates.lex_token (show _ = some (.ident, ['N', 'e', 'w'], _) from rfl) (by decide)
  have hlist : (Candidates.of (automaton.terminals 18)).lex
        ('L' :: 'i' :: 's' :: 't' :: ' ' :: 'a' :: ' ' :: '=' :: '>' :: ' ' :: text) =
      .token (.list, ['L', 'i', 's', 't']) (' ' :: 'a' :: ' ' :: '=' :: '>' :: ' ' :: text) :=
    Candidates.lex_token (show _ = some (.list, ['L', 'i', 's', 't'], _) from rfl) (by decide)
  have hname : (Candidates.of (automaton.terminals 36)).lex ('a' :: ' ' :: '=' :: '>' :: ' ' :: text) =
      .token (.ident, ['a']) (' ' :: '=' :: '>' :: ' ' :: text) :=
    Candidates.lex_token (show _ = some (.ident, ['a'], _) from rfl) (by decide)
  have harrow : (Candidates.of (automaton.terminals 68)).lex ('=' :: '>' :: ' ' :: text) =
      .token (.listArrow, ['=', '>']) (' ' :: text) :=
    Candidates.lex_token (show _ = some (.listArrow, ['=', '>'], _) from rfl) (by decide)
  have hacts : automaton.action? 0 .new = some (.shift 18) ∧ automaton.action? 18 .list = some (.shift 36) ∧
      automaton.action? 36 .ident = some (.shift 68) ∧ automaton.action? 68 .listArrow = some (.shift 106) := by
    decide
  obtain ⟨hfirst, hsnd, hthird, hlast⟩ := hacts
  have hread := Relation.ReflTransGen.single (Moves.read (s := Situation.start _) rfl hnew)
  have hreach := hread.tail (Moves.shift rfl hfirst)
  have hreach1 := hreach.trans (reaches_word rfl hlist hsnd)
  have hreach2 := hreach1.trans (reaches_word rfl hname hthird)
  exact hreach2.trans (reaches_word rfl harrow hlast)

theorem spares_append {ls ls' : List Lexeme} (h : SparesReserved ls ∧ ¬ HasLong ls)
    (h' : SparesReserved ls' ∧ ¬ HasLong ls') : SparesReserved (ls ++ ls') ∧ ¬ HasLong (ls ++ ls') :=
  ⟨h.1.append h'.1, fun hlong => (hasLong_append.mp hlong).elim h.2 h'.2⟩

theorem spares_elements (h : ∀ ls ∈ phrases, IsElement ls) :
    SparesReserved (elementLexemes phrases) ∧ ¬ HasLong (elementLexemes phrases) := by
  have hcomma : SparesReserved [(.comma, [','])] ∧ ¬ HasLong [(.comma, [','])] :=
    ⟨.of_not_mem (by decide), by simp [HasLong]⟩
  have hmore : ∀ phrases, (∀ ls ∈ phrases, IsElement ls) →
      SparesReserved (moreLexemes phrases) ∧ ¬ HasLong (moreLexemes phrases) := by
    intro phrases h
    induction phrases with
    | nil => exact ⟨.of_not_mem List.not_mem_nil, by simp [HasLong, moreLexemes]⟩
    | cons ls rest ih =>
      obtain ⟨hfirst, hrest⟩ := List.forall_mem_cons.mp h
      have hphrase := spares_append hcomma ⟨hfirst.spares, hfirst.short⟩
      exact spares_append hphrase (ih hrest)
  cases phrases with
  | nil => exact hmore [] h
  | cons ls rest =>
    obtain ⟨hfirst, hrest⟩ := List.forall_mem_cons.mp h
    exact spares_append ⟨hfirst.spares, hfirst.short⟩ (hmore rest hrest)

/-- After the head of a list definition the machine reads a literal up to the end of the text. -/
theorem reaches_literal {text : List Char} (hphrases : ∀ ls ∈ phrases, IsElement ls) (h : ElementTrees phrases trees)
    (hlaid : Laid (literalLexemes phrases) text) : Reaches automaton ⟨listDefFrames, ' ' :: text, none⟩
      ⟨⟨144, [literalTree trees]⟩ :: listDefFrames, [], some endLexeme⟩ := by
  have hopen : SparesReserved [(.openBracket, ['['])] ∧ ¬ HasLong [(.openBracket, ['['])] :=
    ⟨.of_not_mem (by decide), by simp [HasLong]⟩
  have hclose : SparesReserved [(.closeBracket, [']'])] ∧ ¬ HasLong [(.closeBracket, [']'])] :=
    ⟨.of_not_mem (by decide), by simp [HasLong]⟩
  obtain ⟨hspares, hshort⟩ := spares_append hopen (spares_append (spares_elements hphrases) hclose)
  exact reaches_last (derives_literal h .finish) (by decide) rfl (by decide) (hlaid.blank (List.cons_ne_nil _ _))
    hspares hshort (by decide)

/-- The tree of a text that defines a list. -/
def listDefTree (literal : Node) : Node :=
  .tree "start" [.tree "statement" [.tree "list_def" [.token "IDENT" "a", literal]]]

theorem parse_listDef {text : String} (hphrases : ∀ ls ∈ phrases, IsElement ls) (h : ElementTrees phrases trees)
    (hlaid : Laid (literalLexemes phrases) text.toList) :
    parse ("New List a => " ++ text) = .ok (listDefTree (literalTree trees)) := by
  have htable : automaton.action? 144 .finish = some (.reduce 23) ∧ automaton.goto? 0 .listDef = some 13 ∧
      automaton.action? 13 .finish = some (.reduce 16) ∧ automaton.goto? 0 .statement = some 3 := by
    decide
  obtain ⟨hred, hgoto, hred', hgoto'⟩ := htable
  have hdef := reaches_reduce (i := 23)
    [⟨144, [literalTree trees]⟩, ⟨106, []⟩, ⟨68, [.token "IDENT" "a"]⟩, ⟨36, []⟩, ⟨18, []⟩]
    (s := ⟨⟨144, [literalTree trees]⟩ :: listDefFrames, [], some endLexeme⟩) rfl rfl rfl rfl hred hgoto
  have hstmt := reaches_reduce (i := 16) [⟨13, [.tree "list_def" [.token "IDENT" "a", literalTree trees]]⟩]
    (s := ⟨[⟨13, [.tree "list_def" [.token "IDENT" "a", literalTree trees]]⟩, ⟨0, []⟩], [], some endLexeme⟩)
    rfl rfl rfl rfl hred' hgoto'
  have hhead := (reaches_listDef text.toList).trans (reaches_literal hphrases h hlaid)
  rw [parse_eq_ok_iff, String.toList_append]
  exact Reaches.accepts ((hhead.trans hdef).trans hstmt) (accepts_statement rfl)

namespace Run

open Interp

/-! ### Evaluating a literal -/

/-- Nodes are visited from left to right, each in the session that the one before leaves. -/
inductive Evaluates (visit : Visit) : Session → List Node → List Value → Session → Prop
  | nil (s : Session) : Evaluates visit s [] [] s
  | cons {n : Node} {ns : List Node} {v : Value} {vs : List Value} {s t u : Session}
      (hfirst : (visit n).exec s = (.ok v, t)) (hrest : Evaluates visit t ns vs u) :
      Evaluates visit s (n :: ns) (v :: vs) u

/-- The nodes are evaluated, and the result is a new list of their values. -/
def Gathers (visit : Visit) (ns : List Node) (vs : List Value) (s : Session) (v : Value) (t : Session) : Prop :=
  ∃ s₁ u, Remarks s s₁ ∧ Evaluates visit s₁ ns vs u ∧ v = .list u.cells.size ∧
    Remarks { u with cells := u.cells.push vs.toArray } t

section Evaluation

variable {visit : Visit} {ns : List Node} {vs : List Value} {v : Value} {s t u : Session}

theorem Evaluates.length_eq (h : Evaluates visit s ns vs t) : vs.length = ns.length := by
  induction h with
  | nil => rfl
  | cons _ _ ih => rw [List.length_cons, List.length_cons, ih]

theorem evaluates_of_visitAll (h : (visitAll visit ns).exec s = (.ok vs, t)) : Evaluates visit s ns vs t := by
  induction ns generalizing s vs with
  | nil =>
    obtain ⟨hvs, rfl⟩ := Prod.mk.inj h
    cases hvs
    exact .nil s
  | cons n ns ih =>
    obtain ⟨w, s₁, hfirst, hothers⟩ := exec_bind_eq_ok h
    obtain ⟨ws, s2, hrest, hpure⟩ := exec_bind_eq_ok hothers
    obtain ⟨hvs, rfl⟩ := Prod.mk.inj hpure
    cases hvs
    exact .cons hfirst (ih hrest)

theorem Gathers.item (h : Gathers visit ns vs s v t) : ∃ cell, v = .list cell ∧ t.cells[cell]? = some vs.toArray := by
  obtain ⟨_, u, -, -, rfl, ht⟩ := h
  refine ⟨u.cells.size, rfl, ?_⟩
  rw [ht.cells_eq, Array.getElem?_push_size]

/-- Only lines come before and after the evaluation. -/
theorem Gathers.within {s0 : Session} (h : Gathers visit ns vs s v t) (hs : Remarks s0 s) (ht : Remarks t u) :
    Gathers visit ns vs s0 v u := by
  obtain ⟨s₁, u1, hs1, hvalues, hv, hu1⟩ := h
  exact ⟨s₁, u1, hs.trans hs1, hvalues, hv, hu1.trans ht⟩

theorem gathers_of_visitListLiteral {rule : String}
    (h : (visitListLiteral visit (.tree rule ns)).exec s = (.ok v, t)) : ∃ vs, Gathers visit ns vs s v t := by
  obtain ⟨s₁, hnote, hs1⟩ := tells_noteStep "visit_list_literal" s
  have hkids : (childrenOf (.tree rule ns)).exec s₁ = (.ok ns, s₁) := rfl
  rw [visitListLiteral, exec_bind_ok hnote, exec_bind_ok hkids] at h
  obtain ⟨vs, u, hall, hlist⟩ := exec_bind_eq_ok h
  obtain ⟨hv, rfl⟩ := Prod.mk.inj hlist
  exact ⟨vs, s₁, u, hs1, evaluates_of_visitAll hall, (Except.ok.inj hv).symm, .refl _⟩

end Evaluation

/-- A literal gathers the values of its children, in a definition and as an operand. -/
theorem gathers_of_visit {depth : Nat} {kids : List Node} {n : Node} {s t : Session} {v : Value}
    (hn : n ∈ [.tree "list_literal" kids, .tree "factor" [.tree "list_literal" kids]])
    (h : (visit (depth + 1) n).exec s = (.ok v, t)) : ∃ vs, Gathers (visit depth) kids vs s v t := by
  simp only [List.mem_cons, List.not_mem_nil, or_false] at hn
  rcases hn with rfl | rfl
  · obtain ⟨s₁, u, hs1, hstep, hu⟩ := exists_of_visit_tree h rfl (by decide)
    obtain ⟨vs, hvs⟩ := gathers_of_visitListLiteral hstep
    exact ⟨vs, hvs.within hs1 hu⟩
  · obtain ⟨s₁, u, hs1, hstep, hu⟩ := exists_of_visit_tree h rfl (by decide)
    obtain ⟨s2, hnote, hs2⟩ := tells_noteStep "visit_factor" s₁
    have hfactor : (visitFactor (visit depth) (.tree "factor" [.tree "list_literal" kids])).exec s₁ =
        (visitListLiteral (visit depth) (.tree "list_literal" kids)).exec s2 := by
      rw [visitFactor, exec_bind_ok hnote]
      rfl
    obtain ⟨vs, hvs⟩ := gathers_of_visitListLiteral (hfactor.symm.trans hstep)
    exact ⟨vs, hvs.within (hs1.trans hs2) hu⟩

/-- The absent child of an empty literal has a value. -/
theorem Evaluates.absent {depth : Nat} {vs : List Value} {s t : Session}
    (h : Evaluates (visit depth) s [.absent] vs t) : vs = [.none] := by
  cases h with
  | cons hfirst hrest =>
    cases hrest
    cases depth with
    | zero => cases hfirst
    | succ depth =>
      have habsent : (visit (depth + 1) .absent).exec s = (.ok .none, s) := rfl
      obtain ⟨hv, -⟩ := Prod.mk.inj (habsent.symm.trans hfirst)
      rw [Except.ok.inj hv]

/-- A list literal has one child for each of its elements, in order, and its value is a new list of
the values of these, evaluated from left to right. A literal without elements has one child, and its
value is a list of one element, which is no value. -/
theorem list_literals_hold_values {phrases : List (List Lexeme)} {text : String}
    (hphrases : ∀ ls ∈ phrases, IsElement ls) (hlaid : Laid (literalLexemes phrases) text.toList) :
    ∃ trees, ElementTrees phrases trees ∧
      parse ("New List a => " ++ text) = .ok (listDefTree (literalTree trees)) ∧
      (∀ next, DerivesInline [.category .listLiteral] (literalLexemes phrases) next [literalTree trees]) ∧
      ∀ n ∈ [literalTree trees, .tree "factor" [literalTree trees]], ∀ depth s v t,
        (visit (depth + 1) n).exec s = (.ok v, t) →
          ∃ vs cell, v = .list cell ∧ t.cells[cell]? = some vs.toArray ∧
            (phrases ≠ [] → vs.length = phrases.length ∧ Gathers (visit depth) trees vs s v t) ∧
            (phrases = [] → vs = [.none]) := by
  obtain ⟨trees, htrees⟩ := exists_elementTrees hphrases
  have hlength := htrees.length_eq
  refine ⟨trees, htrees, parse_listDef hphrases htrees hlaid, derives_literal htrees, fun n hn depth s v t h ↦ ?_⟩
  obtain ⟨vs, hvs⟩ := gathers_of_visit hn h
  obtain ⟨cell, hv, hcell⟩ := hvs.item
  refine ⟨vs, cell, hv, hcell, fun hsome ↦ ?_, fun hnone ↦ ?_⟩
  · have hkids : literalKids trees = trees := by
      rw [literalKids, if_neg]
      intro hempty
      rw [List.isEmpty_iff.mp hempty] at hlength
      exact hsome (List.eq_nil_of_length_eq_zero hlength)
    rw [hkids] at hvs
    obtain ⟨_, _, _, hvalues, _⟩ := id hvs
    exact ⟨hvalues.length_eq.trans hlength.symm, hvs⟩
  · subst hnone
    obtain rfl : trees = [] := List.eq_nil_of_length_eq_zero hlength.symm
    obtain ⟨_, _, _, hvalues, _⟩ := hvs
    exact hvalues.absent

/-- A literal without elements is a list of one element, and a literal with one element is too. -/
theorem empty_literal_has_an_element :
    (parse "New List a => []" = .ok (listDefTree (literalTree [])) ∧
      ∃ t, (visit 2 (literalTree [])).exec Session.fresh = (.ok (.list 0), t) ∧ t.cells[0]? = some #[.none]) ∧
    ∃ tree, parse "New List a => [1]" = .ok (listDefTree (literalTree [tree])) := by
  have hclose : Laid [(.closeBracket, [']'])] "]".toList := .cons isGap_nil (by decide) .nil
  refine ⟨?_, ?_⟩
  · obtain ⟨trees, htrees, hparse, -, hvalues⟩ := @list_literals_hold_values [] "[]"
      (by simp) (.cons isGap_nil (by decide) hclose)
    cases htrees
    have hexec : (visit 2 (literalTree [])).exec Session.fresh =
        (.ok (.list 0), ((visit 2 (literalTree [])).exec Session.fresh).2) := rfl
    obtain ⟨vs, cell, hcell, hitems, -, hnone⟩ := hvalues _ (.head _) 1 Session.fresh _ _ hexec
    obtain rfl : 0 = cell := Value.list.inj hcell
    rw [hnone rfl] at hitems
    exact ⟨hparse, _, hexec, hitems⟩
  · have hone := derives_operand (i := 75) .number ['1'] (by decide) rfl (by decide) .closeBracket
    have helement : IsElement [(.number, ['1'])] :=
      ⟨⟨_, _, hone.mono fun p _ hp ↦ (mem_inlineRules.mp hp).1⟩, .of_not_mem (by decide), by simp [HasLong]⟩
    obtain ⟨trees, htrees, hparse, -⟩ := @list_literals_hold_values [[(.number, ['1'])]] "[1]"
      (List.forall_mem_singleton.mpr helement)
      (.cons isGap_nil (by decide) (.cons isGap_nil (by decide) hclose))
    cases htrees with
    | @cons _ tree _ _ _ hrest =>
      cases hrest
      exact ⟨tree, hparse⟩

end Run

end FapLang
