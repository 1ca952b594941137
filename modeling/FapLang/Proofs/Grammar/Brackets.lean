import FapLang.Proofs.Grammar.Inline
import FapLang.Proofs.Grammar.Soundness

/-!
An opening bracket after an expression begins a block, but after a name it goes on with the name. A
derivation before a bracket is one that the automaton follows, or it ends in a name
(`Derives.settle`), which its last two lexemes show (`Derives.endsInName_iff`).
-/

namespace FapLang.Grammar

open Lexeme

variable {ls : List Lexeme} {inner nodes : List Node} {p : Production} {next : Terminal}
variable {symbols : List Symbol} {allowed : Production → Terminal → Prop}

/-! ### Names before a bracket -/

/-- The nodes end in an operand that is a name alone. -/
inductive EndsInName : List Node → Prop
  | name (before : List Node) (text : String) :
      EndsInName (before ++ [.tree "factor" [.token "IDENT" text]])
  | inside (before : List Node) {label : String} {children : List Node}
      (hlabel : label ∈ ["expr", "term", "condition", "conditions"]) (h : EndsInName children) :
      EndsInName (before ++ [.tree label children])

theorem EndsInName.append_left (before : List Node) (h : EndsInName nodes) : EndsInName (before ++ nodes) := by
  cases h with
  | name others text =>
    rw [← List.append_assoc]
    exact .name _ text
  | inside others hlabel h =>
    rw [← List.append_assoc]
    exact .inside _ hlabel h

/-- Whether a production makes an operand of a name alone. -/
def Production.isName (p : Production) : Bool :=
  p.category = .factor && p.symbols = [.terminal .ident]

/-- The categories in which an operand can come last. -/
def Symbol.isOpenEnded : Symbol → Bool
  | .category c =>
    [.conditions, .moreConditions, .condition, .expr, .moreTerms, .term, .moreFactors,
      .factor].contains c
  | .terminal _ => false

/-- What the automaton can finish: a rule before what may follow it, a name not before a bracket. -/
def Ready (p : Production) (next : Terminal) : Prop :=
  p ∈ inlineRules ∧ (Symbol.category p.category).mayEndBefore next = true ∧
    ¬ (p.isName = true ∧ next = .openBracket)

theorem Production.build_eq (hspliced : p.category.isSpliced = false)
    (habs : p.marksAbsence = false) (children : List Node) : p.build children = [.tree p.label children] := by
  simp [build, hspliced, habs]

theorem endsInName_build_name (hp : p ∈ productions) (hname : p.isName = true)
    (h : Derives allowed p.symbols ls next inner) : EndsInName (p.build inner) := by
  have hcheck : ∀ p ∈ productions, p.isName = true →
      p.category.isSpliced = false ∧ p.marksAbsence = false ∧ p.label = "factor" := by
    decide
  obtain ⟨hspliced, habs, hlabel⟩ := hcheck p hp hname
  simp only [Production.isName, Bool.and_eq_true, decide_eq_true_eq] at hname
  rw [hname.2] at h
  obtain ⟨word, rest, after, -, -, rfl, hrest⟩ := h.terminal_inv
  obtain ⟨-, rfl⟩ := hrest.nil_inv
  rw [Production.build_eq hspliced habs, hlabel]
  exact .name [] _

/-- A production whose last symbol is open-ended is so itself, and ends as its children do. -/
theorem openEnded_cases (hp : p ∈ productions) (hlast : ∃ x ∈ p.symbols.getLast?, x.isOpenEnded = true)
    (hcat : (Symbol.category p.category).mayEndBefore .openBracket = true ∨
      (Symbol.category p.category).isOpenEnded = true) :
    (Symbol.category p.category).isOpenEnded = true ∧ p.marksAbsence = false ∧
      (p.category.isSpliced = true ∨
        p.category.isSpliced = false ∧ p.label ∈ ["expr", "term", "condition", "conditions"]) := by
  revert p
  decide

theorem endsInName_build (habs : p.marksAbsence = false) (hkind : p.category.isSpliced = true ∨
      p.category.isSpliced = false ∧ p.label ∈ ["expr", "term", "condition", "conditions"])
    (h : EndsInName inner) : EndsInName (p.build inner) := by
  rcases hkind with hspliced | ⟨hspliced, hlabel⟩
  · simpa [Production.build, hspliced] using h
  · rw [Production.build_eq hspliced habs]
    exact .inside [] hlabel h

/-- A derivation is one that the automaton follows, or it ends in a name before a bracket. -/
theorem Derives.settle (h : DerivesInline symbols ls next nodes) (hfits : fits symbols next = true) :
    Derives Ready symbols ls next nodes ∨
      next = .openBracket ∧ EndsInName nodes ∧ ∃ x, symbols.getLast? = some x ∧ x.isOpenEnded = true := by
  induction h with
  | nil next => exact .inl (.nil next)
  | terminal hword hrest ih =>
    obtain ⟨-, hfits, -⟩ := hrest.fits_cons hfits
    rcases ih hfits with hready | ⟨hnext, hname, x, hlast, hx⟩
    · exact .inl (.terminal hword hready)
    · refine .inr ⟨hnext, hname.append_left _, x, ?_, hx⟩
      rw [List.getLast?_cons, hlast, Option.getD_some]
  | @category p symbols phrase rest next inner nodes hp hinner hrest ihinner ihrest =>
    obtain ⟨hends, hfits, hwithin⟩ := hrest.fits_cons hfits
    have hprod := (mem_inlineRules.mp hp).1
    by_cases hempty : symbols = []
    · -- The last symbol stands before `next` itself, so a name may be what it ends in.
      subst hempty
      obtain ⟨rfl, rfl⟩ := hrest.nil_inv
      have hself : ∀ c : Category, [Symbol.category c].getLast? = some (.category c) := fun _ => rfl
      rcases ihinner (inlineRules_fits hp hends) with hready | ⟨hnext, hname, x, hlast, hx⟩
      · by_cases hname : p.isName = true ∧ leading [] next = .openBracket
        · refine .inr ⟨hname.2, ?_, _, hself _, ?_⟩
          · rw [List.append_nil]
            exact endsInName_build_name hprod hname.1 hinner
          · have hfactor : p.category = .factor := by
              have hcat := hname.1
              simp only [Production.isName, Bool.and_eq_true, decide_eq_true_eq] at hcat
              exact hcat.1
            rw [hfactor]
            rfl
        · exact .inl (.category ⟨hp, hends, hname⟩ hready (.nil next))
      · rw [hnext] at hends
        obtain ⟨hopen, habs, hkind⟩ := openEnded_cases hprod ⟨_, hlast, hx⟩ (.inl hends)
        refine .inr ⟨hnext, ?_, _, hself _, hopen⟩
        rw [List.append_nil]
        exact endsInName_build habs hkind hname
    · have hbracket := Symbol.ne_openBracket_of_mayPrecede (hwithin hempty)
      have hready := (ihinner (inlineRules_fits hp hends)).resolve_right fun h => hbracket h.1
      rcases ihrest hfits with hrestReady | ⟨hnext, hname, x, hlast, hx⟩
      · exact .inl (.category ⟨hp, hends, fun hname => hbracket hname.2⟩ hready hrestReady)
      · refine .inr ⟨hnext, hname.append_left _, x, ?_, hx⟩
        rw [List.getLast?_cons, hlast, Option.getD_some]

/-! ### What the automaton builds before a bracket -/

theorem endsInName_concat (before : List Node) {n : Node} :
    EndsInName (before ++ [n]) ↔ (∃ text, n = .tree "factor" [.token "IDENT" text]) ∨
      ∃ label children, n = .tree label children ∧
        label ∈ ["expr", "term", "condition", "conditions"] ∧ EndsInName children := by
  constructor
  · intro h
    generalize hnodes : before ++ [n] = nodes at h
    cases h with
    | name others text =>
      obtain ⟨-, hlast⟩ := List.append_inj' hnodes rfl
      exact .inl ⟨text, (List.cons.inj hlast).1⟩
    | inside others hlabel h =>
      obtain ⟨-, hlast⟩ := List.append_inj' hnodes rfl
      exact .inr ⟨_, _, (List.cons.inj hlast).1, hlabel, h⟩
  · rintro (⟨text, rfl⟩ | ⟨label, children, rfl, hlabel, h⟩)
    · exact .name before text
    · exact .inside before hlabel h

/-- A tree in which an operand can come last ends as its children do. -/
theorem endsInName_tree {label : String} {children : List Node}
    (hlabel : label ∈ ["expr", "term", "condition", "conditions"]) :
    EndsInName [.tree label children] ↔ EndsInName children := by
  refine ⟨fun h => ?_, fun h => .inside [] hlabel h⟩
  rcases (endsInName_concat []).mp h with ⟨text, heq⟩ | ⟨_, _, heq, -, hkids⟩
  · rw [(Node.tree.inj heq).1] at hlabel
    exact absurd hlabel (by decide)
  · obtain ⟨-, rfl⟩ := Node.tree.inj heq
    exact hkids

theorem EndsInName.of_append (before : List Node)
    (h : EndsInName (before ++ nodes)) (hne : nodes ≠ []) : EndsInName nodes := by
  have hsplit := List.dropLast_concat_getLast hne
  rw [← hsplit, ← List.append_assoc] at h
  rw [← hsplit]
  exact (endsInName_concat _).mpr ((endsInName_concat _).mp h)

theorem Production.exists_build_eq_tree (p : Production) (children : List Node)
    (hspliced : p.category.isSpliced = false) : ∃ others, p.build children = [.tree p.label others] := by
  unfold build
  rw [hspliced, if_neg Bool.false_ne_true]
  split
  · exact ⟨_, rfl⟩
  · exact ⟨_, rfl⟩

/-- What a production builds is one tree, or its children are spliced. -/
theorem Production.mem_build {n : Node} {children : List Node} (h : n ∈ p.build children) :
    n ∈ children ∨ p.category.isSpliced = false ∧ p.build children = [n] ∧
      ∃ cs, n = .tree p.label cs ∧ (cs = [.absent] ∨ cs = children) := by
  cases hspliced : p.category.isSpliced with
  | true =>
    rw [build, if_pos hspliced] at h
    exact .inl h
  | false =>
    rw [build, hspliced, if_neg Bool.false_ne_true] at h ⊢
    split at h <;> rename_i hmarks <;> obtain rfl := List.mem_singleton.mp h
    · exact .inr ⟨rfl, if_pos hmarks, _, rfl, .inl rfl⟩
    · exact .inr ⟨rfl, if_neg hmarks, _, rfl, .inr rfl⟩

/-- An operand is a single token, or it has a tree of its own, perhaps in parentheses. -/
theorem factor_cases (hp : p ∈ productions) (hcat : p.category = .factor) :
    p.label = "factor" ∧ p.marksAbsence = false ∧
      ((∃ t ∈ [Terminal.ident, .number, .quotedText], p.symbols = [.terminal t]) ∨
        ∃ c ∈ Category.all, c.isSpliced = false ∧ (p.symbols = [.category c] ∨
          p.symbols = [.terminal .openParen, .category c, .terminal .closeParen])) := by
  revert p
  decide +kernel

/-- Only a name alone makes an operand of a name. -/
theorem isName_of_derives (hp : p ∈ productions) (hcat : p.category = .factor)
    {text : String} (h : Derives allowed p.symbols ls next [.token "IDENT" text]) : p.isName = true := by
  obtain ⟨-, -, ⟨t, ht, hsyms⟩ | ⟨c, -, hspliced, hsyms | hsyms⟩⟩ := factor_cases hp hcat
  · rw [hsyms] at h
    obtain ⟨word, rest, after, -, -, hnodes, hrest⟩ := h.terminal_inv
    obtain ⟨-, rfl⟩ := hrest.nil_inv
    simp only [List.mem_cons, List.not_mem_nil, or_false] at ht
    rcases ht with rfl | rfl | rfl
    · simp [Production.isName, hcat, hsyms]
    · simp [Lexeme.nodes, Terminal.isKept, Terminal.name] at hnodes
    · simp [Lexeme.nodes, Terminal.isKept, Terminal.name] at hnodes
  · rw [hsyms] at h
    obtain ⟨q, inner, rfl, hnodes, -⟩ := h.single_inv
    obtain ⟨children, hbuild⟩ := q.exists_build_eq_tree inner hspliced
    simp [hbuild] at hnodes
  · rw [hsyms] at h
    obtain ⟨word, rest, after, -, -, hnodes, hrest⟩ := h.terminal_inv
    obtain ⟨q, phrase, behind, inner, last, rfl, -, rfl, -⟩ := hrest.category_inv
    obtain ⟨children, hbuild⟩ := q.exists_build_eq_tree inner hspliced
    simp [hbuild, Lexeme.nodes, Terminal.isKept] at hnodes

/-- A name alone is never finished before an opening bracket. -/
theorem not_finishes_name (hname : p.isName = true) : ¬ automaton.Finishes p .openBracket := by
  rintro ⟨state, i, hp, hact⟩
  have hcheck : ∀ state ∈ List.range automaton.states.length,
      (match automaton.action? state .openBracket with
        | some (.reduce i) => productions[i]?.any Production.isName
        | _ => false) = false := by
    decide +kernel
  have hstate := hcheck state
    (List.mem_range.mpr (Automaton.lt_of_action (t := .openBracket) (by rw [hact]; rfl)))
  have hp' : productions[i]? = some p := hp
  simp [hact, hp', hname] at hstate

theorem openEnded_last (hp : p ∈ productions) (hcat : (Symbol.category p.category).isOpenEnded = true) :
    p.category = .factor ∨ ∃ x, p.symbols.getLast? = some x ∧ x.isOpenEnded = true := by
  change p.category = .factor ∨ ∃ x ∈ p.symbols.getLast?, x.isOpenEnded = true
  revert p
  decide

/-- A production that is finished before a bracket does not end in a name if its children do not. -/
theorem not_endsInName_build
    (hfin : automaton.Finishes p next) (hcat : (Symbol.category p.category).isOpenEnded = true)
    (h : Derives automaton.Finishes p.symbols ls next inner)
    (hinner : ∀ x, p.symbols.getLast? = some x → x.isOpenEnded = true →
      inner ≠ [] ∧ (next = .openBracket → ¬ EndsInName inner)) :
    p.build inner ≠ [] ∧ (next = .openBracket → ¬ EndsInName (p.build inner)) := by
  have hp := mem_productions_of_finishes hfin
  rcases openEnded_last hp hcat with hfactor | ⟨x, hlast, hx⟩
  · obtain ⟨hlabel, habs, -⟩ := factor_cases hp hfactor
    rw [Production.build_eq (by rw [hfactor]; rfl) habs, hlabel]
    refine ⟨List.cons_ne_nil _ _, ?_⟩
    rintro rfl hname
    rcases (endsInName_concat []).mp hname with ⟨text, heq⟩ | ⟨label, children, heq, hmem, -⟩
    · obtain ⟨-, rfl⟩ := Node.tree.inj heq
      exact not_finishes_name (isName_of_derives hp hfactor h) hfin
    · rw [← (Node.tree.inj heq).1] at hmem
      exact absurd hmem (by decide)
  · obtain ⟨hne, hnot⟩ := hinner x hlast hx
    obtain ⟨-, habs, hspliced | ⟨hspliced, hlabels⟩⟩ := openEnded_cases hp ⟨_, hlast, hx⟩ (.inr hcat)
    · have hbuild : p.build inner = inner := by simp [Production.build, hspliced]
      rw [hbuild]
      exact ⟨hne, hnot⟩
    · rw [Production.build_eq hspliced habs]
      rw [endsInName_tree hlabels]
      exact ⟨List.cons_ne_nil _ _, hnot⟩

/-- What the automaton builds before a bracket does not end in a name. -/
theorem Derives.not_endsInName (h : Derives automaton.Finishes symbols ls next nodes) {x : Symbol}
    (hlast : symbols.getLast? = some x) (hx : x.isOpenEnded = true) :
    nodes ≠ [] ∧ (next = .openBracket → ¬ EndsInName nodes) := by
  induction h generalizing x with
  | nil => cases hlast
  | @terminal t word symbols rest next nodes hword hrest ih =>
    by_cases hempty : symbols = []
    · obtain rfl : .terminal t = x := by simpa [hempty] using hlast
      cases hx
    · rw [List.getLast?_cons_of_ne_nil hempty] at hlast
      obtain ⟨hne, hnot⟩ := ih hlast hx
      exact ⟨by simp [hne], fun hnext hname => hnot hnext (EndsInName.of_append _ hname hne)⟩
  | @category p symbols phrase rest next inner nodes hfin hinner hrest ihinner ihrest =>
    by_cases hempty : symbols = []
    · subst hempty
      obtain rfl : .category p.category = x := by simpa using hlast
      obtain ⟨rfl, rfl⟩ := hrest.nil_inv
      rw [List.append_nil]
      exact not_endsInName_build hfin hx hinner fun y hy hopen => ihinner hy hopen
    · rw [List.getLast?_cons_of_ne_nil hempty] at hlast
      obtain ⟨hne, hnot⟩ := ihrest hlast hx
      exact ⟨by simp [hne], fun hnext hname => hnot hnext (EndsInName.of_append _ hname hne)⟩

/-! ### The last two lexemes -/

/-- The last lexeme is a name, and not the member of another name. -/
def EndsBare (ls : List Lexeme) : Prop :=
  ∃ before word, ls = before ++ [(.ident, word)] ∧ ∀ x, before.getLast? = some x → x.1 ≠ .dot

theorem EndsBare.getLast? (h : EndsBare ls) : ∃ word, ls.getLast? = some (.ident, word) := by
  obtain ⟨before, word, rfl, -⟩ := h
  exact ⟨word, List.getLast?_concat⟩

/-- What stands before the last lexemes does not matter, unless it ends in a dot. -/
theorem endsBare_append {first second : List Lexeme} (hne : second ≠ [])
    (hdot : ∀ x, first.getLast? = some x → x.1 ≠ .dot) : EndsBare (first ++ second) ↔ EndsBare second := by
  obtain ⟨before, last, rfl⟩ : ∃ before last, second = before ++ [last] :=
    ⟨_, _, (List.dropLast_concat_getLast hne).symm⟩
  rw [← List.append_assoc]
  constructor
  · rintro ⟨others, word, heq, hlast⟩
    obtain ⟨rfl, hword⟩ := List.append_inj' heq rfl
    refine ⟨before, word, by rw [hword], fun x hx => hlast x ?_⟩
    rw [List.getLast?_append, hx, Option.some_or]
  · rintro ⟨others, word, heq, hlast⟩
    obtain ⟨rfl, hword⟩ := List.append_inj' heq rfl
    refine ⟨first ++ before, word, by rw [hword], fun x hx => ?_⟩
    rw [List.getLast?_append] at hx
    cases hbefore : before.getLast? with
    | none =>
      rw [hbefore, Option.none_or] at hx
      exact hdot x hx
    | some y =>
      rw [hbefore, Option.some_or] at hx
      obtain rfl := Option.some.inj hx
      exact hlast y hbefore

/-- The rules of expressions are not empty and do not end in a dot. -/
theorem expression_last (hp : p ∈ productions) (hcat : (Symbol.category p.category).isExpression = true) :
    p.symbols ≠ [] ∧ p.symbols.getLast? ≠ some (.terminal .dot) := by
  revert p
  decide

namespace Derives

variable {symbols : List Symbol} {ls : List Lexeme} {next : Terminal} {nodes : List Node}

/-- A phrase of an expression has a last lexeme, which is not a dot. -/
theorem exists_last (h : DerivesAny symbols ls next nodes)
    (hall : ∀ x ∈ symbols, x.isExpression = true) (hne : symbols ≠ [])
    (hdot : symbols.getLast? ≠ some (.terminal .dot)) : ∃ y, ls.getLast? = some y ∧ y.1 ≠ .dot := by
  induction h with
  | nil => exact absurd rfl hne
  | @terminal t word symbols rest _ _ _ hrest ih =>
    by_cases hempty : symbols = []
    · subst hempty
      obtain ⟨rfl, -⟩ := hrest.nil_inv
      refine ⟨(t, word), rfl, ?_⟩
      rintro rfl
      exact hdot rfl
    · rw [List.getLast?_cons_of_ne_nil hempty] at hdot
      obtain ⟨y, hy, hyd⟩ := ih (fun x hx => hall x (.tail _ hx)) hempty hdot
      exact ⟨y, by rw [List.getLast?_cons, hy, Option.getD_some], hyd⟩
  | @category p symbols phrase rest _ _ _ hp _ hrest ihinner ihrest =>
    by_cases hempty : symbols = []
    · subst hempty
      obtain ⟨rfl, -⟩ := hrest.nil_inv
      have hcat := hall _ (.head _)
      obtain ⟨hsolid, hlast⟩ := expression_last hp hcat
      rw [List.append_nil]
      exact ihinner (expression_cases hp hcat).1 hsolid hlast
    · rw [List.getLast?_cons_of_ne_nil hempty] at hdot
      obtain ⟨y, hy, hyd⟩ := ihrest (fun x hx => hall x (.tail _ hx)) hempty hdot
      exact ⟨y, by rw [List.getLast?_append, hy, Option.some_or], hyd⟩

/-- A terminal at the end is the last lexeme. -/
theorem getLast?_of_terminal {t : Terminal}
    (h : Derives allowed symbols ls next nodes) (hlast : symbols.getLast? = some (.terminal t)) :
    ∃ word, ls.getLast? = some (t, word) := by
  induction h with
  | nil => cases hlast
  | @terminal u word symbols rest _ _ _ hrest ih =>
    by_cases hempty : symbols = []
    · subst hempty
      obtain ⟨rfl, -⟩ := hrest.nil_inv
      obtain rfl : u = t := by simpa using hlast
      exact ⟨word, rfl⟩
    · rw [List.getLast?_cons_of_ne_nil hempty] at hlast
      obtain ⟨word', hword⟩ := ih hlast
      exact ⟨word', by rw [List.getLast?_cons, hword, Option.getD_some]⟩
  | @category p symbols phrase rest _ _ _ _ _ hrest _ ihrest =>
    by_cases hempty : symbols = []
    · subst hempty
      cases hlast
    · rw [List.getLast?_cons_of_ne_nil hempty] at hlast
      obtain ⟨word, hword⟩ := ihrest hlast
      exact ⟨word, by rw [List.getLast?_append, hword, Option.some_or]⟩

/-- What ends in another terminal does not end in a name. -/
theorem not_endsBare {t : Terminal}
    (h : Derives allowed symbols ls next nodes) (hlast : symbols.getLast? = some (.terminal t))
    (ht : t ≠ .ident) : ¬ EndsBare ls := by
  intro hbare
  obtain ⟨word, hword⟩ := h.getLast?_of_terminal hlast
  obtain ⟨name, hname⟩ := hbare.getLast?
  rw [hword] at hname
  exact ht (Prod.mk.inj (Option.some.inj hname)).1

end Derives

/-- An operand with a tree of its own ends in a mark, or in the member of a name. -/
theorem operand_last {q : Production} {c : Category} (hp : p ∈ productions)
    (hfactor : p.category = .factor) (hsyms : p.symbols = [.category c]) (hq : q ∈ productions)
    (hcat : q.category = c) : q.symbols = [.terminal .ident, .terminal .dot, .terminal .ident] ∨
      ∃ t, q.symbols.getLast? = some (.terminal t) ∧ t ≠ .ident := by
  have hcheck : ∀ p ∈ productions, p.category = .factor → ∀ q ∈ productions,
      p.symbols = [.category q.category] →
        q.symbols = [.terminal .ident, .terminal .dot, .terminal .ident] ∨
          ∃ t ∈ [Terminal.closeParen, .closeBracket, .bar],
            q.symbols.getLast? = some (.terminal t) := by
    decide +kernel
  subst hcat
  rcases hcheck p hp hfactor q hq hsyms with hmem | ⟨t, ht, hlast⟩
  · exact .inl hmem
  · refine .inr ⟨t, hlast, ?_⟩
    rintro rfl
    exact absurd ht (by decide)

/-- An operand is a name alone if its last lexeme is. -/
theorem endsInName_factor_iff (hp : p ∈ productions) (hcat : p.category = .factor)
    (h : DerivesAny p.symbols ls next inner) : EndsInName (p.build inner) ↔ EndsBare ls := by
  have hname : EndsInName (p.build inner) ↔ p.isName = true := by
    refine ⟨fun hends => ?_, fun hname => endsInName_build_name hp hname h⟩
    obtain ⟨hlabel, habs, -⟩ := factor_cases hp hcat
    rw [Production.build_eq (by rw [hcat]; rfl) habs, hlabel] at hends
    rcases (endsInName_concat []).mp hends with ⟨text, heq⟩ | ⟨label, children, heq, hmem, -⟩
    · obtain ⟨-, rfl⟩ := Node.tree.inj heq
      exact isName_of_derives hp hcat h
    · rw [← (Node.tree.inj heq).1] at hmem
      exact absurd hmem (by decide)
  rw [hname]
  constructor
  · intro hname
    simp only [Production.isName, Bool.and_eq_true, decide_eq_true_eq] at hname
    rw [hname.2] at h
    obtain ⟨word, rest, after, -, rfl, -, hrest⟩ := h.terminal_inv
    obtain ⟨rfl, -⟩ := hrest.nil_inv
    exact ⟨[], word, rfl, by simp⟩
  · intro hbare
    obtain ⟨-, -, ⟨t, ht, hsyms⟩ | ⟨c, -, -, hsyms | hsyms⟩⟩ := factor_cases hp hcat
    · by_contra hname
      refine h.not_endsBare (t := t) (by rw [hsyms]; rfl) ?_ hbare
      rintro rfl
      exact hname (by simp [Production.isName, hcat, hsyms])
    · rw [hsyms] at h
      obtain ⟨q, inner, hq, -, hallowed, hinner⟩ := h.single_inv
      rcases operand_last hp hcat hsyms hallowed hq with hmember | ⟨t, hlast, ht⟩
      · -- The last lexeme is a name, but a dot stands before it.
        rw [hmember] at hinner
        obtain ⟨first, rest, after, -, rfl, -, hinner⟩ := hinner.terminal_inv
        obtain ⟨dot, rest, after, -, rfl, -, hinner⟩ := hinner.terminal_inv
        obtain ⟨last, rest, after, -, rfl, -, hinner⟩ := hinner.terminal_inv
        obtain ⟨rfl, -⟩ := hinner.nil_inv
        obtain ⟨before, word, heq, hdot⟩ := hbare
        obtain ⟨rfl, -⟩ := List.append_inj'
          (show [(Terminal.ident, first), (.dot, dot)] ++ [(.ident, last)] = before ++ _ from heq) rfl
        exact absurd rfl (hdot (.dot, dot) rfl)
      · exact absurd hbare (hinner.not_endsBare hlast ht)
    · exact absurd hbare (h.not_endsBare (t := .closeParen) (by rw [hsyms]; rfl) (by decide))

/-- The rules for what is open-ended hold no dots. -/
theorem openEnded_not_dot (hp : p ∈ productions)
    (hcat : (Symbol.category p.category).isOpenEnded = true) : .terminal .dot ∉ p.symbols := by
  revert p
  decide

/-- An expression ends in a name if its last lexeme is one and no member of another name. -/
theorem Derives.endsInName_iff (h : DerivesAny symbols ls next nodes)
    (hall : ∀ x ∈ symbols, x.isExpression = true) (hdot : .terminal .dot ∉ symbols) {x : Symbol}
    (hlast : symbols.getLast? = some x) (hx : x.isOpenEnded = true) :
    nodes ≠ [] ∧ ls ≠ [] ∧ (EndsInName nodes ↔ EndsBare ls) := by
  have happend : ∀ {before nodes : List Node} (first : List Lexeme) {second : List Lexeme},
      nodes ≠ [] ∧ second ≠ [] ∧ (EndsInName nodes ↔ EndsBare second) → (∀ x, first.getLast? = some x → x.1 ≠ .dot) →
      before ++ nodes ≠ [] ∧ first ++ second ≠ [] ∧
        (EndsInName (before ++ nodes) ↔ EndsBare (first ++ second)) := by
    rintro before nodes first second ⟨hnodes, hsnd, hiff⟩ hfirst
    refine ⟨by simp [hnodes], by simp [hsnd], ?_⟩
    rw [endsBare_append hsnd hfirst, ← hiff]
    exact ⟨fun h => EndsInName.of_append before h hnodes, fun h => h.append_left before⟩
  induction h generalizing x with
  | nil => cases hlast
  | @terminal t word symbols rest next nodes hword hrest ih =>
    by_cases hempty : symbols = []
    · obtain rfl : .terminal t = x := by simpa [hempty] using hlast
      cases hx
    · rw [List.getLast?_cons_of_ne_nil hempty] at hlast
      obtain ⟨ht, hothers⟩ := List.ne_and_not_mem_of_not_mem_cons hdot
      have hlater := ih (fun y hy => hall y (.tail _ hy)) hothers hlast hx
      refine happend [(t, word)] hlater fun y hy => ?_
      cases hy
      rintro rfl
      exact ht rfl
  | @category p symbols phrase rest next inner nodes hp hinner hrest ihinner ihrest =>
    have hcat := hall _ (.head _)
    have hsyms := (expression_cases hp hcat).1
    by_cases hempty : symbols = []
    · subst hempty
      obtain rfl : .category p.category = x := by simpa using hlast
      obtain ⟨rfl, rfl⟩ := hrest.nil_inv
      rw [List.append_nil, List.append_nil]
      rcases openEnded_last hp hx with hfactor | ⟨y, hy, hopen⟩
      · obtain ⟨hlabel, habs, -⟩ := factor_cases hp hfactor
        obtain ⟨hsolid, hend⟩ := expression_last hp hcat
        obtain ⟨z, hz, -⟩ := hinner.exists_last hsyms hsolid hend
        refine ⟨?_, ?_, endsInName_factor_iff hp hfactor hinner⟩
        · rw [Production.build_eq (by rw [hfactor]; rfl) habs]
          exact List.cons_ne_nil _ _
        · rintro rfl
          cases hz
      · obtain ⟨hnodes, hls, hiff⟩ := ihinner hsyms (openEnded_not_dot hp hx) hy hopen
        obtain ⟨-, habs, hspliced | ⟨hspliced, hlabels⟩⟩ := openEnded_cases hp ⟨_, hy, hopen⟩ (.inr hx)
        · have hbuild : p.build inner = inner := by simp [Production.build, hspliced]
          rw [hbuild]
          exact ⟨hnodes, hls, hiff⟩
        · rw [Production.build_eq hspliced habs]
          refine ⟨List.cons_ne_nil _ _, hls, ?_⟩
          rw [← hiff, endsInName_tree hlabels]
    · rw [List.getLast?_cons_of_ne_nil hempty] at hlast
      obtain ⟨-, hothers⟩ := List.ne_and_not_mem_of_not_mem_cons hdot
      have hlater := ihrest (fun y hy => hall y (.tail _ hy)) hothers hlast hx
      refine happend phrase hlater fun y hy => ?_
      obtain ⟨hsolid, hend⟩ := expression_last hp hcat
      obtain ⟨z, hz, hzdot⟩ := hinner.exists_last hsyms hsolid hend
      cases hz.symm.trans hy
      exact hzdot

end FapLang.Grammar
