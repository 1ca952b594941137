import FapLang.Proofs.Grammar.Reading

/-!
Expressions and conditions: the part of the grammar that stands on one line. What a phrase begins
with (`first`) and what may come after it (`fits`) are settled by the rules, so its lexemes can be
told apart (`feeds_of_laid`).
-/

namespace FapLang.Grammar

open Lexeme

variable {c : Category} {ls second : List Lexeme} {nodes : List Node} {p : Production} {next : Terminal}

/-! ### Rules -/

/-- The terminals of expressions and conditions. -/
def inlineTerminals : List Terminal :=
  punctuation ++ [.ident, .number, .readInput, .readInputLong]

/-- The categories of expressions and conditions. -/
def Category.isInline : Category → Bool
  | .conditions | .condition | .expr | .moreTerms | .term | .moreFactors | .factor
  | .memberAccessExpr | .inputCall | .mathFuncCall | .listLiteral | .listAccess | .absExpr | .funcCall
  | .moreExprs => true
  | _ => false

def Symbol.isInline : Symbol → Bool
  | .terminal t => inlineTerminals.contains t
  | .category c => c.isInline

/-- The productions that use nothing but that. -/
def inlineRules : List Production :=
  productions.filter fun p => p.category.isInline && p.symbols.all Symbol.isInline

/-- The terminals that a symbol can begin with. -/
def Symbol.first : Symbol → List Terminal
  | .terminal t => [t]
  | .category c =>
    match c with
    | .conditions | .condition | .expr | .term | .factor => exprOpeners
    | .moreTerms => [.addOp]
    | .moreFactors => [.mulOp]
    | .moreExprs => [.comma]
    | .memberAccessExpr | .listAccess | .mathFuncCall | .funcCall => [.ident]
    | .inputCall => [.readInput, .readInputLong]
    | .listLiteral => [.openBracket]
    | .absExpr => [.bar]
    | _ => []

/-- Whether a word of the second terminal can be told apart right after one of the first. -/
def Terminal.touches (t u : Terminal) : Bool :=
  u = .finish ||
    match t with
    | .ident | .readInput => punctuation.contains u
    | .number => punctuation.contains u && u ≠ .dot
    | _ => inlineTerminals.contains u

/-- The terminals that go on after a category on the same line, and the end of the text. -/
def Category.stops (c : Category) : List Terminal :=
  (followers c).filter
    [.mulOp, .addOp, .comparison, .comma, .closeParen, .closeBracket, .bar, .finish].contains

/-- Whether a terminal may come after a symbol within a rule. -/
def Symbol.mayPrecede (x : Symbol) (next : Terminal) : Bool :=
  match x with
  | .terminal t => t.touches next
  | .category c => c.stops.contains next

/-- Whether a terminal may come after a symbol at the end of a phrase; there a block may follow. -/
def Symbol.mayEndBefore (x : Symbol) (next : Terminal) : Bool :=
  x.mayPrecede next ||
    match x with
    | .terminal _ => false
    | .category c => next = .openBracket && (followers c).contains .openBracket

/-- Whether symbols may stand in this order before `next`. -/
def fits : List Symbol → Terminal → Bool
  | [], _ => true
  | [x], next => x.mayEndBefore next
  | x :: y :: rest, next => y.first.all x.mayPrecede && fits (y :: rest) next

theorem mem_inlineRules : p ∈ inlineRules ↔
      p ∈ productions ∧ p.category.isInline = true ∧ p.symbols.all Symbol.isInline = true := by
  simp [inlineRules]

/-- No rule is empty, and each begins with what its category can begin with. -/
theorem inlineRules_first (hp : p ∈ inlineRules) :
    ∃ x rest, p.symbols = x :: rest ∧ ∀ t ∈ x.first, t ∈ (Symbol.category p.category).first := by
  have hcheck : ∀ p ∈ inlineRules, (match p.symbols with
      | [] => false
      | x :: _ => x.first.all (Symbol.category p.category).first.contains) = true := by
    decide
  have hp := hcheck p hp
  cases hsyms : p.symbols with
  | nil => simp [hsyms] at hp
  | cons x rest =>
    simp only [hsyms, List.all_eq_true, List.contains_iff_mem] at hp
    exact ⟨x, rest, rfl, hp⟩

/-- The symbols of a rule may stand before whatever may come after its category. -/
theorem inlineRules_fits (hp : p ∈ inlineRules)
    (hnext : (Symbol.category p.category).mayEndBefore next = true) : fits p.symbols next = true := by
  have hcheck : ∀ p ∈ inlineRules, ∀ next ∈ Terminal.all ++ [Terminal.finish],
      (Symbol.category p.category).mayEndBefore next = true → fits p.symbols next = true := by
    decide
  exact hcheck p hp next next.mem_all hnext

theorem Symbol.mayEndBefore_of_mayPrecede {x : Symbol} (h : x.mayPrecede next = true) : x.mayEndBefore next = true := by
  unfold mayEndBefore
  rw [h, Bool.true_or]

/-- No category is followed by an opening bracket within a rule. -/
theorem Symbol.ne_openBracket_of_mayPrecede (h : (Symbol.category c).mayPrecede next = true) : next ≠ .openBracket := by
  rintro rfl
  simp [mayPrecede, Category.stops] at h

/-- Derivations by the rules of expressions and conditions. -/
abbrev DerivesInline : List Symbol → List Lexeme → Terminal → List Node → Prop :=
  Derives fun p _ ↦ p ∈ inlineRules

namespace Derives

variable {x : Symbol} {symbols : List Symbol} {ls : List Lexeme} {next : Terminal} {nodes : List Node}

/-- A phrase begins with one of the first terminals of its first symbol. -/
theorem exists_first (h : DerivesInline (x :: symbols) ls next nodes) : ∃ y rest, ls = y :: rest ∧ y.1 ∈ x.first := by
  generalize hall : x :: symbols = all at h
  induction h generalizing x symbols with
  | nil => exact absurd hall (List.cons_ne_nil _ _)
  | @terminal t word _ rest _ _ _ _ _ =>
    cases hall
    exact ⟨(t, word), rest, rfl, List.mem_singleton_self t⟩
  | @category p _ phrase rest _ _ _ hp _ _ ihinner _ =>
    cases hall
    obtain ⟨y, others, hsyms, hfirst⟩ := inlineRules_first hp
    obtain ⟨z, behind, rfl, hz⟩ := ihinner hsyms.symm
    exact ⟨z, behind ++ rest, rfl, hfirst _ hz⟩

/-- What comes after a symbol is what may come after it. -/
theorem fits_cons (h : DerivesInline symbols ls next nodes) (hfits : fits (x :: symbols) next = true) :
    x.mayEndBefore (leading ls next) = true ∧ fits symbols next = true ∧
      (symbols ≠ [] → x.mayPrecede (leading ls next) = true) := by
  cases symbols with
  | nil =>
    obtain ⟨rfl, -⟩ := h.nil_inv
    exact ⟨hfits, rfl, fun hne => absurd rfl hne⟩
  | cons y symbols =>
    rw [fits, Bool.and_eq_true, List.all_eq_true] at hfits
    obtain ⟨z, rest, rfl, hz⟩ := h.exists_first
    have hprecede := hfits.1 z.1 hz
    exact ⟨Symbol.mayEndBefore_of_mayPrecede hprecede, hfits.2, fun _ => hprecede⟩

end Derives

/-! ### Lexemes that touch -/

/-- Each lexeme can be told apart from the next, also if they touch. -/
def Touching : List Lexeme → Terminal → Prop
  | [], _ => True
  | x :: ls, next => x.1.touches (leading ls next) = true ∧ Touching ls next

theorem Touching.append {first : List Lexeme}
    (hfirst : Touching first (leading second next)) (hsnd : Touching second next) :
    Touching (first ++ second) next := by
  induction first with
  | nil => exact hsnd
  | cons x first ih =>
    obtain ⟨hx, hrest⟩ := hfirst
    rw [List.cons_append]
    refine ⟨?_, ih hrest⟩
    rwa [leading_append]

/-- The lexemes of a phrase can be told apart. -/
theorem Derives.touching {symbols : List Symbol}
    (h : DerivesInline symbols ls next nodes) (hfits : fits symbols next = true) : Touching ls next := by
  induction h with
  | nil => exact trivial
  | terminal hword hrest ih =>
    obtain ⟨hx, hfits, -⟩ := hrest.fits_cons hfits
    refine ⟨?_, ih hfits⟩
    simpa [Symbol.mayEndBefore, Symbol.mayPrecede] using hx
  | category hp hinner hrest ihinner ihrest =>
    obtain ⟨hx, hfits, -⟩ := hrest.fits_cons hfits
    exact (ihinner (inlineRules_fits hp hx)).append (ihrest hfits)

/-- A text ends before a character that none of the texts goes on with. -/
theorem Pattern.oneOf_endsBefore {texts : List String} {after : List Char} (hsolid : ∀ text ∈ texts, text.toList ≠ [])
    (h : ∀ c, after.head? = some c → ∀ text ∈ texts, c ∉ text.toList.tail) :
    (Pattern.oneOf texts).EndsBefore after := by
  intro first hfirst second hsnd hstart
  rcases List.prefix_or_prefix_of_prefix hstart (List.prefix_append _ _) with hshort | ⟨more, hmore⟩
  · exact hshort
  · -- A longer text would go on with the first character after the shorter one.
    rw [← hmore, List.prefix_append_right_inj] at hstart
    cases more with
    | nil => exact ⟨[], by rw [← hmore, List.append_nil, List.append_nil]⟩
    | cons c more =>
      obtain ⟨rest, rfl⟩ := hstart
      obtain ⟨d, tail, hd⟩ := List.exists_cons_of_ne_nil (hsolid first hfirst)
      refine absurd ?_ (h c rfl second hsnd)
      rw [← hmore, hd]
      simp

/-- What follows a word begins with a gap, or as the next word does. -/
theorem Terminal.Spells.head_cases {u : Terminal} {gap word rest : List Char} (hword : u.Spells word) (hgap : IsGap gap)
    {c : Char} (hc : (gap ++ (word ++ rest)).head? = some c) : isGap c = true ∨ u.pattern.opens c = true := by
  cases gap with
  | nil =>
    obtain ⟨d, tail, rfl, hd⟩ := hword.exists_opens
    obtain rfl := Option.some.inj hc
    exact .inr hd
  | cons d gap =>
    obtain rfl := Option.some.inj hc
    exact .inl (hgap.1 d (.head _))

/-- Two words that may touch are told apart, with or without a gap between them. -/
theorem Terminal.endsBefore_of_touches {t u : Terminal} (ht : t ∈ inlineTerminals)
    (hu : u ∈ inlineTerminals) (h : t.touches u = true) {gap word rest : List Char} (hgap : IsGap gap)
    (hword : u.Spells word) : t.EndsBefore (gap ++ (word ++ rest)) := by
  have hgoes : u ≠ .finish := by
    rintro rfl
    exact absurd hu (by decide)
  unfold touches at h
  rw [decide_eq_false hgoes, Bool.false_or] at h
  have hblank : ∀ {c}, isGap c = true → isNameChar c = false ∧ c ≠ '.' ∧ c ≠ '=' := by
    intro c hc
    simp only [isGap, Bool.or_eq_true, decide_eq_true_eq] at hc
    rcases hc with (((rfl | rfl) | rfl) | rfl) | rfl <;> decide
  have hmarks : ∀ u ∈ punctuation,
      u.pattern.firsts.all (fun c => !isNameChar c && (u = .dot || c ≠ '.')) = true := by
    decide
  have hequals : ∀ u ∈ inlineTerminals, u.pattern.opens '=' = false := by
    decide
  have hnamed : u ∈ punctuation → Pattern.identifier.EndsBefore (gap ++ (word ++ rest)) := by
    intro hu c hc
    rcases hword.head_cases hgap hc with hc | hc
    · exact (hblank hc).1
    · have hmark := List.all_eq_true.mp (hmarks u hu) c (Terminal.mem_firsts hu hc)
      simp only [Bool.and_eq_true, Bool.not_eq_true'] at hmark
      exact hmark.1
  have hone : ∀ texts : List String, (∀ text ∈ texts, text.toList ≠ []) →
      (∀ text ∈ texts, text.toList.tail.all (· = '=') = true) →
      (Pattern.oneOf texts).EndsBefore (gap ++ (word ++ rest)) := by
    intro texts hsolid htails
    refine Pattern.oneOf_endsBefore hsolid fun c hc text htext hmem => ?_
    obtain rfl : c = '=' := by simpa using List.all_eq_true.mp (htails text htext) c hmem
    rcases hword.head_cases hgap hc with hc | hc
    · exact (hblank hc).2.2 rfl
    · rw [hequals u hu] at hc
      exact Bool.false_ne_true hc
  simp only [inlineTerminals, List.mem_append, List.mem_cons, List.not_mem_nil, or_false] at ht
  rcases ht with ht | rfl | rfl | rfl | rfl
  · simp only [punctuation, List.mem_cons, List.not_mem_nil, or_false] at ht
    rcases ht with rfl | rfl | rfl | rfl | rfl | rfl | rfl | rfl | rfl | rfl | rfl
    · exact trivial
    all_goals exact hone _ (by decide) (by decide)
  · exact hnamed (List.contains_iff_mem.mp h)
  · simp only [Bool.and_eq_true, List.contains_iff_mem, decide_eq_true_eq] at h
    intro c hc
    have hname := hnamed h.1 c hc
    simp only [isNameChar, Bool.or_eq_false_iff] at hname
    refine ⟨hname.2, ?_⟩
    rcases hword.head_cases hgap hc with hc | hc
    · exact (hblank hc).2.1
    · have hmark := List.all_eq_true.mp (hmarks u h.1) c (Terminal.mem_firsts h.1 hc)
      simpa [h.2] using (Bool.and_eq_true_iff.mp hmark).2
  · exact hnamed (List.contains_iff_mem.mp h)
  · -- There is only one text, so none is longer.
    intro first hfirst second hsnd _
    obtain rfl := List.mem_singleton.mp hfirst
    obtain rfl := List.mem_singleton.mp hsnd
    exact List.prefix_rfl

/-- `Laid ls text`: the text is the words of the lexemes, each perhaps after a gap. -/
inductive Laid : List Lexeme → List Char → Prop
  | nil : Laid [] []
  | cons {t : Terminal} {word gap text : List Char} {ls : List Lexeme} (hgap : IsGap gap)
      (hword : t.Spells word) (hrest : Laid ls text) : Laid ((t, word) :: ls) (gap ++ (word ++ text))

/-- A blank in front is part of the first gap. -/
theorem Laid.blank {text : List Char} (h : Laid ls text) (hne : ls ≠ []) : Laid ls (' ' :: text) := by
  cases h with
  | nil => exact absurd rfl hne
  | @cons t word gap text ls hgap hword hrest =>
    have hblank : IsGap (' ' :: gap) := by
      refine ⟨fun c hc => ?_, rfl⟩
      rcases List.mem_cons.mp hc with rfl | hc
      · decide
      · exact hgap.1 c hc
    exact .cons hblank hword hrest

/-- Two laid-out texts in a row. -/
theorem Laid.append {first : List Lexeme} {left right : List Char} (hfirst : Laid first left)
    (hsnd : Laid second right) : Laid (first ++ second) (left ++ right) := by
  induction hfirst with
  | nil => exact hsnd
  | cons hgap hword _ ih =>
    rw [List.append_assoc, List.append_assoc]
    exact .cons hgap hword ih

/-- Lexemes that can be told apart are fed by every text in which they are laid out. -/
theorem feeds_of_laid {more : List Lexeme} {text after tail : List Char} (h : Laid ls text)
    (htouching : Touching ls next) (hinline : ∀ x ∈ ls, x.1 ∈ inlineTerminals)
    (hafter : ∀ t ∈ inlineTerminals, t.touches next = true → t.EndsBefore after) (hmore : Feeds tail more after) :
    Feeds tail (ls ++ more) (text ++ after) := by
  induction h with
  | nil => exact hmore
  | @cons t word gap text ls hgap hword hrest ih =>
    obtain ⟨htouches, hothers⟩ := htouching
    have hfeeds := ih hothers fun x hx => hinline x (.tail _ hx)
    have ht := hinline (t, word) (.head _)
    rw [List.append_assoc, List.append_assoc]
    refine .cons hgap hword ?_ hfeeds
    cases hrest with
    | nil => exact hafter t ht htouches
    | @cons u _ space others _ hspace hother _ =>
      rw [List.append_assoc, List.append_assoc]
      exact Terminal.endsBefore_of_touches ht
        (hinline _ (.tail _ (.head _))) htouches hspace hother

/-! ### Calls with arguments -/

/-- What a derivation may begin with: expressions and lists of arguments. -/
def Symbol.isExpression (x : Symbol) : Bool :=
  x.isInline && x ≠ .category .conditions && x ≠ .category .condition || x = .category .funcArgs

/-- Lists of arguments are replaced by their expressions, and calls by calls in the other form. -/
inductive Resolves : List Symbol → List Symbol → Prop
  | nil : Resolves [] []
  | same {x : Symbol} {symbols others : List Symbol} (hx : x ≠ .category .funcArgs)
      (hrest : Resolves symbols others) : Resolves (x :: symbols) (x :: others)
  | call {symbols others : List Symbol} (hrest : Resolves symbols others) :
      Resolves (.category .funcCall :: symbols) (.category .mathFuncCall :: others)
  | args {symbols others : List Symbol} (hrest : Resolves symbols others) :
      Resolves (.category .funcArgs :: symbols) (.category .expr :: .category .moreExprs :: others)
  | arg {symbols others : List Symbol} (hrest : Resolves symbols others) :
      Resolves (.category .funcArgs :: symbols) (.category .expr :: others)

/-- Where there are neither calls nor arguments, there is nothing to replace. -/
theorem Resolves.eq {symbols others : List Symbol} (h : Resolves symbols others)
    (hcall : .category .funcCall ∉ symbols) (hargs : .category .funcArgs ∉ symbols) : others = symbols := by
  induction h with
  | nil => rfl
  | same _ _ ih =>
    rw [ih (fun hmem => hcall (.tail _ hmem))
      (fun hmem => hargs (.tail _ hmem))]
  | call => exact absurd (.head _) hcall
  | args => exact absurd (.head _) hargs
  | arg => exact absurd (.head _) hargs

/-- The productions of expressions: arguments, calls with arguments, calls as operands, and others.
-/
theorem expression_cases (hp : p ∈ productions) (hcat : (Symbol.category p.category).isExpression = true) :
    (∀ x ∈ p.symbols, x.isExpression = true) ∧
    (p.category = .funcArgs ∧ (p.symbols = [.category .expr, .category .moreExprs] ∨
        p.symbols = [.category .expr]) ∨
      p.category = .funcCall ∧
        p.symbols = [.terminal .ident, .terminal .openParen, .category .funcArgs, .terminal .closeParen] ∨
      p.category = .factor ∧ p.symbols = [.category .funcCall] ∨
      p ∈ inlineRules ∧ .category .funcCall ∉ p.symbols ∧ .category .funcArgs ∉ p.symbols) := by
  rw [mem_inlineRules, and_iff_right hp]
  revert p
  decide

theorem exists_inlineRule {i : Nat} {symbols : List Symbol}
    (h : (productions[i]?.map fun p => (p.category, p.symbols)) = some (c, symbols))
    (hinline : (c.isInline && symbols.all Symbol.isInline) = true) :
    ∃ p ∈ inlineRules, p.category = c ∧ p.symbols = symbols := by
  obtain ⟨p, hp, heq⟩ := Option.map_eq_some_iff.mp h
  cases heq
  exact ⟨p, mem_inlineRules.mpr ⟨List.mem_of_getElem? hp, by simpa using hinline⟩, rfl, rfl⟩

/-- The category of a rule stands for what the symbols of the rule derive. -/
theorem DerivesInline.cons {body symbols : List Symbol} {phrase rest : List Lexeme} {inner : List Node}
    (hrule : ∃ p ∈ inlineRules, p.category = c ∧ p.symbols = body)
    (hinner : DerivesInline body phrase (leading rest next) inner) (hrest : DerivesInline symbols rest next nodes) :
    ∃ nodes', DerivesInline (.category c :: symbols) (phrase ++ rest) next nodes' := by
  obtain ⟨p, hp, rfl, rfl⟩ := hrule
  exact ⟨_, .category hp hinner hrest⟩

/-- Every derivation can be brought into the form in which calls with arguments are built. -/
theorem Derives.exists_resolves {symbols : List Symbol} (h : DerivesAny symbols ls next nodes)
    (hall : ∀ x ∈ symbols, x.isExpression = true) :
    ∃ others nodes', Resolves symbols others ∧ DerivesInline others ls next nodes' := by
  induction h with
  | nil next => exact ⟨[], [], .nil, .nil next⟩
  | terminal hword _ ih =>
    obtain ⟨others, nodes', hothers, hrest⟩ := ih fun x hx => hall x (.tail _ hx)
    exact ⟨_, _, .same (by simp) hothers, .terminal hword hrest⟩
  | @category p symbols phrase rest next _ _ hp _ _ ihinner ihrest =>
    obtain ⟨others, nodes', hothers, hrest⟩ := ihrest fun x hx => hall x (.tail _ hx)
    obtain ⟨hsyms, hcases⟩ := expression_cases hp (hall _ (.head _))
    obtain ⟨body, inner, hbody, hinner⟩ := ihinner hsyms
    rcases hcases with ⟨hc, hargs⟩ | ⟨hc, hargs⟩ | ⟨hc, hargs⟩ | ⟨hrule, hcall, hargs⟩
    · -- Arguments dissolve into the list of which they are part.
      rw [hc]
      rcases hargs with hargs | hargs
      · rw [hargs] at hbody
        rw [hbody.eq (by simp) (by simp)] at hinner
        exact ⟨_, _, .args hothers, hinner.append hrest⟩
      · rw [hargs] at hbody
        rw [hbody.eq (by simp) (by simp)] at hinner
        exact ⟨_, _, .arg hothers, hinner.append hrest⟩
    · rw [hc]
      rw [hargs] at hbody
      obtain ⟨nodes'', hcall⟩ : ∃ nodes'',
          DerivesInline (.category .mathFuncCall :: others) (phrase ++ rest) next nodes'' := by
        cases hbody with
        | same _ hbody =>
          cases hbody with
          | same _ hbody =>
            cases hbody with
            | same hne => exact absurd rfl hne
            | args hbody =>
              rw [hbody.eq (by simp) (by simp)] at hinner
              exact DerivesInline.cons (exists_inlineRule (i := 91) rfl rfl) hinner hrest
            | arg hbody =>
              rw [hbody.eq (by simp) (by simp)] at hinner
              exact DerivesInline.cons (exists_inlineRule (i := 92) rfl rfl) hinner hrest
      exact ⟨_, _, .call hothers, hcall⟩
    · rw [hc]
      rw [hargs] at hbody
      obtain ⟨nodes'', hfactor⟩ : ∃ nodes'',
          DerivesInline (.category .factor :: others) (phrase ++ rest) next nodes'' := by
        cases hbody with
        | same _ hbody =>
          rw [hbody.eq (by simp) (by simp)] at hinner
          exact DerivesInline.cons (exists_inlineRule (i := 84) rfl rfl) hinner hrest
        | call hbody =>
          rw [hbody.eq (by simp) (by simp)] at hinner
          exact DerivesInline.cons (exists_inlineRule (i := 80) rfl rfl) hinner hrest
      exact ⟨_, _, .same (by simp) hothers, hfactor⟩
    · rw [hbody.eq hcall hargs] at hinner
      refine ⟨_, _, .same ?_ hothers, .category hrule hinner hrest⟩
      intro hfunc
      have hinline := (mem_inlineRules.mp hrule).2.1
      rw [Symbol.category.inj hfunc] at hinline
      exact Bool.false_ne_true hinline

/-- The tree of an expression in that form. -/
theorem Derives.resolve (h : DerivesAny [.category .expr] ls next nodes) :
    ∃ nodes', DerivesInline [.category .expr] ls next nodes' := by
  obtain ⟨others, nodes', hothers, hinline⟩ := h.exists_resolves (by decide)
  rw [hothers.eq (by simp) (by simp)] at hinline
  exact ⟨nodes', hinline⟩

end FapLang.Grammar
