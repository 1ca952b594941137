import FapLang.Proofs.Grammar.Brackets

/-!
The automaton reads expressions and conditions as the grammar derives them
(`Derives.passes_or_fails`), by a check over the table (`automaton_isComplete`). The exception is
the long form of the word for input, which makes the machine fail.
-/

namespace FapLang.Grammar

open Lexeme

variable {m : Automaton} {c : Category} {tail word : List Char}
  {first ls more others phrase rest second : List Lexeme} {last target : Nat} {p : Production} {s s' : Situation}
variable {symbols : List Symbol}
  {t : Terminal}
variable {state : Nat}

/-! ### Following the symbols of a rule -/

namespace Automaton

/-- The state after a terminal. Names are told apart from the word for input, and after a dot every
word is a name. -/
def past (m : Automaton) (state : Nat) (t : Terminal) : Option Nat :=
  match m.action? state t with
  | some (.shift target) =>
    if (t ≠ .ident || (Candidates.of (m.terminals state)).keywords.all (· = .readInput)) &&
        (t ≠ .readInput || (m.action? state .ident).isSome) &&
        (t ≠ .dot || (Candidates.of (m.terminals target)).keywords.isEmpty) then
      some target
    else none
  | _ => none

/-- The state after some symbols. -/
def follow (m : Automaton) : Nat → List Symbol → Option Nat
  | state, [] => some state
  | state, .terminal t :: symbols => (m.past state t).bind (m.follow · symbols)
  | state, .category c :: symbols => (m.goto? state c).bind (m.follow · symbols)

/-- The production with number `i` can be followed from a state, and is finished before whatever may
come after it, except for a name before a bracket. -/
def carries (m : Automaton) (state i : Nat) (p : Production) : Bool :=
  match m.follow state p.symbols with
  | none => false
  | some last => (Terminal.all ++ [Terminal.finish]).all fun next =>
    !(Symbol.category p.category).mayEndBefore next || (p.isName && next = .openBracket) ||
      m.action? last next = some (.reduce i)

def isComplete (m : Automaton) : Bool :=
  (List.range m.states.length).all fun state => (List.range m.productions.length).all fun i =>
    match m.productions[i]? with
    | some p => !(p.category.isInline && p.symbols.all Symbol.isInline) ||
      (m.goto? state p.category).isNone || m.carries state i p
    | none => true

end Automaton

theorem automaton_isComplete : automaton.isComplete = true := by
  decide +kernel

namespace Automaton

theorem past_eq_some (h : m.past state t = some target) : m.action? state t = some (.shift target) ∧
      (t = .ident → ∀ k ∈ (Candidates.of (m.terminals state)).keywords, k = .readInput) ∧
      (t = .readInput → (m.action? state .ident).isSome = true) ∧
      (t = .dot → (Candidates.of (m.terminals target)).keywords = []) := by
  unfold past at h
  split at h
  · rename_i found hact
    split_ifs at h with hguard
    cases h
    simp only [Bool.and_eq_true, Bool.or_eq_true, decide_eq_true_eq, List.all_eq_true, List.isEmpty_iff] at hguard
    obtain ⟨⟨hident, hinput⟩, hdot⟩ := hguard
    exact ⟨hact, fun ht => hident.resolve_left fun hne => hne ht,
      fun ht => hinput.resolve_left fun hne => hne ht, fun ht => hdot.resolve_left fun hne => hne ht⟩
  · cases h

theorem goto_lt (h : m.goto? state c = some target) : state < m.states.length := by
  rw [goto?] at h
  cases hstate : m.states[state]? with
  | none => simp [hstate] at h
  | some s => exact (List.getElem?_eq_some_iff.mp hstate).1

end Automaton

/-- A rule can be followed where its category is expected, and it is finished there. -/
theorem exists_follow (hp : p ∈ inlineRules) (hgoto : automaton.goto? state p.category = some target) :
    ∃ i last, automaton.productions[i]? = some p ∧ automaton.follow state p.symbols = some last ∧
      ∀ next, Ready p next → automaton.action? last next = some (.reduce i) := by
  obtain ⟨hprod, hinline⟩ := mem_inlineRules.mp hp
  obtain ⟨i, hi⟩ := List.getElem?_of_mem hprod
  have hi' : automaton.productions[i]? = some p := hi
  have hcomplete := List.all_eq_true.mp (List.all_eq_true.mp automaton_isComplete state
    (List.mem_range.mpr (Automaton.goto_lt hgoto))) i
    (List.mem_range.mpr (List.getElem?_eq_some_iff.mp hi').1)
  simp only [hi', hinline.1, hinline.2, hgoto, Bool.and_self, Bool.not_true, Option.isNone_some,
    Bool.false_or, Automaton.carries] at hcomplete
  cases hfollow : automaton.follow state p.symbols with
  | none => simp [hfollow] at hcomplete
  | some last =>
    refine ⟨i, last, hi', rfl, fun next hready => ?_⟩
    obtain ⟨-, hends, hname⟩ := hready
    simp only [hfollow, List.all_eq_true] at hcomplete
    have hnext := hcomplete next next.mem_all
    simp only [hends, Bool.not_true, Bool.false_or, Bool.or_eq_true, Bool.and_eq_true, decide_eq_true_eq] at hnext
    exact hnext.resolve_left hname

/-! ### What comes next -/

namespace Situation

/-- The lexemes that come next; the first may have been read ahead. -/
def Offers (s : Situation) (tail : List Char) (ls : List Lexeme) : Prop :=
  match s.ahead with
  | none => Feeds tail ls s.rest
  | some x => ∃ rest, ls = x :: rest ∧ Feeds tail rest s.rest

/-- The next lexeme can be read ahead. -/
theorem Offers.read {x : Lexeme} (h : s.Offers tail (x :: ls)) (hreads : automaton.Reads s.state x ∨ x.1 = .finish) :
    ∃ rest, Reaches automaton s { s with rest := rest, ahead := some x } ∧ Feeds tail ls rest := by
  unfold Offers at h
  cases hahead : s.ahead with
  | none =>
    rw [hahead] at h
    rcases hreads with hreads | hfin
    · obtain ⟨rest, hlex, hfeeds⟩ := lex_feeds automaton_isContextual h hreads
      exact ⟨rest, .single (.read hahead hlex), hfeeds⟩
    · generalize hrest : s.rest = text at h
      cases h with
      | cons _ hword _ _ =>
        obtain rfl := hfin
        exact absurd hword.exists_opens (by simp [Terminal.pattern, Pattern.opens])
      | finish htail =>
        refine ⟨[], .single (.finish hahead ?_), htail ▸ .nil⟩
        rw [hrest]
        exact Candidates.lex_nil
  | some y =>
    rw [hahead] at h
    obtain ⟨others, heq, hfeeds⟩ := h
    cases heq
    refine ⟨s.rest, ?_, hfeeds⟩
    have hself : { s with rest := s.rest, ahead := some x } = s := by rw [← hahead]
    rw [hself]
    exact .refl

end Situation

/-- The machine comes to a stop. -/
def Fails (m : Automaton) (s : Situation) : Prop :=
  ∃ last, Reaches m s last ∧ move m last = .failed

theorem Fails.not_accepts (h : Fails m s) (tree : Node) : ¬ Accepts m s tree := by
  intro haccepts
  obtain ⟨last, hlast, hfailed⟩ := h
  obtain ⟨last', hlast', hacc⟩ := haccepts.of_reaches hlast
  rcases hlast'.cases_head with rfl | ⟨after, hafter, -⟩
  · rw [hfailed] at hacc
    cases hacc
  · cases hfailed.symm.trans hafter

theorem Fails.of_reaches (h : Fails m s') (hreach : Reaches m s s') : Fails m s := by
  obtain ⟨last, hlast, hfailed⟩ := h
  exact ⟨last, hreach.trans hlast, hfailed⟩

/-- The word that is a keyword where an operand is expected. -/
def reservedWord : List Char :=
  "getInputFor".toList

theorem spells_readInput : Candidates.spells word .readInput = true ↔ word = reservedWord :=
  decide_eq_true_iff

/-- The reserved word is a name only after a dot. -/
def KeepsReserved (ls : List Lexeme) : Prop :=
  ∀ before x after, ls = before ++ x :: (.ident, reservedWord) :: after → x.1 = .dot

theorem KeepsReserved.left (h : KeepsReserved (first ++ second)) : KeepsReserved first := by
  rintro before x after rfl
  exact h before x (after ++ second) (by simp)

theorem KeepsReserved.right (h : KeepsReserved (first ++ second)) : KeepsReserved second := by
  rintro before x after rfl
  exact h (first ++ before) x after (by simp)

/-- A symbol that begins with the word for input. -/
def Symbol.isInput (x : Symbol) : Bool :=
  x = .category .inputCall || x = .terminal .readInputLong

/-- Where an operand is expected, a name leads on, and only the reserved word is none. -/
theorem operand_state (h : (automaton.goto? state .factor).isSome = true) :
    automaton.action? state .ident = some (.shift 48) ∧
      ∀ k ∈ (Candidates.of (automaton.terminals state)).keywords, k = .readInput := by
  have hcheck : ∀ state ∈ List.range automaton.states.length,
      (automaton.goto? state .factor).isSome = true →
        automaton.action? state .ident = some (.shift 48) ∧
          ∀ k ∈ (Candidates.of (automaton.terminals state)).keywords, k = .readInput := by
    decide +kernel
  obtain ⟨target, htarget⟩ := Option.isSome_iff_exists.mp h
  exact hcheck state (List.mem_range.mpr (Automaton.goto_lt htarget)) h

/-- The symbols are expected, the lexemes `ls` come next, to be read for them, and then `more`. -/
structure Faces (s : Situation) (symbols : List Symbol) (ls more : List Lexeme) (tail : List Char) :
    Prop where
  stack : s.stack ≠ []
  inline : ∀ x ∈ symbols, x.isInline = true
  offers : s.Offers tail (ls ++ more)
  /-- The long form of the word for input is not read as such. -/
  ahead : ∀ x, s.ahead = some x → x.1 ≠ .readInputLong
  /-- The first lexeme is the reserved word only where there are no keywords. -/
  name : ∀ rest, ls = (.ident, reservedWord) :: rest →
    (Candidates.of (automaton.terminals s.state)).keywords = []
  names : KeepsReserved ls
  /-- The word for input stands where an operand is expected. -/
  input : ∀ x rest, symbols = x :: rest → x.isInput = true →
    (automaton.goto? s.state .factor).isSome = true
  /-- It stands nowhere else. -/
  others : ∀ x ∈ symbols.tail, x.isInput = false
  /-- The long form has a parenthesis after it. -/
  opened : ∀ rest, symbols = .terminal .readInputLong :: rest →
    rest.head? = some (.terminal .openParen)

/-! ### Single steps -/

/-- A lexeme that leads on is read and shifted. -/
theorem Situation.Offers.shift {x : Lexeme} (h : s.Offers tail (x :: ls)) (hreads : automaton.Reads s.state x)
    (hact : automaton.action? s.state x.1 = some (.shift target)) : ∃ rest, Feeds tail ls rest ∧ Reaches automaton s
      { stack := ⟨target, Lexeme.nodes x⟩ :: s.stack, rest := rest, ahead := none } := by
  obtain ⟨rest, hreach, hfeeds⟩ := h.read (.inl hreads)
  exact ⟨rest, hfeeds, hreach.tail (.shift rfl hact)⟩

/-- The state reads a lexeme of the terminal that it is led on by. -/
theorem Faces.reads (hfaces : Faces s (.terminal t :: symbols) ((t, word) :: ls) more tail)
    (hword : t.Spells word) (hlong : t ≠ .readInputLong)
    (hpast : automaton.past s.state t = some target) : automaton.Reads s.state (t, word) := by
  obtain ⟨hact, hident, hinput, -⟩ := Automaton.past_eq_some hpast
  have hsome : (automaton.action? s.state t).isSome = true := by rw [hact]; rfl
  refine ⟨hsome, ?_⟩
  have hinline := hfaces.inline _ (.head _)
  simp only [Symbol.isInline, inlineTerminals, List.contains_iff_mem, List.mem_append, List.mem_cons,
    List.not_mem_nil, or_false] at hinline
  rcases hinline with hpunct | rfl | rfl | rfl | rfl
  · exact .inl hpunct
  · refine .inr (.inr ⟨Automaton.mem_terminals.mpr ⟨Terminal.mem_all _, hsome⟩, hword, ?_⟩)
    refine Candidates.classify_name fun k hk => ?_
    -- The only keyword here is the reserved word, and this name is another one.
    obtain rfl := hident rfl k hk
    by_contra hspells
    have hreserved : word = reservedWord := spells_readInput.mp (Bool.of_not_eq_false hspells)
    rw [hfaces.name ls (by rw [hreserved])] at hk
    exact List.not_mem_nil hk
  · exact .inr (.inl rfl)
  · have hmem : .ident ∈ automaton.terminals s.state :=
      Automaton.mem_terminals.mpr ⟨Terminal.mem_all _, hinput rfl⟩
    have hname : Terminal.ident.Spells word := by
      obtain ⟨rfl, -⟩ := takeLiteral_eq_some_iff.mp hword
      decide
    exact .inr (.inr ⟨hmem, hname, Candidates.classify_readInput hmem
      (Automaton.mem_terminals.mpr ⟨Terminal.mem_all _, hsome⟩) hword⟩)
  · exact absurd rfl hlong

/-- After a terminal the other symbols are faced. -/
theorem Faces.shift (hfaces : Faces s (.terminal t :: symbols) ((t, word) :: ls) more tail)
    (hword : t.Spells word) (hlong : t ≠ .readInputLong) (hpast : automaton.past s.state t = some target) :
    ∃ s', Reaches automaton s s' ∧ s'.stack = ⟨target, Lexeme.nodes (t, word)⟩ :: s.stack ∧
      s'.state = target ∧ Faces s' symbols ls more tail := by
  obtain ⟨hact, -, -, hdot⟩ := Automaton.past_eq_some hpast
  have hoffers : s.Offers tail ((t, word) :: (ls ++ more)) := hfaces.offers
  obtain ⟨rest, hfeeds, hreach⟩ := hoffers.shift (hfaces.reads hword hlong hpast) hact
  have hothers : ∀ x ∈ symbols, x.isInput = false := hfaces.others
  refine ⟨_, hreach, rfl, rfl, ?_⟩
  exact {
    stack := List.cons_ne_nil _ _
    inline := fun x hx => hfaces.inline x (.tail _ hx)
    offers := hfeeds
    ahead := by simp
    name := by
      rintro others rfl
      exact hdot (hfaces.names [] (t, word) others rfl)
    names := (show KeepsReserved ([(t, word)] ++ ls) from hfaces.names).right
    input := by
      rintro x others rfl hx
      rw [hothers x (.head _)] at hx
      cases hx
    others := fun x hx => hothers x (List.mem_of_mem_tail hx)
    opened := by
      rintro others rfl
      exact absurd (hothers _ (.head _)) (by decide) }

/-! ### The long form of the word for input -/

/-- After a member of a name no parenthesis is read. -/
theorem lex_paren_stuck {gap : List Char} (hgap : IsGap gap)
    (hword : Terminal.openParen.Spells word) (rest : List Char) :
    (Candidates.of (automaton.terminals 125)).lex (gap ++ (word ++ rest)) = .stuck := by
  rw [Candidates.lex_gap_word hgap (.inl (by decide)) hword]
  obtain ⟨text, htext, rfl⟩ := List.mem_map.mp (Pattern.oneOf_resume hword).1
  obtain rfl := List.mem_singleton.mp htext
  have hopens : ∀ u ∈ (Candidates.of (automaton.terminals 125)).tried,
      u.pattern.opens '(' = false := by
    decide
  refine Candidates.lex_stuck (List.cons_ne_nil _ _) (List.findSome?_eq_none_iff.mpr fun u hu => ?_)
  exact Option.map_eq_none_iff.mpr (Terminal.take?_eq_none (hopens u hu))

theorem isGap_nil : IsGap [] :=
  ⟨by simp, rfl⟩

/-- The long form, read as a name, a dot and a name. -/
def longNames : List Lexeme :=
  [(.ident, "st".toList), (.dot, ".".toList), (.ident, reservedWord)]

theorem feeds_longNames {gap after : List Char} (hgap : IsGap gap) (hends : Terminal.ident.EndsBefore after) :
    Feeds after longNames (gap ++ ("st.getInputFor".toList ++ after)) := by
  have hdot : Terminal.dot.EndsBefore ([] ++ (reservedWord ++ after)) :=
    Terminal.endsBefore_of_touches (u := .ident) (by decide) (by decide) (by decide) isGap_nil
      (by decide)
  have hname : Terminal.ident.EndsBefore ([] ++ (".".toList ++ ([] ++ (reservedWord ++ after)))) :=
    Terminal.endsBefore_of_touches (u := .dot) (by decide) (by decide) (by decide) isGap_nil
      (by decide)
  exact .cons hgap (by decide) hname (.cons isGap_nil (by decide) hdot
    (.cons isGap_nil (by decide) hends .nil))

/-- The names are shifted, and the machine is after a member. -/
theorem reaches_longNames {after : List Char}
    (hopd : (automaton.goto? s.state .factor).isSome = true) (h : s.Offers after longNames) :
    ∃ stack, Reaches automaton s { stack := stack, rest := after, ahead := none } ∧
      stack.head?.map (·.state) = some 125 := by
  obtain ⟨hshift, hkeywords⟩ := operand_state hopd
  have hreads : automaton.Reads s.state (.ident, "st".toList) := by
    have hsome : (automaton.action? s.state .ident).isSome = true := by rw [hshift]; rfl
    refine ⟨hsome, .inr (.inr ⟨Automaton.mem_terminals.mpr ⟨by decide, hsome⟩, by decide, ?_⟩)⟩
    refine Candidates.classify_name fun k hk => ?_
    rw [hkeywords k hk]
    decide
  have hdot : automaton.Reads 48 (.dot, ".".toList) ∧
      automaton.action? 48 .dot = some (.shift 90) :=
    ⟨⟨by decide, .inl (by decide)⟩, by decide⟩
  have hmem : automaton.Reads 90 (.ident, reservedWord) ∧
      automaton.action? 90 .ident = some (.shift 125) :=
    ⟨⟨by decide, .inr (.inr (by decide))⟩, by decide⟩
  obtain ⟨rest1, hfeeds1, hreach1⟩ := h.shift hreads hshift
  obtain ⟨rest2, hfeeds2, hreach2⟩ := Situation.Offers.shift
    (s := ⟨⟨48, Lexeme.nodes (.ident, "st".toList)⟩ :: s.stack, rest1, none⟩) hfeeds1 hdot.1 hdot.2
  obtain ⟨rest3, hfeeds3, hreach3⟩ := Situation.Offers.shift
    (s := ⟨⟨90, Lexeme.nodes (.dot, ".".toList)⟩ :: _, rest2, none⟩) hfeeds2 hmem.1 hmem.2
  cases hfeeds3
  exact ⟨_, (hreach1.trans hreach2).trans hreach3, rfl⟩

/-- After the long form read as names the parenthesis cannot be read. -/
theorem fails_of_long {paren : List Char}
    (hopd : (automaton.goto? s.state .factor).isSome = true) (hahead : s.ahead = none)
    (hfeeds : Feeds tail ((.readInputLong, word) :: (.openParen, paren) :: ls) s.rest) : Fails automaton s := by
  generalize hrest : s.rest = text at hfeeds
  cases hfeeds with
  | @cons _ _ gap cs _ hgap hword _ hfeeds =>
    cases hfeeds with
    | @cons _ _ space behind _ hspace hparen _ _ =>
      obtain ⟨long, hlong, rfl⟩ := List.mem_map.mp (Pattern.oneOf_resume hword).1
      obtain rfl := List.mem_singleton.mp hlong
      have hends : Terminal.ident.EndsBefore (space ++ (paren ++ behind)) :=
        Terminal.endsBefore_of_touches (by decide) (by decide) (by decide) hspace hparen
      have hoffers : s.Offers (space ++ (paren ++ behind)) longNames := by
        rw [Situation.Offers, hahead]
        dsimp only
        rw [hrest]
        exact feeds_longNames hgap hends
      obtain ⟨stack, hreach, hstate⟩ := reaches_longNames hopd hoffers
      refine ⟨_, hreach, ?_⟩
      cases stack with
      | nil => cases hstate
      | cons top stack =>
        have htop : top.state = 125 := Option.some.inj hstate
        have hstuck := lex_paren_stuck hspace hparen behind
        simp only [move, readLexeme, Situation.state, htop, hstuck]

/-! ### Reading a phrase -/

/-- The long form of the word for input is among the lexemes. -/
def HasLong (ls : List Lexeme) : Prop :=
  ∃ x ∈ ls, x.1 = .readInputLong

theorem hasLong_append : HasLong (first ++ second) ↔ HasLong first ∨ HasLong second := by
  simp only [HasLong, List.mem_append, or_and_right, exists_or]

/-- The machine gets to the state `last` with `size` more frames, which hold the nodes, and `more`
comes next. -/
def Passes (s : Situation) (size : Nat) (nodes : List Node) (last : Nat) (more : List Lexeme)
    (tail : List Char) : Prop :=
  ∃ s' frames, Reaches automaton s s' ∧ s'.stack = frames ++ s.stack ∧ frames.length = size ∧
    frames.reverse.flatMap (·.nodes) = nodes ∧ s'.state = last ∧ s'.Offers tail more ∧
    ∀ x, s'.ahead = some x → x.1 ≠ .readInputLong

/-- One more frame at the bottom. -/
theorem Passes.cons {frame : Frame} {size : Nat} {nodes : List Node} (hreach : Reaches automaton s s')
    (hstack : s'.stack = frame :: s.stack) (h : Passes s' size nodes last more tail) :
    Passes s (size + 1) (frame.nodes ++ nodes) last more tail := by
  obtain ⟨s'', frames, hreach', hstack', hsize, hnodes, hrest⟩ := h
  refine ⟨s'', frames ++ [frame], hreach.trans hreach', ?_, ?_, ?_, hrest⟩
  · rw [hstack', hstack, List.append_assoc]
    rfl
  · rw [List.length_append, hsize]
    rfl
  · rw [List.reverse_append, List.flatMap_append, hnodes]
    simp

/-- The first lexeme is the one that the derivation is before. -/
theorem exists_leading (ls : List Lexeme) (y : Lexeme) (others : List Lexeme) :
    ∃ z rest, ls ++ y :: others = z :: rest ∧ z.1 = leading ls y.1 := by
  cases ls with
  | nil => exact ⟨y, others, rfl, rfl⟩
  | cons x ls => exact ⟨x, ls ++ y :: others, rfl, rfl⟩

/-- What may come after a category is a punctuation mark or the end of the text. -/
theorem mem_closers_of_mayEndBefore {next : Terminal}
    (h : (Symbol.category c).mayEndBefore next = true) : next ∈ Terminal.finish :: punctuation := by
  simp only [Symbol.mayEndBefore, Symbol.mayPrecede, Category.stops, Bool.or_eq_true,
    Bool.and_eq_true, List.contains_iff_mem, List.mem_filter, decide_eq_true_eq] at h
  have hstops : ∀ t ∈ [Terminal.mulOp, .addOp, .comparison, .comma, .closeParen, .closeBracket, .bar, .finish],
      t ∈ Terminal.finish :: punctuation := by decide
  rcases h with ⟨-, hstop⟩ | ⟨rfl, -⟩
  · exact hstops next hstop
  · decide

/-- The word for input begins the rules for input, which begin operands, and nothing else. -/
theorem inlineRules_input (hp : p ∈ inlineRules) :
    (∀ rest, p.symbols = .category .inputCall :: rest → p.category = .factor) ∧
      (∀ rest, p.symbols = .terminal .readInputLong :: rest →
        p.category = .inputCall ∧ rest.head? = some (.terminal .openParen)) ∧
      ∀ x ∈ p.symbols.tail, x.isInput = false := by
  have hcheck : ∀ p ∈ inlineRules,
      (p.symbols.head? = some (.category .inputCall) → p.category = .factor) ∧
        (p.symbols.head? = some (.terminal .readInputLong) →
          p.category = .inputCall ∧ p.symbols.tail.head? = some (.terminal .openParen)) ∧
        ∀ x ∈ p.symbols.tail, x.isInput = false := by
    decide
  obtain ⟨hcall, hlong, htail⟩ := hcheck p hp
  refine ⟨fun rest hsyms => hcall ?_, fun rest hsyms => ?_, htail⟩
  · rw [hsyms]
    rfl
  · rw [hsyms] at hlong
    exact hlong rfl

/-- Where a category is faced, the symbols of a rule for it are. -/
theorem Faces.inner (hfaces : Faces s (.category p.category :: symbols) (phrase ++ rest) more tail)
    (hp : p ∈ inlineRules) (hgoto : automaton.goto? s.state p.category = some target) :
    Faces s p.symbols phrase (rest ++ more) tail := by
  obtain ⟨hcall, hlong, htail⟩ := inlineRules_input hp
  exact {
    stack := hfaces.stack
    inline := List.all_eq_true.mp (mem_inlineRules.mp hp).2.2
    offers := by
      rw [← List.append_assoc]
      exact hfaces.offers
    ahead := hfaces.ahead
    name := by
      rintro others rfl
      exact hfaces.name (others ++ rest) rfl
    names := hfaces.names.left
    input := by
      intro x others hsyms hx
      simp only [Symbol.isInput, Bool.or_eq_true, decide_eq_true_eq] at hx
      rcases hx with rfl | rfl
      · rw [hcall others hsyms] at hgoto
        rw [hgoto]
        rfl
      · exact hfaces.input _ _ rfl (by rw [(hlong others hsyms).1]; rfl)
    others := htail
    opened := fun others hsyms => (hlong others hsyms).2 }

/-- After a category the other symbols are faced, with the first lexeme read ahead. -/
theorem Faces.behind {z : Lexeme}
    (hfaces : Faces s (.category c :: symbols) (phrase ++ rest) more tail) (hstack : s'.stack ≠ [])
    (hahead : s'.ahead = some z) (hz : z.1 ∈ Terminal.finish :: punctuation) (hsplit : rest ++ more = z :: others)
    (hfeeds : Feeds tail others s'.rest) : Faces s' symbols rest more tail := by
  have hnone : ∀ x ∈ symbols, x.isInput = false := hfaces.others
  exact {
    stack := hstack
    inline := fun x hx => hfaces.inline x (.tail _ hx)
    offers := by
      rw [Situation.Offers, hahead]
      exact ⟨others, hsplit, hfeeds⟩
    ahead := by
      intro x hx
      obtain rfl : z = x := Option.some.inj (hahead.symm.trans hx)
      intro hlong
      rw [hlong] at hz
      exact absurd hz (by decide)
    name := by
      rintro behind rfl
      rw [← (List.cons.inj hsplit).1] at hz
      exact absurd hz (by decide)
    names := hfaces.names.right
    input := by
      rintro x behind rfl hx
      rw [hnone x (.head _)] at hx
      cases hx
    others := fun x hx => hnone x (List.mem_of_mem_tail hx)
    opened := by
      rintro behind rfl
      exact absurd (hnone _ (.head _)) (by decide) }

/-- The symbols of a rule that were passed are replaced by its category. -/
theorem Passes.reduce {i : Nat} {inner : List Node} {z : Lexeme} (hstack : s.stack ≠ [])
    (h : Passes s p.symbols.length inner last (z :: others) tail) (hz : z.1 ∈ Terminal.finish :: punctuation)
    (hp : automaton.productions[i]? = some p) (hact : automaton.action? last z.1 = some (.reduce i))
    (hgoto : automaton.goto? s.state p.category = some target) :
    ∃ s', Reaches automaton s s' ∧ s'.stack = ⟨target, p.build inner⟩ :: s.stack ∧
      s'.ahead = some z ∧ Feeds tail others s'.rest := by
  obtain ⟨s', frames, hreach, hframes, hlen, rfl, rfl, hoffers, -⟩ := h
  have hreads : automaton.Reads s'.state z ∨ z.1 = .finish :=
    (List.mem_cons.mp hz).elim .inr fun hmark => .inl ⟨by rw [hact]; rfl, .inl hmark⟩
  obtain ⟨rest, hread, hfeeds⟩ := hoffers.read hreads
  obtain ⟨base, stack, hbase⟩ := List.exists_cons_of_ne_nil hstack
  have hstate : s.state = base.state := by rw [Situation.state, hbase]
  rw [hstate] at hgoto
  have hred := reaches_reduce (s := { s' with rest := rest, ahead := some z }) frames
    (hframes.trans (by rw [hbase])) rfl hp hlen hact hgoto
  refine ⟨_, (hreach.trans hread).trans hred, ?_, rfl, hfeeds⟩
  rw [hbase]

/-- The machine reads the lexemes of a phrase and leaves its nodes on the stack, or fails at the
long form of the word for input. -/
theorem Derives.passes_or_fails {next : Terminal}
    {nodes : List Node} (h : Derives Ready symbols ls next nodes) {y : Lexeme} (hnext : y.1 = next)
    (hfaces : Faces s symbols ls (y :: others) tail) (hfollow : automaton.follow s.state symbols = some last) :
    ¬ HasLong ls ∧ Passes s symbols.length nodes last (y :: others) tail ∨
      HasLong ls ∧ Fails automaton s := by
  induction h generalizing s y others last with
  | nil next =>
    cases hfollow
    refine .inl ⟨?_, s, [], .refl, rfl, rfl, rfl, rfl, hfaces.offers, hfaces.ahead⟩
    rintro ⟨x, hx, -⟩
    exact List.not_mem_nil hx
  | @terminal t word symbols rest next nodes hword hrest ih =>
    obtain ⟨target, hpast, hfollow⟩ := Option.bind_eq_some_iff.mp hfollow
    by_cases hlong : t = .readInputLong
    · subst hlong
      refine .inr ⟨⟨_, (.head _), rfl⟩, ?_⟩
      -- The parenthesis that belongs to the long form is where the machine fails.
      obtain ⟨x, hx⟩ := List.head?_eq_some_iff.mp (hfaces.opened symbols rfl)
      rw [hx] at hrest
      obtain ⟨paren, behind, nodes', -, rfl, -, -⟩ := hrest.terminal_inv
      have hahead : s.ahead = none := by
        by_contra hsome
        obtain ⟨x, hx⟩ := Option.ne_none_iff_exists'.mp hsome
        have hoffers := hfaces.offers
        rw [Situation.Offers, hx] at hoffers
        obtain ⟨others, hcons, -⟩ := hoffers
        exact hfaces.ahead x hx (by rw [← (List.cons.inj hcons).1])
      have hoffers := hfaces.offers
      rw [Situation.Offers, hahead] at hoffers
      exact fails_of_long (hfaces.input _ _ rfl rfl) hahead hoffers
    · obtain ⟨s', hreach, hstack, rfl, hfaces'⟩ := hfaces.shift hword hlong hpast
      have hcons : HasLong ((t, word) :: rest) ↔ HasLong rest := by
        simp [HasLong, hlong]
      rw [hcons]
      rcases ih hnext hfaces' hfollow with ⟨hnone, hpasses⟩ | ⟨hsome, hfails⟩
      · exact .inl ⟨hnone, hpasses.cons hreach hstack⟩
      · exact .inr ⟨hsome, hfails.of_reaches hreach⟩
  | @category p symbols phrase rest next inner nodes hready hinner hrest ihinner ihrest =>
    obtain ⟨target, hgoto, hfollow⟩ := Option.bind_eq_some_iff.mp hfollow
    obtain ⟨i, inside, hp, hinside, hact⟩ := exists_follow hready.1 hgoto
    obtain ⟨z, behind, hsplit, hz⟩ := exists_leading rest y others
    rw [hnext] at hz
    have hmark : z.1 ∈ Terminal.finish :: punctuation := by
      rw [hz]
      exact mem_closers_of_mayEndBefore hready.2.1
    have hfacesInner := hfaces.inner hready.1 hgoto
    rw [hsplit] at hfacesInner
    rw [hasLong_append]
    rcases ihinner hz hfacesInner hinside with ⟨hnone, hpasses⟩ | ⟨hsome, hfails⟩
    · obtain ⟨s', hreach, hstack, hahead, hfeeds⟩ :=
        hpasses.reduce hfaces.stack hmark hp (hact z.1 (by rwa [hz])) hgoto
      have hstate : s'.state = target := by rw [Situation.state, hstack]
      have hfaces' := hfaces.behind (by rw [hstack]; exact List.cons_ne_nil _ _) hahead hmark hsplit
        hfeeds
      rw [← hstate] at hfollow
      rcases ihrest hnext hfaces' hfollow with ⟨hnone', hpasses'⟩ | ⟨hsome, hfails⟩
      · exact .inl ⟨not_or.mpr ⟨hnone, hnone'⟩, hpasses'.cons hreach hstack⟩
      · exact .inr ⟨.inr hsome, hfails.of_reaches hreach⟩
    · exact .inr ⟨.inl hsome, hfails⟩

end FapLang.Grammar
