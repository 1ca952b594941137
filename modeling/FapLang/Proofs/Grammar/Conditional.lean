import FapLang.Proofs.Grammar.Blocks
import FapLang.Proofs.Grammar.Completeness
import FapLang.Proofs.Grammar.Orderly

/-!
Conditional statements are read as the grammar says, unless the second expression ends in a name,
with which the bracket of the block would go on, or the long form of the word for input stands in
one of the expressions (`conditional_parses_iff`).
-/

namespace FapLang.Grammar

open Lexeme

variable {c : Category} {op tail text : List Char} {ls ls₁ ls₂ more : List Lexeme} {nodes : List Node} {s : Situation}
  {next : Terminal}
variable {stack : List Frame} {symbols : List Symbol} {allowed : Production → Terminal → Prop}

/-! ### Phrases -/

/-- A rule wraps what its symbols derive. -/
theorem DerivesInline.rule {i : Nat} {p : Production} {inner : List Node}
    (hp : productions[i]? = some p) (hinline : (p.category.isInline && p.symbols.all Symbol.isInline) = true)
    (h : DerivesInline p.symbols ls next inner) : DerivesInline [.category p.category] ls next (p.build inner) :=
  .single (mem_inlineRules.mpr ⟨List.mem_of_getElem? hp, by simpa using hinline⟩) h

/-- An expression has one tree. -/
theorem Derives.exists_tree (h : Derives allowed [.category c] ls next nodes) (hc : c.isSpliced = false) :
    ∃ tree, nodes = [tree] := by
  obtain ⟨p, inner, rfl, rfl, -, -⟩ := h.single_inv
  exact List.length_eq_one_iff.mp (p.build_length inner hc)

/-- A word without a gap before it. -/
theorem Feeds.word {t : Terminal} {word cs : List Char}
    (hword : t.Spells word) (hends : t.EndsBefore cs) (hrest : Feeds tail ls cs) :
    Feeds tail ((t, word) :: ls) (word ++ cs) :=
  .cons isGap_nil hword hends hrest

/-- The reserved word is a name only as the member of another name. -/
def SparesReserved (ls : List Lexeme) : Prop :=
  ∀ before after, ls = before ++ (.ident, reservedWord) :: after →
    ∃ x, before.getLast? = some x ∧ x.1 = .dot

namespace SparesReserved

variable {ls first second : List Lexeme}

theorem of_not_mem (h : (.ident, reservedWord) ∉ ls) : SparesReserved ls := by
  rintro before after rfl
  exact absurd (List.mem_append_right _ (.head _)) h

theorem keeps (h : SparesReserved ls) : KeepsReserved ls := by
  intro before x after hls
  obtain ⟨y, hy, hdot⟩ := h (before ++ [x]) after (by simp [hls])
  rw [List.getLast?_concat] at hy
  rwa [← Option.some.inj hy] at hdot

theorem ne_cons (h : SparesReserved ls) (rest : List Lexeme) : ls ≠ (.ident, reservedWord) :: rest := by
  intro hls
  obtain ⟨x, hx, -⟩ := h [] rest hls
  cases hx

theorem append (hfirst : SparesReserved first) (hsnd : SparesReserved second) :
    SparesReserved (first ++ second) := by
  intro before after hsplit
  rcases List.append_eq_append_iff.mp hsplit with ⟨middle, rfl, hmiddle⟩ | ⟨middle, rfl, hmiddle⟩
  · obtain ⟨x, hx, hdot⟩ := hsnd middle after hmiddle
    exact ⟨x, by rw [List.getLast?_append, hx, Option.some_or], hdot⟩
  · cases middle with
    | nil =>
      obtain ⟨x, hx, -⟩ := hsnd [] after (by simpa using hmiddle.symm)
      cases hx
    | cons y middle =>
      cases hmiddle
      exact hfirst before middle rfl

end SparesReserved

/-- Symbols that do not begin with the word for input are faced where their lexemes come next. -/
theorem Faces.of_spares (hstack : s.stack ≠ []) (hinline : ∀ x ∈ symbols, x.isInline = true)
    (hinput : ∀ x ∈ symbols, x.isInput = false) (hahead : s.ahead = none)
    (hfeeds : Feeds tail (ls ++ more) s.rest) (hspares : SparesReserved ls) : Faces s symbols ls more tail where
  stack := hstack
  inline := hinline
  offers := by
    rw [Situation.Offers, hahead]
    exact hfeeds
  ahead := by
    intro x hx
    rw [hahead] at hx
    cases hx
  name := fun rest hrest => absurd hrest (hspares.ne_cons rest)
  names := hspares.keeps
  input := by
    rintro x rest rfl hx
    rw [hinput x (.head _)] at hx
    cases hx
  others := fun x hx => hinput x (List.mem_of_mem_tail hx)
  opened := by
    rintro rest rfl
    cases hinput _ (.head _)

theorem Faces.single (hstack : s.stack ≠ []) (hc : c.isInline = true) (hinput : c ≠ .inputCall)
    (hahead : s.ahead = none) (hfeeds : Feeds tail (ls ++ more) s.rest)
    (hspares : SparesReserved ls) : Faces s [.category c] ls more tail := by
  refine .of_spares hstack ?_ ?_ hahead hfeeds hspares
  · exact List.forall_mem_singleton.mpr hc
  · exact List.forall_mem_singleton.mpr (by simp [Symbol.isInput, hinput])

/-- A single symbol leaves a single frame. -/
theorem Passes.frame {last : Nat} (h : Passes s 1 nodes last more tail) :
    ∃ s', Reaches automaton s s' ∧ s'.stack = ⟨last, nodes⟩ :: s.stack ∧ s'.Offers tail more := by
  obtain ⟨s', frames, hreach, hstack, hlen, rfl, rfl, hoffers, -⟩ := h
  obtain ⟨frame, rfl⟩ := List.length_eq_one_iff.mp hlen
  refine ⟨s', hreach, ?_, hoffers⟩
  rw [hstack, Situation.state, hstack]
  simp

/-! ### Phrases at the end of a text -/

/-- A word after a blank is shifted. -/
theorem reaches_word {q target : Nat} {x : Lexeme} {c : Char} {rest : List Char} (hc : isGap c = false)
    (hlex : (Candidates.of (automaton.terminals q)).lex (c :: text) = .token x rest)
    (hact : automaton.action? q x.1 = some (.shift target)) :
    Reaches automaton ⟨⟨q, nodes⟩ :: stack, ' ' :: c :: text, none⟩
      ⟨⟨target, Lexeme.nodes x⟩ :: ⟨q, nodes⟩ :: stack, rest, none⟩ := by
  have hhead : ∀ d, (c :: text).head? = some d → isGap d = false := by
    intro d hd
    cases hd
    exact hc
  have hgap := (Candidates.lex_gap isGap_space hhead).trans hlex
  have hread : Moves automaton ⟨⟨q, nodes⟩ :: stack, ' ' :: c :: text, none⟩ ⟨⟨q, nodes⟩ :: stack, rest, some x⟩ :=
    .read rfl hgap
  have hshift : Moves automaton ⟨⟨q, nodes⟩ :: stack, rest, some x⟩
      ⟨⟨target, Lexeme.nodes x⟩ :: ⟨q, nodes⟩ :: stack, rest, none⟩ :=
    .shift rfl hact
  exact (Relation.ReflTransGen.single hread).tail hshift

theorem Derives.mem_inlineTerminals (h : DerivesInline symbols ls next nodes)
    (hall : ∀ x ∈ symbols, x.isInline = true) : ∀ x ∈ ls, x.1 ∈ inlineTerminals := by
  induction h with
  | nil => simp
  | terminal _ _ ih =>
    intro x hx
    rcases List.mem_cons.mp hx with rfl | hx
    · exact List.contains_iff_mem.mp (hall _ (.head _))
    · exact ih (fun y hy => hall y (.tail _ hy)) x hx
  | category hp _ _ ihinner ihrest =>
    intro x hx
    rcases List.mem_append.mp hx with hx | hx
    · exact ihinner (List.all_eq_true.mp (mem_inlineRules.mp hp).2.2) x hx
    · exact ihrest (fun y hy => hall y (.tail _ hy)) x hx

/-- A phrase that the machine reads up to the end of the text. -/
theorem reaches_last {n : Node} {base : Frame} {target : Nat} (h : DerivesInline [.category c] ls .finish [n])
    (hfits : fits [.category c] .finish = true) (hc : c.isInline = true) (hinput : c ≠ .inputCall)
    (hlaid : Laid ls text) (hspares : SparesReserved ls) (hlong : ¬ HasLong ls)
    (hfollow : automaton.follow base.state [.category c] = some target) :
    Reaches automaton ⟨base :: stack, text, none⟩ ⟨⟨target, [n]⟩ :: base :: stack, [], some endLexeme⟩ := by
  have hends : ∀ t : Terminal, t.EndsBefore [] := by
    intro t
    rw [Terminal.EndsBefore]
    split <;> exact Pattern.endsBefore_nil _
  have hfeeds : Feeds [] (ls ++ [endLexeme]) (text ++ []) :=
    feeds_of_laid hlaid (h.touching hfits) (h.mem_inlineTerminals (List.forall_mem_singleton.mpr hc))
      (fun t _ _ => hends t) (.finish rfl)
  rw [List.append_nil] at hfeeds
  have hready : Derives Ready [.category c] ls .finish [n] :=
    (h.settle hfits).resolve_right fun hbracket => absurd hbracket.1 (by decide)
  have hfaces : Faces ⟨base :: stack, text, none⟩ [.category c] ls [endLexeme] [] :=
    .single (List.cons_ne_nil _ _) hc hinput rfl hfeeds hspares
  rcases hready.passes_or_fails rfl hfaces hfollow with ⟨-, hpasses⟩ | ⟨hfails, -⟩
  · obtain ⟨⟨frames, rest, ahead⟩, hreach, hstack, hoffers⟩ := hpasses.frame
    obtain rfl : frames = ⟨target, [n]⟩ :: base :: stack := hstack
    obtain ⟨rest', hread, hfeeds'⟩ := hoffers.read (.inr rfl)
    cases hfeeds'
    exact hreach.trans hread
  · exact absurd hfails hlong

/-! ### The head of a loop -/

/-- The statements parse inside a block, and the block has the given nodes. -/
def ParsesInBlock (body : String) (items : List Node) : Prop :=
  ∃ count, parse ("Again(0) [\n" ++ body ++ "\n]") = .ok (.tree "start" [.tree "statement"
    [.tree "again_stmt" [count, .tree "block" items]]])

theorem openBracket_endsBefore (cs : List Char) : Terminal.openBracket.EndsBefore cs := by
  intro first hfirst second hsnd _
  obtain rfl := List.mem_singleton.mp hfirst
  obtain rfl := List.mem_singleton.mp hsnd
  exact List.prefix_rfl

/-- Lexemes of one line before a block. -/
theorem feeds_bracket (h : Laid ls text)
    (htouching : Touching ls .openBracket) (hinline : ∀ x ∈ ls, x.1 ∈ inlineTerminals) (cs : List Char) :
    Feeds cs (ls ++ [(.openBracket, "[".toList)]) (text ++ (" ".toList ++ ("[".toList ++ cs))) := by
  have hspace : IsGap " ".toList := isGap_space
  have hbracket : Feeds cs [(.openBracket, "[".toList)] (" ".toList ++ ("[".toList ++ cs)) :=
    .cons hspace (by decide) (openBracket_endsBefore cs) .nil
  refine feeds_of_laid h htouching hinline (fun t ht htouches => ?_) hbracket
  exact Terminal.endsBefore_of_touches ht (by decide) htouches hspace (by decide)

/-- The lexemes of a loop between its first word and its block. -/
def loopHead : List Lexeme :=
  [(.openParen, "(".toList), (.number, "0".toList), (.closeParen, ")".toList)]

theorem feeds_loop (cs : List Char) :
    Feeds cs ((.again, "Again".toList) :: (loopHead ++ [(.openBracket, "[".toList)]))
      ("Again(0) [".toList ++ cs) := by
  have hlaid : Laid loopHead "(0)".toList :=
    .cons isGap_nil (by decide) (.cons isGap_nil (by decide) (.cons isGap_nil (by decide) .nil))
  have htouching : Touching loopHead .openBracket := ⟨by decide, by decide, by decide, trivial⟩
  refine .word (by decide) ?_ (feeds_bracket hlaid htouching (by decide) cs)
  intro c hc
  cases hc
  decide

/-- A single token is an expression, before whatever comes next. -/
theorem derives_operand {i : Nat} (t : Terminal) (word : List Char) (hword : t.Spells word)
    (hrule : productions[i]? = some ⟨.factor, "factor", [.terminal t], false⟩) (hinline : t ∈ inlineTerminals)
    (next : Terminal) : DerivesInline [.category .expr] [(t, word)] next
      [.tree "expr" [.tree "term" [.tree "factor" (Lexeme.nodes (t, word))]]] := by
  have hfactor : DerivesInline [.category .factor] [(t, word)] next [.tree "factor" (Lexeme.nodes (t, word))] :=
    .rule hrule (by simpa [Category.isInline, Symbol.isInline] using hinline) (.single_terminal hword)
  have hterm : DerivesInline [.category .term] [(t, word)] next _ := .rule (i := 72) rfl rfl hfactor
  exact .rule (i := 68) rfl rfl hterm

theorem exists_zero : ∃ count, Derives Ready [.category .expr] [(.number, "0".toList)] .closeParen [count] := by
  rcases (derives_operand (i := 75) .number "0".toList (by decide) rfl (by decide) .closeParen).settle (by decide) with
    hready | ⟨hnext, -⟩
  · exact ⟨_, hready⟩
  · cases hnext

/-- The machine gets to the block of a loop. -/
theorem reaches_loop (cs : List Char) : ∃ count, Reaches automaton (Situation.start ("Again(0) [".toList ++ cs))
      ⟨[⟨78, []⟩, ⟨136, []⟩, ⟨100, [count]⟩, ⟨61, []⟩, ⟨24, []⟩, ⟨0, []⟩], cs, none⟩ := by
  obtain ⟨count, hcount⟩ := exists_zero
  have hagain : automaton.Reads 0 (.again, "Again".toList) ∧
      automaton.action? 0 .again = some (.shift 24) :=
    ⟨⟨by decide, .inr (.inr (by decide))⟩, by decide⟩
  have hparen : automaton.Reads 24 (.openParen, "(".toList) ∧
      automaton.action? 24 .openParen = some (.shift 61) :=
    ⟨⟨by decide, .inl (by decide)⟩, by decide⟩
  have hclose : automaton.Reads 100 (.closeParen, ")".toList) ∧
      automaton.action? 100 .closeParen = some (.shift 136) :=
    ⟨⟨by decide, .inl (by decide)⟩, by decide⟩
  have hbracket : automaton.Reads 136 (.openBracket, "[".toList) ∧
      automaton.action? 136 .openBracket = some (.shift 78) :=
    ⟨⟨by decide, .inl (by decide)⟩, by decide⟩
  obtain ⟨rest1, hfeeds1, hreach1⟩ := Situation.Offers.shift
    (s := Situation.start ("Again(0) [".toList ++ cs)) (feeds_loop cs) hagain.1 hagain.2
  obtain ⟨rest2, hfeeds2, hreach2⟩ := Situation.Offers.shift
    (s := ⟨⟨24, []⟩ :: [⟨0, []⟩], rest1, none⟩) hfeeds1 hparen.1 hparen.2
  have hfaces : Faces ⟨[⟨61, []⟩, ⟨24, []⟩, ⟨0, []⟩], rest2, none⟩ [.category .expr]
      [(.number, "0".toList)] [(.closeParen, ")".toList), (.openBracket, "[".toList)] cs :=
    .single (List.cons_ne_nil _ _) rfl (by decide) rfl hfeeds2 (.of_not_mem (by decide))
  have hfollow : automaton.follow 61 [.category .expr] = some 100 := by decide
  rcases hcount.passes_or_fails rfl hfaces hfollow with ⟨-, hpasses⟩ | ⟨hlong, -⟩
  · obtain ⟨s, hreach3, hstack, hoffers⟩ := hpasses.frame
    obtain ⟨stack, rest, ahead⟩ := s
    dsimp only at hstack
    subst hstack
    obtain ⟨rest4, hfeeds4, hreach4⟩ := hoffers.shift hclose.1 hclose.2
    obtain ⟨rest5, hfeeds5, hreach5⟩ := Situation.Offers.shift
      (s := ⟨⟨136, []⟩ :: ⟨100, [count]⟩ :: _, rest4, none⟩) hfeeds4 hbracket.1 hbracket.2
    cases hfeeds5
    exact ⟨count, (((hreach1.trans hreach2).trans hreach3).trans hreach4).trans hreach5⟩
  · obtain ⟨x, hx, hlong⟩ := hlong
    rw [List.mem_singleton.mp hx] at hlong
    cases hlong

/-- A block that parses in a loop is read on every stack that expects a block. -/
theorem ParsesInBlock.reaches {body : String} {items : List Node} (h : ParsesInBlock body items) :
    ∃ rest x, x.1 = .finish ∧ ∀ base stack target, automaton.goto? base.state .block = some target →
      Reaches automaton ⟨⟨78, []⟩ :: base :: stack, ("\n" ++ body ++ "\n]").toList, none⟩
        ⟨⟨target, [.tree "block" items]⟩ :: base :: stack, rest, some x⟩ := by
  obtain ⟨count, hparse⟩ := h
  have htext : ("Again(0) [\n" ++ body ++ "\n]").toList =
      "Again(0) [".toList ++ ("\n" ++ body ++ "\n]").toList := by
    simp only [String.toList_append, ← List.append_assoc]
    rfl
  have haccepts := parse_eq_ok_iff.mp hparse
  rw [htext] at haccepts
  obtain ⟨count', hloop⟩ := reaches_loop ("\n" ++ body ++ "\n]").toList
  have hsound := (Situation.sound_start automaton _).reaches automaton_isCoherent hloop
  have hblock := haccepts.of_reaches hloop
  obtain ⟨found, rest, x, hreach⟩ := block_splits hsound (by simp) hblock
  have hcheck : automaton.goto? 136 .block = some 161 ∧ automaton.goto? 0 .againStmt = some 10 ∧
      ∀ t ∈ Terminal.all ++ [Terminal.finish], (automaton.action? 161 t).isSome = true →
        automaton.action? 161 t = some (.reduce 49) := by
    decide
  obtain ⟨hgoto, hagain, hred⟩ := hcheck
  have hread := hreach ⟨136, []⟩ [⟨100, [count']⟩, ⟨61, []⟩, ⟨24, []⟩, ⟨0, []⟩] 161 hgoto
  have hact := hred x.1 x.1.mem_all ((hblock.of_reaches hread).action_isSome rfl)
  have hloop' := reaches_reduce (i := 49)
    [⟨161, [.tree "block" found]⟩, ⟨136, []⟩, ⟨100, [count']⟩, ⟨61, []⟩, ⟨24, []⟩]
    (s := ⟨[⟨161, [.tree "block" found]⟩, ⟨136, []⟩, ⟨100, [count']⟩, ⟨61, []⟩, ⟨24, []⟩, ⟨0, []⟩],
      rest, some x⟩) rfl rfl rfl rfl hact hagain
  have hwhole := hread.trans hloop'
  obtain ⟨hfin, honly⟩ := finish_of_single (q := 10) (i := 13) (by decide)
    (hsound.reaches automaton_isCoherent hwhole) (hblock.of_reaches hwhole)
  refine ⟨rest, x, hfin, ?_⟩
  have hsame : count = count' ∧ items = found := by simpa using honly
  rw [hsame.2]
  exact hreach

/-! ### The head of a conditional -/

/-- A conditional on one line, with a block of the given statements. -/
def conditionalText (first op second body : String) : String :=
  "Cause " ++ first ++ " " ++ op ++ " " ++ second ++ " [\n" ++ body ++ "\n]"

/-- A condition of two expressions. -/
def conditionTree (first : Node) (op : String) (second : Node) : Node :=
  .tree "conditions" [.tree "condition" [first, .token "COMPARISON_OP" op, second]]

/-- The tree of a text that is a conditional. -/
def conditionalTree (conditions : Node) (items : List Node) : Node :=
  .tree "start" [.tree "statement" [.tree "cause_stmt" [conditions, .tree "block" items]]]

/-- Two expressions make a condition. -/
theorem derives_condition {t1 t2 : Node} (h1 : DerivesInline [.category .expr] ls₁ .comparison [t1])
    (h2 : DerivesInline [.category .expr] ls₂ .openBracket [t2]) (hop : Terminal.comparison.Spells op) :
    DerivesInline [.category .conditions] (ls₁ ++ (.comparison, op) :: ls₂) .openBracket
      [conditionTree t1 (String.ofList op) t2] := by
  have hsnd : DerivesInline [.terminal .comparison, .category .expr] ((.comparison, op) :: ls₂)
      .openBracket [.token "COMPARISON_OP" (String.ofList op), t2] :=
    .terminal hop h2
  have hboth : DerivesInline [.category .expr, .terminal .comparison, .category .expr]
      (ls₁ ++ (.comparison, op) :: ls₂) .openBracket
      [t1, .token "COMPARISON_OP" (String.ofList op), t2] :=
    h1.append hsnd
  have hcond : DerivesInline [.category .condition] _ .openBracket _ := .rule (i := 31) rfl rfl hboth
  exact .rule (i := 28) rfl rfl hcond

theorem feeds_conditional (h : DerivesInline [.category .conditions] ls .openBracket nodes)
    (hlaid : Laid ls text) (cs : List Char) :
    Feeds cs ((.cause, "Cause".toList) :: (ls ++ [(.openBracket, "[".toList)]))
      ("Cause ".toList ++ (text ++ (" [".toList ++ cs))) := by
  obtain ⟨y, others, hne, -⟩ := h.exists_first
  have hblank := hlaid.blank (by rw [hne]; exact List.cons_ne_nil _ _)
  have hrest := feeds_bracket hblank (h.touching (by decide)) (h.mem_inlineTerminals (by decide)) cs
  refine .word (by decide) ?_ hrest
  intro c hc
  cases hc
  decide

/-- The machine gets to the block of a conditional, or fails at the long form of the word for input.
-/
theorem reaches_conditional {c : Node}
    (hready : Derives Ready [.category .conditions] ls .openBracket [c]) (hlaid : Laid ls text)
    (hspares : SparesReserved ls) (cs : List Char) :
    ¬ HasLong ls ∧ Reaches automaton (Situation.start ("Cause ".toList ++ (text ++ (" [".toList ++ cs))))
        ⟨[⟨78, []⟩, ⟨40, [c]⟩, ⟨20, []⟩, ⟨0, []⟩], cs, none⟩ ∨
      HasLong ls ∧
        Fails automaton (Situation.start ("Cause ".toList ++ (text ++ (" [".toList ++ cs)))) := by
  have hcause : automaton.Reads 0 (.cause, "Cause".toList) ∧
      automaton.action? 0 .cause = some (.shift 20) :=
    ⟨⟨by decide, .inr (.inr (by decide))⟩, by decide⟩
  have hbracket : automaton.Reads 40 (.openBracket, "[".toList) ∧
      automaton.action? 40 .openBracket = some (.shift 78) :=
    ⟨⟨by decide, .inl (by decide)⟩, by decide⟩
  have hfeeds := feeds_conditional (hready.mono fun _ _ hp => hp.1) hlaid cs
  obtain ⟨rest1, hfeeds1, hreach1⟩ := Situation.Offers.shift
    (s := Situation.start ("Cause ".toList ++ (text ++ (" [".toList ++ cs)))) hfeeds hcause.1 hcause.2
  have hfaces : Faces ⟨[⟨20, []⟩, ⟨0, []⟩], rest1, none⟩ [.category .conditions] ls
      [(.openBracket, "[".toList)] cs :=
    .single (List.cons_ne_nil _ _) rfl (by decide) rfl hfeeds1 hspares
  have hfollow : automaton.follow 20 [.category .conditions] = some 40 := by decide
  rcases hready.passes_or_fails rfl hfaces hfollow with ⟨hlong, hpasses⟩ | ⟨hlong, hfails⟩
  · obtain ⟨s, hreach2, hstack, hoffers⟩ := hpasses.frame
    obtain ⟨stack, rest, ahead⟩ := s
    dsimp only at hstack
    subst hstack
    obtain ⟨rest3, hfeeds3, hreach3⟩ := hoffers.shift hbracket.1 hbracket.2
    cases hfeeds3
    exact .inl ⟨hlong, (hreach1.trans hreach2).trans hreach3⟩
  · exact .inr ⟨hlong, hfails.of_reaches hreach1⟩

/-- A conditional whose block is read before the end of the text. -/
theorem accepts_conditional {c : Node} {items : List Node} {body : String} (h : ParsesInBlock body items) :
    Accepts automaton ⟨[⟨78, []⟩, ⟨40, [c]⟩, ⟨20, []⟩, ⟨0, []⟩], ("\n" ++ body ++ "\n]").toList, none⟩
      (conditionalTree c items) := by
  obtain ⟨rest, x, hx, hreach⟩ := h.reaches
  have hcheck : automaton.goto? 40 .block = some 77 ∧ automaton.goto? 0 .causeStmt = some 7 ∧
      automaton.action? 77 .finish = some (.reduce 26) ∧
      (automaton.action? 7 .finish).isSome = true := by
    decide
  obtain ⟨hgoto, hcause, hred, hact⟩ := hcheck
  rw [← hx] at hred hact
  have hblock := hreach ⟨40, [c]⟩ [⟨20, []⟩, ⟨0, []⟩] 77 hgoto
  have hwhole := reaches_reduce (i := 26) [⟨77, [.tree "block" items]⟩, ⟨40, [c]⟩, ⟨20, []⟩]
    (s := ⟨[⟨77, [.tree "block" items]⟩, ⟨40, [c]⟩, ⟨20, []⟩, ⟨0, []⟩], rest, some x⟩)
    rfl rfl rfl rfl hred hcause
  have hstmt := reaches_statement (q := 7) (i := 10) (by decide)
    (.tree "cause_stmt" [c, .tree "block" items]) rest hact
  exact Reaches.accepts ((hblock.trans hwhole).trans hstmt) (accepts_statement hx)

/-! ### The condition in a tree -/

/-- In the tree of a conditional the conditions stand before an opening bracket. -/
theorem Derives.exists_conditions {n c b : Node} (h : Derives automaton.Finishes symbols ls next [n])
    (hpart : (Node.tree "cause_stmt" [c, b]).Part n) :
    ∃ phrase, Derives automaton.Finishes [.category .conditions] phrase .openBracket [c] := by
  have hcauses : ∀ p ∈ productions, p.label = "cause_stmt" →
      [.terminal .cause, .category .conditions, .category .block] <+: p.symbols := by
    decide
  have hblocks : ∀ p ∈ productions, p.category = .block → [.terminal .openBracket] <+: p.symbols := by
    decide
  rcases h.part_cases (.head _) hpart with heq | ⟨_, _, heq, -⟩ | ⟨p, cs, _, _, heq, hfin, -, hcause⟩
  · cases heq
  · cases heq
  obtain ⟨hlabel, rfl⟩ := Node.tree.inj heq
  obtain ⟨symbols, hsyms⟩ := hcauses p (mem_productions_of_finishes hfin) hlabel.symm
  have hcause := hcause.resolve_left (by simp)
  rw [← hsyms] at hcause
  obtain ⟨word, rest, after, -, -, hnodes, hrest⟩ := hcause.terminal_inv
  obtain ⟨p, phrase, behind, inner, others, hc, -, rfl, hfin, hinner, hblock⟩ := hrest.category_inv
  obtain ⟨node, hnode⟩ := List.length_eq_one_iff.mp (p.build_length inner (by rw [hc]; rfl))
  obtain ⟨rfl, -⟩ := List.cons.inj (hnodes.trans (by rw [hnode]; rfl))
  -- What comes after the conditions is what the block begins with.
  obtain ⟨q, _, _, _, _, hq, rfl, -, hfin', hblock, -⟩ := hblock.category_inv
  obtain ⟨symbols, hsyms⟩ := hblocks q (mem_productions_of_finishes hfin') hq
  rw [← hsyms] at hblock
  obtain ⟨bracket, rest', after', -, rfl, -, -⟩ := hblock.terminal_inv
  have hconds := Derives.single hfin hinner
  rw [hc, hnode] at hconds
  exact ⟨phrase, hconds⟩

/-! ### Conditionals -/

theorem endsInName_condition {t1 t2 : Node} {op : String} : EndsInName [conditionTree t1 op t2] ↔ EndsInName [t2] := by
  have hpair : EndsInName [t1, .token "COMPARISON_OP" op, t2] ↔ EndsInName [t2] :=
    ⟨fun h => EndsInName.of_append [t1, .token "COMPARISON_OP" op] h (List.cons_ne_nil _ _),
      fun h => h.append_left [t1, .token "COMPARISON_OP" op]⟩
  rw [conditionTree, endsInName_tree (by decide), endsInName_tree (by decide), hpair]

/-- An expression ends in a name if its last lexeme is one and is not a member. -/
theorem endsInName_expr_iff {t : Node} (h : DerivesAny [.category .expr] ls next [t]) :
    EndsInName [t] ↔ EndsBare ls :=
  (h.endsInName_iff (by decide) (by decide) rfl rfl).2.2

/-- Every expression has a tree by the rules of expressions, before whatever comes next. -/
theorem exists_inline_tree (h : DerivesAny [.category .expr] ls next nodes) (after : Terminal) :
    ∃ t, DerivesInline [.category .expr] ls after [t] ∧
      DerivesAny [.category .expr] ls after [t] := by
  obtain ⟨nodes', hinline⟩ := h.resolve
  obtain ⟨t, rfl⟩ := hinline.exists_tree rfl
  have hafter := hinline.change_next after
  exact ⟨t, hafter, hafter.mono fun p _ hp => (mem_inlineRules.mp hp).1⟩

/-- The machine can follow a condition that does not end in a name. -/
theorem exists_ready_condition {next1 next2 : Terminal} {nodes1 nodes2 : List Node}
    (h1 : DerivesAny [.category .expr] ls₁ next1 nodes1) (h2 : DerivesAny [.category .expr] ls₂ next2 nodes2)
    (hop : Terminal.comparison.Spells op) (hbare : ¬ EndsBare ls₂) :
    ∃ t1 t2, DerivesAny [.category .expr] ls₁ .comparison [t1] ∧
      DerivesAny [.category .expr] ls₂ .openBracket [t2] ∧
      Derives Ready [.category .conditions] (ls₁ ++ (.comparison, op) :: ls₂) .openBracket
        [conditionTree t1 (String.ofList op) t2] := by
  obtain ⟨t1, hinline1, hplain1⟩ := exists_inline_tree h1 .comparison
  obtain ⟨t2, hinline2, hplain2⟩ := exists_inline_tree h2 .openBracket
  refine ⟨t1, t2, hplain1, hplain2, ?_⟩
  rcases (derives_condition hinline1 hinline2 hop).settle (by decide) with hready | ⟨-, hname, -⟩
  · exact hready
  · exact absurd ((endsInName_expr_iff hplain2).mp (endsInName_condition.mp hname)) hbare

theorem hasLong_condition : HasLong (ls₁ ++ (.comparison, op) :: ls₂) ↔ HasLong (ls₁ ++ ls₂) := by
  simp [HasLong]

theorem toList_conditionalText (first op second body : String) :
    (conditionalText first op second body).toList = "Cause ".toList ++
      ((first.toList ++ (" ".toList ++ (op.toList ++ (' ' :: second.toList)))) ++
        (" [".toList ++ ("\n" ++ body ++ "\n]").toList)) := by
  delta conditionalText
  simp only [String.toList_append, List.append_assoc]
  rfl

/-- A conditional is read as the grammar says, unless its second expression ends in a name, which
the bracket would go on with, or one of the expressions holds the long form of the word for input,
which is never read. -/
theorem conditional_parses_iff {ls₁ ls₂ : List Lexeme} {next₁ next₂ : Terminal}
    {nodes₁ nodes₂ items : List Node} {op : List Char} {first second body : String}
    (h₁ : Derives (fun p _ ↦ p ∈ productions) [.category .expr] ls₁ next₁ nodes₁)
    (h₂ : Derives (fun p _ ↦ p ∈ productions) [.category .expr] ls₂ next₂ nodes₂)
    (hspares₁ : SparesReserved ls₁) (hspares₂ : SparesReserved ls₂)
    (hfirst : Laid ls₁ first.toList) (hsecond : Laid ls₂ second.toList)
    (hop : Terminal.comparison.Spells op) (hbody : ParsesInBlock body items) :
    (∃ t₁ t₂, Derives (fun p _ ↦ p ∈ productions) [.category .expr] ls₁ .comparison [t₁] ∧
      Derives (fun p _ ↦ p ∈ productions) [.category .expr] ls₂ .openBracket [t₂] ∧
      parse (conditionalText first (String.ofList op) second body) =
        .ok (conditionalTree (conditionTree t₁ (String.ofList op) t₂) items)) ↔
    ¬ HasLong (ls₁ ++ ls₂) ∧ ¬ EndsBare ls₂ := by
  have hspares : SparesReserved (ls₁ ++ (.comparison, op) :: ls₂) :=
    hspares₁.append (SparesReserved.append (SparesReserved.of_not_mem (by simp) :
      SparesReserved [(.comparison, op)]) hspares₂)
  have hsolid : ls₂ ≠ [] := by
    obtain ⟨t, hinline, -⟩ := exists_inline_tree h₂ .finish
    obtain ⟨y, rest, rfl, -⟩ := hinline.exists_first
    exact List.cons_ne_nil _ _
  have hlaid : Laid (ls₁ ++ (.comparison, op) :: ls₂)
      (first.toList ++ (" ".toList ++ (op ++ (' ' :: second.toList)))) :=
    hfirst.append (.cons isGap_space hop (hsecond.blank hsolid))
  have htext := toList_conditionalText first (String.ofList op) second body
  have hword : (String.ofList op).toList = op := String.toList_ofList
  rw [hword] at htext
  constructor
  · rintro ⟨t₁, t₂, -, hplain₂, hparse⟩
    have hbare : ¬ EndsBare ls₂ := by
      obtain ⟨ls, hderives⟩ := derives_of_parse hparse
      obtain ⟨phrase, hconditions⟩ := hderives.exists_conditions (.child (.head _) (.child (.head _) (.refl _)))
      rw [← endsInName_expr_iff hplain₂, ← endsInName_condition]
      exact (hconditions.not_endsInName rfl rfl).2 rfl
    refine ⟨fun hlong ↦ ?_, hbare⟩
    obtain ⟨t₁', t₂', -, -, hready⟩ := exists_ready_condition h₁ h₂ hop hbare
    rcases reaches_conditional hready hlaid hspares ("\n" ++ body ++ "\n]").toList with
      ⟨hnone, -⟩ | ⟨-, hfails⟩
    · exact hnone (hasLong_condition.mpr hlong)
    · rw [parse_eq_ok_iff, htext] at hparse
      exact hfails.not_accepts _ hparse
  · rintro ⟨hlong, hbare⟩
    obtain ⟨t₁, t₂, hplain₁, hplain₂, hready⟩ := exists_ready_condition h₁ h₂ hop hbare
    refine ⟨t₁, t₂, hplain₁, hplain₂, ?_⟩
    rcases reaches_conditional hready hlaid hspares ("\n" ++ body ++ "\n]").toList with
      ⟨-, hreach⟩ | ⟨hsome, -⟩
    · rw [parse_eq_ok_iff, htext]
      exact Reaches.accepts hreach (accepts_conditional hbody)
    · exact absurd (hasLong_condition.mp hsome) hlong

/-- The nodes of a block with one assignment. -/
def assignmentItems : List Node :=
  [.token "NEWLINE" "\n", .tree "statement" [.tree "assignment" [.token "IDENT" "x", .tree "expr"
    [.tree "term" [.tree "factor" [.token "NUMBER" "1"]]]]], .token "NEWLINE" "\n"]

theorem parsesInBlock_assignment : ParsesInBlock "x -> 1" assignmentItems :=
  ⟨.tree "expr" [.tree "term" [.tree "factor" [.token "NUMBER" "0"]]], by rfl⟩

/-- A number before the block is read as the grammar says, but a name is refused. -/
theorem conditional_parses_examples :
    (∃ t₁ t₂, parse "Cause a > 1 [\nx -> 1\n]" =
        .ok (conditionalTree (conditionTree t₁ ">" t₂) assignmentItems)) ∧
      (¬ ∃ t₁ t₂,
        Derives (fun p _ ↦ p ∈ productions) [.category .expr] [(.ident, ['a'])] .comparison [t₁] ∧
        Derives (fun p _ ↦ p ∈ productions) [.category .expr] [(.ident, ['b'])] .openBracket [t₂] ∧
        parse "Cause a > b [\nx -> 1\n]" =
          .ok (conditionalTree (conditionTree t₁ ">" t₂) assignmentItems)) ∧
      (parse "Cause a > b [\nx -> 1\n]").isOk = false := by
  have hplain : ∀ {ls next nodes}, DerivesInline [.category .expr] ls next nodes →
      Derives (fun p _ ↦ p ∈ productions) [.category .expr] ls next nodes :=
    fun h ↦ h.mono fun p _ hp ↦ (mem_inlineRules.mp hp).1
  have ha := derives_operand (i := 77) .ident ['a'] (by decide) rfl (by decide) .finish
  have hb := derives_operand (i := 77) .ident ['b'] (by decide) rfl (by decide) .finish
  have hone := derives_operand (i := 75) .number ['1'] (by decide) rfl (by decide) .finish
  have hlaid : ∀ {t : Terminal} {c : Char}, t.Spells [c] →
      Laid [(t, [c])] (String.singleton c).toList := by
    intro t c hword
    rw [String.toList_singleton]
    exact .cons isGap_nil hword .nil
  have hop : Terminal.comparison.Spells ['>'] := by decide
  have hnumber := conditional_parses_iff (hplain ha) (hplain hone) (.of_not_mem (by decide))
    (.of_not_mem (by decide)) (hlaid (by decide)) (hlaid (by decide)) hop
    parsesInBlock_assignment
  have hname := conditional_parses_iff (hplain ha) (hplain hb) (.of_not_mem (by decide))
    (.of_not_mem (by decide)) (hlaid (by decide)) (hlaid (by decide)) hop
    parsesInBlock_assignment
  have hbare : ¬ EndsBare [(.number, ['1'])] := fun h ↦ absurd h.getLast? (by simp)
  obtain ⟨t₁, t₂, -, -, hparse⟩ := hnumber.mpr ⟨by simp [HasLong], hbare⟩
  refine ⟨⟨t₁, t₂, hparse⟩, fun h ↦ (hname.mp h).2 ⟨[], ['b'], rfl, by simp⟩, by decide +kernel⟩

end FapLang.Grammar
