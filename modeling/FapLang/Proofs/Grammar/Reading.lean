import FapLang.Proofs.Grammar.Moves

/-!
Reading lexemes that are laid out in a text, with blanks before them or none where neither goes on
with the other (`Feeds`). Each state reads every lexeme that it has an action for (`lex_feeds`);
that settles whether a sign belongs to a numeral (`isContextual`).
-/

namespace FapLang.Grammar

variable {c : Char} {cs gap rest : List Char} {t : Terminal}

/-! ### First characters -/

namespace Pattern

/-- Whether a lexeme of the pattern can begin with a character. -/
def opens : Pattern → Char → Bool
  | identifier, c => isLetter c
  | numeral, c => isAsciiDigit c || c = '-'
  | lineEnds, c => c = '\n' || c = '\r'
  | blankRun, c => isGap c
  | quotedText, c => c = '"'
  | word text, c => text.toList.head? = some c
  | anyCase text, c => text.toList.head? = some (Number.lowerAscii c)
  | oneOf texts, c => texts.any fun text => text.toList.head? = some c

theorem opens_of_takeNumeral {word : List Char}
    (h : takeNumeral (c :: cs) = some (word, rest)) : numeral.opens c = true := by
  unfold takeNumeral at h
  split at h
  · rename_i heq
    cases heq
    rfl
  · obtain ⟨⟨ds, left⟩, hrun, -⟩ := Option.map_eq_some_iff.mp h
    obtain ⟨hcs, hne, hall, -⟩ := takeRun_eq_some_iff.mp hrun
    obtain ⟨d, ds, rfl⟩ := List.exists_cons_of_ne_nil hne
    cases hcs
    simp [opens, hall c (.head _)]

theorem opens_of_takeLineEnds {word : List Char}
    (h : takeLineEnds (c :: cs) = some (word, rest)) : lineEnds.opens c = true := by
  obtain ⟨hne, hrun⟩ := takeLineEnds_eq_some_iff.mp h
  unfold lineEndRun at hrun
  split at hrun
  · rename_i heq
    cases heq
    rfl
  · rename_i heq
    cases heq
    rfl
  · exact absurd (Prod.mk.inj hrun).1.symm hne

/-- A lexeme at the front of a text begins with its first character. -/
theorem opens_of_take? {p : Pattern} (hsolid : p.isSolid = true) {word : List Char}
    (h : p.take? (c :: cs) = some (word, rest)) : p.opens c = true := by
  have hword := take?_ne_nil hsolid h
  obtain ⟨hcs, -⟩ := take?_resume h
  obtain ⟨d, tail, rfl⟩ := List.exists_cons_of_ne_nil hword
  obtain ⟨rfl, -⟩ := List.cons.inj hcs
  cases p with
  | identifier =>
    change takeIdentifier (c :: cs) = _ at h
    obtain ⟨e, tail', heq, -, hletter, -⟩ := takeIdentifier_eq_some_iff.mp h
    obtain ⟨rfl, -⟩ := List.cons.inj heq
    exact hletter
  | numeral => exact opens_of_takeNumeral h
  | lineEnds => exact opens_of_takeLineEnds h
  | blankRun => exact (takeRun_eq_some_iff.mp h).2.2.1 c (.head _)
  | quotedText =>
    obtain ⟨inner, heq, -⟩ := takeQuoted_eq_some_iff.mp h
    obtain ⟨rfl, -⟩ := List.cons.inj heq
    rfl
  | word text =>
    obtain ⟨heq, -⟩ := takeLiteral_eq_some_iff.mp h
    simp [opens, ← heq]
  | anyCase text =>
    obtain ⟨-, heq⟩ := takeAnyCase_eq_some_iff.mp h
    simp [opens, ← heq]
  | oneOf texts =>
    obtain ⟨text, htext, heq⟩ := List.mem_map.mp (oneOf_resume h).1
    simp only [opens, List.any_eq_true, decide_eq_true_eq]
    exact ⟨text, htext, by rw [heq]; rfl⟩

end Pattern

theorem Terminal.opens_of_take? {word : List Char}
    (h : t.pattern.take? (c :: cs) = some (word, rest)) : t.pattern.opens c = true :=
  Pattern.opens_of_take? t.pattern_isSolid h

theorem Terminal.take?_eq_none (h : t.pattern.opens c = false) : t.pattern.take? (c :: cs) = none := by
  cases htake : t.pattern.take? (c :: cs) with
  | none => rfl
  | some cut => exact absurd (Terminal.opens_of_take? htake) (ne_true_of_eq_false h)

/-- A word of a terminal begins with one of its first characters. -/
theorem Terminal.Spells.exists_opens {word : List Char} (h : t.Spells word) :
    ∃ c tail, word = c :: tail ∧ t.pattern.opens c = true := by
  obtain ⟨c, tail, rfl⟩ := List.exists_cons_of_ne_nil (Terminal.take?_ne_nil h)
  exact ⟨c, tail, rfl, Terminal.opens_of_take? h⟩

/-! ### Candidates -/

namespace Candidates

variable {wanted before after : List Terminal} {t u : Terminal} {cs : List Char} {cut : Cut}

theorem match?_of_tried {c : Candidates} (htried : c.tried = before ++ t :: after)
    (hbefore : ∀ u ∈ before, u.pattern.take? cs = none) (htake : t.pattern.take? cs = some cut) :
    c.match? cs = some (t, cut) := by
  have hnone : before.findSome? (fun u => (u.pattern.take? cs).map fun cut => (u, cut)) = none :=
    List.findSome?_eq_none_iff.mpr fun u hu => by rw [hbefore u hu, Option.map_none]
  rw [match?, htried, List.findSome?_append, hnone, Option.none_or, List.findSome?_cons, htake,
    Option.map_some]

/-- The terminals that a place asks for, in their fixed order. -/
def here (wanted : List Terminal) : List Terminal :=
  Terminal.all.filter fun t => t = .blank || wanted.contains t

theorem mem_here : t ∈ here wanted ↔ t ∈ Terminal.all ∧ (t = .blank ∨ t ∈ wanted) := by
  simp [here]

theorem of_eq_of_ident (h : .ident ∈ wanted) : of wanted =
      { tried := (here wanted).filter fun t => !isHidden t, keywords := (here wanted).filter isWord } := by
  have hident : (here wanted).contains .ident = true := by
    simpa [mem_here, Terminal.all] using h
  exact if_pos hident

theorem of_eq_of_not_ident (h : .ident ∉ wanted) : of wanted = { tried := here wanted, keywords := [] } := by
  have hident : ¬ (here wanted).contains .ident = true := by
    simpa [mem_here, Terminal.all] using h
  exact if_neg hident

theorem mem_tried : t ∈ (of wanted).tried ↔ t ∈ here wanted ∧ (.ident ∈ wanted → isHidden t = false) := by
  by_cases hwanted : Terminal.ident ∈ wanted
  · rw [of_eq_of_ident hwanted]
    simp [hwanted]
  · rw [of_eq_of_not_ident hwanted]
    simp [hwanted]

theorem mem_keywords : t ∈ (of wanted).keywords ↔ .ident ∈ wanted ∧ t ∈ here wanted ∧ isWord t = true := by
  by_cases hwanted : Terminal.ident ∈ wanted
  · rw [of_eq_of_ident hwanted]
    simp [hwanted]
  · rw [of_eq_of_not_ident hwanted]
    simp [hwanted]

/-- Terminals are tried in their fixed order. -/
theorem tried_eq_filter (wanted : List Terminal) :
    ∃ keep : Terminal → Bool, (of wanted).tried = Terminal.all.filter keep := by
  by_cases hwanted : Terminal.ident ∈ wanted
  · rw [of_eq_of_ident hwanted]
    exact ⟨_, List.filter_filter⟩
  · rw [of_eq_of_not_ident hwanted]
    exact ⟨fun t => t = .blank || wanted.contains t, rfl⟩

/-- What is tried before a terminal stands before it in the fixed order. -/
theorem tried_split (hall : Terminal.all = before ++ t :: after) (ht : t ∈ (of wanted).tried) :
    ∃ first second, (of wanted).tried = first ++ t :: second ∧
      ∀ u ∈ first, u ∈ before ∧ u ∈ (of wanted).tried := by
  obtain ⟨keep, hkeep⟩ := tried_eq_filter wanted
  have hkept : keep t = true := by
    rw [hkeep] at ht
    exact (List.mem_filter.mp ht).2
  refine ⟨before.filter keep, after.filter keep, ?_, fun u hu => ?_⟩
  · rw [hkeep, hall, List.filter_append, List.filter_cons_of_pos hkept]
  · obtain ⟨hbefore, hu⟩ := List.mem_filter.mp hu
    refine ⟨hbefore, ?_⟩
    rw [hkeep, hall]
    exact List.mem_filter.mpr ⟨List.mem_append_left _ hbefore, hu⟩

end Candidates

/-! ### Gaps -/

/-- Blanks that do not begin with a line end. -/
def IsGap (gap : List Char) : Prop :=
  (∀ c ∈ gap, isGap c = true) ∧ takeLineEnds gap = none

theorem isGap_space : IsGap [' '] :=
  ⟨by simp [isGap], rfl⟩

theorem takeLineEnds_eq_none {text : List Char} (hfeed : ∀ tail, text ≠ '\n' :: tail)
    (hreturn : ∀ tail, text ≠ '\r' :: '\n' :: tail) : takeLineEnds text = none := by
  have hrun : lineEndRun text = ([], text) := by
    unfold lineEndRun
    split
    · exact absurd rfl (hreturn _)
    · exact absurd rfl (hfeed _)
    · rfl
  rw [takeLineEnds, hrun]

/-- No line end is found where a gap begins, or where there is none. -/
theorem IsGap.takeLineEnds_append (h : IsGap gap)
    (hcs : ∀ c, cs.head? = some c → isGap c = false) : takeLineEnds (gap ++ cs) = none := by
  have hfeed : ∀ tail, cs ≠ '\n' :: tail := by
    rintro tail rfl
    cases hcs '\n' rfl
  cases gap with
  | nil =>
    refine takeLineEnds_eq_none hfeed ?_
    rintro tail rfl
    cases hcs '\r' rfl
  | cons c gap =>
    obtain ⟨-, hnone⟩ := h
    refine takeLineEnds_eq_none (fun tail htext => ?_) (fun tail htext => ?_)
    · cases htext
      simp [takeLineEnds, lineEndRun] at hnone
    · obtain ⟨rfl, hrest⟩ := List.cons.inj htext
      cases gap with
      | nil => exact hfeed tail hrest
      | cons d gap =>
        cases hrest
        simp [takeLineEnds, lineEndRun] at hnone

/-- Nothing but a line end is tried before blanks and could begin with one. -/
theorem opens_gap (hc : isGap c = true) (ht : t = .ident ∨ t = .number) : t.pattern.opens c = false := by
  simp only [isGap, Bool.or_eq_true, decide_eq_true_eq] at hc
  rcases ht with rfl | rfl <;> rcases hc with (((rfl | rfl) | rfl) | rfl) | rfl <;> decide

/-- A gap is passed over. -/
theorem Candidates.lex_gap {wanted : List Terminal} (hgap : IsGap gap)
    (hcs : ∀ c, cs.head? = some c → isGap c = false) :
    (Candidates.of wanted).lex (gap ++ cs) = (Candidates.of wanted).lex cs := by
  by_cases hempty : gap = []
  · rw [hempty, List.nil_append]
  · have hblank : .blank ∈ (Candidates.of wanted).tried :=
      Candidates.mem_tried.mpr ⟨Candidates.mem_here.mpr ⟨by decide, .inl rfl⟩, fun _ => rfl⟩
    have hall : Terminal.all = [.ident, .number, .newline] ++ .blank :: Terminal.all.drop 4 := rfl
    obtain ⟨first, second, htried, hfirst⟩ := Candidates.tried_split hall hblank
    have htake : Terminal.blank.pattern.take? (gap ++ cs) = some (gap, cs) :=
      takeRun_eq_some_iff.mpr ⟨rfl, hempty, hgap.1, hcs⟩
    refine Candidates.lex_blank (Candidates.match?_of_tried htried (fun u hu => ?_) htake)
    have hu := (hfirst u hu).1
    simp only [List.mem_cons, List.not_mem_nil, or_false] at hu
    obtain ⟨c, gap, rfl⟩ := List.exists_cons_of_ne_nil hempty
    have hc := hgap.1 c (.head _)
    rcases hu with hu | hu | rfl
    · exact Terminal.take?_eq_none (opens_gap hc (.inl hu))
    · exact Terminal.take?_eq_none (opens_gap hc (.inr hu))
    · exact hgap.takeLineEnds_append hcs

/-! ### Punctuation and signs -/

/-- Terminals that are neither words nor numerals and stand in expressions. -/
def punctuation : List Terminal :=
  [.quotedText, .comparison, .addOp, .mulOp, .comma, .dot, .openParen, .openBracket, .closeParen,
    .closeBracket, .bar]

/-- The first characters of a pattern that has few of them. -/
def Pattern.firsts : Pattern → List Char
  | quotedText => ['"']
  | oneOf texts => texts.filterMap (·.toList.head?)
  | _ => []

theorem Terminal.mem_firsts (ht : t ∈ punctuation) (hc : t.pattern.opens c = true) : c ∈ t.pattern.firsts := by
  have hfirsts : ∀ texts, (Pattern.oneOf texts).opens c = true → c ∈ (Pattern.oneOf texts).firsts := by
    intro texts h
    simp only [Pattern.opens, List.any_eq_true, decide_eq_true_eq] at h
    exact List.mem_filterMap.mpr h
  simp only [punctuation, List.mem_cons, List.not_mem_nil, or_false] at ht
  rcases ht with rfl | rfl | rfl | rfl | rfl | rfl | rfl | rfl | rfl | rfl | rfl
  · simpa [Terminal.pattern, Pattern.opens, Pattern.firsts] using hc
  all_goals exact hfirsts _ hc

/-- No other terminal begins as a punctuation mark does, signs apart. -/
theorem Terminal.opens_eq_false {u : Terminal} (ht : t ∈ punctuation)
    (hc : t.pattern.opens c = true) (hu : u ∈ Terminal.all) (hne : u ≠ t)
    (hsign : t = .addOp → u ≠ .number ∧ u ≠ .arrow) : u.pattern.opens c = false := by
  have hcheck : ∀ t ∈ punctuation, ∀ u ∈ Terminal.all, u ≠ t →
      (t = .addOp → u ≠ .number ∧ u ≠ .arrow) → t.pattern.firsts.all (!u.pattern.opens ·) = true := by
    decide +kernel
  have hnot := List.all_eq_true.mp (hcheck t ht u hu hne hsign) c (mem_firsts ht hc)
  simpa using hnot

namespace Automaton

/-- Whether operators and numerals are never expected at the same place. -/
def isContextual (m : Automaton) : Bool :=
  (List.range m.states.length).all fun state =>
    (m.action? state .addOp).isNone ||
      (m.action? state .number).isNone && (m.action? state .arrow).isNone

end Automaton

theorem automaton_isContextual : automaton.isContextual = true := by
  decide +kernel

namespace Automaton

variable {m : Automaton} {state : Nat} {t : Terminal}

theorem lt_of_action (h : (m.action? state t).isSome = true) : state < m.states.length := by
  rw [action?] at h
  cases hstate : m.states[state]? with
  | none => simp [hstate] at h
  | some s => exact (List.getElem?_eq_some_iff.mp hstate).1

theorem mem_terminals : t ∈ m.terminals state ↔
    t ∈ Terminal.all ++ [Terminal.finish] ∧ (m.action? state t).isSome = true :=
  List.mem_filter

theorem IsContextual.signs (hm : m.isContextual = true) (h : (m.action? state .addOp).isSome = true) :
    .number ∉ m.terminals state ∧ .arrow ∉ m.terminals state := by
  have hstate := List.all_eq_true.mp hm state (List.mem_range.mpr (lt_of_action h))
  simp only [Bool.and_eq_true, Bool.or_eq_true, Option.isNone_iff_eq_none] at hstate
  rcases hstate with hnone | ⟨hnum, harrow⟩
  · simp [hnone] at h
  · exact ⟨fun ht => by simp [mem_terminals, hnum] at ht, fun ht => by simp [mem_terminals, harrow] at ht⟩

end Automaton

/-! ### Lexemes in a row -/

/-- A lexeme of the terminal ends before this text. Keywords end as names do. -/
def Terminal.EndsBefore (t : Terminal) (after : List Char) : Prop :=
  if Candidates.isWord t then Pattern.identifier.EndsBefore after else t.pattern.EndsBefore after

/-- The text `cs` is the lexemes `ls`, with gaps before them, and then `tail`. The last may be the
end of the text. -/
inductive Feeds (tail : List Char) : List Lexeme → List Char → Prop
  | nil : Feeds tail [] tail
  | cons {t : Terminal} {word gap cs : List Char} {ls : List Lexeme} (hgap : IsGap gap)
      (hword : t.Spells word) (hends : t.EndsBefore cs) (hrest : Feeds tail ls cs) :
      Feeds tail ((t, word) :: ls) (gap ++ (word ++ cs))
  | finish (htail : tail = []) : Feeds tail [(.finish, [])] []

/-- The state has an action for the lexeme and, if it is a word, takes it for that word. -/
def Automaton.Reads (m : Automaton) (state : Nat) (x : Lexeme) : Prop :=
  (m.action? state x.1).isSome = true ∧
    (x.1 ∈ punctuation ∨ x.1 = .number ∨
      .ident ∈ m.terminals state ∧ Terminal.ident.Spells x.2 ∧
        (Candidates.of (m.terminals state)).classify .ident x.2 = x.1)

theorem not_isGap_of_opens (ht : t ∈ punctuation ∨ t = .number ∨ t = .ident)
    (hc : t.pattern.opens c = true) : isGap c = false := by
  have hcheck : ∀ t ∈ punctuation ++ [.number, .ident],
      [' ', '\t', '\x0c', '\r', '\n'].all (!t.pattern.opens ·) = true := by
    decide +kernel
  have hmem : t ∈ punctuation ++ [.number, .ident] := by
    rcases ht with ht | rfl | rfl
    · exact List.mem_append_left _ ht
    · decide
    · decide
  by_contra hgap
  have hgap : isGap c = true := by simpa using hgap
  have hgap : c ∈ [' ', '\t', '\x0c', '\r', '\n'] := by
    simpa [isGap, or_assoc] using hgap
  have hnot := List.all_eq_true.mp (hcheck t hmem) c hgap
  simp [hc] at hnot

theorem isLetter_of_isAsciiDigit (h : isAsciiDigit c = true) : isLetter c = false := by
  have hlow : c ≤ '9' := by
    simp only [isAsciiDigit, Bool.and_eq_true, decide_eq_true_eq] at h
    exact h.2
  have hbelow : ∀ d : Char, ¬ d ≤ '9' → ¬ d ≤ c := fun d hd hle => hd (Char.le_trans hle hlow)
  have hscore : c ≠ '_' := by
    rintro rfl
    exact absurd hlow (by decide)
  simp [isLetter, hbelow 'a' (by decide), hbelow 'A' (by decide), hscore]

namespace Candidates

variable {wanted : List Terminal} {t : Terminal} {word rest : List Char}

theorem match?_punctuation (ht : t ∈ punctuation) (hwanted : t ∈ wanted)
    (hsign : t = .addOp → .number ∉ wanted ∧ .arrow ∉ wanted) (hword : t.Spells word)
    (hends : t.pattern.EndsBefore rest) : (of wanted).match? (word ++ rest) = some (t, word, rest) := by
  have hall : ∀ t ∈ punctuation, t ∈ Terminal.all ∧ isHidden t = false := by decide
  have htried : t ∈ (of wanted).tried :=
    mem_tried.mpr ⟨mem_here.mpr ⟨(hall t ht).1, .inr hwanted⟩, fun _ => (hall t ht).2⟩
  obtain ⟨first, second, hsplit, hfirst⟩ := List.eq_append_cons_of_mem htried
  refine match?_of_tried hsplit (fun u hu => ?_) (Pattern.Spells.take?_append hword hends)
  obtain ⟨c, tail, rfl, hc⟩ := hword.exists_opens
  have hu' : u ∈ (of wanted).tried := by
    rw [hsplit]
    exact List.mem_append_left _ hu
  obtain ⟨huall, huwanted⟩ := mem_here.mp (mem_tried.mp hu').1
  refine Terminal.take?_eq_none (Terminal.opens_eq_false ht hc huall ?_ fun hadd => ?_)
  · rintro rfl
    exact hfirst hu
  · constructor
    · rintro rfl
      exact (hsign hadd).1 (huwanted.resolve_left (by decide))
    · rintro rfl
      exact (hsign hadd).2 (huwanted.resolve_left (by decide))

theorem match?_number (hwanted : .number ∈ wanted) (hword : Terminal.number.Spells word)
    (hends : Terminal.number.pattern.EndsBefore rest) :
    (of wanted).match? (word ++ rest) = some (.number, word, rest) := by
  have htried : .number ∈ (of wanted).tried :=
    mem_tried.mpr ⟨mem_here.mpr ⟨by decide, .inr hwanted⟩, fun _ => rfl⟩
  have hall : Terminal.all = [.ident] ++ .number :: Terminal.all.drop 2 := rfl
  obtain ⟨first, second, hsplit, hfirst⟩ := tried_split hall htried
  refine match?_of_tried hsplit (fun u hu => ?_) (Pattern.Spells.take?_append hword hends)
  obtain rfl := List.mem_singleton.mp (hfirst u hu).1
  obtain ⟨c, tail, rfl, hc⟩ := hword.exists_opens
  refine Terminal.take?_eq_none ?_
  simp only [Terminal.pattern, Pattern.opens, Bool.or_eq_true, decide_eq_true_eq] at hc
  rcases hc with hdigit | rfl
  · exact isLetter_of_isAsciiDigit hdigit
  · decide

theorem match?_ident (hwanted : .ident ∈ wanted) (hword : Terminal.ident.Spells word)
    (hends : Pattern.identifier.EndsBefore rest) : (of wanted).match? (word ++ rest) = some (.ident, word, rest) := by
  have htried : .ident ∈ (of wanted).tried :=
    mem_tried.mpr ⟨mem_here.mpr ⟨by decide, .inr hwanted⟩, fun _ => rfl⟩
  have hall : Terminal.all = [] ++ .ident :: Terminal.all.drop 1 := rfl
  obtain ⟨first, second, hsplit, hfirst⟩ := tried_split hall htried
  refine match?_of_tried hsplit (fun u hu => ?_) (Pattern.Spells.take?_append hword hends)
  cases (hfirst u hu).1

theorem classify_of_ne_ident {c : Candidates} (ht : t ≠ .ident) : c.classify t word = t :=
  if_neg ht

theorem classify_name {c : Candidates} (h : ∀ k ∈ c.keywords, spells word k = false) :
    c.classify .ident word = .ident := by
  have hnone : c.keywords.find? (spells word) = none :=
    List.find?_eq_none.mpr fun k hk => ne_true_of_eq_false (h k hk)
  rw [classify, if_pos rfl, hnone, Option.getD_none]

/-- The word for input is a keyword where it is expected. -/
theorem classify_readInput (hident : .ident ∈ wanted) (hwanted : .readInput ∈ wanted)
    (hword : Terminal.readInput.Spells word) : (of wanted).classify .ident word = .readInput := by
  obtain ⟨rfl, -⟩ := takeLiteral_eq_some_iff.mp hword
  have honly : ∀ k ∈ Terminal.all, spells "getInputFor".toList k = true → k = .readInput := by
    decide
  have hkeyword : .readInput ∈ (of wanted).keywords :=
    mem_keywords.mpr ⟨hident, mem_here.mpr ⟨by decide, .inr hwanted⟩, rfl⟩
  rw [classify, if_pos rfl]
  cases hfind : (of wanted).keywords.find? (spells "getInputFor".toList) with
  | none => exact absurd (by decide) (List.find?_eq_none.mp hfind _ hkeyword)
  | some k =>
    have hk := (mem_here.mp (mem_keywords.mp (List.mem_of_find?_eq_some hfind)).2.1).1
    exact honly k hk (List.find?_some hfind)

end Candidates

/-- A word is classified as a name or as a keyword. -/
theorem Candidates.classify_ident {c : Candidates} {wanted : List Terminal} (hc : c = of wanted)
    (word : List Char) : c.classify .ident word = .ident ∨ isWord (c.classify .ident word) = true := by
  rw [classify, if_pos rfl]
  cases hfind : c.keywords.find? (spells word) with
  | none => exact .inl rfl
  | some k =>
    have hk := List.mem_of_find?_eq_some hfind
    rw [hc] at hk
    exact .inr (mem_keywords.mp hk).2.2

/-- Reading passes over a gap before a word that does not begin with one. -/
theorem Candidates.lex_gap_word {wanted : List Terminal} {word : List Char}
    (hgap : IsGap gap) (ht : t ∈ punctuation ∨ t = .number ∨ t = .ident) (hword : t.Spells word) :
    (Candidates.of wanted).lex (gap ++ (word ++ rest)) = (Candidates.of wanted).lex (word ++ rest) := by
  obtain ⟨c, tail, rfl, hc⟩ := hword.exists_opens
  refine Candidates.lex_gap hgap fun d hd => ?_
  cases hd
  exact not_isGap_of_opens ht hc

/-- A state reads the lexeme that comes next, if it has an action for it. -/
theorem lex_feeds {m : Automaton} (hm : m.isContextual = true) {state : Nat} {x : Lexeme}
    {ls : List Lexeme} {tail : List Char} (hfeeds : Feeds tail (x :: ls) cs) (hreads : m.Reads state x) :
    ∃ rest, (Candidates.of (m.terminals state)).lex cs = .token x rest ∧ Feeds tail ls rest := by
  cases hfeeds with
  | finish =>
    obtain ⟨-, hmark | hnum | ⟨-, hname, -⟩⟩ := hreads
    · exact absurd hmark (by decide)
    · cases hnum
    · exact absurd hname (by decide)
  | @cons t word gap rest _ hgap hword hends hrest =>
    obtain ⟨hact, hkind⟩ := hreads
    refine ⟨rest, ?_, hrest⟩
    dsimp only at hact hkind
    rcases hkind with hpunct | rfl | ⟨hident, hname, hclass⟩
    · have hall : ∀ t ∈ punctuation, t ∈ Terminal.all ++ [Terminal.finish] ∧ t ≠ .ident ∧ t ≠ .blank ∧
          Candidates.isWord t = false := by decide
      obtain ⟨htall, hident, hblank, hplain⟩ := hall t hpunct
      rw [Terminal.EndsBefore, hplain, if_neg Bool.false_ne_true] at hends
      have hmatch := Candidates.match?_punctuation hpunct
        (Automaton.mem_terminals.mpr ⟨htall, hact⟩)
        (fun hadd => Automaton.IsContextual.signs hm (hadd ▸ hact)) hword hends
      rw [Candidates.lex_gap_word hgap (.inl hpunct) hword, Candidates.lex_token hmatch hblank,
        Candidates.classify_of_ne_ident hident]
    · have hmatch := Candidates.match?_number (Automaton.mem_terminals.mpr ⟨by decide, hact⟩)
        hword hends
      rw [Candidates.lex_gap_word hgap (.inr (.inl rfl)) hword, Candidates.lex_token hmatch (by decide),
        Candidates.classify_of_ne_ident (by decide)]
    · have hends' : Pattern.identifier.EndsBefore rest := by
        rcases Candidates.classify_ident (c := .of (m.terminals state)) rfl word with hc | hc
        · obtain rfl : t = .ident := hclass.symm.trans hc
          exact hends
        · rw [hclass] at hc
          rwa [Terminal.EndsBefore, if_pos hc] at hends
      have hmatch := Candidates.match?_ident hident hname hends'
      rw [Candidates.lex_gap_word hgap (.inr (.inr rfl)) hname, Candidates.lex_token hmatch (by decide),
        hclass]

end FapLang.Grammar
