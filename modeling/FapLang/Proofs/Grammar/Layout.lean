import FapLang.Proofs.Grammar.Blocks

/-!
The layout of accepted texts. A text that has a tree is nothing but the words of a derivation of
that tree, with blanks before them and at the end (`exists_spaced_of_parse`).
-/

namespace FapLang.Grammar

open Lexeme

theorem mem_takeFraction {whole rest word left : List Char} (h : takeFraction whole rest = (word, left)) :
    ∀ c ∈ word, c ∈ whole ∨ c = '.' ∨ isAsciiDigit c = true := by
  intro c hc
  unfold takeFraction at h
  split at h
  · split at h
    · rename_i digits left' hrun
      cases h
      rcases List.mem_append.mp hc with hc | hc
      · exact .inl hc
      · exact .inr ((List.mem_cons.mp hc).imp_right ((takeRun_eq_some_iff.mp hrun).2.2.1 c))
    · cases h
      exact .inl hc
  · cases h
    exact .inl hc

theorem mem_takeNumeral {cs word rest : List Char} (h : takeNumeral cs = some (word, rest)) :
    ∀ c ∈ word, c = '-' ∨ c = '.' ∨ isAsciiDigit c = true := by
  intro c hc
  unfold takeNumeral at h
  split at h
  · obtain ⟨⟨digits, left⟩, hrun, hfrac⟩ := Option.map_eq_some_iff.mp h
    rcases mem_takeFraction hfrac c hc with hwhole | hc
    · exact (List.mem_cons.mp hwhole).imp_right fun hc => .inr ((takeRun_eq_some_iff.mp hrun).2.2.1 c hc)
    · exact .inr hc
  · obtain ⟨⟨digits, left⟩, hrun, hfrac⟩ := Option.map_eq_some_iff.mp h
    exact .inr ((mem_takeFraction hfrac c hc).elim
      (fun hc => .inr ((takeRun_eq_some_iff.mp hrun).2.2.1 c hc)) fun hc => hc)

theorem mem_lineEndRun (cs : List Char) : ∀ c ∈ (lineEndRun cs).1, c = '\r' ∨ c = '\n' := by
  fun_induction lineEndRun cs with
  | case1 rest run left hrun ih =>
    rw [hrun] at ih
    simpa using ih
  | case2 rest run left hrun ih =>
    rw [hrun] at ih
    simpa using ih
  | case3 => simp

namespace Pattern

/-- Whether a character can stand in a word of the pattern. -/
def mayHold : Pattern → Char → Bool
  | identifier, c => isNameChar c
  | numeral, c => c = '-' || c = '.' || isAsciiDigit c
  | lineEnds, c => c = '\r' || c = '\n'
  | blankRun, c => isGap c
  | quotedText, _ => true
  | word text, c => text.toList.contains c
  | anyCase text, c => text.toList.contains (Number.lowerAscii c)
  | oneOf texts, c => texts.any (·.toList.contains c)

theorem Spells.mayHold {p : Pattern} {word : List Char} (h : p.Spells word) : ∀ c ∈ word, p.mayHold c = true := by
  intro c hc
  cases p with
  | identifier =>
    obtain ⟨first, tail, rfl, -, hfirst, htail, -⟩ := takeIdentifier_eq_some_iff.mp h
    rcases List.mem_cons.mp hc with rfl | hc
    · simp [Pattern.mayHold, isNameChar, hfirst]
    · exact htail c hc
  | numeral => simpa [Pattern.mayHold, or_assoc] using mem_takeNumeral h c hc
  | lineEnds =>
    obtain ⟨-, hrun⟩ := takeLineEnds_eq_some_iff.mp h
    have hmem := mem_lineEndRun word c (by rwa [hrun])
    simpa [Pattern.mayHold] using hmem
  | blankRun => exact (takeRun_eq_some_iff.mp h).2.2.1 c hc
  | quotedText => rfl
  | word text =>
    obtain ⟨rfl, -⟩ := takeLiteral_eq_some_iff.mp h
    simpa [Pattern.mayHold] using hc
  | anyCase text =>
    obtain ⟨-, hword⟩ := takeAnyCase_eq_some_iff.mp h
    rw [Pattern.mayHold, ← hword, List.contains_iff_mem]
    exact List.mem_map_of_mem hc
  | oneOf texts =>
    obtain ⟨text, htext, rfl⟩ := List.mem_map.mp (oneOf_resume h).1
    exact List.any_eq_true.mpr ⟨text, htext, List.contains_iff_mem.mpr hc⟩

end Pattern

/-- `Spaced ls text`: the text is the words of the lexemes, each after any number of blanks. -/
inductive Spaced : List Lexeme → List Char → Prop
  | nil : Spaced [] []
  | cons {x : Lexeme} {gap text : List Char} {ls : List Lexeme} (hgap : ∀ c ∈ gap, isGap c = true)
      (hrest : Spaced ls text) : Spaced (x :: ls) (gap ++ (x.2 ++ text))

namespace Spaced

variable {first second ls : List Lexeme} {left right text : List Char} {x : Lexeme}

theorem append (hfirst : Spaced first left) (hsnd : Spaced second right) :
    Spaced (first ++ second) (left ++ right) := by
  induction hfirst with
  | nil => exact hsnd
  | cons hgap _ ih =>
    rw [List.append_assoc, List.append_assoc]
    exact .cons hgap ih

theorem single {gap : List Char} (hgap : ∀ c ∈ gap, isGap c = true) : Spaced [x] (gap ++ x.2) := by
  have hspaced : Spaced [x] (gap ++ (x.2 ++ [])) := .cons hgap .nil
  rwa [List.append_nil] at hspaced

theorem nil_inv (h : Spaced [] text) : text = [] := by
  cases h
  rfl

theorem cons_inv (h : Spaced (x :: ls) text) :
    ∃ gap rest, text = gap ++ (x.2 ++ rest) ∧ (∀ c ∈ gap, isGap c = true) ∧ Spaced ls rest := by
  cases h with
  | cons hgap hrest => exact ⟨_, _, rfl, hgap, hrest⟩

/-- The lexemes of two sequences in a row divide the text. -/
theorem append_inv (h : Spaced (first ++ second) text) :
    ∃ left right, text = left ++ right ∧ Spaced first left ∧ Spaced second right := by
  induction first generalizing text with
  | nil => exact ⟨[], text, rfl, .nil, h⟩
  | cons x first ih =>
    obtain ⟨gap, rest, rfl, hgap, hrest⟩ := h.cons_inv
    obtain ⟨left, right, rfl, hleft, hright⟩ := ih hrest
    exact ⟨gap ++ (x.2 ++ left), right, by simp, .cons hgap hleft, hright⟩

end Spaced

namespace Candidates

variable {c : Candidates} {cs word rest : List Char} {x : Lexeme}

theorem isGap_of_match? (h : c.match? cs = some (.blank, word, rest)) :
    cs = word ++ rest ∧ ∀ d ∈ word, isGap d = true := by
  obtain ⟨hcs, -, hword, -⟩ := takeRun_eq_some_iff.mp (match?_eq_some h).2
  exact ⟨hcs, hword⟩

/-- Only blanks are passed over before a lexeme. -/
theorem exists_gap_of_lex (h : c.lex cs = .token x rest) :
    ∃ gap, cs = gap ++ (x.2 ++ rest) ∧ ∀ d ∈ gap, isGap d = true := by
  induction cs using lex_induction (c := c) with
  | nil => cases h
  | stuck => cases h
  | token cs t word left hmatch =>
    obtain ⟨rfl, rfl⟩ := Lexed.token.inj h
    exact ⟨[], (Pattern.take?_spells (match?_eq_some hmatch).2).1, by simp⟩
  | blank cs word left hmatch ih =>
    obtain ⟨rfl, hword⟩ := isGap_of_match? hmatch
    obtain ⟨gap, rfl, hgap⟩ := ih h
    exact ⟨word ++ gap, (List.append_assoc _ _ _).symm, fun d hd => (List.mem_append.mp hd).elim (hword d) (hgap d)⟩

/-- Only blanks are passed over before the end of a text. -/
theorem isGap_of_lex_finished (h : c.lex cs = .finished rest) : ∀ d ∈ cs, isGap d = true := by
  induction cs using lex_induction (c := c) with
  | nil => simp
  | stuck => cases h
  | token => cases h
  | blank cs word left hmatch ih =>
    obtain ⟨rfl, hword⟩ := isGap_of_match? hmatch
    exact fun d hd => (List.mem_append.mp hd).elim (hword d) (ih h d)

end Candidates

/-- What has been read of the text is the lexemes `ls` of the stack and the one ahead, spaced. -/
def Situation.Covers (m : Automaton) (text : List Char) (s : Situation) (ls : List Lexeme) : Prop :=
  s.Derived m ls ∧ (s.ahead = some endLexeme → s.rest = []) ∧
    ∃ front, text = front ++ s.rest ∧ Spaced (ls ++ s.ahead.toList) front

namespace Situation.Covers

variable {m : Automaton} {text : List Char} {s s' : Situation} {ls : List Lexeme}

theorem start (m : Automaton) (text : List Char) : (Situation.start text).Covers m text [] :=
  ⟨derived_start m text, fun h => absurd h (by simp [Situation.start]), [], rfl, .nil⟩

/-- Reading a lexeme leaves the stack as it is; other moves keep the lexemes that were read. -/
theorem moves (hm : m.isCoherent = true) (hs : s.Covers m text ls) (hmove : Moves m s s') :
    ∃ ls', s'.Covers m text ls' ∧ (s.ahead = none → ls' = ls) ∧
      (s.ahead ≠ none → ls' ++ s'.ahead.toList = ls ++ s.ahead.toList) := by
  obtain ⟨hder, hend, front, htext, hspaced⟩ := hs
  obtain ⟨ls', hder', hlooking, hfound⟩ := hder.moves hm hmove
  refine ⟨ls', ⟨hder', ?_⟩, hlooking, hfound⟩
  obtain ⟨hahead, x, rest, hlex, rfl⟩ | ⟨hahead, rest, hlex, rfl⟩ | ⟨x, target, hahead, -, rfl⟩ |
    ⟨x, i, after, hahead, -, -, rfl⟩ := moves_cases hmove
  · obtain rfl := hlooking hahead
    obtain ⟨gap, hrest, hgap⟩ := Candidates.exists_gap_of_lex hlex
    rw [hahead, Option.toList_none, List.append_nil] at hspaced
    refine ⟨fun h => ?_, front ++ (gap ++ x.2), by simp [htext, hrest], hspaced.append (.single hgap)⟩
    -- The end of the text is not a lexeme that is read.
    have hspells := Candidates.spells_of_lex hlex
    rw [Option.some.inj h] at hspells
    cases hspells
  · obtain rfl := hlooking hahead
    rw [hahead, Option.toList_none, List.append_nil] at hspaced
    have hgap := Candidates.isGap_of_lex_finished hlex
    have hrest := Candidates.lex_finished hlex
    refine ⟨fun _ => hrest, front ++ (s.rest ++ []), by simp [htext, hrest], ?_⟩
    exact hspaced.append (.single (x := endLexeme) hgap)
  · exact ⟨by simp, front, htext, hfound (by simp [hahead]) ▸ hspaced⟩
  · exact ⟨hend, front, htext, hfound (by simp [hahead]) ▸ hspaced⟩

/-- The lexemes of the stack stay, and others may follow them. -/
theorem reaches (hm : m.isCoherent = true) (hs : s.Covers m text ls) (hreach : Reaches m s s') :
    ∃ more, s'.Covers m text (ls ++ more) := by
  induction hreach with
  | refl => exact ⟨[], by rwa [List.append_nil]⟩
  | @tail t u _ hmove ih =>
    obtain ⟨more, ht⟩ := ih
    obtain ⟨ls', hu, hlooking, hfound⟩ := ht.moves hm hmove
    cases hahead : t.ahead with
    | none => exact ⟨more, hlooking hahead ▸ hu⟩
    | some x =>
      have hsame := hfound (by simp [hahead])
      cases hnext : u.ahead with
      | none =>
        refine ⟨more ++ [x], ?_⟩
        rwa [← List.append_assoc, show ls ++ more ++ [x] = ls' by simpa [hahead, hnext] using hsame.symm]
      | some y =>
        rw [hahead, hnext, Option.toList_some, Option.toList_some] at hsame
        exact ⟨more, (List.append_inj_left' hsame rfl) ▸ hu⟩

/-- An accepted tree has a derivation that begins with the lexemes of the stack, and the text is its
words and blanks. -/
theorem exists_spaced {tree : Node} (hs : s.Covers automaton text ls) (h : Accepts automaton s tree) :
    ∃ more, Derives automaton.Finishes [.category .start] (ls ++ more) .finish [tree] ∧
      Spaced (ls ++ more ++ [endLexeme]) text := by
  obtain ⟨last, hreach, hacc⟩ := h
  obtain ⟨more, hderived, hend, front, htext, hspaced⟩ := hs.reaches automaton_isCoherent hreach
  refine ⟨more, ?_⟩
  obtain ⟨x, hahead, hact, -⟩ := accepted_cases hacc
  -- What is ahead is the end of the text, which no word is read for.
  obtain rfl : x = endLexeme := by
    refine (hderived.built hahead).1.resolve_right fun hspells => ?_
    rw [Automaton.finish_of_accept hact] at hspells
    simp [Terminal.Spells, Pattern.Spells, Terminal.pattern, Pattern.take?] at hspells
  rw [hend hahead, List.append_nil] at htext
  rw [hahead, ← htext] at hspaced
  -- The top frame is the only one above the bottom, so its lexemes are all there are.
  obtain ⟨frame, stack, front, phrase, hstack, hls, hbelow, hder⟩ :=
    hderived.derives_of_accepted automaton_isCoherent hacc
  obtain ⟨top, hpair, -⟩ := stack_of_accepted ⟨_, hderived⟩ hacc
  cases hstack.symm.trans hpair
  cases hbelow with
  | bottom => exact ⟨hls ▸ hder, hspaced⟩

end Situation.Covers

/-- A text that has a tree is the words of a derivation of the tree, and blanks. -/
theorem exists_spaced_of_parse {source : String} {tree : Node} (h : parse source = .ok tree) :
    ∃ ls, Derives automaton.Finishes [.category .start] ls .finish [tree] ∧
      Spaced (ls ++ [endLexeme]) source.toList :=
  (Situation.Covers.start automaton source.toList).exists_spaced (parse_eq_ok_iff.mp h)

end FapLang.Grammar
