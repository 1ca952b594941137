import FapLang.Proofs.Grammar.Termination

/-!
Why the parser refuses a text. Only one kind of error tells of no token: the first character of the
text that is no gap begins no lexeme at all (`parse_error_cases`).
-/

namespace FapLang.Grammar

variable {m : Automaton} {c : Config} {cs text : List Char}

/-- Whether the message of an error shows a token. -/
def ParseError.showsToken : ParseError → Bool
  | character _ _ _ _ _ _ previous => previous.isSome
  | foreign _ _ _ | misplaced _ _ => true
  | exhausted => false

/-- A token has been read, or the end of the text. -/
def Config.Begun (c : Config) : Prop :=
  c.previous.isSome = true ∨ ∃ t, c.lookahead = some t ∧ t.terminal = .finish

theorem stuckError_showsToken {place : Cursor} {candidates : Candidates} (hc : c.previous.isSome = true) :
    (stuckError m text c place candidates).showsToken = true := by
  unfold stuckError
  split
  · rfl
  · exact hc

/-- What a step can come to after the first token. -/
def Step.Tells : Step → Prop
  | .next c => c.Begun
  | .accepted _ => True
  | .failed e => e.showsToken = true ∨ e = .exhausted

theorem Config.Begun.step_tells (hc : c.Begun) : (step m text c).Tells := by
  cases hahead : c.lookahead with
  | none =>
    have hprev : c.previous.isSome = true := by
      rcases hc with hprev | ⟨t, ht, -⟩
      · exact hprev
      · cases hahead.symm.trans ht
    simp only [step, hahead, readToken]
    split
    · exact .inl rfl
    · exact .inl hprev
    · exact .inl (stuckError_showsToken hprev)
  | some t =>
    simp only [step, hahead, useToken]
    split
    · rename_i target hact
      rcases hc with hprev | ⟨u, hu, hfin⟩
      · exact .inl hprev
      · obtain rfl : t = u := Option.some.inj (hahead.symm.trans hu)
        exact absurd hfin (Automaton.edge_of_shift hact).2
    · split
      · rcases hc with hprev | ⟨u, hu, hfin⟩
        · exact .inl hprev
        · exact .inr ⟨u, hahead.symm.trans hu, hfin⟩
      · exact .inr rfl
    · trivial
    · exact .inl rfl

/-- After the first token, all that is wrong is told with a token. -/
theorem Config.Begun.showsToken {fuel : Nat} {e : ParseError} (hc : c.Begun) (hrun : run m text fuel c = .error e) :
    e.showsToken = true ∨ e = .exhausted := by
  induction fuel generalizing c with
  | zero => exact .inr (by simpa [run] using hrun.symm)
  | succ fuel ih =>
    have htells : (step m text c).Tells := hc.step_tells
    rw [run] at hrun
    cases hstep : step m text c with
    | next c' =>
      rw [hstep] at hrun htells
      exact ih htells hrun
    | accepted tree => simp [hstep] at hrun
    | failed f =>
      rw [hstep] at hrun htells
      obtain rfl : f = e := by simpa using hrun
      exact htells

/-- The gap at the front of a text. -/
def gapOf (cs : List Char) : List Char :=
  cs.takeWhile isGap

/-- The text from its first character that is no gap. -/
def bodyOf (cs : List Char) : List Char :=
  cs.dropWhile isGap

theorem gapOf_append_bodyOf (cs : List Char) : gapOf cs ++ bodyOf cs = cs :=
  List.takeWhile_append_dropWhile

/-- Where the body begins. -/
def bodyPlace (cs : List Char) : Cursor :=
  if gapOf cs = [] then Cursor.start cs else (Cursor.start cs).advance (gapOf cs) (bodyOf cs)

theorem bodyPlace_rest (cs : List Char) : (bodyPlace cs).rest = bodyOf cs := by
  unfold bodyPlace
  split
  · rename_i hgap
    have hwhole := gapOf_append_bodyOf cs
    rw [hgap, List.nil_append] at hwhole
    exact hwhole.symm
  · rfl

theorem bodyPlace_offset (cs : List Char) : (bodyPlace cs).offset = (gapOf cs).length := by
  unfold bodyPlace
  split
  · rename_i hgap
    rw [hgap]
    rfl
  · simp [Cursor.advance, Cursor.start]

/-- The candidates at the start of a text. -/
def openingCandidates : Candidates :=
  Candidates.of (automaton.terminals 0)

theorem openingCandidates_tried : openingCandidates.tried = [.ident, .blank, .readInputLong] := by
  decide

/-- A gap is passed over as one blank, unless something else is tried before that fits. -/
theorem match?_gap {c : Candidates} {before after : List Terminal}
    (htried : c.tried = before ++ .blank :: after) (hgap : gapOf cs ≠ [])
    (hbefore : ∀ t ∈ before, t.pattern.take? cs = none) : c.match? cs = some (.blank, gapOf cs, bodyOf cs) := by
  have hnone : before.findSome? (fun t => (t.pattern.take? cs).map fun cut => (t, cut)) = none :=
    List.findSome?_eq_none_iff.mpr fun t ht => by rw [hbefore t ht, Option.map_none]
  have hblank : Terminal.blank.pattern.take? cs = some (gapOf cs, bodyOf cs) := by
    change takeRun isGap cs = _
    rw [takeRun, ← gapOf, ← bodyOf, if_neg (by simpa using hgap)]
  rw [Candidates.match?, htried, List.findSome?_append, hnone, Option.none_or, List.findSome?_cons,
    hblank, Option.map_some]

/-- The body does not begin with a blank. -/
theorem ne_blank_of_match?_body {c : Candidates} {word rest : List Char} {t : Terminal}
    (h : c.match? (bodyOf cs) = some (t, word, rest)) : t ≠ .blank := by
  rintro rfl
  obtain ⟨-, htake⟩ := Candidates.match?_eq_some h
  obtain ⟨hbody, hne, hall, -⟩ := takeRun_eq_some_iff.mp htake
  obtain ⟨d, word, rfl⟩ := List.exists_cons_of_ne_nil hne
  have hhead : (cs.dropWhile isGap).head? = some d := by
    rw [← bodyOf, hbody]
    rfl
  exact absurd (hall d (.head _)) (by simp [head?_dropWhile_eq_false hhead])

theorem match?_opening_gap (hgap : gapOf cs ≠ []) :
    openingCandidates.match? cs = some (.blank, gapOf cs, bodyOf cs) := by
  have htried : openingCandidates.tried = [.ident] ++ .blank :: [.readInputLong] :=
    openingCandidates_tried
  refine match?_gap htried hgap fun t ht => ?_
  rw [List.mem_singleton.mp ht]
  cases cs with
  | nil => rfl
  | cons d cs =>
    have hd : isGap d = true := by
      by_contra hd
      exact hgap (by simp [gapOf, hd])
    have hletter : isLetter d = false := by
      simp only [isGap, Bool.or_eq_true, decide_eq_true_eq] at hd
      rcases hd with (((rfl | rfl) | rfl) | rfl) | rfl <;> decide
    change takeIdentifier (d :: cs) = none
    simp [takeIdentifier, hletter]

theorem scanFrom_blank {c : Candidates} {fuel : Nat} {cursor : Cursor} {word rest : List Char}
    (h : c.match? cursor.rest = some (.blank, word, rest)) :
    scanFrom c (fuel + 1) cursor = scanFrom c fuel (cursor.advance word rest) := by
  rw [scanFrom, if_neg (by simpa using Candidates.ne_nil_of_match? h), h]
  rfl

/-- What reading the body of a text gives. -/
def scanBody (c : Candidates) (cs : List Char) : Scan :=
  if bodyOf cs = [] then .finished (bodyPlace cs)
  else match c.match? (bodyOf cs) with
    | none => .stuck (bodyPlace cs)
    | some (t, word, rest) =>
      .token ⟨c.classify t word, String.ofList word, (bodyPlace cs).line, (bodyPlace cs).column⟩
        ((bodyPlace cs).advance word rest)

theorem scanFrom_bodyPlace (c : Candidates) (cs : List Char) (fuel : Nat) :
    scanFrom c (fuel + 1) (bodyPlace cs) = scanBody c cs := by
  rw [scanFrom, scanBody, bodyPlace_rest]
  by_cases hempty : bodyOf cs = []
  · simp [hempty]
  · rw [if_neg (by simpa using hempty), if_neg hempty]
    cases hmatch : c.match? (bodyOf cs) with
    | none => rfl
    | some found =>
      obtain ⟨t, word, rest⟩ := found
      simp only [if_neg (ne_blank_of_match?_body hmatch)]

/-- Reading at the start of a text comes down to reading its body. -/
theorem scan_opening (cs : List Char) : scan openingCandidates (Cursor.start cs) = scanBody openingCandidates cs := by
  by_cases hgap : gapOf cs = []
  · have hplace : bodyPlace cs = Cursor.start cs := by rw [bodyPlace, if_pos hgap]
    rw [← scanFrom_bodyPlace _ _ cs.length, hplace]
    rfl
  · have hplace : bodyPlace cs = (Cursor.start cs).advance (gapOf cs) (bodyOf cs) := by
      rw [bodyPlace, if_neg hgap]
    cases cs with
    | nil => exact absurd rfl hgap
    | cons d cs =>
      rw [← scanFrom_bodyPlace _ _ cs.length, hplace]
      exact scanFrom_blank (match?_opening_gap hgap)

/-- The first character that is no gap begins no lexeme. -/
def opensStrangely (cs : List Char) : Bool :=
  !(bodyOf cs).isEmpty && (Candidates.everything.match? (bodyOf cs)).isNone

/-- The error for a text that opens strangely. It quotes up to forty characters either way. -/
def openingError (cs : List Char) : ParseError :=
  .character ((bodyOf cs).headD ' ') (bodyPlace cs).line (bodyPlace cs).column
    ((gapOf cs).drop ((gapOf cs).length - 40)) ((bodyOf cs).take 40) openingCandidates.expected none

theorem match?_opening_none (h : Candidates.everything.match? cs = none) : openingCandidates.match? cs = none := by
  have htried : ∀ t ∈ openingCandidates.tried, t ∈ Candidates.everything.tried := by
    decide
  rw [Candidates.match?, List.findSome?_eq_none_iff] at h ⊢
  exact fun t ht => h t (htried t ht)

theorem stuckError_opening (cs : List Char) (hne : bodyOf cs ≠ []) : if opensStrangely cs = true then
      stuckError automaton cs (Config.start cs) (bodyPlace cs) openingCandidates = openingError cs
    else (stuckError automaton cs (Config.start cs) (bodyPlace cs) openingCandidates).showsToken =
      true := by
  have hscan : scan .everything (bodyPlace cs) = scanBody .everything cs :=
    scanFrom_bodyPlace _ _ _
  rw [scanBody, if_neg hne] at hscan
  cases hmatch : Candidates.everything.match? (bodyOf cs) with
  | none =>
    have htake : cs.take (gapOf cs).length = gapOf cs :=
      (List.prefix_iff_eq_take.mp ⟨bodyOf cs, gapOf_append_bodyOf cs⟩).symm
    rw [if_pos (by simp [opensStrangely, hne, hmatch])]
    rw [hmatch] at hscan
    simp only [stuckError, hscan, openingError, bodyPlace_rest, bodyPlace_offset, htake]
    rfl
  | some found =>
    rw [if_neg (by simp [opensStrangely, hmatch])]
    rw [hmatch] at hscan
    simp only [stuckError, hscan]
    rfl

/-- The first step: a token or the end of the text is read, or nothing can begin there. -/
theorem step_start (cs : List Char) :
    (∃ c, step automaton cs (Config.start cs) = .next c ∧ c.Begun ∧ opensStrangely cs = false) ∨
      bodyOf cs ≠ [] ∧ step automaton cs (Config.start cs) =
        .failed (stuckError automaton cs (Config.start cs) (bodyPlace cs) openingCandidates) := by
  have hstep : step automaton cs (Config.start cs) = readToken automaton cs (Config.start cs) := rfl
  have hscan : scan (Candidates.of (automaton.terminals (Config.start cs).state))
      (Config.start cs).cursor = scanBody openingCandidates cs := scan_opening cs
  simp only [hstep, readToken, hscan, scanBody]
  by_cases hempty : bodyOf cs = []
  · rw [if_pos hempty]
    exact .inl ⟨_, rfl, .inr ⟨_, rfl, rfl⟩, by simp [opensStrangely, hempty]⟩
  · rw [if_neg hempty]
    cases hmatch : openingCandidates.match? (bodyOf cs) with
    | none => exact .inr ⟨hempty, rfl⟩
    | some found =>
      refine .inl ⟨_, rfl, .inl rfl, ?_⟩
      cases heverything : Candidates.everything.match? (bodyOf cs) with
      | none => exact absurd (match?_opening_none heverything) (by simp [hmatch])
      | some other => simp [opensStrangely, heverything]

/-- A text is refused because it opens strangely, or the error shows a token. -/
theorem parse_error_cases {source : String} {e : ParseError} (h : parse source = .error e) :
    if opensStrangely source.toList = true then e = openingError source.toList else e.showsToken = true := by
  have hnever : e ≠ .exhausted := fun he => parse_ne_exhausted source (by rw [h, he])
  have hrun : run automaton source.toList (64 * (source.toList.length + 1) + 63 + 1)
      (Config.start source.toList) = .error e := h
  rw [run] at hrun
  obtain ⟨c, hstep, hbegun, hopens⟩ | ⟨hne, hstep⟩ := step_start source.toList
  · rw [hstep] at hrun
    rw [if_neg (by simp [hopens])]
    exact (hbegun.showsToken hrun).resolve_right hnever
  · rw [hstep] at hrun
    obtain rfl : stuckError automaton source.toList (Config.start source.toList)
        (bodyPlace source.toList) openingCandidates = e := by simpa using hrun
    exact stuckError_opening _ hne

end FapLang.Grammar
