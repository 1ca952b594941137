import FapLang.Program
import FapLang.Proofs.Grammar.Refusal
import FapLang.Proofs.Run.Exec
import FapLang.Proofs.Text.Pieces

/-!
Programs that pass the check of their lines and that the parser refuses. A message that quotes a
token is kept back, so the refusal is reported only if the text opens with a character that begins
no lexeme (`refusal_reported_iff`); otherwise the program counts as successful.
-/

namespace FapLang.Program

open Run (isInternal markers Session colour)
open Grammar (ParseError parse)

variable {e : ParseError} {code : String}

theorem isInternal_iff {message : String} :
    isInternal message = true ↔ ∃ p ∈ markers, p.toList <:+: message.toList := by
  simp only [isInternal, List.any_eq_true, Text.contains_iff]

theorem isInternal_append_left {a : String} (h : isInternal a = true) (b : String) : isInternal (a ++ b) = true := by
  obtain ⟨p, hp, hpart⟩ := isInternal_iff.mp h
  refine isInternal_iff.mpr ⟨p, hp, hpart.trans ?_⟩
  rw [String.toList_append]
  exact (List.prefix_append _ _).isInfix

theorem isInternal_append_right {b : String} (h : isInternal b = true) (a : String) : isInternal (a ++ b) = true := by
  obtain ⟨p, hp, hpart⟩ := isInternal_iff.mp h
  refine isInternal_iff.mpr ⟨p, hp, hpart.trans ?_⟩
  rw [String.toList_append]
  exact (List.suffix_append _ _).isInfix

theorem isInternal_token (t : Grammar.Token) : isInternal t.node.text = true := by
  have hmark : isInternal "Token(" = true := by decide
  rw [Grammar.Token.node, Node.text]
  exact isInternal_append_left (isInternal_append_left (isInternal_append_left
    (isInternal_append_left hmark _) _) _) _

/-- An error that shows a token shows the inside. -/
theorem isInternal_of_showsToken (h : e.showsToken = true) : isInternal e.message = true := by
  cases e with
  | character char line column before after expected previous =>
    cases previous with
    | none => simp [ParseError.showsToken] at h
    | some t =>
      refine isInternal_append_right ?_ _
      exact isInternal_append_left (isInternal_append_right (isInternal_token t) _) _
  | foreign token expected previous =>
    iterate 9 refine isInternal_append_left ?_ _
    exact isInternal_append_right (isInternal_token token) _
  | misplaced token expected =>
    iterate 6 refine isInternal_append_left ?_ _
    exact isInternal_append_right (isInternal_token token) _
  | exhausted => simp [ParseError.showsToken] at h

/-- Without an opening parenthesis and an underscore, a text shows nothing of the inside. -/
def Quiet (s : String) : Prop :=
  '(' ∉ s.toList ∧ '_' ∉ s.toList

instance (s : String) : Decidable (Quiet s) :=
  inferInstanceAs (Decidable (_ ∧ _))

theorem Quiet.append {a b : String} (ha : Quiet a) (hb : Quiet b) : Quiet (a ++ b) := by
  unfold Quiet
  rw [String.toList_append, List.mem_append, List.mem_append]
  exact ⟨not_or.mpr ⟨ha.1, hb.1⟩, not_or.mpr ⟨ha.2, hb.2⟩⟩

theorem Quiet.not_infix {s p : String} (hs : Quiet s) (hp : p ∈ markers) : ¬ p.toList <:+: s.toList := by
  intro hpart
  have hmark : ∀ p ∈ markers, '(' ∈ p.toList ∨ '_' ∈ p.toList := by decide
  rcases hmark p hp with h | h
  · exact hs.1 (hpart.subset h)
  · exact hs.2 (hpart.subset h)

theorem quiet_toString (n : Nat) : Quiet (toString n) := by
  unfold Quiet
  rw [Nat.toString_eq_repr, Nat.toList_repr]
  constructor
  · intro h
    cases Nat.isDigit_of_mem_toDigits (by decide) (by decide) h
  · intro h
    cases Nat.isDigit_of_mem_toDigits (by decide) (by decide) h

/-- The character that begins no lexeme is neither a parenthesis nor an underscore. -/
theorem quiet_opening {cs : List Char} (h : Grammar.opensStrangely cs = true) :
    Quiet ((Grammar.bodyOf cs).headD ' ').toString := by
  simp only [Grammar.opensStrangely, Bool.and_eq_true, Option.isNone_iff_eq_none] at h
  obtain ⟨hne, hnone⟩ := h
  rw [Grammar.Candidates.match?, List.findSome?_eq_none_iff] at hnone
  cases hbody : Grammar.bodyOf cs with
  | nil => simp [hbody] at hne
  | cons c rest =>
    rw [hbody] at hnone
    have hparen : c ≠ '(' := by
      rintro rfl
      have hopen := hnone .openParen (by decide +kernel)
      simp [Grammar.Terminal.pattern, Grammar.Pattern.take?, Grammar.takeLiteral] at hopen
    have hscore : c ≠ '_' := by
      rintro rfl
      have hident := hnone .ident (by decide +kernel)
      simp [Grammar.Terminal.pattern, Grammar.Pattern.take?, Grammar.takeIdentifier, Grammar.isLetter] at hident
    simp [Quiet, hparen.symm, hscore.symm]

/-- Quiet texts before and after some lines add nothing that shows the inside. -/
theorem isInternal_between {head s tail : String} (hhead : Quiet head) (htail : Quiet tail) :
    isInternal (head ++ "\n\n" ++ (s ++ "\n") ++ tail) = isInternal (s ++ "\n") := by
  rw [Bool.eq_iff_iff, isInternal_iff, isInternal_iff]
  refine exists_congr fun p => and_congr_right fun hp => ?_
  have hline : '\n' ∉ p.toList := by
    have hall : ∀ p ∈ markers, '\n' ∉ p.toList := by decide
    exact hall p hp
  have hnil : ¬ p.toList <:+: [] := Quiet.not_infix (s := "") (by decide) hp
  have hwhole : (head ++ "\n\n" ++ (s ++ "\n") ++ tail).toList =
      head.toList ++ '\n' :: ([] ++ '\n' :: (s.toList ++ '\n' :: tail.toList)) := by
    simp [String.toList_append]
  have hshown : (s ++ "\n").toList = s.toList ++ '\n' :: [] := by
    simp [String.toList_append]
  rw [hwhole, hshown, Text.infix_append_cons_iff hline, Text.infix_append_cons_iff hline,
    Text.infix_append_cons_iff hline, Text.infix_append_cons_iff hline]
  have hhead' := hhead.not_infix hp
  have htail' := htail.not_infix hp
  tauto

/-- The quoted line and the caret end with a line end. -/
theorem exists_context_eq (before after : List Char) : ∃ shown, ParseError.context before after = shown ++ "\n" := by
  have hcaret : "^\n" = "^" ++ "\n" := by decide
  refine ⟨String.ofList (ParseError.lastPart before ++ ParseError.firstPart after) ++ "\n" ++
    String.ofList (List.replicate (ParseError.widthFrom 0 (ParseError.lastPart before)) ' ') ++ "^", ?_⟩
  rw [ParseError.context, hcaret, String.append_assoc, String.append_assoc, String.append_assoc,
    String.append_assoc, String.append_assoc]

/-- The message for a text that opens strangely shows the inside only in the quoted line. -/
theorem isInternal_openingError {cs : List Char} (h : Grammar.opensStrangely cs = true) :
    isInternal (Grammar.openingError cs).message =
      isInternal (ParseError.context ((Grammar.gapOf cs).drop ((Grammar.gapOf cs).length - 40))
        ((Grammar.bodyOf cs).take 40)) := by
  have hfirst : Quiet "No terminal matches '" := by decide
  have hsnd : Quiet "' in the current parser context, at line " := by decide
  have hthird : Quiet " col " := by decide
  have hhead := ((((hfirst.append (quiet_opening h)).append hsnd).append
    (quiet_toString (Grammar.bodyPlace cs).line)).append hthird).append
    (quiet_toString (Grammar.bodyPlace cs).column)
  have htail : Quiet (ParseError.bullets
      (Grammar.openingCandidates.expected.map Grammar.Terminal.shown)) := by
    decide +kernel
  obtain ⟨shown, hshown⟩ := exists_context_eq
    ((Grammar.gapOf cs).drop ((Grammar.gapOf cs).length - 40)) ((Grammar.bodyOf cs).take 40)
  have hbetween := isInternal_between hhead htail (s := shown)
  rw [← hshown] at hbetween
  rw [← hbetween]
  exact congrArg isInternal String.append_empty

/-- A trace line changes nothing but what has been written. -/
theorem exec_debugIf (on : Bool) (message : String) (s : Session) :
    ∃ events, (Run.debugIf on message).exec s = (.ok (), { s with events := events }) := by
  cases on with
  | false => exact ⟨s.events, rfl⟩
  | true => exact ⟨_, rfl⟩

/-- The first error of a session is recorded. -/
theorem size_errors_reportAt {s : Session} (hs : s.errors = #[]) (line : Int) (message : String) :
    ((Run.reportAt line message).exec s).2.errors.size = 1 ∧
      ((Run.reportAt line message).exec s).2.hasOutput = s.hasOutput := by
  simp [Run.reportAt, hs]

/-- A refused program records its error unless that shows the inside, and writes no output. -/
theorem execute_refused (h : parse code = .error e) (s : Session) (hs : s.errors = #[]) :
    ((Run.execute code).exec s).2.errors.size = (if isInternal e.message then 0 else 1) ∧
      ((Run.execute code).exec s).2.hasOutput = s.hasOutput := by
  obtain ⟨first, hfirst⟩ := exec_debugIf s.modes.any "Parsing code..." { s with notes := #[] }
  obtain ⟨second, hsnd⟩ := exec_debugIf s.modes.any ("Global runtime error: " ++ e.message)
    { s with notes := #[], events := first }
  have hexec : (Run.execute code).exec s =
      (if isInternal e.message then pure () else Run.reportAt s.line e.message :
        Run.Interp Unit).exec { s with notes := #[], events := second } := by
    rw [Run.execute, Run.executeWithin, Run.Interp.exec_bind_ok (Run.Interp.exec_modify _ s),
      Run.Interp.exec_bind_ok (Run.Interp.exec_get _), Run.Interp.exec_bind_ok hfirst, h]
    change (Run.programFailure e.message).exec _ = _
    rw [Run.programFailure, Run.Interp.exec_bind_ok (Run.Interp.exec_get _), Run.Interp.exec_bind_ok hsnd]
  rw [hexec]
  split_ifs with hinternal
  · exact ⟨by simp [hs], rfl⟩
  · exact size_errors_reportAt (s := { s with notes := #[], events := second }) hs _ _

/-- The text of a program as the parser gets it. -/
def preparedText (text : String) : String :=
  (Check.prepare (Check.extractDirectives text).2).text

/-- The text opens with a character that begins no lexeme, and the line that the message quotes does
not look like the inside. -/
def isReported (cs : List Char) : Bool :=
  Grammar.opensStrangely cs &&
    !isInternal (ParseError.context ((Grammar.gapOf cs).drop ((Grammar.gapOf cs).length - 40))
      ((Grammar.bodyOf cs).take 40))

/-- The message of a refusal shows the inside exactly if the refusal is not reported. -/
theorem isInternal_message (h : parse code = .error e) : isInternal e.message = !isReported code.toList := by
  have hcases := Grammar.parse_error_cases h
  by_cases hopens : Grammar.opensStrangely code.toList = true
  · rw [if_pos hopens] at hcases
    rw [hcases, isInternal_openingError hopens, isReported, hopens, Bool.true_and, Bool.not_not]
  · rw [if_neg hopens] at hcases
    rw [isInternal_of_showsToken hcases, isReported, Bool.eq_false_iff.mpr hopens, Bool.false_and]
    rfl

theorem parse_empty_isOk : (parse "").isOk = true := by
  decide +kernel

/-- There is code to run if the prepared text is not blank and the check found no errors. -/
theorem exists_checkText_errors (text : String) : ∃ errors : List String, (checkText text).errors = errors.length ∧
      (checkText text).code =
        if (Text.trim (preparedText text).toList).isEmpty || !errors.isEmpty then none
        else some (preparedText text) := by
  unfold checkText preparedText Check.Checker.prepare
  cases Check.extractDirectives text with
  | mk modes code =>
    dsimp only
    generalize Check.prepare code = prepared
    exact ⟨_, rfl, rfl⟩

/-- A text that passes the check and that the parser refuses is run all the same. -/
theorem code_of_refused {text : String} (hcheck : (checkText text).errors = 0)
    (hparse : parse (preparedText text) = .error e) : (checkText text).code = some (preparedText text) := by
  have hblank : Text.trim (preparedText text).toList ≠ [] := by
    rcases Check.prepared_not_blank (Check.extractDirectives text).2 with hempty | htrim
    · have hok := parse_empty_isOk
      rw [preparedText, hempty] at hparse
      rw [hparse] at hok
      cases hok
    · exact htrim
  obtain ⟨errors, hlen, hcode⟩ := exists_checkText_errors text
  have hnil : errors = [] := List.length_eq_zero_iff.mp (hlen.symm.trans hcheck)
  rw [hcode, hnil]
  simp [hblank]

theorem runCode_eq (modes : Run.Modes) (source : Array String) (code : String)
    (input : Option (List Char)) : runCode modes source code input =
      ((Run.execute code).exec { Session.fresh.setModes modes source with input := input }).2 := rfl

/-- The last line of a run counts the errors of its session. -/
theorem getLast?_run {text : String} (h : (checkText text).code = some code) (input : Option (List Char)) :
    (run text input).getLast? = some (summary
      (runCode (checkText text).modes (checkText text).source code input).errors.size
      (runCode (checkText text).modes (checkText text).source code input).hasOutput) := by
  unfold run
  generalize checkText text = checked at h ⊢
  simp only [h, List.getLast?_concat]

theorem summary_one : summary 1 false = printed (colour "91" "Total errors: 1") := by
  have hcount : "Total errors: " ++ toString 1 = "Total errors: 1" := by decide +kernel
  rw [summary, if_pos Nat.one_pos, hcount]

/-- A program that passes the check and that the parser refuses ends with one error, which the last
line counts, if its refusal is reported; otherwise the last line says that the program ran
successfully. -/
theorem refusal_reported_iff {text : String} (hcheck : (checkText text).errors = 0)
    (hrefused : (parse (preparedText text)).isOk = false) (input : Option (List Char)) :
    (runCode (checkText text).modes (checkText text).source (preparedText text) input).errors.size =
        (if isReported (preparedText text).toList then 1 else 0) ∧
      (run text input).getLast? = some (printed (if isReported (preparedText text).toList
        then colour "91" "Total errors: 1"
        else colour "93" "[WARN] The project ran successfully, but there was no output")) := by
  cases hparse : parse (preparedText text) with
  | ok tree =>
    rw [hparse] at hrefused
    cases hrefused.symm
  | error e =>
    obtain ⟨hsize, houtput⟩ := execute_refused hparse
      { Session.fresh.setModes (checkText text).modes (checkText text).source with input := input } rfl
    rw [← runCode_eq, isInternal_message hparse] at hsize
    rw [← runCode_eq] at houtput
    rw [getLast?_run (code_of_refused hcheck hparse), hsize, houtput]
    cases isReported (preparedText text).toList with
    | false => exact ⟨rfl, rfl⟩
    | true => exact ⟨rfl, congrArg some summary_one⟩

/-- A sum without its second term is refused and not reported; a dollar sign at the start is. -/
theorem refusal_reported_examples :
    (run "x -> 1 +" none).getLast? = some (printed
        (colour "93" "[WARN] The project ran successfully, but there was no output")) ∧
      (run "$||" none).getLast? = some (printed (colour "91" "Total errors: 1")) := by
  have hsum : isReported (preparedText "x -> 1 +").toList = false := by decide +kernel
  have hdollar : isReported (preparedText "$||").toList = true := by decide +kernel
  have hsumLast := (@refusal_reported_iff "x -> 1 +" (by decide +kernel) (by decide +kernel) none).2
  have hdollarLast := (@refusal_reported_iff "$||" (by decide +kernel) (by decide +kernel) none).2
  rw [hsum] at hsumLast
  rw [hdollar] at hdollarLast
  exact ⟨hsumLast, hdollarLast⟩

end FapLang.Program
