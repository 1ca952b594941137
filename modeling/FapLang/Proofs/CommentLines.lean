import FapLang.Program
import FapLang.Proofs.Run.Lockstep
import FapLang.Proofs.Text.Pieces

/-!
Lines without code. A blank line or a comment between two lines of a program is not seen, unless a
block comment stays open, or a step that looks up the current line of the source finds there
something else (`comment_line_unseen`).
-/

namespace FapLang

variable {before other source : List String} {text : String}

namespace Check

open Text (dropTrailingBlanks dropOuterBlanks)
open Run (Modes colour errorText)

/-! ### What is left of the lines -/

/-- The number of ends of block comments that end none. -/
def strayEnds (inside : Bool) : List String → Nat
  | [] => 0
  | line :: rest =>
    match LineKind.of line, inside with
    | .blockStart, _ => strayEnds true rest
    | .blockEnd, true => strayEnds false rest
    | .blockEnd, false => strayEnds false rest + 1
    | _, inside => strayEnds inside rest

/-- The line where the block comment starts that is open after the lines from number `n` on. -/
def openBlock : Nat → Option Nat → List String → Option Nat
  | _, opened, [] => opened
  | n, opened, line :: rest =>
    match LineKind.of line, opened with
    | .blockStart, none => openBlock (n + 1) (some n) rest
    | .blockEnd, _ => openBlock (n + 1) none rest
    | _, opened => openBlock (n + 1) opened rest

def strayMessage : String := "Unexpected block comment end '#Y'"

def unclosedMessage (start : Nat) : String :=
  "Unclosed block comment starting at line " ++ toString start

theorem messages_prepareFrom (n : Nat) (opened : Option Nat) (ls : List String) :
    (prepareFrom n opened ls).problems.map (·.message) =
      List.replicate (strayEnds opened.isSome ls) strayMessage ++
        ((openBlock n opened ls).map unclosedMessage).toList := by
  fun_induction prepareFrom n opened ls with
  | case1 | case2 => rfl
  | _ => simp_all [strayEnds, openBlock, Prepared.complain, Prepared.keep, List.replicate_succ, strayMessage]

/-! ### One line more -/

section Insertion

variable {line : String} (hline : LineKind.of line = .blank ∨ LineKind.of line = .comment)

include hline

theorem lines_insert (inside : Bool) (before after : List String) :
    keptLines inside (before ++ line :: after) = keptLines inside (before ++ after) ∧
      strayEnds inside (before ++ line :: after) = strayEnds inside (before ++ after) := by
  induction before generalizing inside with
  | nil => rcases hline with h | h <;> simp [keptLines, strayEnds, h]
  | cons first rest ih =>
    rw [List.cons_append, List.cons_append]
    cases hkind : LineKind.of first <;> cases inside <;> simp [keptLines, strayEnds, hkind, ih]

omit hline in
theorem openBlock_append (n : Nat) (opened : Option Nat) (before after : List String) :
    openBlock n opened (before ++ after) = openBlock (n + before.length) (openBlock n opened before) after := by
  induction before generalizing n opened with
  | nil => rfl
  | cons first rest ih =>
    have hlen : n + (first :: rest).length = n + 1 + rest.length := by
      rw [List.length_cons]
      omega
    rw [List.cons_append, hlen]
    cases hkind : LineKind.of first <;> cases opened <;> simp [openBlock, hkind, ih]

omit hline in
theorem openBlock_succ (n : Nat) (opened : Option Nat) (ls : List String) :
    openBlock (n + 1) (opened.map (· + 1)) ls = (openBlock n opened ls).map (· + 1) := by
  induction ls generalizing n opened with
  | nil => rfl
  | cons first rest ih =>
    cases hkind : LineKind.of first <;> cases opened <;> simp [openBlock, hkind, ← ih]

/-- A block comment that stays open starts one line later. -/
theorem openBlock_insert {n : Nat} (hbefore : openBlock n none before = none) (after : List String) :
    openBlock n none (before ++ line :: after) = (openBlock n none (before ++ after)).map (· + 1) := by
  have hskip : ∀ m, openBlock m none (line :: after) = openBlock (m + 1) none after := by
    intro m
    rcases hline with h | h <;> simp [openBlock, h]
  rw [openBlock_append, openBlock_append, hbefore, hskip]
  exact openBlock_succ _ none after

end Insertion

/-! ### The check without a trace -/

def errorOf (message : String) : String :=
  colour "91" ("[ERROR] " ++ message)

def record (errors : List String) (message : String) : List String :=
  if errors.contains (errorOf message) then errors else errors ++ [errorOf message]

def judgeLine (errors : List String) (line : String) : List String :=
  if (dropOuterBlanks line).isEmpty then errors
  else
    match judge (dropOuterBlanks line) with
    | .valid _ => errors
    | .invalid message => record errors message

/-- The errors that a check without a trace finds in prepared lines, after those of the preparation.
-/
def quietErrors (kept messages : List String) : List String :=
  let errors := messages.foldl record []
  if (Text.trim (Text.unlines kept).toList).isEmpty then errors
  else (Text.lines (Text.unlines kept)).foldl judgeLine errors

theorem errorOf_inj {a b : String} (h : errorOf a = errorOf b) : a = b := by
  rw [errorOf, errorOf, colour, colour, String.append_left_inj, String.append_right_inj, String.append_right_inj] at h
  exact h

theorem exists_record_eq (errors : List String) (message : String) :
    ∃ more, record errors message = errors ++ more := by
  rw [record]
  split
  · exact ⟨[], (List.append_nil errors).symm⟩
  · exact ⟨_, rfl⟩

theorem mem_foldl_record {messages errors : List String} {e : String} (h : e ∈ messages.foldl record errors) :
    e ∈ errors ∨ ∃ message ∈ messages, e = errorOf message := by
  induction messages generalizing errors with
  | nil => exact .inl h
  | cons message rest ih =>
    rcases ih h with hmem | ⟨other, hother, heq⟩
    · rw [record] at hmem
      split at hmem
      · exact .inl hmem
      · rcases List.mem_append.mp hmem with hmem | hmem
        · exact .inl hmem
        · exact .inr ⟨message, (.head _), List.mem_singleton.mp hmem⟩
    · exact .inr ⟨other, List.mem_cons_of_mem _ hother, heq⟩

/-- Errors that were found stay in front of those that are found later. -/
theorem exists_foldl_judgeLine_eq (ls errors : List String) : ∃ more, ls.foldl judgeLine errors = errors ++ more := by
  induction ls generalizing errors with
  | nil => exact ⟨[], (List.append_nil errors).symm⟩
  | cons line rest ih =>
    have hstep : ∃ more, judgeLine errors line = errors ++ more := by
      rw [judgeLine]
      split
      · exact ⟨[], (List.append_nil errors).symm⟩
      · split
        · exact ⟨[], (List.append_nil errors).symm⟩
        · exact exists_record_eq errors _
    obtain ⟨first, hfirst⟩ := hstep
    obtain ⟨more, hmore⟩ := ih (errors ++ first)
    exact ⟨first ++ more, by rw [List.foldl_cons, hfirst, hmore, List.append_assoc]⟩

theorem strayMessage_ne (start : Nat) : strayMessage ≠ unclosedMessage start := by
  intro heq
  have htake : strayMessage.toList.take 3 =
      ("Unclosed block comment starting at line " ++ toString start).toList.take 3 := by
    rw [heq]
    rfl
  rw [String.toList_append, List.take_append_of_le_length (by decide)] at htake
  exact absurd htake (by decide +kernel)

/-- The error about an open block comment comes right after the one about stray ends. -/
theorem quietErrors_unclosed (kept : List String) (stray start : Nat) :
    ∃ more, quietErrors kept (List.replicate stray strayMessage ++ [unclosedMessage start]) =
      (List.replicate stray strayMessage).foldl record [] ++ errorOf (unclosedMessage start) :: more := by
  have hnew : errorOf (unclosedMessage start) ∉ (List.replicate stray strayMessage).foldl record [] := by
    intro hmem
    rcases mem_foldl_record hmem with hmem | ⟨message, hmsg, heq⟩
    · exact List.not_mem_nil hmem
    · rw [List.eq_of_mem_replicate hmsg] at heq
      exact strayMessage_ne start (errorOf_inj heq).symm
  have hfold : (List.replicate stray strayMessage ++ [unclosedMessage start]).foldl record [] =
      (List.replicate stray strayMessage).foldl record [] ++ [errorOf (unclosedMessage start)] := by
    rw [List.foldl_append, List.foldl_cons, List.foldl_nil, record, if_neg]
    rw [List.contains_iff_mem]
    exact hnew
  rw [quietErrors, hfold]
  split
  · exact ⟨[], rfl⟩
  · obtain ⟨more, hmore⟩ := exists_foldl_judgeLine_eq (Text.lines (Text.unlines kept))
      ((List.replicate stray strayMessage).foldl record [] ++ [errorOf (unclosedMessage start)])
    exact ⟨more, by rw [hmore, List.append_assoc, List.singleton_append]⟩

namespace Checker

variable {c : Checker} (hc : c.modes = .quiet)

include hc

theorem note_quiet (line : Int) (message : String) : c.note line message = c := by
  rw [note, hc]
  rfl

theorem report_quiet (line : Int) (message : String) :
    c.report line message = { c with errors := record c.errors message } := by
  have htext : ∀ content, errorText c.modes content line message = errorOf message := by
    intro content
    rw [hc]
    rfl
  simp only [report, htext, record]
  split
  · rfl
  · rfl

theorem reportAll_quiet (problems : List Problem) :
    c.reportAll problems = { c with errors := (problems.map (·.message)).foldl record c.errors } := by
  induction problems generalizing c with
  | nil => rfl
  | cons problem rest ih =>
    have hrest := ih (c := { c with errors := record c.errors problem.message }) hc
    rw [reportAll, List.foldl_cons, report_quiet hc]
    exact hrest

theorem checkLines_quiet (n : Nat) (ls : List String) :
    c.checkLines n ls = { c with errors := ls.foldl judgeLine c.errors } := by
  induction ls generalizing c n with
  | nil => rfl
  | cons line rest ih =>
    have hstep : (if (dropOuterBlanks line).isEmpty then c.note n "Skipping empty line"
        else ((c.note n "Processing line").checkLine n (dropOuterBlanks line)).1) =
        { c with errors := judgeLine c.errors line } := by
      rw [note_quiet hc, note_quiet hc, judgeLine, checkLine, note_quiet hc]
      by_cases hempty : (dropOuterBlanks line).isEmpty = true
      · rw [if_pos hempty, if_pos hempty]
      · rw [if_neg hempty, if_neg hempty]
        cases judge (dropOuterBlanks line) with
        | valid what =>
          dsimp only
          rw [note_quiet hc]
        | invalid message =>
          dsimp only
          rw [report_quiet hc]
    rw [checkLines, hstep, ih (c := { c with errors := judgeLine c.errors line }) hc (n + 1), List.foldl_cons]

/-- Without a trace the errors depend on the kept lines and the messages about comments only. -/
theorem check_quiet (code : String) : c.check code = { c with
      errors := quietErrors (Check.prepare code).lines ((Check.prepare code).problems.map (·.message))
      notes := [] } := by
  have hprepared := reportAll_quiet (c := { c with errors := [], notes := [] }) hc (Check.prepare code).problems
  rw [check, prepare, hprepared, quietErrors]
  dsimp only
  rw [Prepared.text]
  by_cases hempty : (Text.trim (Text.unlines (Check.prepare code).lines).toList).isEmpty = true
  · rw [if_pos hempty, if_pos hempty]
  · let errors := ((Check.prepare code).problems.map (·.message)).foldl record []
    have hlines := checkLines_quiet (c := { c with errors := errors, notes := [] }) hc 1
      (Text.lines (Text.unlines (Check.prepare code).lines))
    have hfull : ¬ c.modes.full = true := by
      rw [hc]
      exact Bool.false_ne_true
    rw [if_neg hempty, if_neg hempty, hlines]
    dsimp only
    split
    · exact if_neg hfull
    · rfl

end Checker

/-- A line without code is no directive. -/
theorem directive?_eq_none {line : String} (hline : LineKind.of line ≠ .code) : directive? line = none := by
  have hkind : ∀ text : String, dropOuterBlanks line = text → LineKind.of line =
      (let cs := text.toList
      if cs.isEmpty then .blank
      else if Text.startsWith cs "@None" then .comment
      else if Text.startsWith cs "#X" then .blockStart
      else if Text.startsWith cs "#Y" then .blockEnd
      else .code) := by
    rintro text rfl
    rw [dropOuterBlanks, String.toList_ofList]
    rfl
  unfold directive?
  split
  iterate 4
    · next heq => exact absurd (hkind _ heq) hline
  · rfl

end Check

namespace Program

open Check
open Run (Event Session colour execute executeWithin visitUntil departs depthLimit)

/-! ### The check of lines without directives -/

/-- The check of lines without directives. -/
def quietChecked (ls : List String) : Checked :=
  let kept := keptLines false ls
  let messages := List.replicate (strayEnds false ls) strayMessage ++
    ((openBlock 1 none ls).map unclosedMessage).toList
  let errors := quietErrors kept messages
  { modes := .quiet
    source := ls.toArray
    opening := banner :: errors.map errorLine
    errors := errors.length
    code := if (Text.trim (Text.unlines kept).toList).isEmpty || !errors.isEmpty then none
      else some (Text.unlines kept) }

theorem extractDirectives_quiet (h : ∀ line ∈ Text.lines text, directive? line = none) :
    extractDirectives text = (.quiet, Text.unlines (Text.lines text)) := by
  have hmodes : directivesOf (Text.lines text) = .quiet := by
    rw [directivesOf, List.filterMap_eq_nil_iff.mpr h, List.foldl_nil]
  have hlines : withoutDirectives (Text.lines text) = Text.lines text :=
    List.filter_eq_self.mpr fun line hline => by rw [h line hline, Option.isNone_none]
  rw [extractDirectives, hmodes, hlines]

theorem checkText_quiet (h : ∀ line ∈ Text.lines text, directive? line = none) :
    checkText text = quietChecked (Text.lines text) := by
  have hlines : Text.lines (Text.unlines (Text.lines text)) = Text.lines text :=
    Text.lines_unlines (Text.lines_ne_nil text) fun line hline => Text.not_mem_of_mem_lines hline
  have hprepare : Check.prepare (Text.unlines (Text.lines text)) = prepareFrom 1 none (Text.lines text) := by
    rw [Check.prepare, hlines]
  have hkept := lines_prepareFrom 1 none (Text.lines text)
  have hmsgs := messages_prepareFrom 1 none (Text.lines text)
  have hreport := Checker.reportAll_quiet (c := Checker.start .quiet (Text.lines text).toArray) rfl
    (prepareFrom 1 none (Text.lines text)).problems
  simp only [checkText, extractDirectives_quiet h, Checker.prepare, hprepare, hreport]
  rw [Checker.check_quiet rfl, hprepare, hkept, hmsgs, Prepared.text, hkept, quietChecked]
  simp [modeLines, Run.Modes.quiet, Run.Modes.any]

/-- With all block comments closed, one line without code more changes nothing but the source. -/
theorem quietChecked_insert {line : String} (hline : LineKind.of line = .blank ∨ LineKind.of line = .comment)
    {after : List String} (hbefore : openBlock 1 none before = none)
    (hclosed : openBlock 1 none (before ++ after) = none) : quietChecked (before ++ line :: after) =
      { quietChecked (before ++ after) with source := (before ++ line :: after).toArray } := by
  simp only [quietChecked, lines_insert hline, openBlock_insert hline hbefore, hclosed,
    Option.map_none]

/-! ### A comment that stays open -/

theorem written_append (first second : List Event) (channel : Run.Channel) :
    written (first ++ second) channel = written first channel ++ written second channel := by
  rw [written, written, written, List.filter_append, List.map_append, String.join_append]

/-- What is written before the number of the line where an open block comment starts. -/
def unclosedOpening : String :=
  "\x1b[" ++ "91" ++ "m" ++ ("\x1b[" ++ "91" ++ "m" ++ ("[ERROR] " ++ "Unclosed block comment starting at line "))

theorem written_unclosed (first more : List Event) (start : Nat) :
    ∃ rest, (written (first ++ errorLine (errorOf (unclosedMessage start)) :: more) .out).toList =
      (written first .out ++ unclosedOpening).toList ++ ((toString start).toList ++ '\x1b' :: rest) := by
  have hline : (errorLine (errorOf (unclosedMessage start))).text =
      unclosedOpening ++ (toString start ++ ("\x1b[0m" ++ ("\x1b[0m" ++ "\n"))) := by
    have hmsg : unclosedMessage start = "Unclosed block comment starting at line " ++ toString start := rfl
    simp only [errorLine, printed, errorOf, hmsg, unclosedOpening, colour, String.append_assoc, -String.reduceAppend]
  have hwritten : written (errorLine (errorOf (unclosedMessage start)) :: more) .out =
      unclosedOpening ++ (toString start ++ ("\x1b[0m" ++ ("\x1b[0m" ++ "\n"))) ++ written more .out := by
    rw [← hline, written, List.filter_cons_of_pos (by rfl), List.map_cons, String.join_cons]
    rfl
  have hescape : "\x1b[0m".toList = '\x1b' :: ['[', '0', 'm'] := rfl
  refine ⟨['[', '0', 'm'] ++ (("\x1b[0m" ++ "\n").toList ++ (written more .out).toList), ?_⟩
  rw [written_append, hwritten]
  simp only [String.toList_append, List.append_assoc, hescape, List.cons_append]

theorem start_eq_of_written {first more more' : List Event} {start start' : Nat}
    (h : written (first ++ errorLine (errorOf (unclosedMessage start)) :: more) .out =
      written (first ++ errorLine (errorOf (unclosedMessage start')) :: more') .out) : start = start' := by
  obtain ⟨rest, hrest⟩ := written_unclosed first more start
  obtain ⟨rest', hrest'⟩ := written_unclosed first more' start'
  have hdigits : ∀ (n : Nat) (tail : List Char),
      ((toString n).toList ++ '\x1b' :: tail).takeWhile Char.isDigit = (toString n).toList := by
    intro n tail
    rw [List.takeWhile_append_of_pos, List.takeWhile_cons_of_neg (by decide), List.append_nil]
    intro c hc
    rw [Nat.toString_eq_repr, Nat.toList_repr] at hc
    exact Nat.isDigit_of_mem_toDigits (by decide) (by decide) hc
  rw [h, hrest', List.append_cancel_left_eq] at hrest
  have htake := congrArg (List.takeWhile Char.isDigit) hrest
  rw [hdigits, hdigits, Nat.toString_eq_repr, Nat.toString_eq_repr, Nat.toList_repr, Nat.toList_repr] at htake
  rw [← Nat.ofDigitChars_ten_toDigits (n := start), ← Nat.ofDigitChars_ten_toDigits (n := start'), htake]

theorem run_of_code_eq_none (hmodes : (checkText text).modes = .quiet)
    (hcode : (checkText text).code = none) (input : Option (List Char)) :
    run text input = (checkText text).opening ++ [summary (checkText text).errors false] := by
  have hany : (checkText text).modes.any = false := by
    rw [hmodes]
    rfl
  unfold run
  simp only [hcode, hany, Bool.false_eq_true, if_false, List.append_nil]

/-- With a block comment left open nothing runs, and its error is the first or the second. -/
theorem run_unclosed (hquiet : ∀ line ∈ Text.lines text, directive? line = none) {start : Nat}
    (hopen : openBlock 1 none (Text.lines text) = some start) (input : Option (List Char)) : ∃ more, run text input =
      banner :: (((List.replicate (strayEnds false (Text.lines text)) strayMessage).foldl record []).map errorLine) ++
        errorLine (errorOf (unclosedMessage start)) :: more := by
  obtain ⟨more, hmore⟩ := quietErrors_unclosed (keptLines false (Text.lines text))
    (strayEnds false (Text.lines text)) start
  have hsome : ∀ (first : List String) (e : String) (rest : List String), (first ++ e :: rest).isEmpty = false := by
    intro first e rest
    cases first <;> rfl
  have hchecked : checkText text = quietChecked (Text.lines text) := checkText_quiet hquiet
  have hmsgs : ((some start).map unclosedMessage).toList = [unclosedMessage start] := rfl
  have hcode : (quietChecked (Text.lines text)).code = none := by
    simp only [quietChecked, hopen, hmsgs, hmore, hsome, Bool.not_false, Bool.or_true, if_true]
  have hopening : (quietChecked (Text.lines text)).opening =
      banner :: (((List.replicate (strayEnds false (Text.lines text)) strayMessage).foldl record []).map errorLine) ++
        errorLine (errorOf (unclosedMessage start)) :: more.map errorLine := by
    simp only [quietChecked, hopen, hmsgs, hmore, List.map_append, List.map_cons, List.cons_append]
  rw [run_of_code_eq_none (by rw [hchecked]; rfl) (by rw [hchecked, hcode]), hchecked, hopening, List.append_assoc]
  exact ⟨_, rfl⟩

/-! ### Runs -/

/-- No step of the run that looks up the current line would find something else in other lines. -/
def LookupsAgree (source other : List String) (code : String) (input : Option (List Char)) : Prop :=
  ((executeWithin (visitUntil (departs source.toArray other.toArray) depthLimit) code).exec
    { Session.fresh.setModes .quiet source.toArray with input := input }).1 ≠ .error .exhausted

/-- A line that calls no list method and has no word of a logical operator. -/
def IsSilent (line : String) : Prop :=
  Run.ListMethod.ofLine? (Text.dropTrailingBlanks line) = none ∧ Text.contains line " and " = false ∧
    Text.contains line " or " = false

instance (line : String) : Decidable (IsSilent line) :=
  inferInstanceAs (Decidable (_ ∧ _ ∧ _))

theorem reading_of_isSilent (h : ∀ line ∈ source, IsSilent line) (s : Session) :
    ({ s with source := source.toArray } : Session).reading = ⟨none, false, false⟩ := by
  rw [Run.Session.reading, Session.sourceLine?, Session.currentLine?]
  by_cases hpos : 0 < s.line
  · rw [if_pos hpos, if_pos hpos]
    cases hline : source.toArray[(s.line - 1).toNat]? with
    | none => rfl
    | some line =>
      obtain ⟨hmeth, hand, hor⟩ := h line (List.mem_of_getElem? (List.getElem?_toArray ▸ hline))
      simp only [Option.map_some, Option.bind_some, Option.any_some, hmeth, hand, hor]
  · rw [if_neg hpos, if_neg hpos]
    rfl

/-- Among silent lines all lookups agree. -/
theorem lookupsAgree_of_isSilent (hsource : ∀ line ∈ source, IsSilent line)
    (hother : ∀ line ∈ other, IsSilent line) {code : String} {input : Option (List Char)}
    (hdeep : ((execute code).exec { Session.fresh.setModes .quiet source.toArray with input := input }).1 ≠
      .error .exhausted) : LookupsAgree source other code input := by
  have hnever : departs source.toArray other.toArray = fun _ _ => false := by
    funext n s
    rw [departs, reading_of_isSilent hsource, reading_of_isSilent hother]
    simp
  rw [LookupsAgree, hnever, Run.visitUntil_never]
  exact hdeep

instance (source other : List String) (code : String) (input : Option (List Char)) :
    Decidable (LookupsAgree source other code input) :=
  inferInstanceAs (Decidable (_ ≠ _))

theorem runCode_congr {code : String} {input : Option (List Char)} (h : LookupsAgree source other code input) :
    ∃ rest, runCode .quiet other.toArray code input =
      { runCode .quiet source.toArray code input with source := rest } := by
  let s : Session := { Session.fresh.setModes .quiet source.toArray with input := input }
  let t : Session := { Session.fresh.setModes .quiet other.toArray with input := input }
  have hrun := (Run.twins_visitUntil source.toArray other.toArray depthLimit).executeWithin code s
  have hs : (Run.Aspect.source source.toArray other.toArray).Guards s := ⟨rfl, .inl rfl⟩
  rcases hrun s (.refl hs) with hexhausted | ⟨_, hplain, _⟩
  · exact absurd hexhausted h
  rcases hrun t ⟨rfl, hs, rfl, .inr rfl⟩ with hexhausted | ⟨_, hother, _⟩
  · exact absurd hexhausted h
  exact ⟨_, (hplain.symm.trans hother).source_eq⟩

/-- A blank line or a comment line more, outside of block comments. It makes no difference if all of
these are closed and the lookups of the run find what they found before; if one stays open, the
number of its line is another. -/
theorem comment_line_unseen {text line : String} {before after : List String}
    (hlines : Text.lines text = before ++ after) (hquiet : ∀ l ∈ Text.lines text, directive? l = none)
    (hline : '\n' ∉ line.toList) (hkind : LineKind.of line = .blank ∨ LineKind.of line = .comment)
    (hbefore : openBlock 1 none before = none) (input : Option (List Char)) :
    (openBlock 1 none (Text.lines text) = none →
      (∀ code, (checkText text).code = some code →
        LookupsAgree (Text.lines text) (before ++ line :: after) code input) →
      run (Text.unlines (before ++ line :: after)) input = run text input) ∧
    (openBlock 1 none (Text.lines text) = none → (∀ l ∈ before ++ line :: after, IsSilent l) →
      (∀ code, (checkText text).code = some code →
        ((execute code).exec
          { Session.fresh.setModes .quiet (Text.lines text).toArray with input := input }).1 ≠ .error .exhausted) →
      run (Text.unlines (before ++ line :: after)) input = run text input) ∧
    (openBlock 1 none (Text.lines text) ≠ none →
      written (run (Text.unlines (before ++ line :: after)) input) .out ≠ written (run text input) .out) := by
  have hmem : ∀ l ∈ before ++ line :: after, l = line ∨ l ∈ Text.lines text := by
    intro l hl
    rw [hlines]
    simp only [List.mem_append, List.mem_cons] at hl ⊢
    tauto
  have hlonger : Text.lines (Text.unlines (before ++ line :: after)) = before ++ line :: after := by
    refine Text.lines_unlines (by simp) fun l hl ↦ ?_
    rcases hmem l hl with rfl | hold
    · exact hline
    · exact Text.not_mem_of_mem_lines hold
  have hquiet' : ∀ l ∈ Text.lines (Text.unlines (before ++ line :: after)), directive? l = none := by
    intro l hl
    rw [hlonger] at hl
    rcases hmem l hl with rfl | hold
    · exact directive?_eq_none (by rcases hkind with h | h <;> simp [h])
    · exact hquiet l hold
  have hunseen : openBlock 1 none (Text.lines text) = none →
      (∀ code, (checkText text).code = some code →
        LookupsAgree (Text.lines text) (before ++ line :: after) code input) →
      run (Text.unlines (before ++ line :: after)) input = run text input := by
    intro hclosed hlookups
    have hinsert := quietChecked_insert hkind hbefore (hlines ▸ hclosed)
    rw [checkText_quiet hquiet] at hlookups
    unfold run
    rw [checkText_quiet hquiet, checkText_quiet hquiet', hlonger, hinsert, ← hlines]
    cases hcode : (quietChecked (Text.lines text)).code with
    | none => simp only [hcode]
    | some code =>
      obtain ⟨rest, hrest⟩ := runCode_congr (hlookups code hcode)
      have hmodes : (quietChecked (Text.lines text)).modes = .quiet := rfl
      have hsource : (quietChecked (Text.lines text)).source = (Text.lines text).toArray := rfl
      simp only [hcode, hmodes, hsource, hrest]
  refine ⟨hunseen, fun hclosed hsilent hdeep ↦ ?_, fun hopen hwritten ↦ ?_⟩
  · have hold : ∀ l ∈ Text.lines text, IsSilent l := by
      intro l hl
      rw [hlines, List.mem_append] at hl
      refine hsilent l (List.mem_append.mpr (hl.imp_right ?_))
      exact List.mem_cons_of_mem line
    exact hunseen hclosed fun code hcode ↦ lookupsAgree_of_isSilent hold hsilent (hdeep code hcode)
  · obtain ⟨start, hstart⟩ := Option.ne_none_iff_exists'.mp hopen
    have hlater : openBlock 1 none (Text.lines (Text.unlines (before ++ line :: after))) = some (start + 1) := by
      rw [hlonger, openBlock_insert hkind hbefore, ← hlines, hstart]
      rfl
    obtain ⟨more, hmore⟩ := run_unclosed hquiet hstart input
    obtain ⟨more', hmore'⟩ := run_unclosed hquiet' hlater input
    have hstray : strayEnds false (Text.lines (Text.unlines (before ++ line :: after))) =
        strayEnds false (Text.lines text) := by
      rw [hlonger, (lines_insert hkind _ _ _).2, hlines]
    rw [hmore, hmore', hstray] at hwritten
    exact absurd (start_eq_of_written hwritten) (by omega)

/-- A comment below the call of a list method is not seen, but an empty line above it is. -/
theorem comment_line_unseen_below :
    ∃ before after : List String, (∀ l ∈ before ++ after, directive? l = none) ∧
      openBlock 1 none (before ++ after) = none ∧
      run (Text.unlines (before ++ "@None both" :: after)) none = run (Text.unlines (before ++ after)) none ∧
      written (run "New List a => [1]\n\na.add(2)\nout.Info(a)" none) .out ≠
        written (run "New List a => [1]\na.add(2)\nout.Info(a)" none) .out := by
  let before := ["New List a => [1]", "", "a.add(2)"]
  let after := ["out.Info(a)"]
  let code := "New List a => [1]\na.add(2)\nout.Info(a)"
  obtain ⟨hlines, hquiet, hcode, hclosed, hbefore, hline, hkind⟩ :
      Text.lines (Text.unlines (before ++ after)) = before ++ after ∧ (∀ l ∈ before ++ after, directive? l = none) ∧
        (checkText (Text.unlines (before ++ after))).code = some code ∧ openBlock 1 none (before ++ after) = none ∧
        openBlock 1 none before = none ∧ '\n' ∉ "@None both".toList ∧ LineKind.of "@None both" = .comment := by
    decide +kernel
  obtain ⟨hlookups, hseen⟩ : LookupsAgree (before ++ after) (before ++ "@None both" :: after) code none ∧
      written (run "New List a => [1]\n\na.add(2)\nout.Info(a)" none) .out ≠ written (run code none) .out := by
    decide +kernel
  have hunseen := (comment_line_unseen hlines (hlines.symm ▸ hquiet) hline (.inr hkind) hbefore none).1
  rw [hlines] at hunseen
  refine ⟨before, after, hquiet, hclosed, hunseen hclosed fun other hother ↦ ?_, hseen⟩
  rw [hcode] at hother
  exact Option.some.inj hother ▸ hlookups

end Program

end FapLang
