import FapLang.Proofs.Rejection
import FapLang.Proofs.Run.Backing
import FapLang.Proofs.Run.Collected
import FapLang.Proofs.Text.Leads

/-!
The line that sums up a run. At every point the records agree with what has been written
(`Printed`), and the check prints its errors and nothing else that looks like one (`Tidy`), so the
last line is the right one of three (`run_ends_with_its_summary`).
-/

namespace FapLang

variable {s : Run.Session} {errors : List String} {code text : String}

namespace Run

open Interp Text

/-! ### What sessions print -/

/-- How the lines begin that show an error: in red, with a text that has a colour of its own. -/
def errorMark : String := "\x1b[91m\x1b["

def Event.isErrorLine (e : Event) : Bool :=
  startsWithText e.text errorMark

/-- The text of an error, in some modes and about some line. -/
def IsErrorText (text : String) : Prop :=
  ∃ modes content line message, text = errorText modes content line message

/-- What an output statement writes. -/
def outputEvent (severity : Severity) (message : String) : Event :=
  { channel := severity.channel, text := severity.line message ++ "\n", isOutput := true }

/-- There has been output exactly if some event is output, output has the form of its severity, and
nothing looks like an error. -/
structure Printed (s : Session) : Prop where
  hasOutput : s.hasOutput = true ↔ ∃ e ∈ s.events, e.isOutput = true
  output : ∀ e ∈ s.events, e.isOutput = true → ∃ severity message, e = outputEvent severity message
  events : ∀ e ∈ s.events, e.isErrorLine = false
  notes : ∀ text ∈ s.notes, ∀ rest, startsWithText (text ++ rest) errorMark = false
  errors : ∀ text ∈ s.errors, IsErrorText text

theorem isErrorLine_colour (hcode : differ errorMark ("\x1b[" ++ code) = true) (message rest : String) :
    startsWithText (colour code message ++ rest) errorMark = false := by
  rw [colour_append]
  exact startsWithText_eq_false hcode _

theorem Printed.withEvent (hs : Printed s) {e : Event} (houtput : e.isOutput = false)
    (herror : e.isErrorLine = false) : Printed (s.withEvent e) := by
  have hmem : ∀ {e' : Event}, e' ∈ (s.withEvent e).events ↔ e' ∈ s.events ∨ e' = e := Array.mem_push
  refine ⟨hs.hasOutput.trans ⟨?_, ?_⟩, fun e' he' hout => ?_, fun e' he' => ?_, hs.notes, hs.errors⟩
  · rintro ⟨e', he', hout⟩
    exact ⟨e', hmem.mpr (.inl he'), hout⟩
  · rintro ⟨e', he', hout⟩
    rcases hmem.mp he' with he' | rfl
    · exact ⟨e', he', hout⟩
    · cases houtput.symm.trans hout
  · rcases hmem.mp he' with he' | rfl
    · exact hs.output e' he' hout
    · cases houtput.symm.trans hout
  · rcases hmem.mp he' with he' | rfl
    · exact hs.events e' he'
    · exact herror

theorem Printed.withNote (hs : Printed s) (htext : ∀ rest, startsWithText (text ++ rest) errorMark = false) :
    Printed { s with notes := s.notes.push text } :=
  ⟨hs.hasOutput, hs.output, hs.events, fun other hother =>
    (Array.mem_push.mp hother).elim (hs.notes other) fun heq => heq ▸ htext, hs.errors⟩

theorem Printed.withError (hs : Printed s) (line : Int) (message : String) :
    Printed ((reportAt line message).exec s).2 := by
  rw [reportAt, exec_modify]
  dsimp only
  split
  · exact hs
  · refine ⟨hs.hasOutput, hs.output, hs.events, hs.notes, fun text htext => ?_⟩
    exact (Array.mem_push.mp htext).elim (hs.errors text) fun heq => ⟨_, _, _, _, heq⟩

theorem Printed.of_recordsKept {t : Session} (hs : Printed s) (h : RecordsKept s t) : Printed t := by
  refine ⟨?_, ?_, ?_, ?_, ?_⟩
  · rw [h.hasOutput, h.events]
    exact hs.hasOutput
  · rw [h.events]
    exact hs.output
  · rw [h.events]
    exact hs.events
  · rw [h.notes]
    exact hs.notes
  · rw [h.errors]
    exact hs.errors

/-- Sessions stay as printed. -/
def Contract.printing : Contract where
  holds := Printed
  post _ _ _ := True
  knows _ _ := True

theorem Contract.printing_notes (hcode : differ errorMark ("\x1b[" ++ code) = true) (message : String) :
    Contract.printing.Notes code message :=
  fun _ _ _ _ hs => ⟨hs.withNote fun _ => isErrorLine_colour hcode _ _, trivial⟩

instance Contract.printing_fair : Contract.printing.Fair where
  refl _ := trivial
  trans _ _ := trivial
  caught _ := trivial
  raise _ _ := trivial
  aside h hs := ⟨hs.of_recordsKept h, trivial⟩
  error _ line message hs := ⟨hs.withError line message, trivial⟩
  blame _ _ hs := ⟨⟨hs.hasOutput, hs.output, hs.events, hs.notes, hs.errors⟩, trivial⟩
  used _ _ hs := ⟨⟨hs.hasOutput, hs.output, hs.events, hs.notes, hs.errors⟩, trivial⟩
  defined _ _ hs := ⟨⟨hs.hasOutput, hs.output, hs.events, hs.notes, hs.errors⟩, trivial⟩
  assigned _ _ hs := ⟨⟨hs.hasOutput, hs.output, hs.events, hs.notes, hs.errors⟩, trivial⟩
  note h := by
    cases h with
    | call step => exact printing_notes (by decide) _
    | runtime hlead rest => exact printing_notes (by decide) _
  write s code hcode message hs := by
    refine ⟨hs.withEvent rfl (isErrorLine_colour ?_ _ _), trivial⟩
    simp only [traceColours, List.mem_cons, List.not_mem_nil, or_false] at hcode
    rcases hcode with rfl | rfl | rfl
    · decide
    · decide
    · decide
  prompt s message hs := by
    have hplain := @isErrorLine_colour "94" (by decide) ("[INFO] " ++ message) ""
    rw [String.append_empty] at hplain
    exact ⟨hs.withEvent rfl hplain, trivial⟩

/-! ### What runs print -/

theorem obeys_printing_writeLine (channel : Channel) {line : String} (hline : startsWithText (line ++ "\n") errorMark = false) :
    (writeLine channel line).Obeys .printing :=
  .modify (fun _ hs => ⟨hs.withEvent rfl hline, trivial⟩) fun _ => rfl

theorem obeys_printing_note (message : String) : (note ["[WARN] ", message]).Obeys .printing :=
  obeys_noteTexts (Contract.printing_notes (by decide) _)

theorem obeys_printing_warnUnassigned (name : String) (v : Value) : (warnUnassigned name v).Obeys .printing := by
  have hC := Contract.printing_fair
  have hmark : (markWarned name).Obeys .printing :=
    .modify (fun _ hs => ⟨⟨hs.hasOutput, hs.output, hs.events, hs.notes, hs.errors⟩, trivial⟩) fun _ => rfl
  refine .bind .get fun s => .ite (.bind (obeys_isConstant name) fun _ => .ite ?_ (.pure ())) (.pure ())
  refine .bind (obeys_format _) fun message => .ite (.bind (obeys_printing_note message) fun _ => hmark) ?_
  exact .bind (obeys_printing_writeLine .err (isErrorLine_colour (by decide) _ _)) fun _ => hmark

theorem obeys_printing_warnUnused (name : String) : (warnUnused name).Obeys .printing := by
  have hC := Contract.printing_fair
  refine .bind .get fun s => .ite (obeys_printing_note _) ?_
  exact obeys_printing_writeLine .err (isErrorLine_colour (by decide) _ _)

theorem obeys_printing_flushNotes {lines : List String}
    (h : ∀ text ∈ lines, ∀ rest, startsWithText (text ++ rest) errorMark = false) : (flushNotes lines).Obeys .printing := by
  induction lines with
  | nil => exact .pure ()
  | cons line rest ih =>
    obtain ⟨hline, hrest⟩ := List.forall_mem_cons.mp h
    exact .bind (obeys_printing_writeLine .out (hline "\n")) fun _ => ih hrest

theorem isErrorLine_outputEvent (severity : Severity) (message : String) :
    (outputEvent severity message).isErrorLine = false := by
  cases severity with
  | info => exact isErrorLine_colour (by decide) _ _
  | warn => exact isErrorLine_colour (by decide) _ _
  | error =>
    have hlead : (outputEvent .error message).text =
        ("\x1b[" ++ "91" ++ "m" ++ "[ERROR] ") ++ (message ++ "\x1b[0m" ++ "\n") := by
      simp only [outputEvent, Severity.line, colour, String.append_assoc]
    rw [Event.isErrorLine, hlead]
    exact startsWithText_eq_false (by decide) _

theorem Printed.withOutput (hs : Printed s) (severity : Severity) (message : String) :
    Printed { s with hasOutput := true, events := s.events.push (outputEvent severity message) } := by
  refine ⟨iff_of_true rfl ⟨_, Array.mem_push_self, rfl⟩, fun e he hout => ?_, fun e he => ?_, hs.notes, hs.errors⟩
  · rcases Array.mem_push.mp he with he | rfl
    · exact hs.output e he hout
    · exact ⟨severity, message, rfl⟩
  · rcases Array.mem_push.mp he with he | rfl
    · exact hs.events e he
    · exact isErrorLine_outputEvent severity message

theorem obeys_printing_writeMessage (severity : Severity) (message : String) :
    (writeMessage severity message).Obeys .printing := by
  intro s hs
  obtain ⟨notes, hnote, hnotes⟩ := exec_note_texts "[RUNTIME] Output message: " message { s with hasOutput := true }
  have hexec : (writeMessage severity message).exec s = (.ok (), { s with
      hasOutput := true, notes := notes, events := s.events.push (outputEvent severity message) }) := by
    rw [writeMessage, exec_bind_ok (exec_modify _ s), exec_bind_ok hnote]
    rfl
  rw [hexec]
  refine ⟨hs.of_scopes_eq rfl ?_, trivial⟩
  rcases hnotes with rfl | ⟨line, content, -, rfl⟩
  · exact hs.holds.withOutput severity message
  · exact (hs.holds.withNote fun _ => isErrorLine_colour (by decide) _ _).withOutput severity message

/-- A run keeps its records in agreement with what it writes. -/
theorem printed_execute (code : String) (hs : Printed s) : Printed ((execute code).exec s).2 := by
  have hC := Contract.printing_fair
  have hvisits : ∀ n, (visit depthLimit n).Obeys .printing := by
    intro n
    rw [← visitUntil_never]
    refine obeys_visitUntil (P := fun _ => True) (fun visit h n _ m _ => ?_) (fun _ => trivial) _ _ n trivial
    exact ⟨fun c _ => h c trivial, fun _ c _ => h c trivial, fun _ => obeys_printing_writeMessage,
      fun name _ => obeys_printing_warnUnassigned name, fun _ _ f _ => h f.body trivial, fun _ _ _ _ _ _ _ _ _ _ => trivial⟩
  have hrun : (runText (visit depthLimit) code).Obeys .printing :=
    obeys_runText (C := .printing) (fun _ _ hs => ⟨⟨hs.hasOutput, hs.output, hs.events, hs.notes, hs.errors⟩, trivial⟩)
      (fun _ _ c _ => hvisits c) obeys_printing_warnUnused
      fun t ht => obeys_printing_flushNotes (fun text htext => ht.holds.notes text (Array.mem_toList_iff.mp htext)) t ht
  rw [execute, exec_executeWithin_eq_runText]
  refine (hrun _ ⟨?_, fun _ _ _ => trivial⟩).1.holds
  exact ⟨hs.hasOutput, hs.output, hs.events, by simp, hs.errors⟩

theorem printed_fresh (modes : Modes) (source : Array String) (input : Option (List Char)) :
    Printed { Session.fresh.setModes modes source with input := input } := by
  have hnone : ∀ {γ : Type} {x : γ}, x ∉ (#[] : Array γ) := by simp
  refine ⟨iff_of_false Bool.false_ne_true ?_, fun _ h => absurd h hnone, fun _ h => absurd h hnone,
    fun _ h => absurd h hnone, fun _ h => absurd h hnone⟩
  rintro ⟨e, he, -⟩
  exact hnone he

theorem execute_ne_fault (code : String) (s : Session) (f : Fault) : ((execute code).exec s).1 ≠ .error (.fault f) := by
  rcases exec_executeWithin_cases (visit depthLimit) code s with hcut | ⟨t, hret⟩
  · rw [execute, hcut]
    simp
  · rw [execute, hret]
    simp

theorem isErrorLine_errorText {error : String} (h : IsErrorText error) (rest : String) :
    startsWithText (colour "91" error ++ rest) errorMark = true := by
  have hcolour : ∀ code message more, ∃ tail, colour "91" (colour code message ++ more) ++ rest = errorMark ++ tail := by
    intro code message more
    refine ⟨code ++ "m" ++ message ++ "\x1b[0m" ++ more ++ "\x1b[0m" ++ rest, ?_⟩
    have hmark : errorMark = "\x1b[" ++ "91" ++ "m" ++ "\x1b[" := by decide
    rw [hmark]
    simp only [colour, String.append_assoc]
  have hlead : ∃ tail, colour "91" error ++ rest = errorMark ++ tail := by
    obtain ⟨modes, content, line, message, rfl⟩ := h
    rw [errorText]
    split
    · rw [String.append_assoc]
      exact hcolour _ _ _
    · split
      · rw [String.append_assoc]
        exact hcolour _ _ _
      · have hbody := hcolour "91" ("[ERROR] " ++ message) ""
        rwa [String.append_empty] at hbody
  obtain ⟨tail, htail⟩ := hlead
  rw [htail]
  exact startsWithText_append _ _

end Run

/-! ### What the check prints -/

namespace Check.Checker

open Text
open Run (IsErrorText errorMark isErrorLine_colour)

/-- The list of errors holds texts of errors, and no trace line looks like one. -/
structure Tidy (c : Checker) : Prop where
  errors : ∀ text ∈ c.errors, IsErrorText text
  notes : ∀ text ∈ c.notes, ∀ rest, startsWithText (text ++ rest) errorMark = false

namespace Tidy

variable {c : Checker} (hc : c.Tidy)

include hc

theorem note (line : Int) (message : String) : (c.note line message).Tidy := by
  unfold Checker.note
  split
  · refine ⟨hc.errors, fun text htext => ?_⟩
    rcases List.mem_append.mp htext with htext | htext
    · exact hc.notes text htext
    · rw [List.mem_singleton.mp htext]
      exact fun rest => isErrorLine_colour (by decide) _ rest
  · exact hc

theorem report (line : Int) (message : String) : (c.report line message).Tidy := by
  unfold Checker.report
  dsimp only
  split
  · exact hc
  · refine ⟨fun text htext => ?_, hc.notes⟩
    rcases List.mem_append.mp htext with htext | htext
    · exact hc.errors text htext
    · exact ⟨_, _, _, _, List.mem_singleton.mp htext⟩

theorem reportAll (problems : List Problem) : (c.reportAll problems).Tidy := by
  induction problems generalizing c with
  | nil => exact hc
  | cons problem rest ih => exact ih (hc.report _ _)

theorem checkLine (line : Int) (text : String) : (c.checkLine line text).1.Tidy := by
  unfold Checker.checkLine
  dsimp only
  split
  · exact (hc.note _ _).note _ _
  · exact (hc.note _ _).report _ _

theorem checkLines (n : Nat) (lines : List String) : (c.checkLines n lines).Tidy := by
  induction lines generalizing c n with
  | nil => exact hc
  | cons line rest ih =>
    rw [Checker.checkLines]
    refine ih ?_ (n + 1)
    split
    · exact hc.note _ _
    · exact (hc.note _ _).checkLine _ _

theorem noteLines (n : Nat) (lines : List String) : (c.noteLines n lines).Tidy := by
  induction lines generalizing c n with
  | nil => exact hc
  | cons line rest ih =>
    rw [Checker.noteLines]
    refine ih ?_ (n + 1)
    split
    · exact hc
    · exact hc.note _ _

theorem checkBalance (lines : List String) : (c.checkBalance lines).Tidy := by
  unfold Checker.checkBalance
  split
  · exact (hc.noteLines _ _).reportAll _
  · exact hc

end Tidy

theorem tidy_check (c : Checker) (code : String) : (c.check code).Tidy := by
  have hstart : Tidy { c with errors := [], notes := [] } :=
    ⟨by simp, by simp⟩
  unfold Checker.check Checker.prepare
  dsimp only
  split
  · exact hstart.reportAll _
  · split
    · exact ((hstart.reportAll _).checkLines _ _).checkBalance _
    · exact (hstart.reportAll _).checkLines _ _

end Check.Checker

namespace Program

open Text
open Run (Event Session IsErrorText errorMark isErrorLine_colour isErrorLine_errorText outputEvent colour Printed)

/-- An event without an error or output of the program, at which nothing is read. -/
structure IsPlain (e : Event) : Prop where
  isErrorLine : e.isErrorLine = false
  isOutput : e.isOutput = false
  isPrompt : e.isPrompt = false

theorem isPlain_printed (hcode : differ errorMark ("\x1b[" ++ code) = true) (message : String) :
    IsPlain (printed (colour code message)) :=
  ⟨isErrorLine_colour hcode _ _, rfl, rfl⟩

theorem isPlain_debugLine (message : String) : IsPlain (debugLine message) :=
  isPlain_printed (by decide) _

theorem isPlain_modeLines (modes : Run.Modes) : ∀ e ∈ modeLines modes, IsPlain e := by
  intro e he
  unfold modeLines at he
  split at he
  · exact List.mem_singleton.mp he ▸ isPlain_debugLine _
  · split at he
    · exact List.mem_singleton.mp he ▸ isPlain_debugLine _
    · cases he

theorem isPlain_numbered (n : Nat) (lines : List String) : ∀ e ∈ numbered n lines, IsPlain e := by
  induction lines generalizing n with
  | nil => exact fun e he => absurd he List.not_mem_nil
  | cons line rest ih => exact List.forall_mem_cons.mpr ⟨isPlain_debugLine _, ih (n + 1)⟩

/-- Before the run the errors of the check are shown, after lines that show none. -/
theorem exists_opening (text : String) :
    ∃ (front : List Event) (errors : List String), (checkText text).opening = front ++ errors.map errorLine ∧
      (checkText text).errors = errors.length ∧ (∀ e ∈ front, IsPlain e) ∧ ∀ error ∈ errors, IsErrorText error := by
  unfold checkText
  cases Check.extractDirectives text with
  | mk modes code =>
    dsimp only
    generalize ((Check.Checker.start modes _).prepare code) = prepared
    have htidy := prepared.1.tidy_check code
    generalize prepared.1.check code = checker at htidy
    refine ⟨_, checker.errors, rfl, rfl, fun e he => ?_, htidy.errors⟩
    rcases List.mem_append.mp he with he | he
    · rcases List.mem_append.mp he with he | he
      · rcases List.mem_cons.mp he with rfl | he
        · exact isPlain_printed (by decide) _
        · exact isPlain_modeLines modes e he
      · split at he
        · exact List.forall_mem_cons.mpr ⟨isPlain_debugLine _, isPlain_numbered 1 _⟩ e he
        · cases he
    · obtain ⟨note, hnote, rfl⟩ := List.mem_map.mp he
      exact ⟨htidy.notes note hnote "\n", rfl, rfl⟩

/-! ### The summary -/

theorem printed_ne {a b : String} (h : differ ("\x1b[" ++ a) ("\x1b[" ++ b) = true) (x y : String) :
    printed (colour a x) ≠ printed (colour b y) := by
  intro heq
  have htext : colour a x ++ "\n" = colour b y ++ "\n" := congrArg Event.text heq
  rw [Run.colour_append, Run.colour_append] at htext
  exact append_ne_append h _ _ htext

theorem summary_eq_total_iff (n : Nat) (hasOutput : Bool) :
    summary n hasOutput = printed (colour "91" ("Total errors: " ++ toString n)) ↔ 0 < n := by
  cases n with
  | zero => cases hasOutput <;> exact iff_of_false (printed_ne (by decide) _ _) (Nat.lt_irrefl 0)
  | succ n => exact iff_of_true rfl n.succ_pos

theorem summary_eq_success_iff (n : Nat) (hasOutput : Bool) :
    summary n hasOutput = printed (colour "92" "Execution completed successfully!") ↔ n = 0 ∧ hasOutput = true := by
  cases n with
  | zero =>
    cases hasOutput with
    | false => exact iff_of_false (printed_ne (by decide) _ _) (by simp)
    | true => exact iff_of_true rfl ⟨rfl, rfl⟩
  | succ n => exact iff_of_false (printed_ne (by decide) _ _) (by simp)

theorem summary_eq_silent_iff (n : Nat) (hasOutput : Bool) :
    summary n hasOutput = printed (colour "93" "[WARN] The project ran successfully, but there was no output") ↔
      n = 0 ∧ hasOutput = false := by
  cases n with
  | zero =>
    cases hasOutput with
    | false => exact iff_of_true rfl ⟨rfl, rfl⟩
    | true => exact iff_of_false (printed_ne (by decide) _ _) (by simp)
  | succ n => exact iff_of_false (printed_ne (by decide) _ _) (by simp)

/-- The session in which the code of a text ends, if there is code to run. -/
def sessionOf (text : String) (input : Option (List Char)) : Option Session :=
  (checkText text).code.map fun code ↦ runCode (checkText text).modes (checkText text).source code input

theorem countP_isErrorLine_plain {events : List Event} (h : ∀ e ∈ events, IsPlain e) :
    events.countP Event.isErrorLine = 0 :=
  List.countP_eq_zero.mpr fun e he => ne_true_of_eq_false ((h e he).isErrorLine)

theorem countP_isErrorLine_errors (h : ∀ error ∈ errors, IsErrorText error) :
    (errors.map errorLine).countP Event.isErrorLine = errors.length := by
  rw [List.countP_eq_length.mpr, List.length_map]
  intro e he
  obtain ⟨error, herror, rfl⟩ := List.mem_map.mp he
  exact isErrorLine_errorText (h error herror) _

theorem not_isOutput_errors : ∀ e ∈ errors.map errorLine, e.isOutput = false ∧ e.isPrompt = false := by
  intro e he
  obtain ⟨error, -, rfl⟩ := List.mem_map.mp he
  exact ⟨rfl, rfl⟩

/-- What is shown only if a trace mode is on. -/
def shownIn (modes : Run.Modes) (message : String) : List Event :=
  if modes.any then [debugLine message] else []

theorem isPlain_shownIn (modes : Run.Modes) (message : String) : ∀ e ∈ shownIn modes message, IsPlain e := by
  unfold shownIn
  split
  · exact fun e he => List.mem_singleton.mp he ▸ isPlain_debugLine _
  · simp

theorem run_of_none (hcode : (checkText text).code = none) (input : Option (List Char)) :
    run text input = (checkText text).opening ++
      shownIn (checkText text).modes "No code to execute or syntax errors found" ++
      [summary (checkText text).errors false] := by
  unfold run
  generalize checkText text = checked at hcode ⊢
  simp only [hcode, shownIn]

theorem run_of_some (hcode : (checkText text).code = some code) (input : Option (List Char))
    (hs : runCode (checkText text).modes (checkText text).source code input = s) :
    run text input = (checkText text).opening ++ shownIn (checkText text).modes "Starting runtime execution..." ++
      s.events.toList ++ s.errors.toList.map errorLine ++
      shownIn (checkText text).modes ("Runtime execution completed. Has output: " ++
        (if s.hasOutput then "True" else "False")) ++ [summary s.errors.size s.hasOutput] := by
  unfold run
  generalize checkText text = checked at hcode hs ⊢
  simp only [hcode, hs, shownIn]

/-- Without code to run, the errors of the check are all there is to sum up. -/
theorem exists_run_eq_of_none (hcode : (checkText text).code = none) :
    ∃ body : List Event, (∀ input, run text input = body ++ [summary (body.countP Event.isErrorLine) false]) ∧
      body.countP Event.isErrorLine = (checkText text).errors ∧ ∀ e ∈ body, e.isOutput = false ∧ e.isPrompt = false := by
  obtain ⟨front, errors, hopening, hlen, hfront, herrs⟩ := exists_opening text
  have hshown := isPlain_shownIn (checkText text).modes "No code to execute or syntax errors found"
  have hrun := run_of_none hcode
  rw [hopening] at hrun
  generalize shownIn (checkText text).modes _ = shown at hshown hrun
  have hcount : (front ++ errors.map errorLine ++ shown).countP Event.isErrorLine = (checkText text).errors := by
    rw [List.countP_append, List.countP_append, countP_isErrorLine_plain hfront, countP_isErrorLine_errors herrs,
      countP_isErrorLine_plain hshown, hlen, Nat.zero_add, Nat.add_zero]
  rw [← hcount] at hrun
  refine ⟨front ++ errors.map errorLine ++ shown, hrun, hcount, fun e he => ?_⟩
  simp only [List.mem_append] at he
  obtain (he | he) | he := he
  · exact ⟨(hfront e he).isOutput, (hfront e he).isPrompt⟩
  · exact not_isOutput_errors e he
  · exact ⟨(hshown e he).isOutput, (hshown e he).isPrompt⟩

theorem errors_eq_zero_of_code (hcode : (checkText text).code = some code) : (checkText text).errors = 0 := by
  obtain ⟨errors, hlen, hif⟩ := exists_checkText_errors text
  rw [hcode] at hif
  cases errors with
  | nil => exact hlen
  | cons error rest => simp at hif

/-- Code is run only if the check has found no error; then the errors of the run are summed up. -/
theorem exists_run_eq_of_some (hcode : (checkText text).code = some code) (input : Option (List Char))
    (hs : runCode (checkText text).modes (checkText text).source code input = s) (hprinted : Printed s) :
    ∃ body : List Event, run text input =
        body ++ [summary (body.countP Event.isErrorLine) (body.any (·.isOutput))] ∧
      body.countP Event.isErrorLine = s.errors.size ∧
      ∀ e ∈ body, e.isOutput = true → ∃ severity message, e = outputEvent severity message := by
  obtain ⟨front, errors, hopening, hlen, hfront, -⟩ := exists_opening text
  rw [errors_eq_zero_of_code hcode] at hlen
  rw [List.length_eq_zero_iff.mp hlen.symm, List.map_nil, List.append_nil] at hopening
  have hrun := run_of_some hcode input hs
  rw [hopening] at hrun
  have hbefore := isPlain_shownIn (checkText text).modes "Starting runtime execution..."
  have hafter := isPlain_shownIn (checkText text).modes ("Runtime execution completed. Has output: " ++
    (if s.hasOutput then "True" else "False"))
  generalize shownIn (checkText text).modes "Starting runtime execution..." = before at hbefore hrun
  generalize shownIn (checkText text).modes _ = after at hafter hrun
  have hevents : s.events.toList.countP Event.isErrorLine = 0 :=
    List.countP_eq_zero.mpr fun e he => by
      rw [hprinted.events e (Array.mem_toList_iff.mp he)]
      exact Bool.false_ne_true
  have hcount : (front ++ before ++ s.events.toList ++ s.errors.toList.map errorLine ++ after).countP Event.isErrorLine =
      s.errors.size := by
    rw [List.countP_append, List.countP_append, List.countP_append, List.countP_append, countP_isErrorLine_plain hfront,
      countP_isErrorLine_plain hbefore, hevents, countP_isErrorLine_plain hafter, countP_isErrorLine_errors
        fun error herror => hprinted.errors error (Array.mem_toList_iff.mp herror),
      Array.length_toList, Nat.add_zero, Nat.zero_add]
  have hmem : ∀ e ∈ front ++ before ++ s.events.toList ++ s.errors.toList.map errorLine ++ after,
      e.isOutput = true → e ∈ s.events := by
    intro e he hout
    simp only [List.mem_append] at he
    obtain (((he | he) | he) | he) | he := he
    · cases (hfront e he).isOutput.symm.trans hout
    · cases (hbefore e he).isOutput.symm.trans hout
    · exact Array.mem_toList_iff.mp he
    · cases (not_isOutput_errors e he).1.symm.trans hout
    · cases (hafter e he).isOutput.symm.trans hout
  have hany : (front ++ before ++ s.events.toList ++ s.errors.toList.map errorLine ++ after).any (·.isOutput) =
      s.hasOutput := by
    rw [Bool.eq_iff_iff, List.any_eq_true, hprinted.hasOutput]
    constructor
    · rintro ⟨e, he, hout⟩
      exact ⟨e, hmem e he hout, hout⟩
    · rintro ⟨e, he, hout⟩
      refine ⟨e, ?_, hout⟩
      exact List.mem_append_left _ (List.mem_append_left _ (List.mem_append_right _ (Array.mem_toList_iff.mpr he)))
  refine ⟨_, ?_, hcount, fun e he hout => hprinted.output e (hmem e he hout) hout⟩
  rw [hrun, hcount, hany]

/-- The session in which the code of a text is run. -/
def startOf (text : String) (input : Option (List Char)) : Session :=
  { Session.fresh.setModes (checkText text).modes (checkText text).source with input := input }

/-- Every run ends with one of three lines: the number of the error lines it has printed, if there
are any; that it was successful, exactly if the check has found no error, the code has run without
an error and an output statement has printed a line; or else that there was no output. Where the
check has found an error, no code is run; where code is run, no fault keeps the summary back. -/
theorem run_ends_with_its_summary (text : String) (input : Option (List Char)) :
    ∃ (body : List Event) (last : Event), run text input = body ++ [last] ∧
      (last = printed (colour "91" ("Total errors: " ++ toString (body.countP Event.isErrorLine))) ↔
        0 < body.countP Event.isErrorLine) ∧
      (last = printed (colour "92" "Execution completed successfully!") ↔
        (checkText text).errors = 0 ∧ (∀ s ∈ sessionOf text input, s.errors.size = 0) ∧
          ∃ e ∈ body, e.isOutput = true) ∧
      (last = printed (colour "93" "[WARN] The project ran successfully, but there was no output") ↔
        body.countP Event.isErrorLine = 0 ∧ ∀ e ∈ body, e.isOutput = false) ∧
      body.countP Event.isErrorLine = (checkText text).errors + ((sessionOf text input).map (·.errors.size)).getD 0 ∧
      (∀ e ∈ body, e.isOutput = true → ∃ severity message, e = outputEvent severity message) ∧
      (0 < (checkText text).errors → sessionOf text input = none ∧ (∀ other, run text other = run text input) ∧
        ∀ e ∈ body, e.isOutput = false ∧ e.isPrompt = false) ∧
      ∀ code ∈ (checkText text).code, ∀ f,
        ((Run.execute code).exec (startOf text input)).1 ≠ .error (.fault f) := by
  cases hcode : (checkText text).code with
  | none =>
    obtain ⟨body, hrun, hcount, hplain⟩ := exists_run_eq_of_none hcode
    have hsession : sessionOf text input = none := by rw [sessionOf, hcode, Option.map_none]
    refine ⟨body, _, hrun input, summary_eq_total_iff _ _, ?_, ?_, ?_, ?_, ?_, nofun⟩
    · refine (summary_eq_success_iff _ _).trans (iff_of_false (fun h ↦ Bool.false_ne_true h.2) ?_)
      rintro ⟨-, -, e, he, hout⟩
      exact Bool.false_ne_true ((hplain e he).1.symm.trans hout)
    · exact (summary_eq_silent_iff _ _).trans (and_congr_right fun _ ↦ iff_of_true rfl fun e he ↦ (hplain e he).1)
    · rw [hcount, hsession, Option.map_none, Option.getD_none, Nat.add_zero]
    · exact fun e he hout ↦ absurd ((hplain e he).1.symm.trans hout) Bool.false_ne_true
    · exact fun _ ↦ ⟨hsession, fun other ↦ (hrun other).trans (hrun input).symm, hplain⟩
  | some code =>
    have hprinted := Run.printed_execute code
      (Run.printed_fresh (checkText text).modes (checkText text).source input)
    rw [← runCode_eq] at hprinted
    have hsession : sessionOf text input =
        some (runCode (checkText text).modes (checkText text).source code input) := by
      rw [sessionOf, hcode, Option.map_some]
    have hzero := errors_eq_zero_of_code hcode
    generalize hs : runCode (checkText text).modes (checkText text).source code input = s at hprinted hsession
    obtain ⟨body, hrun, hcount, houtput⟩ := exists_run_eq_of_some hcode input hs hprinted
    refine ⟨body, _, hrun, summary_eq_total_iff _ _, ?_, ?_, ?_, houtput, ?_, fun _ _ ↦ Run.execute_ne_fault _ _⟩
    · rw [summary_eq_success_iff, hcount, hzero, hsession, List.any_eq_true]
      simp
    · rw [summary_eq_silent_iff, List.any_eq_false]
      simp
    · rw [hcount, hzero, hsession, Nat.zero_add, Option.map_some, Option.getD_some]
    · exact fun hpos ↦ absurd hzero hpos.ne'

end Program

end FapLang
