import FapLang.Proofs.Run.Arising
import FapLang.Proofs.Run.Backing
import FapLang.Proofs.Text.Leads

/-!
The records of a session only grow (`Books`). Warnings that a name is read before it has a value are
found by how they begin (`Event.warnsOf`), and over a whole life of runs there is at most one of
each name (`bookkeeping_is_append_only`).
-/

namespace FapLang

variable {n : Node} {s t : Run.Session} {line : Int} {content message name other text : String}

namespace Run

open Interp Text Grammar

/-! ### Records that only grow -/

/-- All records of an earlier session are kept: lists in their order and without repetition. -/
structure Books (s t : Session) : Prop where
  errors : s.errors.toList <+: t.errors.toList
  nodup : s.errors.toList.Nodup → t.errors.toList.Nodup
  faulty : s.faulty.toList <+: t.faulty.toList
  used : s.used ⊆ t.used
  defined : s.defined ⊆ t.defined
  assigned : s.assigned ⊆ t.assigned
  warned : s.warned ⊆ t.warned
  hasOutput : s.hasOutput = true → t.hasOutput = true

namespace Books

theorem refl (s : Session) : Books s s :=
  ⟨List.prefix_rfl, id, List.prefix_rfl, fun _ => id, fun _ => id, fun _ => id, fun _ => id, id⟩

theorem trans {u : Session} (h1 : Books s t) (h2 : Books t u) : Books s u :=
  ⟨h1.errors.trans h2.errors, h2.nodup ∘ h1.nodup, h1.faulty.trans h2.faulty, List.Subset.trans h1.used h2.used,
    List.Subset.trans h1.defined h2.defined, List.Subset.trans h1.assigned h2.assigned,
    List.Subset.trans h1.warned h2.warned, h2.hasOutput ∘ h1.hasOutput⟩

theorem of_recordsKept (h : RecordsKept s t) : Books s t := by
  refine ⟨?_, ?_, ?_, ?_, ?_, ?_, ?_, ?_⟩
  · rw [h.errors]
  · rw [h.errors]
    exact id
  · rw [h.faulty]
  · rw [h.used]
    exact fun _ => id
  · rw [h.defined]
    exact fun _ => id
  · rw [h.assigned]
    exact fun _ => id
  · rw [h.warned]
    exact fun _ => id
  · rw [h.hasOutput]
    exact id

end Books

theorem books_reportAt (line : Int) (message : String) (s : Session) : Books s ((reportAt line message).exec s).2 := by
  rw [reportAt, exec_modify]
  dsimp only
  split
  · exact .refl s
  · next hnew =>
    refine { Books.refl s with errors := ?_, nodup := fun hnodup => ?_ }
    · rw [Array.toList_push]
      exact List.prefix_append _ _
    · rw [Array.toList_push]
      refine List.nodup_append.mpr ⟨hnodup, List.pairwise_singleton _ _, fun text htext other hother heq => hnew ?_⟩
      rw [← List.mem_singleton.mp hother, ← heq]
      exact Array.contains_iff_mem.mpr (Array.mem_toList_iff.mp htext)

/-- Records only grow. -/
def Contract.booking : Contract where
  holds _ := True
  post s _ t := Books s t
  knows _ _ := True

instance Contract.booking_open : Contract.booking.Open where
  refl := .refl
  trans := .trans
  caught h := h
  raise s _ := .refl s
  aside h _ := ⟨trivial, .of_recordsKept h⟩
  error s line message _ := ⟨trivial, books_reportAt line message s⟩
  blame s name _ := ⟨trivial, { Books.refl s with faulty := by rw [Array.toList_push]; exact List.prefix_append _ _ }⟩
  used s name _ := ⟨trivial, { Books.refl s with used := Names.subset_insert _ _ }⟩
  defined s name _ := ⟨trivial, { Books.refl s with defined := Names.subset_insert _ _ }⟩
  assigned s name _ := ⟨trivial, { Books.refl s with assigned := Names.subset_insert _ _ }⟩
  note _ s _ _ _ _ := ⟨trivial, { Books.refl s with }⟩
  write s _ _ _ _ := ⟨trivial, { Books.refl s with }⟩
  prompt s _ _ := ⟨trivial, { Books.refl s with }⟩
  event s _ _ := ⟨trivial, { Books.refl s with }⟩
  notes _ _ s _ _ _ _ := ⟨trivial, { Books.refl s with }⟩
  warned s name _ := ⟨trivial, { Books.refl s with warned := Names.subset_insert _ _ }⟩
  output s _ := ⟨trivial, { Books.refl s with hasOutput := fun _ => rfl }⟩

theorem obeys_booking_visitUntil (stops : Node → Session → Bool) (depth : Nat) (n : Node) :
    (visitUntil stops depth n).Obeys .booking := by
  have hC := Contract.booking_open
  refine obeys_visitUntil (C := .booking) (P := fun _ => True) (fun visit h n _ m _ => ?_) .refl stops depth n trivial
  exact ⟨fun c _ => h c trivial, fun _ c _ => h c trivial, fun _ => hC.writeMessage,
    fun name _ => hC.warnUnassigned name, fun _ _ f _ => h f.body trivial, fun _ _ _ _ _ _ _ _ _ _ => trivial⟩

/-- Every visit of every node only adds to the records, however it ends. -/
theorem books_visitUntil (stops : Node → Session → Bool) (depth : Nat) (n : Node) (s : Session) :
    Books s ((visitUntil stops depth n).exec s).2 :=
  (obeys_booking_visitUntil stops depth n s ⟨trivial, fun _ _ _ => trivial⟩).2

theorem books_executeWithin (stops : Node → Session → Bool) (code : String) (s : Session) :
    Books s ((executeWithin (visitUntil stops depthLimit) code).exec s).2 := by
  have hrun : (runText (visitUntil stops depthLimit) code).Obeys .booking :=
    obeys_runText (C := .booking) (fun s _ _ => ⟨trivial, { Books.refl s with }⟩)
      (fun _ _ c _ => obeys_booking_visitUntil stops depthLimit c)
      Contract.booking_open.warnUnused fun t ht => Contract.booking_open.flushNotes _ t ht
  have hclear : Books s { s with notes := #[] } := { Books.refl s with }
  rw [exec_executeWithin_eq_runText]
  exact hclear.trans (hrun { s with notes := #[] } ⟨trivial, fun _ _ _ => trivial⟩).2

/-! ### Warnings -/

/-- How the warning begins that a name is read before it has a value. -/
def warningLead (name : String) : String :=
  "[WARN] " ++ ("Variable '" ++ name ++ "' used without assignment, using default value: ")

/-- Whether an event warns of a name; what the program prints does not count. -/
def Event.warnsOf (e : Event) (name : String) : Bool :=
  e.channel = .err && !e.isOutput && startsWithText e.text ("\x1b[93m" ++ warningLead name)

/-- How a trace line begins that quotes a line of the source. -/
def noteLead (line : Int) (content : String) : String :=
  "\x1b[33m[Line " ++ toString line ++ ": " ++ content ++ "] "

/-- Whether a trace line warns of a name. -/
def Session.warnsOf (s : Session) (name text : String) : Bool :=
  (List.range s.source.size).any fun k => (s.sourceLine? (k + 1 : Nat)).any fun content =>
    startsWithText text (noteLead (k + 1 : Nat) content ++ warningLead name)

/-- How often a name has been warned of in what is written. -/
def Session.warningLines (s : Session) (name : String) : Nat :=
  s.events.toList.countP (·.warnsOf name)

/-- How often a name has been warned of in the trace. -/
def Session.warningNotes (s : Session) (name : String) : Nat :=
  s.notes.toList.countP (s.warnsOf name)

/-- The warnings of a name that there have been, and the one that may still come. -/
def Session.warnings (s : Session) (name : String) : Nat :=
  s.warningLines name + s.warningNotes name + if s.warned.contains name then 0 else 1

/-! ### How warnings read -/

theorem noteText_eq (line : Int) (content message : String) :
    noteText "33" line content message = noteLead line content ++ (message ++ "\x1b[0m") := by
  have hlead : "\x1b[33m[Line " = "\x1b[" ++ "33" ++ "m" ++ "[Line " := by decide
  delta noteLead
  rw [hlead]
  simp only [noteText, colour, String.append_assoc]

/-- The line that a trace line quotes can be read off it. -/
theorem line_eq_of_startsWith {k : Nat} {x y : String} (hline : 0 < line)
    (h : startsWithText (noteLead line content ++ y) (noteLead k other ++ x) = true) : line = k := by
  obtain ⟨m, rfl⟩ := Int.eq_ofNat_of_zero_le (Int.le_of_lt hline)
  have hsep : ": ".toList = ':' :: [' '] := rfl
  have hcolon : ∀ n : Nat, ':' ∉ (toString (n : Int)).toList := fun n hmem =>
    absurd (isDigit_of_mem_toString (n := n) hmem) (by decide)
  delta noteLead at h
  simp only [String.append_assoc] at h
  rw [startsWithText_append_append] at h
  obtain ⟨heq, -⟩ := startsWithText_cut hsep (hcolon k) (hcolon m) h
  exact congrArg _ (toString_inj (n := m) (m := k) heq.symm)

theorem exists_of_warnsOf (h : s.warnsOf name text = true) :
    ∃ (k : Nat) (content : String), s.sourceLine? k = some content ∧
      startsWithText text (noteLead k content ++ warningLead name) = true := by
  obtain ⟨k, -, hk⟩ := List.any_eq_true.mp h
  cases hcontent : s.sourceLine? (k + 1 : Nat) with
  | none =>
    rw [hcontent] at hk
    cases hk
  | some content =>
    rw [hcontent, Option.any_some] at hk
    exact ⟨k + 1, content, hcontent, hk⟩

theorem startsWith_of_warnsOf
    (hline : s.sourceLine? line = some content) (h : s.warnsOf name (noteText "33" line content message) = true) :
    startsWithText (message ++ "\x1b[0m") (warningLead name) = true := by
  obtain ⟨k, other, hother, hstarts⟩ := exists_of_warnsOf h
  rw [noteText_eq] at hstarts
  have hpos : 0 < line := by
    by_contra hneg
    rw [Session.sourceLine?, if_neg hneg] at hline
    cases hline
  obtain rfl := line_eq_of_startsWith hpos hstarts
  cases hline.symm.trans hother
  rwa [startsWithText_append_append] at hstarts

theorem warnsOf_stepNote {code : String} (hline : s.sourceLine? line = some content) (h : StepNote code message) :
    s.warnsOf name (noteText code line content message) = false := by
  by_contra hne
  have hwarns := Bool.not_eq_false _ ▸ hne
  cases h with
  | call step =>
    obtain ⟨k, other, -, hstarts⟩ := exists_of_warnsOf hwarns
    have hlead : noteLead k other ++ warningLead name = "\x1b[33m[Line " ++
        (toString (k : Int) ++ ": " ++ other ++ "] " ++ warningLead name) := by
      delta noteLead
      simp only [String.append_assoc]
    rw [hlead] at hstarts
    have htext := startsWithText_eq_false (a := "\x1b[33m[Line ") (b := "\x1b[" ++ "38;2;255;165;0") (by decide)
    rw [noteText, ← String.append_empty (s := colour _ _), colour_append] at hstarts
    exact Bool.false_ne_true ((htext _).symm.trans (startsWithText_of_append hstarts))
  | @runtime lead hlead rest =>
    have hstarts := startsWithText_of_append (startsWith_of_warnsOf hline hwarns)
    rw [String.append_assoc] at hstarts
    have hruntime : startsWithText (lead ++ (rest ++ "\x1b[0m")) "[RUNTIME]" = true := by
      rw [startsWithText, List.isPrefixOf_iff_prefix, String.toList_append]
      exact (List.isPrefixOf_iff_prefix.mp hlead).trans (List.prefix_append _ _)
    exact Bool.false_ne_true ((startsWithText_unique (by decide) hruntime).symm.trans hstarts)

/-- The line that warns on the error channel. -/
def warnLine (message : String) : Event :=
  { channel := .err, text := colour "93" ("[WARN] " ++ message) ++ "\n" }

theorem startsWith_of_warnLine (h : (warnLine message).warnsOf name = true) :
    startsWithText ("[WARN] " ++ message ++ ("\x1b[0m" ++ "\n")) (warningLead name) = true := by
  have hlead : "\x1b[93m" = "\x1b[" ++ "93" ++ "m" := by decide
  have htext : (warnLine message).text = "\x1b[93m" ++ ("[WARN] " ++ message ++ ("\x1b[0m" ++ "\n")) := by
    rw [hlead]
    simp only [warnLine, colour, String.append_assoc]
  rw [Event.warnsOf, Bool.and_eq_true, htext, startsWithText_append_append] at h
  exact h.2

/-- A message that warns of a name does not warn of another one. -/
theorem eq_of_startsWith_warning {v : String} (hname : '\'' ∉ name.toList) (hother : '\'' ∉ other.toList)
    (h : startsWithText (warningLead other ++ v) (warningLead name) = true) : name = other := by
  have hsep : "' used without assignment, using default value: ".toList =
      '\'' :: " used without assignment, using default value: ".toList := by decide
  simp only [warningLead, String.append_assoc] at h
  rw [startsWithText_append_append, startsWithText_append_append,
    ← String.append_empty (s := "' used without assignment, using default value: "), String.append_assoc] at h
  exact (startsWithText_cut hsep hname hother h).1

/-! ### Each name is warned of once -/

/-- None of the names in a node holds a quote. -/
def QuoteFree (n : Node) : Prop :=
  ∀ name, (Node.token "IDENT" name).Part n → '\'' ∉ name.toList

theorem QuoteFree.of_mem {c : Node} (h : QuoteFree n) (hc : c ∈ n.kids) : QuoteFree c := by
  cases n with
  | tree rule cs => exact fun name hpart => h name (.child hc hpart)
  | token | absent | plain => cases hc

/-- The warnings of a name do not become more. -/
def Contract.warning (name : String) : Contract where
  holds _ := True
  post s _ t := t.warnings name ≤ s.warnings name
  knows _ f := QuoteFree f.body

theorem warnings_of_eq (name : String) (hsource : t.source = s.source) (hevents : t.events = s.events)
    (hnotes : t.notes = s.notes) (hwarned : t.warned = s.warned) : t.warnings name = s.warnings name := by
  have hline : t.sourceLine? = s.sourceLine? := by
    funext line
    rw [Session.sourceLine?, Session.sourceLine?, hsource]
  have hwarns : t.warnsOf name = s.warnsOf name := by
    funext text
    rw [Session.warnsOf, Session.warnsOf, hsource, hline]
  rw [Session.warnings, Session.warnings, Session.warningLines, Session.warningLines, Session.warningNotes,
    Session.warningNotes, hevents, hnotes, hwarned, hwarns]

theorem warnings_withEvent (s : Session) (name : String) (e : Event) :
    (s.withEvent e).warnings name = s.warnings name + (e.warnsOf name).toNat := by
  have hlines : (s.withEvent e).warningLines name = s.warningLines name + (e.warnsOf name).toNat := by
    rw [Session.warningLines, Session.warningLines, Session.withEvent, Array.toList_push, List.countP_append,
      List.countP_singleton]
    cases e.warnsOf name <;> rfl
  have hrest : (s.withEvent e).warnings name = (s.withEvent e).warningLines name + s.warningNotes name +
      if s.warned.contains name then 0 else 1 := rfl
  rw [hrest, hlines, Session.warnings]
  omega

theorem warnings_withNote (s : Session) (name text : String) :
    { s with notes := s.notes.push text }.warnings name = s.warnings name + (s.warnsOf name text).toNat := by
  have hcount : (s.notes.push text).toList.countP (s.warnsOf name) = s.warningNotes name + (s.warnsOf name text).toNat := by
    rw [Session.warningNotes, Array.toList_push, List.countP_append, List.countP_singleton]
    cases s.warnsOf name text <;> rfl
  have hrest : { s with notes := s.notes.push text }.warnings name = s.warningLines name +
      (s.notes.push text).toList.countP (s.warnsOf name) + if s.warned.contains name then 0 else 1 := rfl
  rw [hrest, hcount, Session.warnings]
  omega

/-- What does not warn of a name may be written and traced. -/
theorem warnings_withEvent_le {e : Event} (he : e.warnsOf name = false) :
    (s.withEvent e).warnings name ≤ s.warnings name := by
  rw [warnings_withEvent, he]
  exact Nat.le_refl _

theorem warnings_withNote_le (htext : s.warnsOf name text = false) :
    { s with notes := s.notes.push text }.warnings name ≤ s.warnings name := by
  rw [warnings_withNote, htext]
  exact Nat.le_refl _

instance Contract.warning_fair (name : String) : (Contract.warning name).Fair where
  refl _ := Nat.le_refl _
  trans h1 h2 := Nat.le_trans h2 h1
  caught h := h
  raise _ _ := Nat.le_refl _
  aside h _ := ⟨trivial, (warnings_of_eq name h.source h.events h.notes h.warned).le⟩
  error s line message _ := by
    refine ⟨trivial, ?_⟩
    rw [reportAt, exec_modify]
    dsimp only
    split
    · exact Nat.le_refl _
    · exact (warnings_of_eq name rfl rfl rfl rfl).le
  blame s name _ := ⟨trivial, (warnings_of_eq _ rfl rfl rfl rfl).le⟩
  used s name _ := ⟨trivial, (warnings_of_eq _ rfl rfl rfl rfl).le⟩
  defined s name _ := ⟨trivial, (warnings_of_eq _ rfl rfl rfl rfl).le⟩
  assigned s name _ := ⟨trivial, (warnings_of_eq _ rfl rfl rfl rfl).le⟩
  note h s line content hline _ := ⟨trivial, warnings_withNote_le (warnsOf_stepNote hline h)⟩
  write s _ _ _ _ := ⟨trivial, warnings_withEvent_le rfl⟩
  prompt s _ _ := ⟨trivial, warnings_withEvent_le rfl⟩

theorem obeys_warning_writeMessage (name : String) (severity : Severity) (message : String) :
    (writeMessage severity message).Obeys (.warning name) := by
  have hset : (modify fun s => { s with hasOutput := true } : Interp Unit).Obeys (.warning name) :=
    .modify (fun s _ => ⟨trivial, (warnings_of_eq name rfl rfl rfl rfl).le⟩) fun _ => rfl
  refine .bind hset fun _ => .bind (obeys_note isRuntime_lead _) fun _ => ?_
  refine .modify (fun s _ => ⟨trivial, warnings_withEvent_le ?_⟩) fun _ => rfl
  rw [Event.warnsOf, Bool.not_true, Bool.and_false, Bool.false_and]

theorem obeys_warning_warnUnused (name other : String) : (warnUnused other).Obeys (.warning name) := by
  have hapart : ∀ rest, startsWithText ("[WARN] " ++ ("'" ++ other ++ "' is defined but not used") ++ rest)
      (warningLead name) = false := by
    intro rest
    by_contra hne
    have hstarts := Bool.not_eq_false _ ▸ hne
    simp only [warningLead, String.append_assoc] at hstarts
    rw [startsWithText_append_append] at hstarts
    exact Bool.false_ne_true ((startsWithText_eq_false (by decide) _).symm.trans (startsWithText_of_append hstarts))
  refine .bind .get fun s => .ite (obeys_noteTexts fun t line content hline _ => ⟨trivial, ?_⟩) ?_
  · refine warnings_withNote_le (Bool.eq_false_iff.mpr fun hwarns => ?_)
    exact Bool.false_ne_true ((hapart _).symm.trans (startsWith_of_warnsOf hline hwarns))
  · refine .modify (fun t _ => ⟨trivial, warnings_withEvent_le (Bool.eq_false_iff.mpr fun hwarns => ?_)⟩) fun _ => rfl
    exact Bool.false_ne_true ((hapart _).symm.trans (startsWith_of_warnLine hwarns))

theorem obeys_warning_flushNotes (name : String) (lines : List String) : (flushNotes lines).Obeys (.warning name) := by
  induction lines with
  | nil => exact .pure ()
  | cons line rest ih =>
    exact .bind (.modify (fun _ _ => ⟨trivial, warnings_withEvent_le rfl⟩) fun _ => rfl) fun _ => ih

/-! ### Issuing a warning -/

/-- Once a name is marked, one warning less of it may come. -/
theorem warnings_marked (hnew : s.warned.contains other = false) (name : String) :
    { s with warned := s.warned.insert other }.warnings name + (if name = other then 1 else 0) = s.warnings name := by
  have hinsert : Names.insert s.warned other = s.warned ++ [other] := by
    rw [Names.insert, hnew]
    rfl
  have hcontains : (s.warned ++ [other]).contains name = (s.warned.contains name || decide (name = other)) := by
    simp
  have hold : { s with warned := s.warned.insert other }.warnings name = s.warningLines name + s.warningNotes name +
      if (Names.insert s.warned other).contains name then 0 else 1 := rfl
  rw [hold, Session.warnings, hinsert, hcontains]
  by_cases hname : name = other
  · rw [hname, hnew]
    simp
  · rw [decide_eq_false hname, Bool.or_false, if_neg hname, Nat.add_zero]

theorem toNat_le_of_imp {b : Bool} {p : Prop} [Decidable p] (h : b = true → p) : b.toNat ≤ if p then 1 else 0 := by
  cases b with
  | false => exact Nat.zero_le _
  | true => rw [if_pos (h rfl)]; exact Nat.le_refl _

/-- A warning that is issued is the only one of its name. -/
theorem ends_issue {v : String} (hname : '\'' ∉ name.toList) (hother : '\'' ∉ other.toList) (traced : Bool)
    {u : Session} (hnew : u.warned.contains other = false) (hmsg : "[WARN] " ++ message = warningLead other ++ v) :
    (Contract.warning name).Ends u ((do
      if traced then note ["[WARN] ", message] else writeLine .err (colour "93" ("[WARN] " ++ message))
      markWarned other : Interp Unit).exec u) := by
  have hsame : ∀ rest, startsWithText ("[WARN] " ++ message ++ rest) (warningLead name) = true → name = other := by
    intro rest hstarts
    rw [hmsg, String.append_assoc] at hstarts
    exact eq_of_startsWith_warning hname hother hstarts
  have hmarked := fun s hs => @warnings_marked s other hs name
  intro hu
  cases traced with
  | true =>
    obtain ⟨notes, hnote, hnotes⟩ := exec_note_texts "[WARN] " message u
    have hexec : (do
        if true then note ["[WARN] ", message] else writeLine .err (colour "93" ("[WARN] " ++ message))
        markWarned other : Interp Unit).exec u =
        (.ok (), { u with notes := notes, warned := u.warned.insert other }) := by
      rw [if_pos rfl, exec_bind_ok hnote]
      rfl
    rw [hexec]
    refine ⟨hu.of_scopes_eq rfl trivial, ?_⟩
    have hafter := hmarked { u with notes := notes } hnew
    have hbefore : { u with notes := notes }.warnings name ≤ u.warnings name + if name = other then 1 else 0 := by
      rcases hnotes with rfl | ⟨line, content, hline, rfl⟩
      · exact Nat.le_add_right _ _
      · rw [warnings_withNote]
        exact Nat.add_le_add_left (toNat_le_of_imp fun hwarns => hsame _ (startsWith_of_warnsOf hline hwarns)) _
    exact Nat.le_of_add_le_add_right (hafter.le.trans hbefore)
  | false =>
    have hafter := hmarked (u.withEvent (warnLine message)) hnew
    have hbefore : (u.withEvent (warnLine message)).warnings name ≤ u.warnings name + if name = other then 1 else 0 := by
      rw [warnings_withEvent]
      exact Nat.add_le_add_left (toNat_le_of_imp fun hwarns => hsame _ (startsWith_of_warnLine hwarns)) _
    exact ⟨hu.of_scopes_eq rfl trivial, Nat.le_of_add_le_add_right (hafter.le.trans hbefore)⟩

/-- The names that have been warned of stay as they are. -/
def Contract.unmarking : Contract where
  holds _ := True
  post s _ t := t.warned = s.warned
  knows _ _ := True

instance Contract.unmarking_fair : Contract.unmarking.Fair where
  refl _ := rfl
  trans h1 h2 := h2.trans h1
  caught h := h
  raise _ _ := rfl
  aside h _ := ⟨trivial, h.warned⟩
  error s line message _ := by
    refine ⟨trivial, ?_⟩
    rw [reportAt, exec_modify]
    dsimp only
    split
    · rfl
    · rfl
  blame _ _ _ := ⟨trivial, rfl⟩
  used _ _ _ := ⟨trivial, rfl⟩
  defined _ _ _ := ⟨trivial, rfl⟩
  assigned _ _ _ := ⟨trivial, rfl⟩
  note _ _ _ _ _ _ := ⟨trivial, rfl⟩
  write _ _ _ _ _ := ⟨trivial, rfl⟩
  prompt _ _ _ := ⟨trivial, rfl⟩

theorem warned_eq {α : Type} {m : Interp α} (hm : m.Obeys .unmarking) {outcome : Except Stop α}
    (hexec : m.exec s = (outcome, t)) : t.warned = s.warned := by
  have hpost := (hm s ⟨trivial, fun _ _ _ => trivial⟩).2
  rw [hexec] at hpost
  exact hpost

theorem format_eq {message : List Piece} (h : (format message).exec s = (.ok text, t)) :
    text = String.join (message.map (·.shown t.cells)) := by
  obtain ⟨_, u, -, h⟩ := exec_bind_eq_ok h
  rw [exec_get_bind] at h
  obtain ⟨htext, ht⟩ := Prod.mk.inj h
  rw [← ht, ← Except.ok.inj htext]

theorem obeys_warning_warnUnassigned (hname : '\'' ∉ name.toList) (hother : '\'' ∉ other.toList)
    (v : Value) : (warnUnassigned other v).Obeys (.warning name) := by
  intro s
  rw [warnUnassigned, exec_get_bind]
  split
  · refine .bind (obeys_isConstant other s) fun constant t hconst => ?_
    split
    · next hcond =>
      refine .bind (obeys_format _ t) fun message u hformat => ?_
      have hnew : u.warned.contains other = false := by
        rw [warned_eq (obeys_format _) hformat, warned_eq (obeys_isConstant other) hconst]
        simp only [Bool.and_eq_true, Bool.not_eq_true'] at hcond
        exact hcond.1.2
      have hmsg : "[WARN] " ++ message = warningLead other ++ v.shown u.cells := by
        rw [format_eq hformat]
        simp only [List.map_cons, List.map_nil, String.join_cons, String.join_nil, String.append_empty, Piece.shown,
          warningLead, String.append_assoc]
      exact ends_issue hname hother s.modes.any hnew hmsg
    · exact Interp.Obeys.pure () t
  · exact Interp.Obeys.pure () s

theorem obeys_warning_visitUntil (hname : '\'' ∉ name.toList) (stops : Node → Session → Bool)
    (depth : Nat) (hn : QuoteFree n) : (visitUntil stops depth n).Obeys (.warning name) := by
  refine obeys_visitUntil (P := QuoteFree) (fun visit h n hn m hm => ?_) (fun _ => Nat.le_refl _) stops depth n hn
  have hfree : QuoteFree m := hm.takesOver (fun n hn c hc => hn.of_mem (Node.mem_kids_of_mem_inner hc)) hn
  refine ⟨fun c hc => h c (hfree.of_mem (Node.mem_kids_of_mem_inner hc)), fun _ c hc => ?_,
    fun _ => obeys_warning_writeMessage name,
    fun other hother => obeys_warning_warnUnassigned hname (hfree other (hother ▸ .refl _)),
    fun _ _ f hf => h f.body hf, fun _ _ _ target params body rest hkids _ _ => hfree.of_mem (hkids ▸ by simp)⟩
  obtain ⟨k, hk, hc⟩ := Node.exists_of_mem_argumentNodes hc
  exact h c ((hfree.of_mem hk).of_mem hc)

theorem warnings_executeWithin (hname : '\'' ∉ name.toList) (stops : Node → Session → Bool)
    {code : String} (hprog : ∀ program, parse code = .ok program → QuoteFree program)
    (hs : ∀ id, ∀ entry ∈ (s.scope id).functions, QuoteFree entry.2.body) :
    ((executeWithin (visitUntil stops depthLimit) code).exec s).2.warnings name ≤
      { s with notes := #[] }.warnings name := by
  have hrun : (runText (visitUntil stops depthLimit) code).Obeys (.warning name) := by
    refine obeys_runText (fun _ _ _ => ⟨trivial, (warnings_of_eq name rfl rfl rfl rfl).le⟩)
      (fun program hparse c hc => ?_) (obeys_warning_warnUnused name)
      fun t ht => obeys_warning_flushNotes name _ t ht
    exact obeys_warning_visitUntil hname stops depthLimit ((hprog program hparse).of_mem hc)
  rw [exec_executeWithin_eq_runText]
  exact (hrun { s with notes := #[] } ⟨trivial, hs⟩).2

end Run

/-! ### Names of accepted texts -/

namespace Grammar

variable {symbols : List Symbol}

theorem quoteFree_of_fits (h : Fits symbols [n]) : Run.QuoteFree n := by
  intro name hpart hquote
  obtain ⟨ls, next, hder⟩ := h
  obtain ⟨t, text, htoken, hspells⟩ :=
    ((hder.part_cases (List.mem_singleton_self n) hpart).resolve_left (by simp)).resolve_right (by simp)
  obtain ⟨hname, rfl⟩ := Node.token.inj htoken
  have hident : t = .ident := by
    cases t with
    | ident => rfl
    | _ => exact absurd hname (by decide)
  subst hident
  obtain ⟨c, tail, hword, -, hletter, htail, -⟩ := takeIdentifier_eq_some_iff.mp hspells
  rw [hword] at hquote
  rcases List.mem_cons.mp hquote with rfl | hquote
  · cases hletter
  · cases htail _ hquote

end Grammar

namespace Run

open Interp Text Grammar

/-! ### Lives -/

/-- The sessions of runs one after the other, with the number of warnings of each name in their
traces. -/
inductive Life : Session → (String → Nat) → Prop
  | fresh (input : Option (List Char)) : Life { Session.fresh with input := input } fun _ ↦ 0
  | setModes {s : Session} {shown : String → Nat} (h : Life s shown) (modes : Modes) (source : Array String) :
      Life (s.setModes modes source) shown
  | execute {s t : Session} {shown : String → Nat} (h : Life s shown) (stops : Node → Session → Bool) (code : String)
      (ht : ((executeWithin (visitUntil stops depthLimit) code).exec s).2 = t) :
      Life t fun name ↦ shown name + t.warningNotes name

theorem Life.arising {shown : String → Nat} (h : Life s shown) : Arising s := by
  induction h with
  | fresh input => exact .fresh input
  | setModes _ modes source ih => exact ih.setModes modes source
  | execute _ stops code ht ih => exact ht ▸ ih.execute stops code

/-- A name that has been warned of is marked, and is warned of no more. -/
theorem Life.warnings_le {shown : String → Nat} (h : Life s shown) (hname : '\'' ∉ name.toList) :
    s.warningLines name + shown name + (if s.warned.contains name then 0 else 1) ≤ 1 := by
  induction h with
  | fresh input => exact Nat.le_refl 1
  | setModes _ modes source ih => exact ih
  | @execute s t shown h stops code ht ih =>
    have hprog : ∀ program, parse code = .ok program → QuoteFree program :=
      fun program hparse => quoteFree_of_fits (of_parse hparse)
    have hbodies : ∀ id, ∀ entry ∈ (s.scope id).functions, QuoteFree entry.2.body := by
      intro id entry hentry
      by_cases hid : id < s.scopes.size
      · exact quoteFree_of_fits (h.arising.formed.bodies id hid entry hentry)
      · rw [Session.scope_eq, Array.getElem?_eq_none (Nat.le_of_not_lt hid)] at hentry
        cases hentry
    have hrun := warnings_executeWithin hname stops hprog hbodies
    rw [ht] at hrun
    have hcleared : { s with notes := #[] }.warnings name =
        s.warningLines name + 0 + if s.warned.contains name then 0 else 1 := rfl
    rw [hcleared, Session.warnings] at hrun
    have hcount : t.warningLines name + (shown name + t.warningNotes name) +
        (if t.warned.contains name then 0 else 1) ≤ 1 := by omega
    exact hcount

theorem Arising.errors_nodup (h : Arising s) : s.errors.toList.Nodup := by
  induction h with
  | fresh input => exact List.nodup_nil
  | setModes _ modes source ih => exact ih
  | execute _ stops code ih => exact (books_executeWithin stops code _).nodup ih

/-- In every session of every life the errors are all different. Every visit and every run of a
text, however it ends, keeps the errors and the faulty names as the beginning of those after it,
only adds to the names that are used, defined, assigned and warned of, and does not forget that
there was output; and each name is warned of at most once. -/
theorem bookkeeping_is_append_only {s : Session} {shown : String → Nat} (h : Life s shown) :
    s.errors.toList.Nodup ∧
      (∀ stops depth n, Books s ((visitUntil stops depth n).exec s).2) ∧
      (∀ stops code, Books s ((executeWithin (visitUntil stops depthLimit) code).exec s).2) ∧
      ∀ name, '\'' ∉ name.toList → s.warningLines name + shown name ≤ 1 := by
  refine ⟨h.arising.errors_nodup, fun stops depth n ↦ books_visitUntil stops depth n s,
    fun stops code ↦ books_executeWithin stops code s, fun name hname ↦ ?_⟩
  exact (Nat.le_add_right _ _).trans (h.warnings_le hname)

/-- A variable that has no value is read twice and warned of once. -/
theorem unassigned_variable_warned_once :
    ∃ s shown, Life s shown ∧ s.errors.toList.Nodup ∧ s.warningLines "x" + shown "x" = 1 := by
  let s := ((executeWithin (visitUntil (fun _ _ ↦ false) depthLimit) "New int x\nout.Info(x)\nout.Info(x)").exec
    Session.fresh).2
  have hfresh : Life Session.fresh fun _ ↦ 0 := .fresh (some [])
  have hs : Life s fun name ↦ 0 + s.warningNotes name := hfresh.execute (fun _ _ ↦ false) _ rfl
  obtain ⟨hnodup, -, -, hwarned⟩ := bookkeeping_is_append_only hs
  have hissued : Nat.ble 1 (s.warningLines "x") = true := by decide +kernel
  refine ⟨s, _, hs, hnodup, Nat.le_antisymm (hwarned "x" (by decide)) ?_⟩
  exact (Nat.le_of_ble_eq_true hissued).trans (Nat.le_add_right _ _)

end Run

end FapLang
