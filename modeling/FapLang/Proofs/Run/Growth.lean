import FapLang.Proofs.Run.Remarks

/-!
What steps add to the records. Some messages tell of a tree that does not have the shape of its rule
(`isStructural`); steps that find what they ask for add only others (`Interp.Mild`), and most of
them keep the frame (`Interp.Quiet`).
-/

namespace FapLang.Run

variable {s t : Session} {message : String}

/-! ### Messages -/

/-- How the messages begin that tell of a tree without the shape of its rule. -/
def structuralLeads : List String :=
  ["Unknown statement type", "Invalid function definition", "Constant definition must include an initial value",
    "Invalid Again statement", "Invalid conditions structure",
    "Mismatch between conditions and logic operators", "Unknown logical operator",
    "Unknown comparison operator", "Expected member access in output statement", "Invalid type name",
    "Input call missing prompt string", "Math function call missing function name",
    "Invalid math function call syntax", "Invalid argument in output function: empty argument"]

def isStructural (message : String) : Bool :=
  structuralLeads.any fun lead ↦ lead.toList.isPrefixOf message.toList

/-- Enough of those beginnings to tell them from all others. -/
def structuralHeads : List (List Char) :=
  [['U', 'n', 'k'], ['C', 'o', 'n', 's', 't', 'a', 'n', 't', ' ', 'd'], ['M', 'i'], ['E', 'x', 'p'],
    ['I', 'n', 'p', 'u', 't', ' ', 'c'], ['M', 'a'], ['I', 'n', 'v', 'a', 'l', 'i', 'd', ' ', 'f'],
    ['I', 'n', 'v', 'a', 'l', 'i', 'd', ' ', 'A'],
    ['I', 'n', 'v', 'a', 'l', 'i', 'd', ' ', 'c'], ['I', 'n', 'v', 'a', 'l', 'i', 'd', ' ', 't'],
    ['I', 'n', 'v', 'a', 'l', 'i', 'd', ' ', 'm', 'a'],
    ['I', 'n', 'v', 'a', 'l', 'i', 'd', ' ', 'a', 'r', 'g', 'u', 'm', 'e', 'n', 't', ' ', 'i']]

theorem exists_structuralHead {lead : String} (h : lead ∈ structuralLeads) :
    ∃ head ∈ structuralHeads, head <+: lead.toList := by
  have hall : (structuralLeads.all fun lead => structuralHeads.any (·.isPrefixOf lead.toList)) = true := by
    decide +kernel
  obtain ⟨head, hhead, hpre⟩ := List.any_eq_true.mp (List.all_eq_true.mp hall lead h)
  exact ⟨head, hhead, List.isPrefixOf_iff_prefix.mp hpre⟩

/-- Whether a text and a structural message differ before one of them ends. -/
def isApart (lead : String) : Bool :=
  structuralHeads.all fun head ↦ !head.isPrefixOf lead.toList && !lead.toList.isPrefixOf head

/-- A message that begins in a way of its own. -/
def Ordinary (message : String) : Prop :=
  ∃ lead rest, message = lead ++ rest ∧ isApart lead = true

namespace Ordinary

variable {message : String}

variable {cs : List Char}

/-- Stated for a list of characters, so that no text has to be taken apart when it is applied. -/
theorem lead (h : (structuralHeads.all fun head ↦ !head.isPrefixOf cs && !cs.isPrefixOf head) = true) :
    Ordinary (String.ofList cs) := by
  refine ⟨String.ofList cs, "", String.append_empty.symm, ?_⟩
  simpa only [isApart, String.toList_ofList] using h

theorem append (h : Ordinary message) (more : String) : Ordinary (message ++ more) := by
  obtain ⟨lead, rest, rfl, hlead⟩ := h
  exact ⟨lead, rest ++ more, String.append_assoc, hlead⟩

theorem around (h : (structuralHeads.all fun head ↦ !head.isPrefixOf cs && !cs.isPrefixOf head) = true)
    {name rest : String} : Ordinary (String.ofList cs ++ name ++ rest) :=
  .append (.append (.lead h) name) rest

theorem isStructural_eq_false (h : Ordinary message) : isStructural message = false := by
  obtain ⟨lead, rest, rfl, hlead⟩ := h
  rw [isStructural, List.any_eq_false]
  intro other hother hpre
  obtain ⟨head, hhead, hother⟩ := exists_structuralHead hother
  have hapart := List.all_eq_true.mp hlead head hhead
  rw [Bool.and_eq_true, Bool.not_eq_true', Bool.not_eq_true'] at hapart
  rw [List.isPrefixOf_iff_prefix, String.toList_append] at hpre
  rcases List.prefix_or_prefix_of_prefix (hother.trans hpre)
    (List.prefix_append lead.toList rest.toList) with hsame | hsame
  · exact absurd (List.isPrefixOf_iff_prefix.mpr hsame) (ne_true_of_eq_false hapart.1)
  · exact absurd (List.isPrefixOf_iff_prefix.mpr hsame) (ne_true_of_eq_false hapart.2)

end Ordinary

theorem ordinary_quoted (text : String) : Ordinary (Text.quoted text) := by
  have hmark : Text.quoteMark text.toList = '"' ∨ Text.quoteMark text.toList = '\'' := by
    unfold Text.quoteMark
    split
    · exact .inl rfl
    · exact .inr rfl
  have hquoted : Text.quoted text = String.ofList [Text.quoteMark text.toList] ++
      String.ofList (text.toList.flatMap (Text.escapeChar (Text.quoteMark text.toList)) ++
        [Text.quoteMark text.toList]) := by
    rw [← String.ofList_append]
    rfl
  rw [hquoted]
  rcases hmark with hmark | hmark
  · rw [hmark]
    exact .append (.lead (by decide)) _
  · rw [hmark]
    exact .append (.lead (by decide)) _

/-- The text of a fault tells of no shape. -/
theorem ordinary_message (f : Fault) : Ordinary f.message := by
  cases f with
  | keyMissing key => exact ordinary_quoted key
  | childMissing | repeatTooLarge | textIndex | listIndex | intTooLarge | quotientTooLarge | infiniteToInt
  | notANumberToInt | zeroToNegativePower | powerOutOfRange | complexPower | invalidStatement =>
    exact .lead (by decide)
  | zeroDivisor arithmetic => cases arithmetic <;> exact .lead (by decide)
  | tooManyDigits => exact .append (.lead (by decide)) _
  | intText | floatText | unbound | constant => exact .append (.lead (by decide)) _
  | joinList | repeatCount | notContainer | notIndexable | notHashable | notIntegral | notReal | textNotInt
  | floatNotInt | textNotFloat => exact .around (by decide)
  | numeralTooLong => exact .append (.around (by decide)) _
  | noMember => exact .append (.append (.around (by decide)) _) _
  | operands | unordered =>
    exact .append (.append (.append (.append (.around (by decide)) _) _) _) _

/-! ### Steps that add to the records -/

/-- The text of an error that tells of no shape. -/
def IsRecord (text : String) : Prop :=
  ∃ modes content line message, text = errorText modes content line message ∧ Ordinary message

/-- Errors that tell of no shape, faulty names and assigned names are added. -/
structure Growth (s t : Session) : Prop where
  errors : ∃ more, t.errors.toList = s.errors.toList ++ more ∧ ∀ text ∈ more, IsRecord text
  faulty : s.faulty.toList <+: t.faulty.toList
  assigned : ∀ name ∈ s.assigned, name ∈ t.assigned

namespace Growth

theorem of_eq (herrs : t.errors = s.errors) (hfaulty : t.faulty = s.faulty)
    (hassigned : t.assigned = s.assigned) : Growth s t :=
  ⟨⟨[], by rw [herrs, List.append_nil], by simp⟩, by rw [hfaulty], fun _ h ↦ hassigned ▸ h⟩

theorem refl (s : Session) : Growth s s :=
  of_eq rfl rfl rfl

theorem trans {u : Session} (h1 : Growth s t) (h2 : Growth t u) : Growth s u := by
  obtain ⟨more, hmore, hrecords⟩ := h1.errors
  obtain ⟨others, hothers, hrecords'⟩ := h2.errors
  refine ⟨⟨more ++ others, by rw [hothers, hmore, List.append_assoc], fun text htext ↦ ?_⟩,
    h1.faulty.trans h2.faulty, fun name hname ↦ h2.assigned name (h1.assigned name hname)⟩
  exact (List.mem_append.mp htext).elim (hrecords text) (hrecords' text)

theorem mem_errors (h : Growth s t) {text : String} (htext : text ∈ s.errors) : text ∈ t.errors := by
  obtain ⟨more, hmore, -⟩ := h.errors
  rw [Array.mem_def, hmore]
  exact List.mem_append_left _ (Array.mem_def.mp htext)

theorem forall_errors (h : Growth s t) (hs : ∀ text ∈ s.errors, IsRecord text) : ∀ text ∈ t.errors, IsRecord text := by
  obtain ⟨more, hmore, hrecords⟩ := h.errors
  intro text htext
  rw [Array.mem_def, hmore] at htext
  exact (List.mem_append.mp htext).elim (fun hold => hs text (Array.mem_def.mpr hold)) (hrecords text)

end Growth

theorem Remarks.growth (h : Remarks s t) : Growth s t := by
  obtain ⟨_, _, rfl⟩ := h
  exact .of_eq rfl rfl rfl

namespace Interp

variable {α β : Type} {e : Except Fault α} {m : Interp α} {k : α → Interp β}

/-- The step adds ordinary records, and stops for no missing part and no zero divisor. -/
def Mild (m : Interp α) : Prop :=
  m.Passes fun s stop t => Growth s t ∧ Slight stop

instance : Passage.Chains fun s stop t => Growth s t ∧ Slight stop where
  refl s := ⟨.refl s, slight_none⟩
  trans h₁ h₂ := ⟨h₁.1.trans h₂.1, h₂.2⟩

namespace Mild

protected theorem fail {f : Fault} (hf : f.isGrave = false) : (Interp.fail f : Interp α).Mild :=
  fun s => ⟨.refl s, fun _ h => ⟨f, (Option.some.inj h).symm, hf⟩⟩

protected theorem ofExcept (he : Harmless e) : (Interp.ofExcept e).Mild := by
  cases e with
  | ok a => exact .pure a
  | error f => exact .fail (he f rfl)

protected theorem modify {g : Session → Session} (hg : ∀ s, Growth s (g s)) : (modify g : Interp Unit).Mild :=
  fun s => ⟨hg s, slight_none⟩

protected theorem modifyGet {g : Session → α × Session} (hg : ∀ s, Growth s (g s).2) : (modifyGet g : Interp α).Mild :=
  fun s => ⟨hg s, slight_none⟩

end Mild

/-- The step keeps the frame, adds ordinary records and stops for no missing part and no zero
divisor. -/
def Quiet (m : Interp α) : Prop :=
  m.Passes fun s stop t => SameFrame s t ∧ Growth s t ∧ Slight stop

instance : Passage.Chains fun s stop t => SameFrame s t ∧ Growth s t ∧ Slight stop where
  refl s := ⟨.refl s, .refl s, slight_none⟩
  trans h₁ h₂ := ⟨h₁.1.trans h₂.1, h₁.2.1.trans h₂.2.1, h₂.2.2⟩

namespace Quiet

theorem stays (hm : m.Quiet) : m.Stays :=
  fun s => (hm s).1

theorem mild (hm : m.Quiet) : m.Mild :=
  fun s => (hm s).2

theorem of_mild (hstays : m.Stays) (hmild : m.Mild) : m.Quiet :=
  fun s => ⟨hstays s, hmild s⟩

protected theorem ofExcept (he : Harmless e) : (Interp.ofExcept e).Quiet :=
  .of_mild (.ofExcept e) (.ofExcept he)

protected theorem fail {f : Fault} (hf : f.isGrave = false) : (Interp.fail f : Interp α).Quiet :=
  .of_mild (.fail f) (.fail hf)

protected theorem modify {g : Session → Session} (hg : ∀ s, (g s).frame = s.frame)
    (hassigned : ∀ s, (g s).assigned = s.assigned) : (modify g : Interp Unit).Quiet :=
  .of_mild (.modify hg) (.modify fun s ↦
    .of_eq (congrArg (·.2.2.2.2.2.1) (hg s)) (congrArg (·.2.2.2.2.2.2) (hg s)) (hassigned s))

protected theorem recover {handler : Fault → Interp α} (hm : m.Quiet)
    (hhandler : ∀ f, f.isGrave = false → (handler f).Quiet) : (Interp.recover m handler).Quiet := by
  refine Passes.recover hm fun s f t ⟨hframe, hgrowth, hslight⟩ => ⟨⟨hframe, hgrowth, slight_none⟩, ?_⟩
  obtain ⟨_, ⟨⟩, hf⟩ := hslight _ rfl
  exact hhandler f hf

theorem of_murmurs (hm : m.Murmurs) : m.Quiet :=
  fun s => ⟨(hm s).1.sameFrame, (hm s).1.growth, (hm s).2⟩

theorem of_tells (h : ∀ s, ∃ a, m.Tells s a) : m.Quiet :=
  .of_murmurs (.of_tells h)

end Quiet

end Interp

open Interp

section Records

variable {α : Type}

theorem quiet_writeLine (channel : Channel) (text : String) : (writeLine channel text).Quiet :=
  .of_murmurs (murmurs_writeLine channel text)

theorem quiet_format (message : List Piece) : (format message).Quiet :=
  .of_murmurs (murmurs_format message)

variable (name : String) (v : Value)

theorem quiet_strOf : (strOf v).Quiet :=
  quiet_format _

theorem quiet_note (message : List Piece) : (note message).Quiet :=
  .of_murmurs (murmurs_note message)

theorem quiet_noteStep (step : String) : (noteStep step).Quiet :=
  .of_tells fun s => ⟨(), tells_noteStep step s⟩

theorem quiet_noteResult (label : List Piece) (v : Value) : (noteResult label v).Quiet :=
  .bind .get fun _ => .ite (quiet_note _) (.pure ())

theorem mild_reportAt (line : Int) (h : Ordinary message) : (reportAt line message).Mild := by
  refine .modify fun s => ?_
  dsimp only
  split
  · exact .refl s
  · refine ⟨⟨[_], Array.toList_push, fun text htext ↦ ?_⟩, List.prefix_refl _, fun _ h ↦ h⟩
    exact ⟨_, _, _, _, List.mem_singleton.mp htext, h⟩

theorem quiet_reportAt (line : Int) (h : Ordinary message) : (reportAt line message).Quiet :=
  .of_mild (stays_reportAt line message) (mild_reportAt line h)

theorem quiet_report (h : Ordinary message) : (report message).Quiet :=
  quiet_reportAt 0 h

theorem mild_blame : (blame name).Mild :=
  .modify fun s ↦ ⟨⟨[], (List.append_nil _).symm, by simp⟩,
    by rw [Array.toList_push]; exact List.prefix_append _ _, fun _ h ↦ h⟩

theorem quiet_report_blame (h : Ordinary message) (a : α) :
    (do report message; blame name; pure a : Interp α).Quiet :=
  .of_mild (records_report_blame message name a).stays
    (.bind (quiet_report h).mild fun _ => .bind (mild_blame name) fun _ => .pure a)

theorem quiet_markUsed : (markUsed name).Quiet :=
  .modify (fun _ ↦ rfl) fun _ ↦ rfl

theorem quiet_markDefined : (markDefined name).Quiet :=
  .modify (fun _ ↦ rfl) fun _ ↦ rfl

theorem quiet_markAssigned : (markAssigned name).Quiet :=
  .of_mild (stays_markAssigned name) (.modify fun _ ↦
    ⟨⟨[], (List.append_nil _).symm, by simp⟩, List.prefix_refl _,
      fun _ h ↦ Names.subset_insert _ name h⟩)

theorem quiet_newList (items : Array Value) : (newList items).Quiet :=
  .of_mild (stays_newList items) (.modifyGet fun _ ↦ .of_eq rfl rfl rfl)

theorem quiet_setItems (cell : Nat) (f : Array Value → Array Value) : (setItems cell f).Quiet :=
  .modify (fun _ ↦ rfl) fun _ ↦ rfl

/-- What is made of a message that begins with a fixed text begins with it too. -/
theorem ordinary_of_format {lead : String} (hlead : Ordinary lead) {rest : List Piece}
    {text : String} (h : (format (.lit lead :: rest)).exec s = (.ok text, t)) : Ordinary text := by
  obtain ⟨_, u, _, h⟩ := exec_bind_eq_ok h
  rw [exec_get_bind, exec_pure] at h
  cases h
  rw [List.map_cons, String.join_cons]
  exact .append hlead _

theorem quiet_reportPieces {lead : String} (hlead : Ordinary lead) (rest : List Piece) :
    (reportPieces (.lit lead :: rest)).Quiet :=
  (quiet_format _).bind_ok fun _ _ _ hexec => quiet_report (ordinary_of_format hlead hexec)

theorem quiet_isFaulty : (isFaulty name).Quiet :=
  .bind .get fun _ => .pure _

theorem quiet_itemsOf (cell : Nat) : (itemsOf cell).Quiet :=
  .bind .get fun _ => .pure _

/-! ### Questions to scopes -/

theorem quiet_announce (id : Nat) (step : String) (args : List Piece) : (announce id step args).Quiet :=
  .of_murmurs (murmurs_announce id step args)

theorem quiet_announceOutcome (id : Nat) (message : List Piece) : (announceOutcome id message).Quiet :=
  .of_murmurs (murmurs_announceOutcome id message)

theorem quiet_isDefined : (isDefined name).Quiet :=
  .of_tells fun s => ⟨_, tells_isDefined name s⟩

theorem quiet_isConstant : (isConstant name).Quiet :=
  .of_tells fun s => ⟨_, tells_isConstant name s⟩

theorem quiet_isFunction : (isFunction name).Quiet :=
  .of_tells fun s => ⟨_, tells_isFunction name s⟩

theorem quiet_function? : (function? name).Quiet :=
  .of_tells fun s => ⟨_, tells_function? name s⟩

theorem quiet_valueOf : (valueOf name).Quiet :=
  .of_murmurs (murmurs_valueOf name)

theorem quiet_warnUnassigned (v : Value) : (warnUnassigned name v).Quiet := by
  refine .bind .get fun s => .ite ?_ (.pure ())
  refine .bind (quiet_isConstant name) fun _ => .ite ?_ (.pure ())
  have hmark : (markWarned name).Quiet := .modify (fun _ ↦ rfl) fun _ ↦ rfl
  refine .bind (quiet_format _) fun _ => .ite ?_ ?_
  · exact .bind (quiet_note _) fun _ => hmark
  · exact .bind (quiet_writeLine _ _) fun _ => hmark

theorem quiet_writeMessage (severity : Severity) (message : String) : (writeMessage severity message).Quiet := by
  refine .bind (Quiet.modify (fun _ ↦ rfl) fun _ ↦ rfl) fun _ => ?_
  exact .bind (quiet_note _) fun _ => Quiet.modify (fun _ ↦ rfl) fun _ ↦ rfl

/-! ### Casts and names -/

theorem mild_blameUnlessEmpty : (blameUnlessEmpty name).Mild :=
  .ite (.pure ()) (mild_blame name)

theorem mild_castResult (type name : String) {e : Except Fault Value} (he : Harmless e) :
    (castResult v type name e).Mild := by
  have hfail : ∀ f, (castFailure v type name f).Mild := fun f =>
    .bind (quiet_reportPieces (.lead (by decide)) _).mild fun _ => .bind (mild_blameUnlessEmpty name) fun _ => .pure _
  cases e with
  | ok w => exact .pure w
  | error f =>
    rw [castResult]
    split
    · exact hfail f
    · exact hfail f
    · exact .fail (he f rfl)

theorem mild_castTo (type name : String) : (castTo v type name).Mild := by
  refine .bind .get fun s => ?_
  dsimp only
  split
  · exact mild_castResult v _ name v.harmless_castInt
  · exact mild_castResult v _ name v.harmless_castFloat
  · exact mild_castResult v _ name (.map (v.harmless_str s.cells) _)
  · refine .bind (quiet_report ?_).mild fun _ => .bind (mild_blameUnlessEmpty name) fun _ => .pure _
    exact .append (.around (by decide)) _

theorem quiet_cast (type name : String) : (cast v type name).Quiet :=
  .of_mild (stays_cast v type name) (.bind (quiet_noteStep _).mild fun _ => .bind (quiet_isFaulty name).mild fun _ =>
    .ite (.pure _) (mild_castTo v type name))

theorem quiet_nameOfValue : (nameOfValue v).Quiet := by
  rw [nameOfValue.eq_def]
  split
  · exact .pure _
  · exact .fail rfl
  · exact .fail rfl
  · exact .fail rfl
  · exact quiet_strOf v

end Records

end FapLang.Run
