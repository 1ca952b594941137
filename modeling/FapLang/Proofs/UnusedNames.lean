import FapLang.Proofs.Bookkeeping
import FapLang.Proofs.Failures

/-!
Names that are pointed out as unused. A node that reads a name marks it before it does anything else
(`uses_visitNode`), and marks stay, so a name that is read is never pointed out
(`read_names_not_pointed_out`). An element access marks nothing but what its index marks.
-/

namespace FapLang

namespace Node

/-- Whether a node of one of the rules is headed by the name. -/
def calls (rules : List String) (name : String) : Node → Bool
  | tree rule (token _ text :: _) => rules.contains rule && text == name
  | _ => false

/-- The step of a node begins with reading the name: as an identifier, or by a call that is no
factor. -/
def reads (name : String) : Node → Bool
  | token kind text => kind == "IDENT" && text == name
  | tree "factor" [c] => calls ["func_call", "math_func_call"] name c
  | n => calls ["func_call", "func_call_stmt", "math_func_call"] name n

theorem eq_of_calls {rules : List String} {name : String} {n : Node} (h : n.calls rules name = true) :
    ∃ rule ∈ rules, ∃ kind rest, n = tree rule (token kind name :: rest) := by
  unfold calls at h
  split at h
  · next rule kind text rest =>
    rw [Bool.and_eq_true, beq_iff_eq] at h
    exact ⟨rule, List.contains_iff_mem.mp h.1, kind, rest, by rw [h.2]⟩
  · cases h

theorem cases_of_reads {name : String} {n : Node} (h : n.reads name = true) : n = token "IDENT" name ∨
    (∃ rule ∈ ["func_call", "math_func_call"], ∃ kind rest, n = tree "factor" [tree rule (token kind name :: rest)]) ∨
    ∃ rule ∈ ["func_call", "func_call_stmt", "math_func_call"], ∃ kind rest,
      n = tree rule (token kind name :: rest) := by
  unfold reads at h
  split at h
  · rw [Bool.and_eq_true, beq_iff_eq, beq_iff_eq] at h
    exact .inl (by rw [h.1, h.2])
  · obtain ⟨rule, hrule, kind, rest, rfl⟩ := eq_of_calls h
    exact .inr (.inl ⟨rule, hrule, kind, rest, rfl⟩)
  · exact .inr (.inr (eq_of_calls h))

end Node

namespace Run

open Interp Grammar

variable {α β : Type} {name : String} {m m' : Interp α} {names : List String} {handler : Fault → Interp α}
  {k k' : α → Interp β}

/-! ### Marks -/

/-- However the step ends, the name is marked as used then. -/
def Interp.Uses (name : String) (m : Interp α) : Prop :=
  ∀ s, name ∈ (m.exec s).2.used

theorem Interp.Obeys.books (h : m.Obeys .booking) (s : Session) : Books s (m.exec s).2 :=
  (h s ⟨trivial, fun _ _ _ => trivial⟩).2

namespace Interp.Uses

theorem of_markUsed {k : Unit → Interp β} (hk : ∀ a, (k a).Obeys .booking) : (markUsed name >>= k).Uses name := by
  intro s
  rw [markUsed, exec_bind_ok (exec_modify _ s)]
  exact ((hk ()).books _).used (Names.mem_insert.mpr (.inr rfl))

protected theorem bind (hm : m.Uses name) (hk : ∀ a, (k a).Obeys .booking) : (m >>= k).Uses name := by
  intro s
  have hused := hm s
  rw [exec_bind]
  rcases hexec : m.exec s with ⟨stop | a, t⟩ <;> rw [hexec] at hused
  · exact hused
  · exact ((hk a).books t).used hused

protected theorem recover (hm : m.Uses name)
    (hhandler : ∀ f, (handler f).Obeys .booking) : (recover m handler).Uses name := by
  intro s
  have hused := hm s
  rw [exec_recover]
  rcases hexec : m.exec s with ⟨(f | _) | a, t⟩ <;> rw [hexec] at hused
  · exact ((hhandler f).books t).used hused
  · exact hused
  · exact hused

/-- Steps before that have a result do not matter. -/
theorem after {a : α} (hm : ∀ s, ∃ t, m.exec s = (.ok a, t)) (hk : (k a).Uses name) : (m >>= k).Uses name := by
  intro s
  obtain ⟨t, hexec⟩ := hm s
  rw [exec_bind_ok hexec]
  exact hk t

theorem after_noteStep {k : Unit → Interp β} (step : String) (hk : (k ()).Uses name) :
    (noteStep step >>= k).Uses name :=
  after (fun _ => ⟨_, rfl⟩) hk

theorem after_note {k : Unit → Interp β} (texts : List String) (hk : (k ()).Uses name) :
    (note (texts.map .lit) >>= k).Uses name :=
  after (fun s => (exec_note_lits texts s).elim fun _ h => ⟨_, h⟩) hk

end Interp.Uses

section Steps

theorem uses_visitIdent (kind : String) : (visitIdent (.token kind name)).Uses name := by
  have hC := Contract.booking_open
  refine .after_noteStep _ (.after (fun s => ⟨s, rfl⟩) (.of_markUsed fun _ => ?_))
  refine .bind (obeys_note isRuntime_lead _) fun _ => .bind (Contract.booking_open.toFair.lawful.isDefined name).1 fun _ => .ite ?_ ?_
  · exact .bind (Contract.booking_open.toFair.lawful.valueOf name).1 fun v => .bind (hC.warnUnassigned name v) fun _ => .pure v
  · exact (Contract.booking_open.toFair.lawful.lament _ name).1

variable {visit : Visit} (hvisit : ∀ n, (visit n).Obeys .booking)

include hvisit

theorem visits_booking (ns : List Node) : Contract.booking.bond.Visits visit visit ns :=
  fun n _ => ⟨hvisit n, .any⟩

theorem obeys_booking_visitFuncCall (n : Node) : (visitFuncCall visit n).Obeys .booking :=
  (Contract.booking_open.toFair.calling.visitFuncCall (visits_booking hvisit _) (visits_booking hvisit _)
    fun _ _ _ _ f _ => ⟨hvisit f.body, .any⟩).1

theorem uses_visitFuncCall (rule kind : String) (rest : List Node) :
    (visitFuncCall visit (.tree rule (.token kind name :: rest))).Uses name := by
  refine .after_noteStep _ (.after (fun s => ⟨s, rfl⟩) (.after (fun s => ⟨s, rfl⟩) (.after (fun s => ⟨s, rfl⟩) ?_)))
  refine .of_markUsed fun _ => .bind (Contract.booking_open.toFair.lawful.isFaulty name).1 fun _ => .ite (.pure _) ?_
  refine .bind (Contract.booking_open.toFair.lawful.isFunction name).1 fun _ => .ite (.bind (Contract.booking_open.toFair.lawful.function? name).1 fun f? => ?_) ?_
  · cases f? with
    | none => exact .bind (obeys_report _) fun _ => .pure _
    | some f => exact (Contract.booking_open.toFair.calling.callFunction (visits_booking hvisit _) ⟨hvisit f.body, .any⟩ name).1
  · exact .bind (obeys_report _) fun _ => .bind (obeys_blame name) fun _ => .pure _

theorem uses_visitMathCall (rule kind : String) (rest : List Node) :
    (visitMathCall visit (.tree rule (.token kind name :: rest))).Uses name := by
  have hB := Contract.booking_open.toFair.lawful
  have hvisits := visits_booking hvisit (.token kind name :: rest)
  refine .after_noteStep _ (.after (fun s => ⟨s, rfl⟩) (.after_note [_, _, _] (.after_note [_, _] ?_)))
  refine .of_markUsed fun _ => ?_
  split
  · exact (hB.visitPower hvisits).1
  · exact (hB.visitRoot hvisits).1
  · exact (hB.visitSquareRoot hvisits).1
  · exact (hB.visitCubeRoot hvisits).1
  · exact obeys_booking_visitFuncCall hvisit _

/-- The step of a node that reads a name marks it. -/
theorem uses_visitNode {n : Node} (h : n.reads name = true) : (visitNode visit n).Uses name := by
  have hshown : ∀ (rest : List Piece) (v : Value),
      (do noteResult (.lit "[RUNTIME] Visited " :: rest) v; return v : Interp Value).Obeys .booking :=
    fun rest v => .bind (Contract.booking_open.toFair.plain.noteResult isRuntime_lead rest v).1 fun _ => .pure v
  rcases Node.cases_of_reads h with rfl | ⟨rule, hrule, kind, rest, rfl⟩ | ⟨rule, hrule, kind, rest, rfl⟩
  · refine .after (fun s => ⟨s, rfl⟩) (.after (fun s => ⟨s, rfl⟩) (.after_noteStep _ ?_))
    exact (uses_visitIdent "IDENT").bind fun v => .bind (Contract.booking_open.toFair.plain.noteResult isRuntime_lead _ v).1 fun _ => .pure v
  · refine .after_noteStep _ (.bind (.after_noteStep _ (.after (fun s => ⟨s, rfl⟩) ?_)) fun v => hshown _ v)
    simp only [List.mem_cons, List.not_mem_nil, or_false] at hrule
    rcases hrule with rfl | rfl
    · exact uses_visitFuncCall hvisit "func_call" kind rest
    · exact uses_visitMathCall hvisit "math_func_call" kind rest
  · simp only [List.mem_cons, List.not_mem_nil, or_false] at hrule
    refine .after_noteStep _ (.bind ?_ fun v => hshown _ v)
    rcases hrule with rfl | rfl | rfl
    · exact uses_visitFuncCall hvisit "func_call" kind rest
    · exact .after_noteStep _ (.bind (uses_visitFuncCall hvisit "func_call_stmt" kind rest) fun _ => .pure _)
    · exact uses_visitMathCall hvisit "math_func_call" kind rest

end Steps

/-! ### Runs that stop where a name is read -/

/-- The second step ends as the first, unless that is cut off or ends with the name marked. -/
def Tracks (name : String) (m m' : Interp α) : Prop :=
  ∀ s, m'.exec s = m.exec s ∨ (m.exec s).1 = .error .exhausted ∨ name ∈ (m.exec s).2.used

namespace Tracks

protected theorem refl (m : Interp α) : Tracks name m m :=
  fun _ => .inl rfl

protected theorem bind {ok : α → Prop} (h : Tracks name m m')
    (hm : ∀ s a t, m.exec s = (.ok a, t) → ok a) (hk : ∀ a, ok a → (k a).Obeys .booking ∧ Tracks name (k a) (k' a)) :
    Tracks name (m >>= k) (m' >>= k') := by
  intro s
  have hend := h s
  rw [exec_bind, exec_bind]
  cases hexec : m.exec s with
  | mk outcome t =>
    rw [hexec] at hend
    rcases hend with heq | hcut | hused
    · rw [heq]
      cases outcome with
      | ok a => exact (hk a (hm s a t hexec)).2 t
      | error stop => exact .inl rfl
    · obtain rfl : outcome = .error .exhausted := hcut
      exact .inr (.inl rfl)
    · cases outcome with
      | ok a => exact .inr (.inr (((hk a (hm s a t hexec)).1.books t).used hused))
      | error stop => exact .inr (.inr hused)

theorem next (h : Tracks name m m')
    (hk : ∀ a, (k a).Obeys .booking ∧ Tracks name (k a) (k' a)) : Tracks name (m >>= k) (m' >>= k') :=
  h.bind (fun _ _ _ _ => trivial) fun a (_ : True) => hk a

protected theorem recover (h : Tracks name m m')
    (hhandler : ∀ f, (handler f).Obeys .booking) : Tracks name (recover m handler) (recover m' handler) := by
  intro s
  have hend := h s
  rw [exec_recover, exec_recover]
  cases hexec : m.exec s with
  | mk outcome t =>
    rw [hexec] at hend
    rcases hend with heq | hcut | hused
    · exact .inl (by rw [heq])
    · obtain rfl : outcome = .error .exhausted := hcut
      exact .inr (.inl rfl)
    · rcases outcome with (f | _) | a
      · exact .inr (.inr (((hhandler f).books t).used hused))
      · exact .inr (.inr hused)
      · exact .inr (.inr hused)

end Tracks

theorem inherited_tracks : InheritedUnder .booking fun _ m m' => Tracks name m m' where
  toOpen := Contract.booking_open
  pre _ := ⟨trivial, fun _ _ _ => trivial⟩
  knows _ _ := trivial
  related _ := .refl _
  bind := .bind
  tidy hrest h := h.recover fun f =>
    .bind hrest fun _ => .fail f

theorem obeys_booking_visit (depth : Nat) (n : Node) : (visit depth n).Obeys .booking :=
  visitUntil_never depth ▸ obeys_booking_visitUntil _ depth n

/-- The visits of a run and those that stop where the name is read. -/
theorem tracks_visitUntil (depth : Nat) (n : Node) :
    Tracks name (visit depth n) (visitUntil (fun n _ => n.reads name) depth n) := by
  induction depth generalizing n with
  | zero => exact .refl _
  | succ depth ih =>
    have hhidden : ∀ f, (Interp.fail (hideInternal f) : Interp Value).Obeys .booking := fun f => .fail _
    intro s
    rw [exec_visitUntil_succ]
    by_cases hreads : n.reads name = true
    · exact .inr (.inr (Uses.recover (uses_visitNode (obeys_booking_visit depth) hreads) hhidden s))
    · rw [if_neg hreads]
      exact (inherited_tracks.visitNode (fun m => ⟨obeys_booking_visit depth m, ih m⟩) n).2.recover hhidden s

theorem tracks_runProgram (depth : Nat) (ns : List Node) (i : Nat) :
    Tracks name (runProgram (visit depth) i ns) (runProgram (visitUntil (fun n _ => n.reads name) depth) i ns) := by
  have hplaces : Contract.booking.Places := fun s _ _ => ⟨trivial, { Books.refl s with }⟩
  have htop : ∀ i n, Tracks name (runTop (visit depth) i n)
      (runTop (visitUntil (fun n _ => n.reads name) depth) i n) := by
    intro i n s
    obtain ⟨_, t, hbegin⟩ := succeeds_beginTop i s
    rw [exec_runTop _ hbegin, exec_runTop _ hbegin]
    refine Tracks.recover (.next (tracks_visitUntil depth n) fun _ => ⟨.pure (), .refl _⟩) ?_ t
    exact obeys_statementFault i
  induction ns generalizing i with
  | nil => exact .refl _
  | cons n rest ih =>
    refine .next (htop i n) fun _ => ⟨?_, ih (i + 1)⟩
    exact obeys_runProgram hplaces (fun c _ => obeys_booking_visit depth c) (i + 1)

/-! ### Warnings -/

/-- The names of which a warning is given at the end of a run. -/
def Session.unusedNames (s : Session) : List String :=
  (sortNames (s.defined.filter fun other => !s.used.contains other)).filter fun other => !s.faulty.contains other

/-- The warning of a name, as it is written without a trace. -/
def unusedWarning (name : String) : Event :=
  { channel := .err, text := colour "93" ("[WARN] " ++ ("'" ++ name ++ "' is defined but not used")) ++ "\n" }

theorem mem_insertName {other : String} : name ∈ insertName other names ↔ name = other ∨ name ∈ names := by
  induction names with
  | nil => rw [insertName, List.mem_singleton, List.mem_nil_iff, or_false]
  | cons first rest ih =>
    rw [insertName]
    split
    · exact List.mem_cons
    · rw [List.mem_cons, ih, List.mem_cons, or_left_comm]

theorem mem_sortNames : name ∈ sortNames names ↔ name ∈ names := by
  induction names with
  | nil => exact Iff.rfl
  | cons first rest ih => rw [sortNames, List.foldr_cons, mem_insertName, ← sortNames, ih, List.mem_cons]

theorem Session.mem_unusedNames {s : Session} :
    name ∈ s.unusedNames ↔ name ∈ s.defined ∧ name ∉ s.used ∧ name ∉ s.faulty := by
  rw [unusedNames, List.mem_filter, mem_sortNames, List.mem_filter, and_assoc]
  simp

/-- Only the trace and what is written differ after the warning. -/
theorem exec_warnUnused (name : String) (s : Session) : ∃ t, (warnUnused name).exec s = (.ok (), t) ∧ Remarks s t ∧
      (s.modes.any = false → t = s.withEvent (unusedWarning name)) := by
  rw [warnUnused, exec_get_bind]
  by_cases hany : s.modes.any = true
  · rw [if_pos hany]
    obtain ⟨notes, hnote, -⟩ := exec_note_texts "[WARN] " ("'" ++ name ++ "' is defined but not used") s
    exact ⟨_, hnote, ⟨notes, s.events, rfl⟩, by simp [hany]⟩
  · rw [if_neg hany]
    exact ⟨_, rfl, ⟨s.notes, _, rfl⟩, fun _ => rfl⟩

/-- One warning is given of each name that is not faulty. -/
theorem exec_warnAllUnused (names : List String) (s : Session) : ∃ t, (warnAllUnused names).exec s = (.ok (), t) ∧
      ((names.filter fun other => !s.faulty.contains other).forM warnUnused).exec s = (.ok (), t) ∧
      (s.modes.any = false → t.events =
        s.events ++ ((names.filter fun other => !s.faulty.contains other).map unusedWarning).toArray) := by
  induction names generalizing s with
  | nil => exact ⟨s, rfl, rfl, fun _ => (Array.append_empty).symm⟩
  | cons first rest ih =>
    rw [warnAllUnused, exec_bind_ok (exec_isFaulty first s)]
    by_cases hfaulty : s.faulty.contains first = true
    · rw [if_pos hfaulty, List.filter_cons_of_neg (by rw [hfaulty]; exact Bool.false_ne_true)]
      exact ih s
    · rw [if_neg hfaulty, List.filter_cons_of_pos (by rw [Bool.not_eq_true] at hfaulty; rw [hfaulty]; rfl)]
      obtain ⟨t, hwarn, ⟨notes, events, rfl⟩, hevents⟩ := exec_warnUnused first s
      obtain ⟨u, hrest, hall, hwritten⟩ := ih { s with notes := notes, events := events }
      refine ⟨u, by rw [exec_bind_ok hwarn, hrest], (exec_bind_ok hwarn).trans hall, fun hany => ?_⟩
      rw [hwritten hany, congrArg Session.events (hevents hany), List.map_cons, List.toArray_cons, ← Array.append_assoc]
      rfl

/-- At the end of a run one warning is given of each name that is left unused. -/
theorem exec_checkUnused (s : Session) : ∃ t, checkUnused.exec s = (.ok (), t) ∧
      (do noteStep "check_unused_vars"; s.unusedNames.forM warnUnused).exec s = (.ok (), t) ∧
      (s.modes.any = false → t.events = s.events ++ (s.unusedNames.map unusedWarning).toArray) := by
  obtain ⟨notes, hnote⟩ := exists_notes_noteStep "check_unused_vars" s
  obtain ⟨t, hexec, hall, hevents⟩ := exec_warnAllUnused
    (sortNames (s.defined.filter fun other => !s.used.contains other)) { s with notes := notes }
  exact ⟨t, by rw [checkUnused, exec_bind_ok hnote, exec_get_bind, hexec],
    by rw [exec_bind_ok hnote]; exact hall, hevents⟩

/-! ### Element access -/

/-- The step marks no name as used. -/
def Interp.Spares (m : Interp α) : Prop :=
  m.Passes fun s _ t => t.used = s.used

instance : Passage.Chains fun s _ t => t.used = s.used := ⟨fun _ => rfl, fun h₁ h₂ => h₂.trans h₁⟩

theorem Interp.Spares.of_murmurs (h : m.Murmurs) : m.Spares := by
  intro s
  obtain ⟨notes, events, heq⟩ := (h s).1
  rw [heq]

theorem spares_report (message : String) : (report message).Spares := by
  intro s
  rw [report, reportAt, exec_modify]
  dsimp only
  split <;> rfl

theorem spares_namedList? (name : String) : (namedList? name).Spares := by
  refine .bind (Spares.of_murmurs (.of_tells fun s => ⟨_, tells_isDefined name s⟩)) fun known => ?_
  cases known with
  | true =>
    refine .bind (Spares.of_murmurs (murmurs_valueOf name)) fun v => ?_
    split
    · exact fun _ => rfl
    · exact .bind (spares_report _) fun _ _ => rfl
  | false => exact .bind (spares_report _) fun _ => .bind (fun _ => rfl) fun _ _ => rfl

theorem spares_elementAt (cell : Nat) (index : Value) : (elementAt cell index).Spares := by
  refine .bind (fun _ => rfl) fun items => ?_
  split
  · split
    · exact .bind (.bind (Spares.of_murmurs (murmurs_format _)) fun _ => spares_report _) fun _ _ => rfl
    · exact fun _ => rfl
  · exact .bind (spares_report _) fun _ _ => rfl

/-- An element access marks what the visit of its index marks and nothing else. -/
theorem used_visitListAccess (visit : Visit) (kind name : String) (index : Node) (s : Session) :
    ((visitListAccess visit (.tree "list_access" [.token kind name, index])).exec s).2.used =
      ((visit index).exec ((noteStep "visit_list_access").exec s).2).2.used := by
  change ((visit index >>= _).exec ((noteStep "visit_list_access").exec s).2).2.used = _
  rw [exec_bind]
  cases (visit index).exec ((noteStep "visit_list_access").exec s).2 with
  | mk outcome t =>
    cases outcome with
    | error stop => rfl
    | ok v =>
      change ((isFaulty name >>= _).exec t).2.used = t.used
      refine (.bind (fun _ => rfl) fun faulty => ?_ : Interp.Spares _) t
      cases faulty with
      | true => exact fun _ => rfl
      | false =>
        refine .bind (spares_namedList? name) fun cell? => ?_
        cases cell? with
        | none => exact fun _ => rfl
        | some cell => exact spares_elementAt cell v

/-! ### Whole runs -/

theorem succeeds_flushNotes (lines : List String) : (flushNotes lines).Succeeds := by
  induction lines with
  | nil => exact .pure ()
  | cons line rest ih => exact .bind (.modify _) fun _ => ih

/-- After the statements of an accepted text one warning is given of each name that is defined, not
used and not faulty. No name is among them that the run reads as an identifier or by a call: visits
which stop there cut the run off. An element access does not mark the name of its list. -/
theorem read_names_not_pointed_out {code : String} {items : List Node}
    (hparse : parse code = .ok (.tree "start" items)) {s : Session}
    (hlasts : ((execute code).exec s).1 ≠ .error .exhausted) :
    (∃ start u t, (preparing items).exec s = (.ok (), start) ∧
      (runProgram (visit depthLimit) 1 items).exec start = (.ok (), u) ∧
      checkUnused.exec u = (.ok (), t) ∧
      (do noteStep "check_unused_vars"; u.unusedNames.forM warnUnused).exec u = (.ok (), t) ∧
      (u.modes.any = false → t.events = u.events ++ (u.unusedNames.map unusedWarning).toArray) ∧
      (execute code).exec s = (flushNotes t.notes.toList).exec t ∧
      (∀ name, name ∈ u.unusedNames ↔ name ∈ u.defined ∧ name ∉ u.used ∧ name ∉ u.faulty) ∧
      ∀ name, ((executeWithin (visitUntil (fun n _ ↦ n.reads name) depthLimit) code).exec s).1 = .error .exhausted →
        name ∉ u.unusedNames) ∧
    ∀ visit kind name index t,
      ((visitListAccess visit (.tree "list_access" [.token kind name, index])).exec t).2.used =
        ((visit index).exec ((noteStep "visit_list_access").exec t).2).2.used := by
  refine ⟨?_, fun visit kind name index t ↦ used_visitListAccess visit kind name index t⟩
  obtain ⟨start, hprepared, -, hruns⟩ := exec_executeWithin hparse s
  obtain ⟨u, hu | hu⟩ := exec_runProgram_cases (visit depthLimit) items 1 start
  · obtain ⟨t, hcheck, hwarnings, hevents⟩ := exec_checkUnused u
    obtain ⟨_, v, hflush⟩ := succeeds_flushNotes t.notes.toList t
    have hconcluding : ∀ m : Interp Unit, m.exec start = (.ok (), u) → (concluding m).exec start = (.ok (), v) := by
      intro m hm
      rw [concluding, exec_recover, exec_bind_ok hm, exec_bind_ok hcheck, exec_get_bind, hflush]
    have hend : (execute code).exec s = (.ok (), v) := (hruns _).trans (hconcluding _ hu)
    refine ⟨start, u, t, hprepared, hu, hcheck, hwarnings, hevents, hend.trans hflush.symm,
      fun _ ↦ Session.mem_unusedNames, fun name hcut hname ↦ ?_⟩
    have hunused := (Session.mem_unusedNames.mp hname).2.1
    rcases @tracks_runProgram name depthLimit items 1 start with heq | hexhausted | hused
    · rw [hruns, hconcluding _ (heq.trans hu)] at hcut
      cases hcut
    · rw [hu] at hexhausted
      cases hexhausted
    · rw [hu] at hused
      exact hunused hused
  · refine absurd ?_ hlasts
    rw [execute, hruns, concluding, exec_recover, exec_bind_error hu]

/-- The element at a variable is printed: the list is pointed out, and the variable is not. -/
theorem element_read_pointed_out :
    ∃ items start u, parse "New List l => [1]\nNew int x -> 0\nout.Info(l[x])" = .ok (.tree "start" items) ∧
      (preparing items).exec Session.fresh = (.ok (), start) ∧
      (runProgram (visit depthLimit) 1 items).exec start = (.ok (), u) ∧
      "l" ∈ u.unusedNames ∧ "x" ∉ u.unusedNames := by
  let code := "New List l => [1]\nNew int x -> 0\nout.Info(l[x])"
  obtain ⟨hparses, hok, hstops, hlist⟩ : (parse code).isOk = true ∧ ((execute code).exec Session.fresh).1.isOk = true ∧
      ((executeWithin (visitUntil (fun n _ ↦ n.reads "x") depthLimit) code).exec Session.fresh).1.isOk = false ∧
      ((runProgram (visit depthLimit) 1 (parsedItems code)).exec
        ((preparing (parsedItems code)).exec Session.fresh).2).2.unusedNames.contains "l" = true := by
    decide +kernel
  have hparse : parse code = .ok (.tree "start" (parsedItems code)) := parse_eq_parsedItems hparses
  have hlasts : ((execute code).exec Session.fresh).1 ≠ .error .exhausted := fun h ↦ absurd (h ▸ hok) (by decide)
  obtain ⟨⟨start, u, _, hstart, hu, -, -, -, -, -, hread⟩, -⟩ := read_names_not_pointed_out hparse hlasts
  rw [hstart, hu] at hlist
  refine ⟨parsedItems code, start, u, hparse, hstart, hu, List.contains_iff_mem.mp hlist, hread "x" ?_⟩
  refine (exec_executeWithin_cases _ _ _).resolve_right fun ⟨t, ht⟩ ↦ ?_
  rw [ht] at hstops
  cases hstops.symm

end Run

end FapLang
