import FapLang.Proofs.Run.Bonds

/-!
Contracts of steps: what holds at the points of a run and what lies between two of them
(`Contract`). To obey one (`Interp.Obeys`) is closed under the ways to build steps, and steps that
visit nothing obey every fair one (`Contract.Fair`).
-/

namespace FapLang

namespace Run

open Interp

variable {α β : Type} {s : Session} {m : Interp α} {lead : String}

/-! ### Contracts -/

structure Contract where
  /-- What the records are like at every point. -/
  holds : Session → Prop
  /-- What lies between two points, the second of which is reached with or without a stop. -/
  post : Session → Option Stop → Session → Prop
  /-- The functions for which a name may stand. -/
  knows : String → Function → Prop

namespace Contract

/-- What steps may count on. -/
structure Pre (C : Contract) (s : Session) : Prop where
  holds : C.holds s
  functions : ∀ id, ∀ entry ∈ (s.scope id).functions, C.knows entry.1 entry.2

/-- How a step may end that starts in `s`. -/
def Ends (C : Contract) (s : Session) (ending : Except Stop α × Session) : Prop :=
  C.Pre s → C.Pre ending.2 ∧ C.post s (stopOf ending.1) ending.2

/-- The records of the second session may come right after those of the first one. -/
def Allows (C : Contract) (s t : Session) : Prop :=
  C.holds s → C.holds t ∧ C.post s none t

end Contract

/-- In every session the step keeps to the contract. -/
def Interp.Obeys (C : Contract) (m : Interp α) : Prop :=
  ∀ s, C.Ends s (m.exec s)

/-- Only scopes, lists, requests and the input may differ, and no list is lost. -/
structure RecordsKept (s t : Session) : Prop where
  errors : t.errors = s.errors
  faulty : t.faulty = s.faulty
  used : t.used = s.used
  defined : t.defined = s.defined
  assigned : t.assigned = s.assigned
  warned : t.warned = s.warned
  hasOutput : t.hasOutput = s.hasOutput
  modes : t.modes = s.modes
  source : t.source = s.source
  line : t.line = s.line
  notes : t.notes = s.notes
  events : t.events = s.events
  lists : s.cells.size ≤ t.cells.size

/-- The text of a trace line. -/
def noteText (code : String) (line : Int) (content message : String) : String :=
  colour code ("[Line " ++ toString line ++ ": " ++ content ++ "] " ++ message)

theorem colour_append (code message rest : String) :
    colour code message ++ rest = ("\x1b[" ++ code) ++ ("m" ++ message ++ "\x1b[0m" ++ rest) := by
  simp only [colour, String.append_assoc]

/-- The colours and messages of the trace lines about single steps. -/
inductive StepNote : String → String → Prop
  | call (step : String) : StepNote "38;2;255;165;0" ("[METHOD CALL] " ++ step ++ "()")
  | runtime {lead : String} (h : isRuntime lead = true) (rest : String) : StepNote "33" (lead ++ rest)

/-- The colours of what is written about scopes and about the run of a text. -/
def traceColours : List String := ["38;2;255;165;0", "90", "95"]

/-- The session with one text more written. -/
def Session.withEvent (s : Session) (event : Event) : Session :=
  { s with events := s.events.push event }

/-- Trace lines of a colour with a message are allowed. -/
def Contract.Notes (C : Contract) (code message : String) : Prop :=
  ∀ s line content, s.sourceLine? line = some content →
    C.Allows s { s with notes := s.notes.push (noteText code line content message) }

/-- A run may come to any line. -/
def Contract.Places (C : Contract) : Prop :=
  ∀ (s : Session) (line : Int), C.Allows s { s with line := line }

/-- Steps that visit nothing, print nothing and warn of nothing keep to the contract. -/
class Contract.Fair (C : Contract) : Prop where
  refl (s : Session) : C.post s none s
  trans {s t u : Session} {stop : Option Stop} (h₁ : C.post s none t) (h₂ : C.post t stop u) : C.post s stop u
  caught {s t : Session} {f : Fault} (h : C.post s (some (.fault f)) t) : C.post s none t
  raise (s : Session) (f : Fault) : C.post s (some (.fault f)) s
  aside {s t : Session} (h : RecordsKept s t) : C.Allows s t
  error (s : Session) (line : Int) (message : String) : C.Allows s ((reportAt line message).exec s).2
  blame (s : Session) (name : String) : C.Allows s { s with faulty := s.faulty.push name }
  used (s : Session) (name : String) : C.Allows s { s with used := s.used.insert name }
  defined (s : Session) (name : String) : C.Allows s { s with defined := s.defined.insert name }
  assigned (s : Session) (name : String) : C.Allows s { s with assigned := s.assigned.insert name }
  note {code message : String} (h : StepNote code message) : C.Notes code message
  write (s : Session) {code : String} (hcode : code ∈ traceColours) (message : String) :
    C.Allows s (s.withEvent { channel := .out, text := colour code message ++ "\n" })
  prompt (s : Session) (message : String) :
    C.Allows s (s.withEvent { channel := .out, text := colour "94" ("[INFO] " ++ message), isPrompt := true })

theorem Contract.Pre.of_scopes_eq {C : Contract} {t : Session} (hs : C.Pre s) (hscopes : t.scopes = s.scopes)
    (ht : C.holds t) : C.Pre t := by
  refine ⟨ht, fun id entry hentry => hs.functions id entry ?_⟩
  rw [Session.scope, hscopes] at hentry
  exact hentry

theorem Contract.Fair.allows_refl {C : Contract} [hC : C.Fair] (s : Session) : C.Allows s s :=
  fun hs => ⟨hs, hC.refl s⟩

/-- Two steps in a row, from one session. -/
theorem Contract.Ends.bind {C : Contract} [hC : C.Fair] {k : α → Interp β}
    (hm : C.Ends s (m.exec s)) (hk : ∀ a t, m.exec s = (.ok a, t) → C.Ends t ((k a).exec t)) :
    C.Ends s ((m >>= k).exec s) := by
  intro hs
  have hfirst := hm hs
  rw [exec_bind]
  rcases hexec : m.exec s with ⟨stop | a, t⟩ <;> rw [hexec] at hfirst
  · exact hfirst
  · obtain ⟨hpre, hpost⟩ := hk a t hexec hfirst.1
    exact ⟨hpre, hC.trans hfirst.2 hpost⟩

namespace Interp.Obeys

variable {C : Contract}

/-- Two steps in a row, where the second may use what the first found. -/
theorem bind_ok [hC : C.Fair] {k : α → Interp β} (hm : m.Obeys C)
    (hk : ∀ s a t, C.Pre s → m.exec s = (.ok a, t) → (k a).Obeys C) : (m >>= k).Obeys C :=
  fun s hs => (hm s).bind (fun a t hexec => hk s a t hs hexec t) hs

variable [hC : C.Fair]

protected theorem bind {k : α → Interp β} (hm : m.Obeys C) (hk : ∀ a, (k a).Obeys C) : (m >>= k).Obeys C :=
  hm.bind_ok fun _ a _ _ _ => hk a

protected theorem pure (a : α) : (pure a : Interp α).Obeys C :=
  fun s hs => ⟨hs, hC.refl s⟩

protected theorem get : (get : Interp Session).Obeys C :=
  fun s hs => ⟨hs, hC.refl s⟩

protected theorem fail (f : Fault) : (Interp.fail f : Interp α).Obeys C :=
  fun s hs => ⟨hs, hC.raise s f⟩

protected theorem ofExcept (e : Except Fault α) : (Interp.ofExcept e).Obeys C := by
  cases e with
  | ok a => exact .pure a
  | error f => exact .fail f

omit [C.Fair] in
/-- Records change, scopes do not. -/
protected theorem modify {g : Session → Session} (hg : ∀ s, C.Allows s (g s)) (hscopes : ∀ s, (g s).scopes = s.scopes) :
    (modify g : Interp Unit).Obeys C :=
  fun s hs => ⟨hs.of_scopes_eq (hscopes s) (hg s hs.holds).1, (hg s hs.holds).2⟩

/-- Scopes change, records do not. -/
protected theorem modifyGet {g : Session → α × Session} (hg : ∀ s, RecordsKept s (g s).2)
    (hfuns : ∀ s id, ∀ entry ∈ ((g s).2.scope id).functions,
      entry ∈ (s.scope id).functions ∨ C.knows entry.1 entry.2) : (modifyGet g : Interp α).Obeys C := by
  intro s hs
  obtain ⟨hholds, hpost⟩ := hC.aside (hg s) hs.holds
  exact ⟨⟨hholds, fun id entry hentry => (hfuns s id entry hentry).elim (hs.functions id entry) fun h => h⟩, hpost⟩

omit [C.Fair] in
protected theorem ite {c : Prop} [Decidable c] {m' : Interp α} (hm : m.Obeys C) (hm' : m'.Obeys C) :
    (if c then m else m').Obeys C :=
  iteInduction (fun _ => hm) fun _ => hm'

protected theorem recover {handler : Fault → Interp α} (hm : m.Obeys C)
    (hhandler : ∀ f, (handler f).Obeys C) : (Interp.recover m handler).Obeys C := by
  intro s hs
  have hfirst := hm s hs
  rw [exec_recover]
  rcases hexec : m.exec s with ⟨stop | a, t⟩ <;> rw [hexec] at hfirst
  · cases stop with
    | fault f =>
      obtain ⟨hpre, hpost⟩ := hhandler f t hfirst.1
      exact ⟨hpre, hC.trans (hC.caught hfirst.2) hpost⟩
    | exhausted => exact hfirst
  · exact hfirst

theorem children_bind {n : Node} {k : List Node → Interp α} (hk : (k n.kids).Obeys C) :
    (childrenOf n >>= k).Obeys C := by
  cases n with
  | tree rule cs => exact hk
  | token | absent | plain => exact fun s hs => ⟨hs, hC.raise s _⟩

end Interp.Obeys

/-! ### What leaves the records alone -/

theorem RecordsKept.of_update (scopes : Array Scope) (current : Nat) (breaking returning : Bool)
    (result : Value) (input : Option (List Char)) : RecordsKept s { s with
      scopes := scopes, current := current, breaking := breaking, returning := returning, result := result,
      input := input } :=
  ⟨rfl, rfl, rfl, rfl, rfl, rfl, rfl, rfl, rfl, rfl, rfl, rfl, Nat.le_refl _⟩

theorem RecordsKept.of_cells {cells : Cells} (h : s.cells.size ≤ cells.size) :
    RecordsKept s { s with cells := cells } :=
  ⟨rfl, rfl, rfl, rfl, rfl, rfl, rfl, rfl, rfl, rfl, rfl, rfl, h⟩

theorem mem_functions_setScope {id i : Nat} {f : Scope → Scope} {entry : String × Function}
    (h : entry ∈ ((s.setScope id f).scope i).functions) :
    entry ∈ (s.scope i).functions ∨ entry ∈ (f (s.scope i)).functions := by
  by_cases hid : i = id
  · subst hid
    by_cases hi : i < s.scopes.size
    · rw [Session.scope_setScope_self hi] at h
      exact .inr h
    · rw [Session.setScope, Session.scope_eq, Array.getElem?_modify, if_pos rfl,
        Array.getElem?_eq_none (Nat.le_of_not_lt hi)] at h
      cases h
  · rw [Session.scope_setScope_of_ne hid] at h
    exact .inl h

theorem mem_functions_newScope {parent id : Nat} {entry : String × Function}
    (h : entry ∈ ({ s with scopes := s.scopes.push (Scope.empty (some parent)) }.scope id).functions) :
    entry ∈ (s.scope id).functions := by
  rw [Session.scope_eq, Array.getElem?_push] at h
  by_cases hid : id = s.scopes.size
  · rw [if_pos hid] at h
    cases h
  · rw [if_neg hid] at h
    rwa [Session.scope_eq]

theorem join_texts (cells : Cells) (lead message : String) :
    String.join ([Piece.lit lead, .lit message].map (·.shown cells)) = lead ++ message := by
  rw [List.map_cons, List.map_cons, List.map_nil, String.join_cons, String.join_cons, String.join_nil,
    String.append_empty]
  rfl

/-- A trace line of plain texts never fails. -/
theorem exec_note_texts (lead message : String) (s : Session) :
    ∃ notes, (note [.lit lead, .lit message]).exec s = (.ok (), { s with notes := notes }) ∧
      (notes = s.notes ∨ ∃ line content, s.sourceLine? line = some content ∧
        notes = s.notes.push (noteText "33" line content (lead ++ message))) := by
  have hwritable : (checkWritable [.lit lead, .lit message]).exec s = (.ok (), s) := rfl
  rw [note, exec_bind_ok hwritable, exec_get_bind, join_texts]
  by_cases hfull : s.modes.full = true
  · rw [if_pos hfull, addNote, exec_modify, if_pos hfull]
    cases hline : s.sourceLine? s.line with
    | none => exact ⟨s.notes, rfl, .inl rfl⟩
    | some content => exact ⟨_, rfl, .inr ⟨s.line, content, hline, rfl⟩⟩
  · rw [if_neg hfull]
    exact ⟨s.notes, rfl, .inl rfl⟩

section Steps

variable {C : Contract} [hC : C.Fair]

/-! ### Messages and marks -/

theorem obeys_writeLine {code : String} (hcode : code ∈ traceColours) (message : String) :
    (writeLine .out (colour code message)).Obeys C :=
  .modify (fun s => hC.write s hcode message) fun _ => rfl

theorem obeys_addNote {code message : String} (h : C.Notes code message) (line : Int) :
    (addNote line code message).Obeys C := by
  refine .modify (fun s => ?_) fun s => ?_
  · dsimp only
    split
    · split
      · rename_i hline
        exact h s line _ hline
      · exact hC.allows_refl s
    · exact hC.allows_refl s
  · dsimp only
    split
    · split
      · rfl
      · rfl
    · rfl

theorem obeys_checkWritable (message : List Piece) : (checkWritable message).Obeys C :=
  .bind .get fun _ => .ite (.pure ()) (.fail _)

theorem obeys_format (message : List Piece) : (format message).Obeys C :=
  .bind (obeys_checkWritable message) fun _ => .bind .get fun _ => .pure _

/-- A trace line whose message begins with a text, whatever comes after it. -/
theorem obeys_noteWith (h : ∀ rest, C.Notes "33" (lead ++ rest)) (rest : List Piece) :
    (note (.lit lead :: rest)).Obeys C := by
  refine .bind (obeys_checkWritable _) fun _ => .bind .get fun s => .ite ?_ (.pure ())
  rw [List.map_cons, String.join_cons]
  exact obeys_addNote (h _) _

theorem obeys_noteTexts {message : String} (h : C.Notes "33" (lead ++ message)) :
    (note [.lit lead, .lit message]).Obeys C := by
  refine .bind (obeys_checkWritable _) fun _ => .bind .get fun s => .ite ?_ (.pure ())
  rw [join_texts]
  exact obeys_addNote h _

theorem obeys_note (h : isRuntime lead = true) (rest : List Piece) : (note (.lit lead :: rest)).Obeys C :=
  obeys_noteWith (fun _ => hC.note (.runtime h _)) rest

theorem obeys_noteStep (step : String) : (noteStep step).Obeys C :=
  .bind .get fun _ => obeys_addNote (hC.note (.call _)) _

theorem obeys_reportAt (line : Int) (message : String) : (reportAt line message).Obeys C := by
  refine .modify (fun s => hC.error s line message) fun s => ?_
  dsimp only
  split
  · rfl
  · rfl

theorem obeys_report (message : String) : (report message).Obeys C :=
  obeys_reportAt 0 message

variable (id : Nat) (name : String)

theorem obeys_blame : (blame name).Obeys C :=
  .modify (fun s => hC.blame s name) fun _ => rfl

theorem obeys_markUsed : (markUsed name).Obeys C :=
  .modify (fun s => hC.used s name) fun _ => rfl

theorem obeys_markDefined : (markDefined name).Obeys C :=
  .modify (fun s => hC.defined s name) fun _ => rfl

theorem obeys_markAssigned : (markAssigned name).Obeys C :=
  .modify (fun s => hC.assigned s name) fun _ => rfl

theorem obeys_newList (items : Array Value) : (newList items).Obeys C :=
  .modifyGet (fun _ => .of_cells (by simp)) fun _ _ _ h => .inl h

theorem obeys_itemsOf (cell : Nat) : (itemsOf cell).Obeys C :=
  .bind .get fun _ => .pure _

theorem obeys_setItems (cell : Nat) (f : Array Value → Array Value) : (setItems cell f).Obeys C :=
  .modifyGet (fun _ => .of_cells (by simp)) fun _ _ _ h => .inl h

/-! ### Scopes -/

theorem obeys_scopeOf : (scopeOf id).Obeys C :=
  .bind .get fun _ => .pure _

theorem obeys_setScope {f : Scope → Scope}
    (hf : ∀ scope, ∀ entry ∈ (f scope).functions, entry ∈ scope.functions ∨ C.knows entry.1 entry.2) :
    (setScope id f).Obeys C :=
  .modifyGet (fun _ => .of_update ..) fun _ _ entry h => (mem_functions_setScope h).elim .inl (hf _ entry)

theorem obeys_announce (step : String) (args : List Piece) : (announce id step args).Obeys C := by
  refine .bind (obeys_scopeOf id) fun _ => .ite ?_ (.pure ())
  refine .bind (obeys_checkWritable args) fun _ => .bind .get fun _ => ?_
  exact obeys_writeLine (.head _) _

theorem obeys_announceOutcome (message : List Piece) : (announceOutcome id message).Obeys C := by
  refine .bind (obeys_scopeOf id) fun _ => .ite ?_ (.pure ())
  exact .bind (obeys_format message) fun _ => obeys_writeLine (.tail _ (.head _)) _

theorem obeys_defineVar (name : String) (v : Value) : (defineVar id name v).Obeys C :=
  .bind (obeys_announce _ _ _) fun _ => .bind (obeys_setScope id fun _ _ => .inl) fun _ =>
    obeys_announceOutcome _ _

theorem obeys_defineConst (name : String) (v : Value) : (defineConst id name v).Obeys C :=
  .bind (obeys_announce _ _ _) fun _ => .bind (obeys_setScope id fun _ _ => .inl) fun _ =>
    obeys_announceOutcome _ _

theorem obeys_mapM {γ : Type} (g : γ → Interp α) (hg : ∀ c, (g c).Obeys C) (cs : List γ) : (cs.mapM g).Obeys C := by
  induction cs with
  | nil =>
    rw [List.mapM_nil]
    exact .pure []
  | cons c rest ih =>
    rw [List.mapM_cons]
    exact .bind (hg c) fun _ => .bind ih fun _ => .pure _

theorem obeys_defineFunc {name : String} {f : Function} (hf : C.knows name f) : (defineFunc id name f).Obeys C := by
  have hbind : (setScope id fun scope => { scope with functions := scope.functions.insert name f }).Obeys C :=
    obeys_setScope id fun _ _ h => (Table.mem_insert h).elim (fun heq => .inr (heq ▸ hf)) .inl
  refine .bind (obeys_announce _ _ _) fun _ => .bind hbind fun _ => ?_
  refine .bind (obeys_scopeOf id) fun _ => .ite ?_ (.pure ())
  refine .bind (obeys_itemsOf _) fun items => ?_
  exact .bind (obeys_mapM _ (fun _ => .ofExcept _) _) fun _ => obeys_announceOutcome _ _

theorem obeys_define (v : Value) : (define name v).Obeys C :=
  .bind .get fun _ => obeys_defineVar _ name v

theorem obeys_newScope (parent : Nat) : (newScope parent).Obeys C :=
  .modifyGet (fun _ => .of_update ..) fun _ _ _ h => .inl (mem_functions_newScope h)

end Steps

end Run

end FapLang
