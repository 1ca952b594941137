import FapLang.Proofs.CallDiscipline
import FapLang.Proofs.Failures

/-!
Requests to leave a loop or to return from a call. In a placed program (`Node.isPlaced`) a statement
leaves behind only requests to the loop and the call around it (`Interp.Heeds`), so none is pending
when a statement of the text begins (`requests_end_with_their_constructs`).
-/

namespace FapLang

namespace Node

variable {cs : List Node}

mutual

/-- Requests to leave a loop stand in loops, and requests to return in functions. -/
def isPlaced (inLoop inCall : Bool) : Node → Bool
  | tree rule cs =>
    if rule = "rep_stop" then inLoop
    else if rule = "back_stmt" then inCall
    else if rule = "again_stmt" then arePlaced true inCall cs
    else if rule = "func_def" then arePlaced false true cs
    else arePlaced inLoop inCall cs
  | _ => true

def arePlaced (inLoop inCall : Bool) : List Node → Bool
  | [] => true
  | c :: cs => isPlaced inLoop inCall c && arePlaced inLoop inCall cs

end

theorem arePlaced_iff {inLoop inCall : Bool} :
    arePlaced inLoop inCall cs = true ↔ ∀ c ∈ cs, c.isPlaced inLoop inCall = true := by
  induction cs with
  | nil => simp [arePlaced]
  | cons c cs ih => simp [arePlaced, ih]

/-- The parts of most nodes stand where the node stands. -/
theorem isPlaced_of_mem {inLoop inCall : Bool} {rule : String} {c : Node}
    (hrule : rule ∉ ["rep_stop", "back_stmt", "again_stmt", "func_def"])
    (h : (tree rule cs).isPlaced inLoop inCall = true) (hc : c ∈ cs) : c.isPlaced inLoop inCall = true := by
  simp only [List.mem_cons, List.not_mem_nil, or_false, not_or] at hrule
  rw [isPlaced, if_neg hrule.1, if_neg hrule.2.1, if_neg hrule.2.2.1, if_neg hrule.2.2.2] at h
  exact arePlaced_iff.mp h c hc

theorem isPlaced_again_stmt {inLoop inCall : Bool}
    (h : (tree "again_stmt" cs).isPlaced inLoop inCall = true) : ∀ c ∈ cs, c.isPlaced true inCall = true :=
  arePlaced_iff.mp h

theorem isPlaced_func_def {inLoop inCall : Bool}
    (h : (tree "func_def" cs).isPlaced inLoop inCall = true) : ∀ c ∈ cs, c.isPlaced false true = true :=
  arePlaced_iff.mp h

end Node

theorem Grammar.Of.hasRule_statement {n : Node} (h : Of .statement n) : n.hasRule "statement" = true := by
  obtain ⟨_, _, _, rfl, _⟩ := h.statement_inv
  rfl

namespace Run

open Interp Grammar

variable {α β : Type} {s t u : Session} {inLoop inCall : Bool}
variable {n : Node} {inCall' inLoop' : Bool} {ending : Except Stop α × Session} {m : Interp α} {items : List Node}
  {parts : LoopParts}

/-! ### Steps that are not asked for anything -/

/-- No function of the session asks for the end of a loop that is not its own. -/
def Discreet (s : Session) : Prop :=
  ∀ id, ∀ entry ∈ (s.scope id).functions, entry.2.body.isPlaced false true = true

namespace Discreet

theorem of_scopes_eq (hs : Discreet s) (h : t.scopes = s.scopes) : Discreet t := by
  intro id entry hentry
  rw [Session.scope, h] at hentry
  exact hs id entry hentry

theorem setScope (hs : Discreet s) (id : Nat) {f : Scope → Scope}
    (hf : ∀ scope, ∀ entry ∈ (f scope).functions, entry ∈ scope.functions ∨ entry.2.body.isPlaced false true = true) :
    Discreet (s.setScope id f) := by
  intro i entry hentry
  rcases mem_functions_setScope hentry with hold | hnew
  · exact hs i entry hold
  · exact (hf _ entry hnew).elim (hs i entry) fun h => h

theorem body (hs : Discreet s) {f : Function} (hf : s.Knows f) : f.body.isPlaced false true = true := by
  obtain ⟨-, name, hget⟩ := hf
  exact hs f.scope _ (Table.mem_of_get? hget)

theorem entered (hs : Discreet s) (f : Function) (bound : List (String × Value)) : Discreet (s.entered f bound) := by
  intro id entry hentry
  rw [Session.scope_eq, Session.entered, Array.getElem?_push] at hentry
  by_cases hid : id = s.scopes.size
  · rw [if_pos hid] at hentry
    cases hentry
  · rw [if_neg hid, ← Session.scope_eq] at hentry
    exact hs id entry hentry

end Discreet

/-- Loops and calls are not asked to end, if functions keep their requests to themselves. -/
def Manner.unasked : Manner where
  moves s t := Discreet s → Discreet t ∧ t.breaking = s.breaking ∧ t.returning = s.returning
  stops s stop t := Discreet s → Discreet t ∧ (stop ≠ .exhausted → t.breaking = s.breaking ∧ t.returning = s.returning)

instance Manner.unasked_lawful : Manner.unasked.Lawful where
  refl _ hs := ⟨hs, rfl, rfl⟩
  trans h1 h2 hs := by
    obtain ⟨ht, hbreak, hret⟩ := h1 hs
    obtain ⟨hu, hbreak', hret'⟩ := h2 ht
    exact ⟨hu, hbreak'.trans hbreak, hret'.trans hret⟩
  prepend h1 h2 hs := by
    obtain ⟨ht, hbreak, hret⟩ := h1 hs
    obtain ⟨hu, hsame⟩ := h2 ht
    exact ⟨hu, fun hstop => ⟨(hsame hstop).1.trans hbreak, (hsame hstop).2.trans hret⟩⟩
  caught h hs := ⟨(h hs).1, (h hs).2 (by simp)⟩
  hidden h hs := ⟨(h hs).1, fun _ => (h hs).2 (by simp)⟩
  aside hframe _ hs := ⟨hs.of_scopes_eq hframe.scopes, hframe.breaking, hframe.returning⟩
  fault _ _ _ hs := ⟨hs, fun _ => ⟨rfl, rfl⟩⟩
  exhausted _ hs := ⟨hs, fun _ => ⟨rfl, rfl⟩⟩
  spoilt _ _ hs := ⟨hs, fun _ => ⟨rfl, rfl⟩⟩

/-- A change of a scope that brings in no function. -/
theorem Manner.unasked_setScope (ht : Manner.unasked.Reaches s t) (id : Nat) {f : Scope → Scope}
    (hf : ∀ scope, (f scope).functions = scope.functions) : Manner.unasked.moves s (t.setScope id f) := by
  intro hs
  obtain ⟨hdiscreet, hbreak, hret⟩ := ht.2 hs
  exact ⟨hdiscreet.setScope id fun scope _ hentry => .inl (hf scope ▸ hentry), hbreak, hret⟩

theorem Manner.unasked_binding : Manner.unasked.Marking Manner.unasked := .of_binding {
  within := .refl _
  declare := fun _ ht _ _ ↦ unasked_setScope ht _ fun _ ↦ rfl
  defineConst := fun _ ht _ _ _ ↦ unasked_setScope ht _ fun _ ↦ rfl
  assign := fun _ ht _ _ _ _ ↦ unasked_setScope ht _ fun _ ↦ rfl }

theorem Manner.unasked_naming {body : Node} (hbody : body.isPlaced false true = true) :
    Manner.unasked.Naming Manner.unasked body := by
  intro s t name _ ht _ params hs
  obtain ⟨hdiscreet, hbreak, hret⟩ := ht.2 hs
  refine ⟨hdiscreet.setScope _ fun scope entry hentry => ?_, hbreak, hret⟩
  rcases Table.mem_insert hentry with rfl | hold
  · exact .inr hbody
  · exact .inl hold

theorem Interp.Goes.breaking_of_leaves (hm : m.Goes .unasked) (hs : Formed s) (hdiscreet : Discreet s)
    (h : m.Leaves s t) : t.breaking = s.breaking := by
  obtain ⟨outcome, hexec, hout⟩ := h
  have hend := hm s hs
  rw [hexec] at hend
  cases outcome with
  | ok a => exact (hend.2 hdiscreet).2.1
  | error stop => exact ((hend.2 hdiscreet).2 fun hstop => hout (congrArg Except.error hstop)).1

/-! ### Pending requests -/

/-- Only the loop and the call around, if there are such, may have been asked to end. -/
structure Standing (inLoop inCall : Bool) (s : Session) : Prop where
  formed : Formed s
  discreet : Discreet s
  breaking : s.breaking = true → inLoop = true
  returning : s.returning = true → inCall = true

namespace Standing

theorem breaking_eq (hs : Standing false inCall s) : s.breaking = false :=
  Bool.eq_false_iff.mpr fun h => nomatch hs.breaking h

theorem returning_eq (hs : Standing inLoop false s) : s.returning = false :=
  Bool.eq_false_iff.mpr fun h => nomatch hs.returning h

theorem of_sameFrame (hs : Standing inLoop inCall s) (h : SameFrame s t) : Standing inLoop inCall t :=
  ⟨hs.formed.of_sameFrame h, hs.discreet.of_scopes_eq h.scopes, h.breaking ▸ hs.breaking, h.returning ▸ hs.returning⟩

theorem of_not_breaking (hs : Standing inLoop inCall s) (h : s.breaking = false) : Standing false inCall s :=
  ⟨hs.formed, hs.discreet, by simp [h], hs.returning⟩

theorem mono (hs : Standing inLoop inCall s) (hloop : inLoop = true → inLoop' = true)
    (hcall : inCall = true → inCall' = true) : Standing inLoop' inCall' s :=
  ⟨hs.formed, hs.discreet, hloop ∘ hs.breaking, hcall ∘ hs.returning⟩

end Standing

/-- How a step may end. If a loop has been asked to end, the value is passed on unseen, and a step
that fails has not asked for it. -/
def Heeded (inLoop inCall : Bool) (passed : α → Prop) : Except Stop α × Session → Prop
  | (.ok a, t) => Standing inLoop inCall t ∧ (t.breaking = true → passed a)
  | (.error (.fault _), t) => Standing false inCall t
  | (.error .exhausted, t) => Formed t ∧ Discreet t

namespace Heeded

variable {passed : α → Prop} {passed' : β → Prop} {k : α → Interp β}

theorem bind (hm : Heeded inLoop inCall passed (m.exec s))
    (hk : ∀ a t, m.exec s = (.ok a, t) → Standing inLoop inCall t → (t.breaking = true → passed a) →
      Heeded inLoop' inCall passed' ((k a).exec t)) : Heeded inLoop' inCall passed' ((m >>= k).exec s) := by
  rw [exec_bind]
  rcases hexec : m.exec s with ⟨(f | _) | a, t⟩ <;> rw [hexec] at hm
  · exact hm
  · exact hm
  · exact hk a t hexec hm.1 hm.2

/-- Steps that are not asked for anything, with no loop asked to end. -/
theorem of_ends (hs : Standing false inCall s) (h : Manner.unasked.Ends s ending) :
    Heeded false inCall passed ending := by
  obtain ⟨outcome, t⟩ := ending
  have hkeeps : Formed t → Discreet t → t.breaking = s.breaking → t.returning = s.returning → Standing false inCall t :=
    fun hformed hdiscreet hbreak hret => ⟨hformed, hdiscreet, hbreak ▸ hs.breaking, hret ▸ hs.returning⟩
  rcases outcome with (f | _) | a
  · obtain ⟨hdiscreet, hsame⟩ := h.2 hs.discreet
    obtain ⟨hbreak, hret⟩ := hsame (by simp)
    exact hkeeps h.1 hdiscreet hbreak hret
  · exact ⟨h.1, (h.2 hs.discreet).1⟩
  · obtain ⟨hdiscreet, hbreak, hret⟩ := h.2 hs.discreet
    have ht := hkeeps h.1 hdiscreet hbreak hret
    exact ⟨ht, fun hasked => nomatch ht.breaking hasked⟩

theorem formed (h : Heeded inLoop inCall passed ending) : Formed ending.2 := by
  obtain ⟨outcome, t⟩ := ending
  rcases outcome with (f | _) | a
  · exact Standing.formed h
  · exact h.1
  · exact h.1.formed

theorem discreet (h : Heeded inLoop inCall passed ending) : Discreet ending.2 := by
  obtain ⟨outcome, t⟩ := ending
  rcases outcome with (f | _) | a
  · exact Standing.discreet h
  · exact h.2
  · exact h.1.discreet

theorem weaken (h : Heeded inLoop inCall passed ending)
    (hloop : inLoop = true → inLoop' = true) (hcall : inCall = true → inCall' = true) :
    Heeded inLoop' inCall' passed ending := by
  obtain ⟨outcome, t⟩ := ending
  rcases outcome with (f | _) | a
  · exact h.mono id hcall
  · exact h
  · exact ⟨h.1.mono hloop hcall, h.2⟩

/-- A step that is not asked for anything comes first. -/
theorem after (hs : Standing false inCall s) (hm : m.Goes .unasked)
    (hk : ∀ a t, m.exec s = (.ok a, t) → Standing false inCall t →
      Heeded inLoop' inCall passed' ((k a).exec t)) : Heeded inLoop' inCall passed' ((m >>= k).exec s) := by
  have hfirst : Heeded false inCall (fun _ => True) (m.exec s) := of_ends hs (hm s hs.formed)
  exact hfirst.bind fun a t hexec ht _ => hk a t hexec ht

theorem quiet (hs : Standing false inCall s) (hm : m.Quiet)
    (hk : ∀ a t, m.exec s = (.ok a, t) → Standing false inCall t →
      Heeded inLoop' inCall passed' ((k a).exec t)) : Heeded inLoop' inCall passed' ((m >>= k).exec s) :=
  after hs hm.goes hk

theorem pure {a : α} (hs : Standing inLoop inCall s) (ha : s.breaking = true → passed a) :
    Heeded inLoop inCall passed ((pure a : Interp α).exec s) :=
  ⟨hs, ha⟩

/-- A step that has a result and leaves the frame, also if a loop has been asked to end. -/
theorem succeeding (hs : Standing inLoop inCall s) (hstays : m.Stays)
    (hm : m.Succeeds) (hk : ∀ a t, SameFrame s t → Standing inLoop inCall t →
      Heeded inLoop' inCall passed' ((k a).exec t)) : Heeded inLoop' inCall passed' ((m >>= k).exec s) := by
  obtain ⟨a, t, hexec⟩ := hm s
  have hframe := hstays.sameFrame hexec
  rw [exec_bind_ok hexec]
  exact hk a t hframe (hs.of_sameFrame hframe)

theorem noteStep {k : Interp β} {step : String} (hs : Standing inLoop inCall s)
    (hk : ∀ t, Standing inLoop inCall t → Heeded inLoop' inCall' passed' (k.exec t)) :
    Heeded inLoop' inCall' passed' ((do Run.noteStep step; k : Interp β).exec s) := by
  obtain ⟨_, t, hexec⟩ : ∃ a t, (Run.noteStep step).exec s = (.ok a, t) := ⟨_, _, rfl⟩
  rw [exec_bind_ok hexec]
  exact hk t (hs.of_sameFrame ((quiet_noteStep step).stays.sameFrame hexec))

end Heeded

/-- A step of a statement: it begins with no request, and what is passed on with one is nothing. -/
def Interp.Heeds (inLoop inCall : Bool) (m : Interp Value) : Prop :=
  ∀ s, Standing false false s → Heeded inLoop inCall (· = .none) (m.exec s)

namespace Interp.Heeds

theorem weaken {m : Interp Value} (hm : m.Heeds inLoop inCall)
    (hloop : inLoop = true → inLoop' = true) (hcall : inCall = true → inCall' = true) : m.Heeds inLoop' inCall' :=
  fun s hs => (hm s hs).weaken hloop hcall

theorem of_goes {m : Interp Value} (hm : m.Goes .unasked) : m.Heeds inLoop inCall :=
  fun s hs => (Heeded.of_ends hs (hm s hs.formed)).weaken (by simp) (by simp)

end Interp.Heeds

/-! ### Statements -/

theorem succeeds_note {message : List Piece} (h : ∀ cells, message.all (·.isWritable cells) = true) :
    (note message).Succeeds :=
  .of_tells fun s => ⟨(), tells_note (h s.cells)⟩

theorem succeeds_isDefined (name : String) : (isDefined name).Succeeds :=
  .of_tells fun s => ⟨_, tells_isDefined name s⟩

theorem succeeds_dropRepeatVar (name : String) : (dropRepeatVar name).Succeeds :=
  .ite (.pure ()) (.bind (succeeds_isDefined name) fun _ => .ite (.bind .get fun _ => .modify _) (.pure ()))

/-- Expressions are not asked for anything, and statements heed where they stand. -/
structure Heedful (visit : Visit) : Prop extends Below .unasked visit where
  deed : ∀ c ∈ deedForms, ∀ n, Of c n → ∀ inLoop inCall, n.isPlaced inLoop inCall = true →
    (visit n).Heeds inLoop inCall

section Steps

variable {visit : Visit} (hvisit : Heedful visit)

include hvisit

theorem heeded_runStatements (hitems : ∀ item ∈ items, IsItem item)
    (hplaced : ∀ item ∈ items, item.isPlaced inLoop inCall = true) (hs : Standing inLoop inCall s) :
    Heeded inLoop inCall (fun _ => True) ((runStatements visit items).exec s) := by
  induction items generalizing s with
  | nil => exact .pure hs fun _ => trivial
  | cons item rest ih =>
    obtain ⟨hitem, hrest⟩ := List.forall_mem_cons.mp hitems
    obtain ⟨hfirst, hothers⟩ := List.forall_mem_cons.mp hplaced
    rcases hitem with hstmt | ⟨text, rfl⟩
    · rw [runStatements, if_pos hstmt.hasRule_statement, exec_get_bind]
      by_cases hasked : (s.returning || s.breaking) = true
      · rw [if_pos hasked]
        exact .pure hs fun _ => trivial
      · rw [if_neg hasked]
        rw [Bool.not_eq_true, Bool.or_eq_false_iff] at hasked
        have hfree : Standing false false s :=
          ⟨hs.formed, hs.discreet, by simp [hasked.2], by simp [hasked.1]⟩
        refine .bind (hvisit.deed .statement (by decide) item hstmt _ _ hfirst s hfree) fun _ t _ ht _ => ?_
        exact ih hrest hothers ht
    · exact ih hrest hothers hs

theorem heeded_visitBlock (hn : Of .block n) (hplaced : n.isPlaced inLoop inCall = true)
    (hs : Standing false inCall s) : Heeded inLoop inCall (· = .none) ((visitBlock visit n).exec s) := by
  obtain ⟨items, rfl, hitems⟩ := hn.block_inv
  refine .noteStep hs fun t ht => ?_
  have hitem : ∀ item ∈ items, item.isPlaced inLoop inCall = true := fun _ => Node.isPlaced_of_mem (by decide) hplaced
  refine .bind (heeded_runStatements hvisit hitems hitem (ht.mono (by simp) id)) fun _ u _ hu _ => ?_
  exact .pure hu fun _ => rfl

theorem heeds_visitCause (hn : Of .causeStmt n) (hplaced : n.isPlaced inLoop inCall = true) :
    (visitCause visit n).Heeds inLoop inCall := by
  obtain ⟨conditions, block, rest, rfl, hconds, -⟩ := hn.causeStmt_inv
  have hdecides := goes_deciding (hvisit.phrase .conditions (by decide) _ hconds)
  rw [visitCause_eq visit hn]
  intro s hs
  refine .after (hs.mono id (by simp) : Standing false inCall s) hdecides fun outcome t _ ht => ?_
  refine .quiet ht (quiet_announceChosen outcome _) fun _ u _ hu => ?_
  cases hchosen : chosen? outcome block rest with
  | none => exact (Heeded.pure hu (by simp)).weaken (by simp) id
  | some chosen =>
    have hpart := Node.isPlaced_of_mem (by decide) hplaced (mem_of_chosen hchosen)
    exact .bind (heeded_visitBlock hvisit (of_chosen hn hchosen) hpart hu) fun _ _ _ hw _ => .pure hw fun _ => rfl

/-! ### Loops -/

theorem heeded_runIteration (hblock : Of .block parts.block)
    (hplaced : parts.block.isPlaced true inCall = true) (hs : Standing false inCall s) (i : Nat) :
    Heeded true inCall (· = false) ((runIteration visit parts i).exec s) := by
  have hM := Manner.unasked_lawful
  -- The loop is left if and only if its block has asked for it.
  have hrun : ∀ {s}, Standing false inCall s → Heeded true inCall (· = false)
      ((do let _ ← visitBlock visit parts.block; endLap i : Interp Bool).exec s) := by
    intro s hs
    refine .bind (heeded_visitBlock hvisit hblock hplaced hs) fun _ t _ ht _ => ?_
    rw [endLap, exec_get_bind]
    by_cases hasked : t.breaking = true
    · rw [if_pos hasked]
      refine .succeeding ht (quiet_note _).stays (succeeds_note ?_) fun _ u _ hu => .pure hu fun _ => rfl
      simp [Piece.isWritable]
    · rw [if_neg hasked]
      exact .pure ht fun h => absurd h hasked
  have hdefine : (define parts.var (.int i)).Goes .unasked := by
    intro t ht
    rw [define, exec_get_bind]
    refine ends_change (.refl _) ⟨ht, hM.refl t⟩ (fun u _ hu => ?_) fun u _ hu =>
      .quiet hu (quiet_announceOutcome _ _)
    exact ⟨hu.1.bindVar t.current _ _, Manner.unasked_setScope hu _ fun _ => rfl⟩
  refine .quiet hs (quiet_note _) fun _ t _ ht => ?_
  by_cases hempty : parts.var.isEmpty = true
  · rw [if_pos hempty]
    exact hrun ht
  · rw [if_neg hempty]
    exact .after ht hdefine fun _ u _ hu => .quiet hu (quiet_note _) fun _ w _ hw => hrun hw

theorem heeded_runIterations (hblock : Of .block parts.block)
    (hplaced : parts.block.isPlaced true inCall = true) (hs : Standing false inCall s) (left i : Nat) :
    Heeded true inCall (fun _ => True) ((runIterations visit parts left i).exec s) := by
  induction left generalizing s i with
  | zero => exact .pure (hs.mono (by simp) id) fun _ => trivial
  | succ left ih =>
    refine .bind (heeded_runIteration hvisit hblock hplaced hs i) fun more t _ ht hmore => ?_
    cases more with
    | true =>
      have hfree : t.breaking = false := Bool.eq_false_iff.mpr fun h => absurd (hmore h) (by simp)
      exact ih (ht.of_not_breaking hfree) (i + 1)
    | false => exact .pure ht fun _ => trivial

omit hvisit in
/-- However a loop ends that no fault cuts short, nobody is asked to leave it any more. -/
theorem heeded_endLoop (name : String) (hs : Standing true inCall s) :
    Heeded false inCall (fun _ => True) ((endLoop name).exec s) := by
  obtain ⟨t, hremarks, hexec⟩ := exec_dropRepeatVar name s
  have ht := hs.of_sameFrame hremarks.sameFrame
  rcases hexec with ⟨-, hexec⟩ | ⟨-, hexec⟩
  · rw [endLoop, exec_bind_ok hexec]
    have hformed := (ht.formed.dropVar t.current name).request t.result t.returning false
    exact ⟨⟨hformed, ht.discreet.setScope _ fun _ _ h => .inl h, by simp, ht.returning⟩, fun _ => trivial⟩
  · rw [endLoop, exec_bind_ok hexec]
    exact ⟨⟨ht.formed.request t.result t.returning false, ht.discreet, by simp, ht.returning⟩, fun _ => trivial⟩

theorem heeded_runLoop (htimes : Of .expr parts.times) (hblock : Of .block parts.block)
    (hplaced : parts.block.isPlaced true inCall = true) (hs : Standing false inCall s) :
    Heeded false inCall (fun _ => True) ((runLoop visit parts).exec s) := by
  refine .after hs (hvisit.phrase .expr (by decide) _ htimes) fun times t _ ht => ?_
  refine .quiet ht (quiet_isLoopCount times) fun counts u _ hu => ?_
  cases counts with
  | true =>
    refine .quiet hu (quiet_note _) fun _ w _ hw => ?_
    have hset : Standing false inCall { w with breaking := false } :=
      ⟨hw.formed.request w.result w.returning false, hw.discreet, by simp, hw.returning⟩
    rw [exec_bind_ok (exec_setBreaking false w)]
    refine .quiet hset (.ofExcept (Value.harmless_toInt times)) fun count x _ hx => ?_
    dsimp only
    split
    · refine .bind (heeded_runIterations hvisit hblock hplaced hx _ 1) fun _ y _ hy _ => ?_
      exact heeded_endLoop parts.var hy
    · exact heeded_endLoop parts.var (hx.mono (by simp) id)
  | false =>
    refine .of_ends hu (Manner.Ends.of_quiet hu.formed ?_)
    exact quiet_report (.lead (by decide))

theorem heeds_visitAgain (hn : Of .againStmt n) (hplaced : n.isPlaced inLoop inCall = true) :
    (visitAgain visit n).Heeds inLoop inCall := by
  obtain ⟨cs, parts, rfl, hparts, htimes, hblock⟩ := loop?_of_againStmt hn
  have hplaced := Node.isPlaced_again_stmt hplaced _ (mem_of_loopParts hparts).2
  intro s hs
  refine .noteStep (hs.mono id (by simp) : Standing false inCall s) fun t ht => ?_
  rw [exec_bind_ok (exec_childrenOf _ _ t), hparts]
  refine .bind (heeded_runLoop hvisit htimes hblock hplaced ht) fun _ u _ hu _ => ?_
  exact .pure (hu.mono (by simp) id) fun _ => rfl

/-! ### Requests -/

omit hvisit in
theorem heeds_visitStop : visitStop.Heeds true inCall := by
  intro s hs
  refine .noteStep (hs.mono id (by simp) : Standing false inCall s) fun t ht => ?_
  have hset : Standing true inCall { t with breaking := true } :=
    ⟨ht.formed.request t.result t.returning true, ht.discreet, fun _ => rfl, ht.returning⟩
  rw [exec_bind_ok (exec_setBreaking true t)]
  refine .succeeding hset (quiet_note _).stays (succeeds_note ?_) fun _ u _ hu => .pure hu fun _ => rfl
  simp [Piece.isWritable]

theorem heeds_visitBack (hn : Of .backStmt n) : (visitBack visit n).Heeds false true := by
  obtain ⟨rest, rfl, hrest⟩ := hn.backStmt_inv
  intro s hs
  refine .noteStep (hs.mono id (by simp) : Standing false true s) fun t ht => ?_
  rw [exec_bind_ok (exec_childrenOf _ _ t)]
  have hgive : ∀ {u}, Standing false true u → ∀ v, Heeded false true (· = .none) ((giveBack v).exec u) := by
    intro u hu v
    have hset : Standing false true { u with result := v, returning := true } :=
      ⟨hu.formed.request v true u.breaking, hu.discreet, hu.breaking, fun _ => rfl⟩
    rw [giveBack, exec_bind_ok (exec_modify _ u), exec_bind_ok (exec_modify _ _), exec_get_bind]
    exact .quiet hset (quiet_note _) fun _ w _ hw => .pure hw fun _ => rfl
  rcases hrest with rfl | ⟨value, rfl, hvalue⟩
  · exact hgive ht .none
  · exact .after ht (hvisit.phrase .expr (by decide) _ hvalue) fun v u _ hu => hgive hu v

theorem heeds_visitStatement (hn : Of .statement n) (hplaced : n.isPlaced inLoop inCall = true) :
    (visitStatement visit n).Heeds inLoop inCall := by
  obtain ⟨c, hc, only, rfl, honly⟩ := hn.statement_inv
  have hform : c ∈ deedForms := List.mem_append_left [Category.statement, .block] hc
  have honlyPlaced := Node.isPlaced_of_mem (by decide) hplaced (.head _)
  intro s hs
  refine .noteStep hs fun t ht => ?_
  rw [exec_bind_ok (exec_childrenOf _ _ t)]
  exact .bind (hvisit.deed c hform only honly _ _ honlyPlaced t ht) fun _ u _ hu _ => .pure hu fun _ => rfl

/-! ### Visits -/

omit hvisit in
theorem heeds_visitTree {rule : String} {step : Interp Value}
    (hstep : (if rule = "token" then visitToken visit else (namedStep visit rule).getD visitUnknown) n = step)
    (h : step.Heeds inLoop inCall) : (visitTree visit rule n).Heeds inLoop inCall := by
  intro s hs
  refine .noteStep hs fun t ht => ?_
  dsimp only
  rw [hstep]
  refine .bind (h t ht) fun v u _ hu hpassed => ?_
  by_cases hasked : u.breaking = true
  · obtain rfl := hpassed hasked
    have hnote : (noteResult [.lit "[RUNTIME] Visited ", .lit rule] .none).Succeeds :=
      .bind .get fun _ => .ite (succeeds_note fun _ => rfl) (.pure ())
    exact .succeeding hu (quiet_noteResult _ _).stays hnote fun _ w _ hw => .pure hw fun _ => rfl
  · have hfree := hu.of_not_breaking (Bool.eq_false_iff.mpr hasked)
    refine (Heeded.quiet hfree (quiet_noteResult _ v) fun _ w _ hw => .pure hw ?_).weaken (by simp) id
    exact fun h => nomatch hw.breaking h

theorem heeds_visitNode {c : Category} (hc : c ∈ deedForms) (hn : Of c n)
    (hplaced : n.isPlaced inLoop inCall = true) : (visitNode visit n).Heeds inLoop inCall := by
  have hE := Manner.unasked_lawful
  have hB := Manner.unasked_binding
  have hbelow := hvisit.toBelow
  rcases deedForms_cases hc with hplain | rfl | rfl | rfl | rfl | rfl | rfl | rfl
  · exact .of_goes fun s hs => ends_visitNode_plain hB hbelow hplain hn hs fun _ _ => .of_imp id
  · have hheeds := heeds_visitCause hvisit hn hplaced
    obtain ⟨conditions, block, rest, rfl, -⟩ := hn.causeStmt_inv
    exact heeds_visitTree rfl hheeds
  · have hheeds := heeds_visitAgain hvisit hn hplaced
    obtain ⟨cs, parts, rfl, -⟩ := loop?_of_againStmt hn
    exact heeds_visitTree rfl hheeds
  · obtain rfl := hn.repStop_inv
    obtain rfl : inLoop = true := hplaced
    exact heeds_visitTree rfl heeds_visitStop
  · obtain ⟨name, params, body, rfl, hbody⟩ := hn.funcDef_inv
    have hnaming : Manner.unasked.Naming .unasked body :=
      Manner.unasked_naming (Node.isPlaced_func_def hplaced body (by simp))
    refine heeds_visitTree rfl (.of_goes fun s hs => ?_)
    exact ends_visitFuncDef hB _ name params hbody hnaming hs (.of_imp id)
  · have hheeds := heeds_visitBack hvisit hn
    obtain ⟨rest, rfl, -⟩ := hn.backStmt_inv
    obtain rfl : inCall = true := hplaced
    exact heeds_visitTree rfl (hheeds.weaken (by simp) id)
  · have hheeds := heeds_visitStatement hvisit hn hplaced
    obtain ⟨c, -, only, rfl, -⟩ := hn.statement_inv
    exact heeds_visitTree rfl hheeds
  · have hheeds : (visitBlock visit n).Heeds inLoop inCall :=
      fun s hs => heeded_visitBlock hvisit hn hplaced (hs.mono id (by simp))
    obtain ⟨items, rfl, -⟩ := hn.block_inv
    exact heeds_visitTree rfl hheeds

end Steps

/-- Of the body of a function nothing is run while a loop is asked to end. -/
theorem sameFrame_block_of_breaking (visit : Visit) (items : List Node) (hs : s.breaking = true) :
    SameFrame s ((visitNode visit (.tree "block" items)).exec s).2 := by
  have hskip : ∀ t : Session, t.breaking = true → (runStatements visit items).exec t = (.ok (), t) := by
    intro t ht
    induction items with
    | nil => rfl
    | cons item rest ih =>
      rw [runStatements]
      split
      · rw [exec_get_bind, ht, Bool.or_true, if_pos rfl, exec_pure]
      · exact ih
  obtain ⟨_, t, hfirst⟩ : ∃ a t, (noteStep "visit_block").exec s = (.ok a, t) := ⟨_, _, rfl⟩
  obtain ⟨_, u, hsnd⟩ : ∃ a u, (noteStep "visit_block").exec t = (.ok a, u) := ⟨_, _, rfl⟩
  have hstays := (quiet_noteStep "visit_block").stays
  have hframe := (hstays.sameFrame hfirst).trans (hstays.sameFrame hsnd)
  have hblock : (visitBlock visit (.tree "block" items)).exec t = (.ok .none, u) := by
    rw [visitBlock, exec_bind_ok hsnd, exec_bind_ok (hskip u (hframe.breaking.trans hs)), exec_pure]
  have hrest : (do noteResult [.lit "[RUNTIME] Visited ", .lit "block"] .none; return .none : Interp Value).Stays :=
    .bind (quiet_noteResult _ _).stays fun _ => .pure _
  change SameFrame s ((do
    noteStep "visit_block"
    let v ← visitBlock visit (.tree "block" items)
    noteResult [.lit "[RUNTIME] Visited ", .lit "block"] v
    return v : Interp Value).exec s).2
  rw [exec_bind_ok hfirst, exec_bind_ok hblock]
  exact hframe.trans (hrest u)

theorem sameFrame_body_of_breaking (stops : Node → Session → Bool) (depth : Nat) (hn : Of .block n)
    (hs : s.breaking = true) : SameFrame s ((visitUntil stops depth n).exec s).2 := by
  obtain ⟨items, rfl, -⟩ := hn.block_inv
  cases depth with
  | zero => exact .refl s
  | succ depth =>
    have hframe := sameFrame_block_of_breaking (visitUntil stops depth) items hs
    rcases givesUp_visitUntil stops depth (.tree "block" items) s with hexec | hexec
    · rw [hexec]
      exact .refl s
    · rw [hexec, exec_recover]
      rcases hvisit : (visitNode (visitUntil stops depth) (.tree "block" items)).exec s with ⟨(f | _) | v, t⟩ <;>
        rw [hvisit] at hframe
      · exact hframe
      · exact hframe
      · exact hframe

/-- A call leaves the requests to its caller's loops as they are. -/
theorem unasked_runCall (stops : Node → Session → Bool) (depth : Nat)
    (hbodies : ∀ n, Of .block n → n.isPlaced false true = true → (visitUntil stops depth n).Heeds false true)
    (hs : Formed s) {f : Function} (hf : s.Knows f) (bound : List (String × Value)) :
    Manner.unasked.Ends s ((runCall (visitUntil stops depth) f bound).exec s) := by
  have hformed := ((beside_growing stops depth).call s hs f hf bound).formed
  have hbody := hs.body hf
  -- What the body leaves behind, whether or not a loop had been asked to end before the call.
  have hleft : ∀ outcome t, (visitUntil stops depth f.body).exec (s.entered f bound) = (outcome, t) → Discreet s →
      Discreet t ∧ (outcome ≠ .error .exhausted → t.breaking = s.breaking) := by
    intro outcome t hexec hdiscreet
    cases hasked : s.breaking with
    | true =>
      have hframe := sameFrame_body_of_breaking stops depth hbody (s := s.entered f bound) hasked
      rw [hexec] at hframe
      exact ⟨(hdiscreet.entered f bound).of_scopes_eq hframe.scopes, fun _ => hframe.breaking.trans hasked⟩
    | false =>
      have hstart : Standing false false (s.entered f bound) :=
        ⟨hs.entered hf bound, hdiscreet.entered f bound, fun h => (nomatch hasked.symm.trans h),
          nofun⟩
      have hend := hbodies f.body hbody (hdiscreet.body hf) _ hstart
      rw [hexec] at hend
      rcases outcome with (g | _) | v
      · exact ⟨hend.discreet, fun _ => hend.breaking_eq⟩
      · exact ⟨hend.2, fun h => absurd rfl h⟩
      · exact ⟨hend.1.discreet, fun _ => hend.1.breaking_eq⟩
  rw [exec_runCall] at hformed ⊢
  rcases hexec : (visitUntil stops depth f.body).exec (s.entered f bound) with ⟨(g | _) | v, t⟩ <;>
    rw [hexec] at hformed
  · refine ⟨hformed, fun hdiscreet => ?_⟩
    obtain ⟨ht, hbreak⟩ := hleft _ t hexec hdiscreet
    exact ⟨ht, fun _ => ⟨hbreak (by simp), rfl⟩⟩
  · exact ⟨hformed, fun hdiscreet => ⟨(hleft _ t hexec hdiscreet).1, fun h => absurd rfl h⟩⟩
  · refine ⟨hformed, fun hdiscreet => ?_⟩
    obtain ⟨ht, hbreak⟩ := hleft _ t hexec hdiscreet
    exact ⟨ht, hbreak (by simp), rfl⟩

theorem heedful_visitUntil (stops : Node → Session → Bool) (depth : Nat) : Heedful (visitUntil stops depth) := by
  have hE := Manner.unasked_lawful
  induction depth with
  | zero =>
    have hgoes : ∀ n, (visitUntil stops 0 n).Goes .unasked := fun n s hs => ⟨hs, hE.exhausted s⟩
    have hdeed : ∀ n, (visitUntil stops 0 n).Heeds false true := fun n s hs => ⟨hs.formed, hs.discreet⟩
    exact {
      tame := tame_visitUntil stops 0
      phrase := fun _ _ n _ => hgoes n
      token := fun _ _ _ => hgoes _
      absent := hgoes _
      call := fun s hs f hf bound => unasked_runCall stops 0 (fun n _ _ => hdeed n) hs hf bound
      comparison := fun h => absurd (Prod.mk.inj h).1 (by simp)
      logic := fun _ h => absurd (Prod.mk.inj h).1 (by simp)
      list := fun _ h => absurd (Prod.mk.inj h).1 (by simp)
      deed := fun _ _ n _ _ _ _ s hs => ⟨hs.formed, hs.discreet⟩ }
  | succ depth ih =>
    have hgives := givesUp_visitUntil stops depth
    have hdeed : ∀ c ∈ deedForms, ∀ n, Of c n → ∀ inLoop inCall, n.isPlaced inLoop inCall = true →
        (visitUntil stops (depth + 1) n).Heeds inLoop inCall := by
      intro c hc n hn inLoop inCall hplaced s hs
      rcases hgives n s with hexec | hexec
      · rw [hexec]
        exact ⟨hs.formed, hs.discreet⟩
      · have hend := heeds_visitNode ih hc hn hplaced s hs
        rw [hexec, exec_recover]
        rcases hvisit : (visitNode (visitUntil stops depth) n).exec s with ⟨(f | _) | v, t⟩ <;> rw [hvisit] at hend
        · exact hend
        · exact hend
        · exact hend
    exact {
      tame := tame_visitUntil stops (depth + 1)
      phrase := fun c hc n hn => (hgives n).goes (goes_visitNode_phrase ih.toBelow hc hn)
      token := fun t ht text => (hgives _).goes ((quiet_visitNode_token ht text).goes)
      absent := (hgives _).goes (.pure _)
      call := fun s hs f hf bound => unasked_runCall stops (depth + 1) (fun n hn => hdeed .block (by decide) n hn _ _) hs hf bound
      comparison := fun h => eq_of_visitNode_comparison ((hgives _).value h)
      logic := fun hn h => cases_of_visitNode_logicOp hn ((hgives _).value h)
      list := fun hn h => list_of_visitNode_listLiteral hn ((hgives _).value h)
      deed := hdeed }

theorem unasked_visit_funcCallStmt (stops : Node → Session → Bool) (depth : Nat) (hn : Of .funcCallStmt n) :
    (visitUntil stops depth n).Goes .unasked := by
  have hE := Manner.unasked_lawful
  cases depth with
  | zero => exact fun s hs => ⟨hs, hE.exhausted s⟩
  | succ depth =>
    have hgoes := goes_visitFuncCallStmt (heedful_visitUntil stops depth).toBelow hn
    refine (givesUp_visitUntil stops depth n).goes ?_
    obtain ⟨name, rest, rfl, -⟩ := hn.funcCallStmt_inv
    exact goes_visitTree rfl hgoes

/-! ### Runs -/

theorem Heeded.recover {handler : Fault → Interp α} {passed : α → Prop} (hm : Heeded inLoop inCall passed (m.exec s))
    (hhandler : ∀ f t, Standing false inCall t → Heeded inLoop inCall passed ((handler f).exec t)) :
    Heeded inLoop inCall passed ((Interp.recover m handler).exec s) := by
  rw [exec_recover]
  rcases hexec : m.exec s with ⟨(f | _) | a, t⟩ <;> rw [hexec] at hm
  · exact hhandler f t hm
  · exact hm
  · exact hm

/-- A quiet step at the top level. -/
theorem heeded_of_quiet {passed : α → Prop} (hm : m.Quiet) (hs : Standing false inCall s) :
    Heeded false inCall passed (m.exec s) :=
  .of_ends hs (.of_quiet hs.formed hm)

section Runs

variable {visit : Visit} (hvisit : Heedful visit)

include hvisit

theorem heeded_runTop (hn : IsItem n) (hplaced : n.isPlaced false false = true) (hs : Standing false false s)
    (i : Nat) : Heeded false false (fun _ => True) ((runTop visit i n).exec s) := by
  have hitem : (visit n).Heeds false false := by
    rcases hn with hstmt | ⟨text, rfl⟩
    · exact hvisit.deed .statement (by decide) n hstmt _ _ hplaced
    · exact .of_goes (hvisit.token .newline rfl text)
  refine .quiet hs (quiet_setLine i) fun _ t _ ht => .quiet ht .get fun _ u _ hu => ?_
  refine .quiet hu (quiet_debugIf _ _) fun _ w _ hw => .recover ?_ fun f x hx => ?_
  · exact .bind (hitem w hw) fun _ x _ hx _ => .pure hx fun _ => trivial
  · exact heeded_of_quiet (quiet_statementFault i f) hx

theorem heeded_runProgram {ns : List Node} (hns : ∀ n ∈ ns, IsItem n) (hplaced : ∀ n ∈ ns, n.isPlaced false false = true)
    (hs : Standing false false s) (i : Nat) : Heeded false false (fun _ => True) ((runProgram visit i ns).exec s) := by
  induction ns generalizing s i with
  | nil => exact .pure hs fun _ => trivial
  | cons n rest ih =>
    obtain ⟨hn, hrest⟩ := List.forall_mem_cons.mp hns
    obtain ⟨hfirst, hothers⟩ := List.forall_mem_cons.mp hplaced
    exact .bind (heeded_runTop hvisit hn hfirst hs i) fun _ t _ ht _ => ih hrest hothers ht (i + 1)

omit hvisit in
theorem heeded_concluding {m : Interp Unit} (hm : Heeded false false (fun _ => True) (m.exec s)) :
    Heeded false false (fun _ => True) ((concluding m).exec s) := by
  refine .recover (.bind hm fun _ t _ ht _ => .quiet ht quiet_checkUnused fun _ u _ hu => ?_) fun f t ht => ?_
  · exact .quiet hu .get fun _ w _ hw => heeded_of_quiet (quiet_flushNotes _) hw
  · exact heeded_of_quiet (quiet_programFailure (ordinary_message f)) ht

/-- Nothing is skipped in a block in which no request stands. -/
theorem exec_runStatements_eq_visitAll (hitems : ∀ item ∈ items, IsItem item)
    (hplaced : ∀ item ∈ items, item.isPlaced false false = true) (hs : Standing false false s) :
    (runStatements visit items).exec s = (visitAll_ visit (items.filter (·.hasRule "statement"))).exec s := by
  induction items generalizing s with
  | nil => rfl
  | cons item rest ih =>
    obtain ⟨hitem, hrest⟩ := List.forall_mem_cons.mp hitems
    obtain ⟨hfirst, hothers⟩ := List.forall_mem_cons.mp hplaced
    rcases hitem with hstmt | ⟨text, rfl⟩
    · have hrule := hstmt.hasRule_statement
      have hfilter : (item :: rest).filter (·.hasRule "statement") = item :: rest.filter (·.hasRule "statement") :=
        List.filter_cons_of_pos hrule
      have hend := hvisit.deed .statement (by decide) item hstmt _ _ hfirst s hs
      rw [runStatements, if_pos hrule, exec_get_bind, hs.returning_eq, hs.breaking_eq, Bool.or_false,
        if_neg Bool.false_ne_true, hfilter, visitAll_, exec_bind, exec_bind]
      cases hexec : (visit item).exec s with
      | mk outcome t =>
        rw [hexec] at hend
        cases outcome with
        | ok v => exact ih hrest hothers hend.1
        | error stop => rfl
    · exact ih hrest hothers hs

/-- All statements of a block, one after the other. -/
def carryingOut (visit : Visit) (items : List Node) : Interp Value := do
  note ["[RUNTIME] Executing if block"]
  noteStep "visit_block"
  visitAll_ visit (items.filter (·.hasRule "statement"))
  return .none

/-- A branch whose condition holds runs its whole block. -/
theorem exec_visitCause_of_holds {conditions : Node} {rest : List Node}
    (hn : Of .causeStmt (.tree "cause_stmt" (conditions :: .tree "block" items :: rest)))
    (hplaced : (Node.tree "cause_stmt" (conditions :: .tree "block" items :: rest)).isPlaced false false = true)
    (hs : Standing false false s) (hholds : (deciding visit conditions).exec s = (.ok true, u)) :
    (visitCause visit (.tree "cause_stmt" (conditions :: .tree "block" items :: rest))).exec s =
      (carryingOut visit items).exec u := by
  obtain ⟨_, _, _, hparts, hconds, hblock, -⟩ := hn.causeStmt_inv
  obtain ⟨rfl, hothers⟩ := List.cons.inj (Node.tree.inj hparts).2
  cases hothers
  obtain ⟨_, hlist, hitems⟩ := hblock.block_inv
  obtain rfl := (Node.tree.inj hlist).2
  have hitem : ∀ item ∈ items, item.isPlaced false false = true := fun _ => Node.isPlaced_of_mem (by decide)
    (Node.isPlaced_of_mem (by decide) hplaced (.tail _ (.head _)))
  have hu : Standing false false u := by
    have hdecides := goes_deciding (hvisit.phrase .conditions (by decide) _ hconds)
    have hend : Heeded false false (fun _ => True) ((deciding visit conditions).exec s) :=
      .of_ends hs (hdecides s hs.formed)
    rw [hholds] at hend
    exact hend.1
  -- In the block nothing is pending.
  have hannounces : (note ["[RUNTIME] Executing if block"]).Succeeds := succeeds_note (by simp [Piece.isWritable])
  obtain ⟨_, w, hannounce, hw⟩ := hannounces.exists_frame (quiet_note _).stays u
  obtain ⟨_, x, hblockBegin⟩ : ∃ a x, (noteStep "visit_block").exec w = (.ok a, x) := ⟨_, _, rfl⟩
  have hx := (hu.of_sameFrame hw).of_sameFrame ((quiet_noteStep _).stays.sameFrame hblockBegin)
  have hrun := exec_runStatements_eq_visitAll hvisit hitems hitem hx
  rw [visitCause_eq visit hn, exec_bind_ok hholds, carryingOut, exec_bind_ok hannounce, exec_bind_ok hblockBegin]
  refine (exec_bind_ok hannounce).trans ?_
  change (do let _ ← visitBlock visit (.tree "block" items); return .none : Interp Value).exec w = _
  rw [exec_bind, visitBlock, exec_bind_ok hblockBegin, exec_bind, hrun, exec_bind]
  cases (visitAll_ visit (items.filter (·.hasRule "statement"))).exec x with
  | mk outcome y =>
    cases outcome with
    | ok a => rfl
    | error stop => rfl

end Runs

/-- No request is pending, and functions keep their requests to themselves. -/
structure Settled (s : Session) : Prop where
  discreet : Discreet s
  breaking : s.breaking = false
  returning : s.returning = false

/-- Requests do not outlive their constructs in a program in which they stand where there is
something to leave. A call leaves the request to the loop around it as it is. When a statement of
the text begins, no request is pending, so a branch whose condition holds runs all statements of its
block. The session in which the run ends is settled again. -/
theorem requests_end_with_their_constructs {s : Session} (hs : Arising s) (hsettled : Settled s) {code : String}
    {items : List Node} (hparse : parse code = .ok (.tree "start" items))
    (hplaced : (Node.tree "start" items).isPlaced false false = true) :
    (∀ stops, ∀ c ∈ .funcCallStmt :: phraseForms, ∀ n, Of c n → ∀ depth t,
      (visit depth n).Leaves ((executeWithin (visitUntil stops depthLimit) code).exec s).2 t →
        t.breaking = ((executeWithin (visitUntil stops depthLimit) code).exec s).2.breaking) ∧
    (∃ start, (preparing items).exec s = (.ok (), start) ∧
      (execute code).exec s = (concluding (runProgram (visit depthLimit) 1 items)).exec start ∧
      ∀ before n after, items = before ++ n :: after →
        (∃ t, (runProgram (visit depthLimit) 1 before).exec start = (.error .exhausted, t)) ∨
        ∃ t, (do runProgram (visit depthLimit) 1 before; beginTop (before.length + 1)).exec start = (.ok (), t) ∧
          t.breaking = false ∧ t.returning = false ∧
          ∀ conditions block rest,
            n = .tree "statement" [.tree "cause_stmt" (conditions :: .tree "block" block :: rest)] →
            ∀ depth t' u, SameFrame t t' → (deciding (visit depth) conditions).exec t' = (.ok true, u) →
              (visitCause (visit depth) (.tree "cause_stmt" (conditions :: .tree "block" block :: rest))).exec t' =
                (carryingOut (visit depth) block).exec u) ∧
    ∀ t, (execute code).exec s = (.ok (), t) → Settled t := by
  have hstanding : Standing false false s :=
    ⟨hs.formed, hsettled.discreet, by simp [hsettled.breaking],
      by simp [hsettled.returning]⟩
  have hitems := isItem_of_parse hparse
  have hitem : ∀ item ∈ items, item.isPlaced false false = true := fun _ ↦ Node.isPlaced_of_mem (by decide) hplaced
  have hvisit : ∀ depth, Heedful (visit depth) := fun depth ↦ visitUntil_never depth ▸ heedful_visitUntil _ depth
  obtain ⟨start, hprepared, hframe, hrun⟩ := exec_executeWithin hparse s
  have hstart := hstanding.of_sameFrame hframe
  have hends : ∀ visit, Heedful visit → Heeded false false (fun _ ↦ True) ((executeWithin visit code).exec s) := by
    intro visit hvisit
    rw [hrun visit]
    exact heeded_concluding (heeded_runProgram hvisit hitems hitem hstart 1)
  refine ⟨fun stops c hc n hn depth t hleaves ↦ ?_, ⟨start, hprepared, hrun _, fun before n after hsplit ↦ ?_⟩,
    fun t hexec ↦ ?_⟩
  · have hend := hends _ (heedful_visitUntil stops depthLimit)
    have hgoes : (visit depth n).Goes .unasked := by
      rcases List.mem_cons.mp hc with rfl | hc
      · exact visitUntil_never depth ▸ unasked_visit_funcCallStmt _ depth hn
      · exact (hvisit depth).phrase c hc n hn
    exact hgoes.breaking_of_leaves hend.formed hend.discreet hleaves
  · obtain ⟨entry, hbefore | hbefore⟩ := exec_runProgram_cases (visit depthLimit) before 1 start
    · obtain ⟨_, t, hbegin, ht⟩ := (succeeds_beginTop (before.length + 1)).exists_frame (quiet_beginTop _).stays entry
      have hentry : Standing false false entry := by
        rw [hsplit, List.forall_mem_append] at hitems hitem
        have hend := heeded_runProgram (hvisit depthLimit) hitems.1 hitem.1 hstart 1
        rw [hbefore] at hend
        exact hend.1
      have ht := hentry.of_sameFrame ht
      refine .inr ⟨t, by rw [exec_bind_ok hbefore, hbegin], ht.breaking_eq, ht.returning_eq, ?_⟩
      rintro conditions block rest rfl depth t' u hframe hholds
      have hmem : Node.tree "statement" [.tree "cause_stmt" (conditions :: .tree "block" block :: rest)] ∈ items := by
        rw [hsplit]
        simp
      have hof := of_part hparse (.child hmem (.child (.head _) (.refl _))) .causeStmt (by decide)
      have hplaced := Node.isPlaced_of_mem (by decide) (hitem _ hmem) (.head _)
      exact exec_visitCause_of_holds (hvisit depth) hof hplaced (ht.of_sameFrame hframe) hholds
    · exact .inl ⟨entry, hbefore⟩
  · have hend := hends _ (hvisit depthLimit)
    rw [execute] at hexec
    rw [hexec] at hend
    exact ⟨hend.1.discreet, hend.1.breaking_eq, hend.1.returning_eq⟩

/-- A loop that is left at once, a function that returns, and a branch after them. -/
theorem branch_runs_after_requests :
    ∃ items t, parse "Fuc f()[back.value(1)]\nAgain(2)[rep.stop]\nCause f() > 0 [out.Info(1)]" = .ok (.tree "start" items) ∧
      (Node.tree "start" items).isPlaced false false = true ∧
      (execute "Fuc f()[back.value(1)]\nAgain(2)[rep.stop]\nCause f() > 0 [out.Info(1)]").exec Session.fresh =
        (.ok (), t) ∧ t.hasOutput = true ∧ Settled t := by
  let code := "Fuc f()[back.value(1)]\nAgain(2)[rep.stop]\nCause f() > 0 [out.Info(1)]"
  obtain ⟨hparses, hplaced, hrun⟩ : (parse code).isOk = true ∧
      (Node.tree "start" (parsedItems code)).isPlaced false false = true ∧
      (returned? ((execute code).exec Session.fresh)).map (·.hasOutput) = some true := by
    decide +kernel
  have hparse : parse code = .ok (.tree "start" (parsedItems code)) := parse_eq_parsedItems hparses
  have hs : Arising Session.fresh := .fresh (some [])
  have hsettled : Settled Session.fresh := by
    refine ⟨fun id entry hentry ↦ ?_, rfl, rfl⟩
    cases id with
    | zero => cases hentry
    | succ id => cases hentry
  obtain ⟨t, hreturned, houtput⟩ := Option.map_eq_some_iff.mp hrun
  obtain ⟨_, hexec⟩ := returned?_eq_some hreturned
  obtain ⟨-, -, hend⟩ := requests_end_with_their_constructs hs hsettled hparse hplaced
  exact ⟨parsedItems code, t, hparse, hplaced, hexec, houtput, hend t hexec⟩

end Run

end FapLang
