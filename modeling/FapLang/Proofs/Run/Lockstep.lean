import FapLang.Proofs.Run.Reachable
import FapLang.Proofs.Run.Twins

/-!
Whole runs in lockstep (`Twins.executeWithin`). Visitors that stop where the difference would matter
are twins of the plain one: at long integers (`twins_visitShort`), or where the other source reads
differently (`twins_visitUntil`).
-/

namespace FapLang.Run

open Interp

variable {p : Aspect} {s t : Session} {label : List Piece}

/-! ### Visits -/

/-- Whether the step of a node looks at the source. -/
def looksAtSource : Node → Bool
  | .tree name _ | .token name _ => sourceRules.contains name
  | _ => false

/-- An integer with too many digits has come up. -/
def Overlong (outcome : Except Stop Value) : Prop :=
  (∃ v, outcome = .ok v ∧ v.isShort = false) ∨ outcome = .error (.fault .tooManyDigits)

/-- How a second visit must end for a first one; in traces only until an integer is too long. -/
def Nearly (p : Aspect) (first second : Except Stop Value × Session) : Prop :=
  Matches p p.Admits first second ∨ (p = .trace ∧ Overlong first.1)

theorem hidden_noteResult (hlabel : ∀ piece ∈ label, piece.Admits .trace) {v : Value}
    (hv : p.Admits v) : (noteResult label v).Hidden p := by
  intro s hs
  rw [noteResult, exec_get_bind]
  cases p with
  | source =>
    rw [if_neg (ne_true_of_eq_false hs.1)]
    exact Hidden.pure s hs
  | trace =>
    have hnote : (note (label ++ [.lit " -> ", .val v])).Hidden .trace := by
      refine hidden_note fun s hs => Short.isWritable hs fun piece hpiece => ?_
      rcases List.mem_append.mp hpiece with hpiece | hpiece
      · exact hlabel piece hpiece
      · rw [List.mem_cons, List.mem_singleton] at hpiece
        rcases hpiece with rfl | rfl
        · trivial
        · exact hv
    exact Hidden.ite hnote .pure s hs

theorem outcome_note (message : List Piece) (s : Session) :
    ((note message).exec s).1 = .ok () ∨ ((note message).exec s).1 = .error (.fault .tooManyDigits) := by
  by_cases hwrites : s.Writes message
  · obtain ⟨t, hexec, -⟩ := tells_note hwrites
    exact .inl (congrArg Prod.fst hexec)
  · exact .inr (congrArg Prod.fst (exec_note_of_not_writes hwrites))

/-- A value with a long integer is still one, or a fault, after it has been shown. -/
theorem overlong_noteResult (label : List Piece) {v : Value} (hv : v.isShort = false) (s : Session) :
    Overlong ((do noteResult label v; return v : Interp Value).exec s).1 := by
  have hout : ((noteResult label v).exec s).1 = .ok () ∨
      ((noteResult label v).exec s).1 = .error (.fault .tooManyDigits) := by
    rw [noteResult, exec_get_bind]
    split
    · exact outcome_note _ s
    · exact .inl rfl
  cases hexec : (noteResult label v).exec s with
  | mk outcome t =>
    rw [hexec] at hout
    rcases hout with heq | heq
    · obtain rfl : outcome = .ok () := heq
      rw [exec_bind_ok hexec]
      exact .inl ⟨v, rfl, hv⟩
    · obtain rfl : outcome = .error (.fault .tooManyDigits) := heq
      rw [exec_bind_error hexec]
      exact .inr rfl

/-- Whether the result of a step is shown makes no difference but for long integers. -/
theorem Matches.nearly_noteResult {step step' : Interp Value} (hlabel : ∀ piece ∈ label, piece.Admits .trace)
    (h : Matches p (fun _ => True) (step.exec s) (step'.exec t)) :
    Nearly p ((do let v ← step; noteResult label v; return v : Interp Value).exec s)
      ((do let v ← step'; noteResult label v; return v : Interp Value).exec t) := by
  cases hexec : step.exec s with
  | mk outcome s' =>
  by_cases hlong : p = .trace ∧ ∃ v, outcome = .ok v ∧ v.isShort = false
  · obtain ⟨hp, v, rfl, hv⟩ := hlong
    rw [exec_bind_ok hexec]
    exact .inr ⟨hp, overlong_noteResult label hv s'⟩
  · refine .inl (h.bind fun v s'' t'' hfirst _ _ halike => ?_)
    have hv : p.Admits v := by
      intro hp
      obtain ⟨hout, _⟩ := Prod.mk.inj (hexec.symm.trans hfirst)
      by_contra hshort
      exact hlong ⟨hp, v, hout, Bool.eq_false_iff.mpr hshort⟩
    exact Mirrors.after (hidden_noteResult hlabel hv).echoes (fun _ => .pure hv) s'' t'' halike

namespace Twins

variable {first second : Visit} (h : Twins p first second)

include h

theorem visitToken (n : Node) (hst : Alike p s t) (hread : looksAtSource n = true → t.reading = s.reading) :
    Nearly p ((visitToken first n).exec s) ((visitToken second n).exec t) := by
  cases n with
  | token kind text =>
    have hexec : ∀ visit s, (Run.visitToken visit (.token kind text)).exec s =
        (noteStep ("visit_" ++ kind) >>= fun _ => do
          let v ← (Run.namedStep visit kind).getD (visitText "visit_unknown_token") (.token kind text)
          noteResult [.lit "[RUNTIME] Visited token ", .lit kind, .lit " '", .lit text, .lit "'"] v
          return v).exec s := fun _ _ => rfl
    obtain ⟨s', t', hs, ht, hst', hr, hr'⟩ := hst.exec_noteStep ("visit_" ++ kind)
    rw [hexec, hexec, exec_bind_ok hs, exec_bind_ok ht]
    refine Matches.nearly_noteResult (by simp [Piece.Admits])
      (h.namedStep (.inr ⟨text, rfl⟩) ((lawful_mirroring p).visitText _ _) hst' ?_)
    rwa [hr, hr']
  | tree | absent | plain => exact .inl (.fault hst _)

theorem visitTree (rule : String) (cs : List Node) (hst : Alike p s t)
    (hread : sourceRules.contains rule = true → t.reading = s.reading) :
    Nearly p ((visitTree first rule (.tree rule cs)).exec s) ((visitTree second rule (.tree rule cs)).exec t) := by
  obtain ⟨s', t', hs, ht, hst', hr, hr'⟩ := hst.exec_noteStep ("visit_" ++ rule)
  rw [Run.visitTree, Run.visitTree, exec_bind_ok hs, exec_bind_ok ht]
  refine Matches.nearly_noteResult (by simp [Piece.Admits]) ?_
  by_cases htoken : rule = "token"
  · -- a tree has no kind of token
    rw [if_pos htoken, if_pos htoken]
    exact .fault hst' _
  · rw [if_neg htoken, if_neg htoken]
    refine h.namedStep (.inl rfl) ((lawful_mirroring p).visitUnknown _) hst' ?_
    rwa [hr, hr']

/-- One visit in sessions that are alike. -/
theorem visitNode (n : Node) (hst : Alike p s t) (hread : looksAtSource n = true → t.reading = s.reading) :
    Nearly p ((visitNode first n).exec s) ((visitNode second n).exec t) := by
  cases n with
  | tree rule cs => exact h.visitTree rule cs hst hread
  | token kind text => exact h.visitToken _ hst hread
  | absent => exact .inl (.value hst admits_none)
  | plain text => exact .inl (.value hst (admits_text text))

end Twins

/-- A fault that shows the inside is hidden in both visits; one for a long integer stays. -/
theorem Nearly.hideInternal {m m' : Interp Value} (h : Nearly p (m.exec s) (m'.exec t)) :
    Nearly p ((recover m fun f => Interp.fail (hideInternal f)).exec s)
      ((recover m' fun f => Interp.fail (hideInternal f)).exec t) := by
  rcases h with hmatches | ⟨hp, hlong⟩
  · exact .inl (hmatches.recover fun f s t h => .fault h _)
  · refine .inr ⟨hp, ?_⟩
    rw [exec_recover]
    cases hexec : m.exec s with
    | mk outcome s' =>
      rw [hexec] at hlong
      rcases hlong with ⟨v, heq, hv⟩ | heq
      · obtain rfl : outcome = .ok v := heq
        exact .inl ⟨v, rfl, hv⟩
      · obtain rfl : outcome = .error (.fault .tooManyDigits) := heq
        refine .inr ?_
        dsimp only
        rw [hideInternal_tooManyDigits]
        rfl

/-! ### Visitors that watch for what matters -/

instance {α : Type} (outcome : Except Stop α) : Decidable (outcome = .error .exhausted) :=
  match outcome with
  | .ok _ => isFalse nofun
  | .error (.fault _) => isFalse nofun
  | .error .exhausted => isTrue rfl

def failUnlessLong : Fault → Interp Value
  | .tooManyDigits => throw .exhausted
  | f => Interp.fail f

/-- Ends the run where a step gives or fails for an integer of too many digits. -/
def watched (step : Interp Value) : Interp Value := do
  let v ← recover step failUnlessLong
  if v.isShort then pure v else throw .exhausted

/-- Visits that end the run once an integer of too many digits comes up. -/
def visitShort : Nat → Node → Interp Value
  | 0, _ => throw .exhausted
  | depth + 1, n =>
    watched (recover (visitNode (visitShort depth) n) fun f => Interp.fail (hideInternal f))

theorem exec_failUnlessLong (f : Fault) (s : Session) :
    (failUnlessLong f).exec s = (.error .exhausted, s) ∨ (failUnlessLong f).exec s = (.error (.fault f), s) := by
  unfold failUnlessLong
  split
  · exact .inl rfl
  · exact .inr rfl

theorem Nearly.watched {m m' : Interp Value} (h : Nearly .trace (m.exec s) (m'.exec t)) :
    Matches .trace Aspect.trace.Admits ((watched m).exec s) (m'.exec t) := by
  rw [Run.watched, exec_bind, exec_recover]
  cases hexec : m.exec s with
  | mk outcome s' =>
    rw [hexec] at h
    rcases h with (hexhausted | ⟨hout, halike, hok⟩) | ⟨_, ⟨v, heq, hv⟩ | heq⟩
    · obtain rfl : outcome = .error .exhausted := hexhausted
      exact .inl rfl
    · cases outcome with
      | ok v =>
        have hv : v.isShort = true := hok v rfl rfl
        dsimp only
        rw [if_pos hv]
        exact .inr ⟨hout, halike, hok⟩
      | error stop =>
        cases stop with
        | exhausted => exact .inl rfl
        | fault f =>
          dsimp only
          rcases exec_failUnlessLong f s' with hexec | hexec
          · rw [hexec]
            exact .inl rfl
          · rw [hexec]
            exact .inr ⟨hout, halike, by simp⟩
    · obtain rfl : outcome = .ok v := heq
      dsimp only
      rw [if_neg (ne_true_of_eq_false hv)]
      exact .inl rfl
    · obtain rfl : outcome = .error (.fault .tooManyDigits) := heq
      exact .inl rfl

theorem Alike.reading_eq (h : Alike .trace s t) : t.reading = s.reading := by
  have hfield : ∀ {β : Type} (field : Session → β), field (Aspect.trace.blur t) = field (Aspect.trace.blur s) :=
    fun field => congrArg field h.blur
  exact Session.reading_congr (hfield Session.source) (hfield Session.line)

theorem twins_visitShort (depth : Nat) : Twins .trace (visitShort depth) (visit depth) := by
  induction depth with
  | zero => exact fun n => .exhausted
  | succ depth ih =>
    intro n s t hst
    exact (ih.visitNode n hst fun _ => hst.reading_eq).hideInternal.watched

/-- The current line of two sources tells a node something else. -/
def departs (a b : Array String) (n : Node) (s : Session) : Bool :=
  looksAtSource n &&
    ({ s with source := a } : Session).reading ≠ ({ s with source := b } : Session).reading

theorem reading_eq_of_departs {a b : Array String} {n : Node}
    (h : Alike (.source a b) s t) (hdeparts : departs a b n s = false) (hn : looksAtSource n = true) :
    t.reading = s.reading := by
  rw [departs, hn, Bool.true_and, decide_eq_false_iff_not, not_not] at hdeparts
  have hread : ∀ u : Session, u.line = s.line → (u.source = a ∨ u.source = b) →
      u.reading = ({ s with source := a } : Session).reading := by
    intro u hline hsource
    rcases hsource with ha | hb
    · exact Session.reading_congr ha hline
    · rw [hdeparts]
      exact Session.reading_congr hb hline
  rw [hread t h.records.line h.guards'.2, hread s rfl h.guards.2]

theorem twins_visitUntil (a b : Array String) (depth : Nat) :
    Twins (.source a b) (visitUntil (departs a b) depth) (visit depth) := by
  induction depth with
  | zero => exact fun n => .exhausted
  | succ depth ih =>
    intro n s t hst
    rw [visitUntil, exec_get_bind]
    by_cases hdeparts : departs a b n s = true
    · rw [if_pos hdeparts]
      exact .inl rfl
    · rw [if_neg hdeparts]
      have hread := reading_eq_of_departs hst (Bool.eq_false_iff.mpr hdeparts)
      rcases (ih.visitNode n hst hread).hideInternal with hmatches | ⟨hp, _⟩
      · exact hmatches
      · cases hp

/-! ### Whole texts -/

/-- What depends on the modes and does not show agrees with itself. -/
theorem Alike.agrees_byModes (h : Alike p s t) (step : Modes → Interp Unit)
    (hechoes : ∀ modes, (step modes).Echoes p) (hhidden : ∀ modes, (step modes).Hidden .trace) :
    (step s.modes).Agrees p (step t.modes) := by
  cases p with
  | trace => exact (hhidden s.modes).mirrors (hhidden t.modes)
  | source =>
    rw [h.modes_eq]
    exact hechoes s.modes

theorem hidden_debugIf (on : Bool) (message : String) : (debugIf on message).Hidden .trace :=
  .ite (hidden_writeLine _ _) .pure

theorem echoes_debugIf (on : Bool) (message : String) : (debugIf on message).Echoes p :=
  .ite (echoes_writeLine _ _) (.pure trivial)

theorem Alike.agrees_debugIf (h : Alike p s t) (on : Modes → Bool) (message : String) :
    (debugIf (on s.modes) message).Agrees p (debugIf (on t.modes) message) :=
  h.agrees_byModes (fun modes => debugIf (on modes) message) (fun _ => echoes_debugIf _ _)
    fun _ => hidden_debugIf _ _

theorem echoes_warnUnused (name : String) : (warnUnused name).Echoes p := by
  refine .get_bind fun s t h => ?_
  let line := colour "93" ("[WARN] " ++ ("'" ++ name ++ "' is defined but not used"))
  refine h.agrees_byModes (fun modes =>
    if modes.any then note ["[WARN] ", "'" ++ name ++ "' is defined but not used"] else writeLine .err line)
    (fun _ => .ite (echoes_note _) (echoes_writeLine _ _)) (fun _ => .ite ?_ (hidden_writeLine _ _)) s t h
  exact hidden_note fun _ _ => rfl

theorem echoes_warnAllUnused (names : List String) : (warnAllUnused names).Echoes p := by
  induction names with
  | nil => exact .pure trivial
  | cons name rest ih =>
    exact .after ((lawful_mirroring p).isFaulty name) fun _ => .ite ih (.after (echoes_warnUnused name) fun _ => ih)

theorem echoes_checkUnused : checkUnused.Echoes p := by
  refine .after (echoes_noteStep _) fun _ => .get_bind fun s t h => ?_
  rw [h.records.defined, h.records.used]
  exact echoes_warnAllUnused _ s t h

theorem echoes_statementFault (i : Nat) (f : Fault) : (statementFault i f).Echoes p := by
  refine .get_bind fun s t h => ?_
  rw [h.records.line]
  exact Mirrors.ite (h.agrees_debugIf Modes.any _) (echoes_reportAt _ _) s t h

theorem echoes_programFailure (message : String) : (programFailure message).Echoes p := by
  refine .get_bind fun s t h => ?_
  rw [h.records.line]
  exact Mirrors.after (h.agrees_debugIf Modes.any _) (fun _ => .ite (.pure trivial) (echoes_reportAt _ _)) s t h

theorem hidden_flushNotes (lines : List String) : (flushNotes lines).Hidden .trace := by
  induction lines with
  | nil => exact .pure
  | cons line rest ih => exact .bind (hidden_writeLine _ _) ih

theorem echoes_flushNotes (lines : List String) : (flushNotes lines).Echoes p := by
  induction lines with
  | nil => exact .pure trivial
  | cons line rest ih => exact .after (echoes_writeLine _ _) fun _ => ih

namespace Twins

variable {first second : Visit} (h : Twins p first second)

include h

theorem runTop (i : Nat) (n : Node) : (runTop first i n).Agrees p (runTop second i n) := by
  refine .after (echoes_modify fun _ _ _ => ⟨rfl, rfl, rfl⟩) fun _ => ?_
  refine .get_bind fun s t hst => Mirrors.after (hst.agrees_debugIf Modes.full _) (fun _ => ?_) s t hst
  exact .recover (.after (h n) fun _ => .pure trivial) fun f => echoes_statementFault i f

theorem runProgram (ns : List Node) (i : Nat) : (runProgram first i ns).Agrees p (runProgram second i ns) := by
  induction ns generalizing i with
  | nil => exact .pure trivial
  | cons n rest ih => exact .after (h.runTop i n) fun _ => ih (i + 1)

theorem runTree (program : Node) : (runTree first program).Agrees p (runTree second program) := by
  refine .get_bind fun s t hst => Mirrors.after ((lawful_mirroring p).childrenOf program) (fun statements => ?_) s t hst
  refine .after (hst.agrees_debugIf Modes.any _) fun _ => .after ((lawful_mirroring p).collect program) fun _ => ?_
  refine .after (hst.agrees_debugIf Modes.any _) fun _ => ?_
  refine .after (echoes_modify fun _ _ _ => ⟨rfl, rfl, rfl⟩) fun _ => ?_
  refine .after (h.runProgram statements 1) fun _ => .after echoes_checkUnused fun _ => .get_bind fun s t hst => ?_
  cases p with
  | trace => exact (hidden_flushNotes _).mirrors (hidden_flushNotes _) s t hst
  | source =>
    have hnotes : t.notes = s.notes := by rw [hst.source_eq]
    rw [hnotes]
    exact echoes_flushNotes _ s t hst

/-- Runs of a text with visitors that are twins mirror each other. -/
theorem executeWithin (code : String) : (executeWithin first code).Agrees p (executeWithin second code) := by
  refine .after (echoes_modify fun _ _ _ => ⟨rfl, rfl, rfl⟩) fun _ => ?_
  refine .get_bind fun s t hst => Mirrors.after (hst.agrees_debugIf Modes.any _) (fun _ => ?_) s t hst
  split
  · exact echoes_programFailure _
  · exact .recover (h.runTree _) fun f => echoes_programFailure _

end Twins

end FapLang.Run
