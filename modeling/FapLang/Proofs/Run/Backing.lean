import FapLang.Proofs.Run.Obedience
import FapLang.Proofs.Run.Reachable

/-!
Runs that obey contracts. If all that the visit of a node may come to obeys a fair contract
(`Contract.Supports`), so does the step of the node (`obeys_visitNode`), and a run of a text if the
visits of its statements do (`obeys_runText`).
-/

namespace FapLang

namespace Node

/-- The node calls a function, and it may be the one of this name. -/
structure MayCall (n : Node) (name : String) : Prop where
  rule : n.rule? = some "func_call" ∨ n.rule? = some "func_call_stmt" ∨
    n.rule? = some "math_func_call" ∧ name ∉ builtinFunctions
  heads : n.Heads name

end Node

namespace Run

open Interp Grammar

/-- All that the step of a node leads to obeys the contract. -/
structure Contract.Backs (C : Contract) (visit : Visit) (n : Node) : Prop where
  inner : ∀ c ∈ n.inner, (visit c).Obeys C
  arguments : n.rule? = some "output_stmt" → ∀ c ∈ argumentNodes n.kids, (visit c).Obeys C
  prints : n.rule? = some "output_stmt" → ∀ severity message, (writeMessage severity message).Obeys C
  warns : ∀ name, n = .token "IDENT" name → ∀ v, (warnUnassigned name v).Obeys C
  calls : ∀ name, n.MayCall name → ∀ f, C.knows name f → (visit f.body).Obeys C
  defines : n.rule? = some "func_def" → ∀ name, n.Heads name → ∀ target params body rest,
    n.kids = target :: params :: body :: rest → ∀ cell scope, C.knows name ⟨cell, body, scope⟩

/-- The contract backs all that a visit of the node may come to. -/
def Contract.Supports (C : Contract) (visit : Visit) (n : Node) : Prop :=
  ∀ m, m.Within n → C.Backs visit m

variable {C : Contract} {visit : Visit} {n : Node}

namespace Contract.Supports

variable (h : C.Supports visit n)

include h

theorem backs : C.Backs visit n :=
  h n (.refl n)

theorem of_mem (hn : n.rule? ≠ some "func_def") {c : Node} (hc : c ∈ n.kids) : C.Supports visit c :=
  fun m hm => h m (.inner (Node.inner_eq_kids hn ▸ hc) hm)

theorem kids (hn : n.rule? ≠ some "func_def") : ∀ c ∈ n.kids, (visit c).Obeys C :=
  fun c hc => h.backs.inner c (Node.inner_eq_kids hn ▸ hc)

theorem callArgs (hn : n.rule? ≠ some "func_def") : ∀ c ∈ callArgs n.kids, (visit c).Obeys C := by
  have hkids := h.kids hn
  have hbelow : ∀ c ∈ n.kids, C.Supports visit c := fun c hc => h.of_mem hn hc
  generalize n.kids = cs at hkids hbelow
  intro c hc
  unfold Run.callArgs at hc
  split at hc
  · exact (hbelow _ (.tail _ (.head _))).kids (by simp [Node.rule?]) c hc
  · exact hkids c (.tail _ hc)
  · cases hc

/-- What a contract supports, its bond does. -/
theorem bonds [hC : C.Fair] : C.bond.Supports visit visit n := by
  intro m hm
  have h : C.Supports visit m := fun k hk => h k (hk.trans hm)
  have hvisits : ∀ {ns : List Node}, (∀ c ∈ ns, (visit c).Obeys C) → C.bond.Visits visit visit ns :=
    fun hns c hc => ⟨hns c hc, .any⟩
  have hn : ∀ {rule}, m.rule? = some rule → rule ≠ "func_def" → m.rule? ≠ some "func_def" :=
    fun hrule hne hdef => hne (Option.some.inj (hrule.symm.trans hdef))
  have hcall : ∀ {rule}, m.rule? = some rule → rule ≠ "func_def" → (∀ name, m.Heads name → m.MayCall name) →
      C.bond.Agrees (visitFuncCall visit m) (visitFuncCall visit m) := by
    intro rule hrule hne hmay
    refine hC.calling.visitFuncCall (hvisits (h.kids (hn hrule hne))) (hvisits (h.callArgs (hn hrule hne))) ?_
    exact fun _ _ name hheads f hf => ⟨h.backs.calls name (hmay name hheads) f hf, .any⟩
  refine ⟨hvisits h.backs.inner, fun hrule => hvisits (h.backs.arguments hrule), ?_, ?_, ?_, ?_, ?_, ?_⟩
  · exact fun hrule severity message => (h.backs.prints hrule severity message).keeps
  · exact fun name hname v => (h.backs.warns name hname v).keeps
  · rintro (hrule | hrule)
    · exact hcall hrule (by decide) fun name hheads => ⟨.inl hrule, hheads⟩
    · exact hcall hrule (by decide) fun name hheads => ⟨.inr (.inl hrule), hheads⟩
  · intro hrule kind name rest hkids hname
    refine hcall hrule (by decide) fun other hheads => ⟨.inr (.inr ⟨hrule, ?_⟩), hheads⟩
    rwa [← hheads kind name rest hkids]
  · exact fun hrule => hC.calling.visitConstDef (hvisits (h.kids (hn hrule (by decide))))
  · intro hrule target params body rest hkids name hheads
    exact (hC.settleFunction (h.backs.defines hrule name hheads target params body rest hkids)).keeps

end Contract.Supports

/-- A fair contract under which everything may be printed and warned of. -/
class Contract.Open (C : Contract) : Prop extends Contract.Fair C where
  event (s : Session) (e : Event) : C.Allows s (s.withEvent e)
  notes (code message : String) : C.Notes code message
  warned (s : Session) (name : String) : C.Allows s { s with warned := s.warned.insert name }
  output (s : Session) : C.Allows s { s with hasOutput := true }

namespace Contract.Open

variable [hC : C.Open]

theorem print (channel : Channel) (text : String) : (Run.write channel text).Obeys C :=
  .modify (fun s => hC.event s _) fun _ => rfl

theorem writeMessage (severity : Severity) (message : String) : (writeMessage severity message).Obeys C := by
  have hset : (modify fun s => { s with hasOutput := true } : Interp Unit).Obeys C := .modify hC.output fun _ => rfl
  refine .bind hset fun _ => .bind (obeys_note isRuntime_lead _) fun _ => ?_
  exact .modify (fun s => hC.event s _) fun _ => rfl

theorem warnUnassigned (name : String) (v : Value) : (warnUnassigned name v).Obeys C := by
  have hmark : (markWarned name).Obeys C := .modify (fun s => hC.warned s name) fun _ => rfl
  refine .bind .get fun _ => .ite (.bind (obeys_isConstant name) fun _ => .ite ?_ (.pure ())) (.pure ())
  refine .bind (obeys_format _) fun message => .ite (.bind ?_ fun _ => hmark) ?_
  · exact obeys_noteTexts (hC.notes _ _)
  · exact .bind (hC.print .err _) fun _ => hmark

theorem warnUnused (name : String) : (warnUnused name).Obeys C :=
  .bind .get fun _ => .ite (obeys_noteTexts (hC.notes _ _)) (hC.print .err _)

theorem flushNotes (lines : List String) : (flushNotes lines).Obeys C := by
  induction lines with
  | nil => exact .pure ()
  | cons line rest ih => exact .bind (hC.print .out _) fun _ => ih

end Contract.Open

variable [hC : C.Fair]

/-- The step of a node obeys a contract that supports it. -/
theorem obeys_visitNode (h : C.Supports visit n) : (visitNode visit n).Obeys C := by
  suffices hbond : C.bond.rel C.bond.admits (visitNode visit n) (visitNode visit n) from hbond.1
  refine hC.plain.visitNode fun name hfits default hdefault => ?_
  refine hC.calling.namedStep hfits (h.bonds) hdefault (fun _ => hC.plain.visitLogicOp n) fun hname => ?_
  refine hC.plain.visitListMethodCall hC.calling.toBinding ((h.bonds).kids fun hdef => ?_)
  exact absurd ((hfits.rule hdef).trans hname) (by decide)

/-- Visits obey a contract if those one level less deep support it. -/
theorem obeys_visit_succ {depth : Nat} (h : C.Supports (Run.visit depth) n) : (Run.visit (depth + 1) n).Obeys C :=
  .recover (obeys_visitNode h) fun _ => .fail _

/-- Visits of nodes of a kind that support each other, cut off at any nodes. -/
theorem obeys_visitUntil {P : Node → Prop}
    (hP : ∀ visit : Visit, (∀ n, P n → (visit n).Obeys C) → ∀ n, P n → C.Supports visit n)
    (hexhausted : ∀ s, C.post s (some .exhausted) s) (stops : Node → Session → Bool) (depth : Nat) :
    ∀ n, P n → (visitUntil stops depth n).Obeys C := by
  have hthrow : (throw .exhausted : Interp Value).Obeys C := fun s hs => ⟨hs, hexhausted s⟩
  induction depth with
  | zero => exact fun n _ => hthrow
  | succ depth ih =>
    intro n hn
    refine .bind .get fun _ => .ite hthrow ?_
    exact .recover (obeys_visitNode (hP _ ih n hn)) fun _ => .fail _

theorem obeys_debugIf (on : Bool) (message : String) : (debugIf on message).Obeys C :=
  .ite (obeys_writeLine (by decide) _) (.pure ())

theorem obeys_statementFault (i : Nat) (f : Fault) : (statementFault i f).Obeys C :=
  .bind .get fun _ => .ite (obeys_debugIf _ _) (obeys_reportAt _ _)

omit [C.Fair] in
theorem obeys_setLine (hplaces : C.Places) (line : Int) :
    (modify fun s => { s with line := line } : Interp Unit).Obeys C :=
  .modify (hplaces · line) fun _ => rfl

theorem obeys_runTop (hplaces : C.Places) (h : (visit n).Obeys C) (i : Nat) : (runTop visit i n).Obeys C := by
  refine .bind (obeys_setLine hplaces _) fun _ => .bind .get fun _ => .bind (obeys_debugIf _ _) fun _ => ?_
  exact .recover (.bind h fun _ => .pure ()) fun f => obeys_statementFault i f

theorem obeys_runProgram (hplaces : C.Places) {ns : List Node} (h : ∀ c ∈ ns, (visit c).Obeys C) (i : Nat) :
    (runProgram visit i ns).Obeys C := by
  induction ns generalizing i with
  | nil => exact .pure ()
  | cons n rest ih =>
    obtain ⟨hn, hrest⟩ := List.forall_mem_cons.mp h
    exact .bind (obeys_runTop hplaces hn i) fun _ => ih hrest (i + 1)

theorem obeys_checkUnused (hunused : ∀ name, (warnUnused name).Obeys C) : checkUnused.Obeys C := by
  have hall : ∀ names, (warnAllUnused names).Obeys C := by
    intro names
    induction names with
    | nil => exact .pure ()
    | cons name rest ih =>
      exact .bind (hC.lawful.isFaulty name).1 fun _ => .ite ih (.bind (hunused name) fun _ => ih)
  exact .bind (obeys_noteStep _) fun _ => .bind .get fun _ => hall _

theorem obeys_programFailure (message : String) : (programFailure message).Obeys C :=
  .bind .get fun _ => .bind (obeys_debugIf _ _) fun _ => .ite (.pure ()) (obeys_reportAt _ _)

theorem obeys_runTree (hplaces : C.Places) (h : ∀ c ∈ n.kids, (visit c).Obeys C)
    (hunused : ∀ name, (warnUnused name).Obeys C) (hflush : ∀ s, C.Ends s ((flushNotes s.notes.toList).exec s)) :
    (runTree visit n).Obeys C := by
  refine .bind .get fun _ => .children_bind (.bind (obeys_debugIf _ _) fun _ => ?_)
  refine .bind (hC.lawful.collect n).1 fun _ => .bind (obeys_debugIf _ _) fun _ => ?_
  refine .bind (obeys_setLine hplaces 1) fun _ => .bind (obeys_runProgram hplaces h 1) fun _ => ?_
  exact .bind (obeys_checkUnused hunused) fun _ s => hflush s

omit [C.Fair] in
/-- A run of a text, once the trace is empty. -/
def runText (visit : Visit) (code : String) : Interp Unit := do
  debugIf (← get).modes.any "Parsing code..."
  match parse code with
  | .error e => programFailure e.message
  | .ok program => Interp.recover (runTree visit program) fun f => programFailure f.message

omit [C.Fair] in
theorem exec_executeWithin_eq_runText (visit : Visit) (code : String) (s : Session) :
    (executeWithin visit code).exec s = (runText visit code).exec { s with notes := #[] } :=
  rfl

/-- A run of a text obeys a contract if the visits of its statements do. -/
theorem obeys_runText (hplaces : C.Places) {code : String}
    (h : ∀ program, parse code = .ok program → ∀ c ∈ program.kids, (visit c).Obeys C)
    (hunused : ∀ name, (warnUnused name).Obeys C) (hflush : ∀ s, C.Ends s ((flushNotes s.notes.toList).exec s)) :
    (runText visit code).Obeys C := by
  refine .bind .get fun _ => .bind (obeys_debugIf _ _) fun _ => ?_
  cases hparse : parse code with
  | error e => exact obeys_programFailure _
  | ok program =>
    exact .recover (obeys_runTree hplaces (h program hparse) hunused hflush) fun f => obeys_programFailure _

end Run

end FapLang
