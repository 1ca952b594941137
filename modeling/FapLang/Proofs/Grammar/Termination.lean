import FapLang.Proofs.Grammar.Soundness

/-!
The parser always answers. Every move takes at least one off the `work` that is left (`work_lt`),
and the parser is given more steps than that, so it never runs out of them (`parse_ne_exhausted`).
-/

namespace FapLang.Grammar

variable {m : Automaton} {i : Nat} {p : Production}

/-- A category ranks higher than all that can stand for it alone. -/
def Category.rank : Category → Nat
  | .funcArgs | .outputArgs => 5
  | .expr => 4
  | .term | .start | .blockItems => 3
  | .factor | .statement | .conditions | .params => 2
  | _ => 1

def Symbol.rank : Symbol → Nat
  | .terminal _ => 0
  | .category c => c.rank

theorem Symbol.rank_le (x : Symbol) : x.rank ≤ 5 := by
  cases x with
  | terminal t => exact Nat.zero_le 5
  | category c => cases c <;> decide

namespace Automaton

/-- Whether an empty production is finished in a state. -/
def isVacant (m : Automaton) (state : Nat) : Bool :=
  match m.states[state]?.bind m.finished? with
  | some i => (m.productions[i]?.map (·.symbols)) = some []
  | none => false

/-- Single symbols lead up in rank, and no state entered over a category finishes an empty
production. -/
def isSteady (m : Automaton) : Bool :=
  m.productions.all (fun p => match p.symbols with
    | [x] => x.rank < p.category.rank
    | _ => true) &&
  m.states.all fun s => s.gotos.all fun e => !m.isVacant e.2

end Automaton

theorem automaton_isSteady : automaton.isSteady = true := by
  decide +kernel

namespace Automaton

/-- The productions that can still be finished on top of a state, until a lexeme is read. -/
def slack (m : Automaton) (state : Nat) : Nat :=
  (if m.isVacant state then 20 else 0) + (6 - ((m.entered state).map Symbol.rank).getD 0)

variable {m : Automaton} {state target : Nat} {x : Symbol}

theorem slack_le (m : Automaton) (state : Nat) : m.slack state ≤ 26 := by
  unfold slack
  split <;> omega

theorem slack_pos (m : Automaton) (state : Nat) : (if m.isVacant state then 20 else 0) < m.slack state := by
  have hrank : ((m.entered state).map Symbol.rank).getD 0 ≤ 5 := by
    cases m.entered state with
    | none => exact Nat.zero_le 5
    | some x => exact x.rank_le
  unfold slack
  omega

theorem slack_of_edge (hm : m.isCoherent = true) (hedge : m.Edge state x target) :
    m.slack target = (if m.isVacant target then 20 else 0) + (6 - x.rank) := by
  rw [slack, entered_of_edge hm hedge]
  rfl

theorem not_vacant_of_goto (hsteady : m.isSteady = true) {c : Category}
    (h : m.goto? state c = some target) : m.isVacant target = false := by
  obtain ⟨s, hs, hlookup⟩ := Option.bind_eq_some_iff.mp h
  simp only [isSteady, Bool.and_eq_true, List.all_eq_true] at hsteady
  simpa using hsteady.2 s (List.mem_of_getElem? hs) _ (mem_of_lookup_eq_some hlookup)

theorem rank_lt_of_single (hsteady : m.isSteady = true)
    (hp : m.productions[i]? = some p) (hsyms : p.symbols = [x]) : x.rank < p.category.rank := by
  simp only [isSteady, Bool.and_eq_true, List.all_eq_true] at hsteady
  have hrank := hsteady.1 p (List.mem_of_getElem? hp)
  rw [hsyms] at hrank
  simpa using hrank

/-- A state that finishes an empty production is vacant. -/
theorem vacant_of_reduce {t : Terminal} (h : m.action? state t = some (.reduce i)) (hp : m.productions[i]? = some p)
    (hsyms : p.symbols = []) : m.isVacant state = true := by
  obtain ⟨s, hs, ⟨found, -, ⟨-, hact⟩ | ⟨-, hact⟩⟩ | ⟨-, j, hfinished, -, hact⟩⟩ :=
    action_cases h
  · cases hact
  · cases hact
  · cases hact
    simp only [isVacant, hs, Option.bind_some, hfinished, hp, Option.map_some, hsyms, decide_true]

end Automaton

/-- What is still to be done for the lexeme ahead. -/
def aheadWork : Option Lexeme → Nat
  | none => 50
  | some x => if x.1 = .finish then 49 else 90

theorem aheadWork_le (ahead : Option Lexeme) : aheadWork ahead ≤ 90 := by
  cases ahead with
  | none => decide
  | some x => by_cases hfin : x.1 = .finish <;> simp [aheadWork, hfin]

/-- An upper bound on the number of moves that are left. -/
def work (m : Automaton) (s : Situation) : Nat :=
  64 * s.rest.length + 6 * s.stack.length + m.slack s.state + aheadWork s.ahead

/-- Finishing a production leaves less to do on the stack. -/
theorem Linked.reduce_lt (hm : m.isCoherent = true) (hsteady : m.isSteady = true)
    {frame top : Frame} {stack below : List Frame} (hlinked : Linked m (frame :: stack))
    {t : Terminal} (hact : m.action? frame.state t = some (.reduce i))
    (hred : reduce m (frame :: stack) i = some (top :: below)) : 6 * (top :: below).length + m.slack top.state <
      6 * (frame :: stack).length + m.slack frame.state := by
  obtain ⟨p, hp, hroot, -, hholds⟩ := Automaton.holds_of_reduce hm hact
  obtain ⟨base, rest, hdrop, hbase, hstart⟩ := hlinked.holds_drop hm hp (k := 0) hholds
  obtain ⟨target, htarget⟩ := Automaton.goto_of_holds hstart hroot
  rw [reduce_eq_some hp hdrop htarget] at hred
  cases hred
  have hlen := congrArg List.length hdrop
  rw [List.length_drop, List.length_cons, List.length_cons] at hlen
  have hnew := Automaton.slack_of_edge hm (Automaton.edge_of_goto htarget)
  rw [Automaton.not_vacant_of_goto hsteady htarget] at hnew
  have hold := Automaton.slack_pos m frame.state
  simp only [List.length_cons, hnew, Bool.false_eq_true, if_false, Nat.zero_add]
  -- An empty production, a single symbol, or more symbols.
  match hsyms : p.symbols with
  | [] =>
    rw [hsyms, List.length_nil] at hlen
    rw [Automaton.vacant_of_reduce hact hp hsyms, if_pos rfl] at hold
    omega
  | [x] =>
    rw [hsyms, List.length_singleton] at hlen hholds
    have hrank := Automaton.rank_lt_of_single hsteady hp hsyms
    cases hlinked with
    | bottom => exact absurd hholds (Automaton.not_holds_start hm)
    | push _ hedge =>
      obtain ⟨hsym, -⟩ := Automaton.holds_of_edge hm hedge hp hholds
      rw [hsyms] at hsym
      cases hsym
      have hframe := Automaton.slack_of_edge hm hedge
      have hbound := Symbol.rank_le (.category p.category)
      rw [Symbol.rank] at hbound ⊢
      omega
  | _ :: _ :: more =>
    rw [hsyms, List.length_cons, List.length_cons] at hlen
    omega

/-- Every move takes something off the work. -/
theorem work_lt (hm : m.isCoherent = true) (hsteady : m.isSteady = true)
    {s s' : Situation} (hs : s.Sound m) (hmove : Moves m s s') : work m s' < work m s := by
  obtain ⟨ls, hder⟩ := hs
  obtain ⟨hahead, x, rest, hlex, rfl⟩ | ⟨hahead, rest, hlex, rfl⟩ | ⟨x, target, hahead, hact, rfl⟩ |
    ⟨x, i, after, hahead, hact, hred, rfl⟩ := moves_cases hmove
  · have hrest := Candidates.length_of_lex_token hlex
    have hread := aheadWork_le (some x)
    have hnone : aheadWork none = 50 := rfl
    simp only [work, Situation.state, hahead, hnone]
    omega
  · obtain rfl := Candidates.lex_finished hlex
    simp only [work, Situation.state, hahead, aheadWork, endLexeme, if_true, List.length_nil]
    omega
  · have hfin := (Automaton.edge_of_shift hact).2
    have hslack := Automaton.slack_le m target
    simp only [work, Situation.state, hahead, aheadWork, if_neg hfin, List.length_cons]
    omega
  · obtain ⟨-, hbuilt⟩ := hder.built hahead
    obtain ⟨frame, stack, hstack, hstate⟩ := hbuilt.exists_frame
    rw [hstate] at hact
    have hlinked := hbuilt.linked
    rw [hstack] at hlinked hred hbuilt
    obtain ⟨after', hred', hafter⟩ := hbuilt.reduce hm hact
    obtain rfl : after' = after := Option.some.inj (hred'.symm.trans hred)
    obtain ⟨top, below, rfl⟩ := List.exists_cons_of_ne_nil hafter.ne_nil
    have hlt := hlinked.reduce_lt hm hsteady hact hred
    simp only [work, hstack, Situation.state]
    omega

theorem stuckError_ne_exhausted (m : Automaton) (text : List Char) (c : Config) (place : Cursor)
    (candidates : Candidates) : stuckError m text c place candidates ≠ .exhausted := by
  unfold stuckError
  split <;> simp

/-- A step from a sound situation fails only over the text. -/
theorem step_ne_exhausted (hm : m.isCoherent = true) {text : List Char} {c : Config}
    (hs : c.view.Sound m) : step m text c ≠ .failed .exhausted := by
  intro hstep
  obtain ⟨ls, hder⟩ := hs
  cases hahead : c.lookahead with
  | none =>
    simp only [step, hahead, readToken] at hstep
    split at hstep
    · simp at hstep
    · simp at hstep
    · exact stuckError_ne_exhausted _ _ _ _ _ (Step.failed.inj hstep)
  | some t =>
    simp only [step, hahead, useToken] at hstep
    have hview : c.view.ahead = some t.lexeme := by rw [Config.view, hahead, Option.map_some]
    obtain ⟨-, hbuilt⟩ := hder.built hview
    obtain ⟨frame, stack, hstack, hstate⟩ := hbuilt.exists_frame
    cases hact : m.action? c.state t.terminal with
    | none => simp [hact] at hstep
    | some action =>
      cases action with
      | shift target => simp [hact] at hstep
      | accept => simp [hact] at hstep
      | reduce i =>
        have hframe : m.action? frame.state t.lexeme.1 = some (.reduce i) := by
          rw [← hstate]
          exact hact
        rw [hstack] at hbuilt
        obtain ⟨after, hred, -⟩ := hbuilt.reduce hm hframe
        have hstack' : c.stack = frame :: stack := hstack
        simp [hact, hstack', hred] at hstep

theorem run_ne_exhausted (hm : m.isCoherent = true) (hsteady : m.isSteady = true)
    {text : List Char} {fuel : Nat} {c : Config} (hs : c.view.Sound m) (hfuel : work m c.view < fuel) :
    run m text fuel c ≠ .error .exhausted := by
  induction fuel generalizing c with
  | zero => exact absurd hfuel (Nat.not_lt_zero _)
  | succ fuel ih =>
    rw [run]
    cases hstep : step m text c with
    | next c' =>
      have hmove : Moves m c.view c'.view := by
        rw [Moves, ← forget_step m text, hstep, Step.forget]
      have hwork := work_lt hm hsteady hs hmove
      exact ih (hs.moves hm hmove) (by omega)
    | accepted tree => simp
    | failed e =>
      intro hrun
      obtain rfl : e = .exhausted := by simpa using hrun
      exact step_ne_exhausted hm hs hstep

theorem work_start_lt (text : List Char) : work automaton (Situation.start text) < stepBound text := by
  have hslack := Automaton.slack_le automaton 0
  simp only [work, Situation.start, Situation.state, List.length_singleton, aheadWork, stepBound]
  omega

/-- The parser finds a tree or says what is wrong with the text. -/
theorem parse_ne_exhausted (source : String) : parse source ≠ .error .exhausted :=
  run_ne_exhausted automaton_isCoherent automaton_isSteady (Situation.sound_start _ _)
    (work_start_lt source.toList)

/-- A text has a tree if the machine gets from its start to that tree. -/
theorem parse_eq_ok_iff {source : String} {tree : Node} :
    parse source = .ok tree ↔ Accepts automaton (Situation.start source.toList) tree := by
  constructor
  · exact fun h => accepts_of_run (c := Config.start source.toList) h
  · intro h
    obtain ⟨fuel, hrun⟩ : ∃ fuel,
        run automaton source.toList fuel (Config.start source.toList) = .ok tree := run_of_accepts h
    have hended : run automaton source.toList fuel (Config.start source.toList) ≠
        .error .exhausted := by
      rw [hrun]
      simp
    have hanswer := run_add (parse_ne_exhausted source) fuel
    have hsame := run_add hended (stepBound source.toList)
    rw [Nat.add_comm] at hsame
    rw [parse, ← hanswer, hsame, hrun]

/-- Trees of programs derive from the grammar. -/
theorem derives_of_parse {source : String} {tree : Node} (h : parse source = .ok tree) :
    ∃ ls, Derives automaton.Finishes [.category .start] ls .finish [tree] :=
  derives_of_accepts automaton_isCoherent (Situation.sound_start _ _) (parse_eq_ok_iff.mp h)

end FapLang.Grammar
