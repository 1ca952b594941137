import FapLang.Proofs.Grammar.Derivation
import Mathlib.Logic.Relation

/-!
The parser without places. Its moves can be described on what is left of the text alone
(`forget_step`), and a text has a tree if the machine gets from its start to an accepted tree
(`Accepts`).
-/

namespace FapLang.Grammar

/-! ### Reading a lexeme -/

inductive Lexed
  | token (x : Lexeme) (rest : List Char)
  | finished (rest : List Char)
  | stuck

namespace Candidates

variable {c : Candidates} {cs word rest : List Char} {t : Terminal}

/-- The next lexeme, passing over blanks; the number bounds how many lexemes are looked at. -/
def lexFrom (c : Candidates) : Nat → List Char → Lexed
  | 0, cs => .finished cs
  | fuel + 1, cs =>
    if cs.isEmpty then .finished cs
    else
      match c.match? cs with
      | none => .stuck
      | some (t, word, rest) =>
        if t = .blank then lexFrom c fuel rest else .token (c.classify t word, word) rest

def lex (c : Candidates) (cs : List Char) : Lexed :=
  lexFrom c (cs.length + 1) cs

theorem match?_eq_some (h : c.match? cs = some (t, word, rest)) :
    t ∈ c.tried ∧ t.pattern.take? cs = some (word, rest) := by
  obtain ⟨u, hu, hcut⟩ := List.exists_of_findSome?_eq_some h
  obtain ⟨cut, hcut, heq⟩ := Option.map_eq_some_iff.mp hcut
  cases heq
  exact ⟨hu, hcut⟩

/-- What is left after a lexeme is shorter. -/
theorem length_of_match? (h : c.match? cs = some (t, word, rest)) : rest.length < cs.length := by
  obtain ⟨-, htake⟩ := match?_eq_some h
  have hword := List.length_pos_iff.mpr (Terminal.take?_ne_nil htake)
  rw [(Pattern.take?_spells htake).1, List.length_append]
  omega

theorem ne_nil_of_match? (h : c.match? cs = some (t, word, rest)) : cs ≠ [] := by
  rintro rfl
  exact absurd (length_of_match? h) (Nat.not_lt_zero _)

/-- The bound does not matter once it exceeds the length of the text. -/
theorem lexFrom_eq_lex {fuel : Nat} (hfuel : cs.length < fuel) : c.lexFrom fuel cs = c.lex cs := by
  induction hlen : cs.length using Nat.strong_induction_on generalizing cs fuel with
  | _ length ih =>
    subst hlen
    obtain ⟨fuel, rfl⟩ : ∃ n, fuel = n + 1 := ⟨fuel - 1, by omega⟩
    rw [lex, lexFrom, lexFrom]
    cases hmatch : c.match? cs with
    | none => rfl
    | some found =>
      obtain ⟨t, word, rest⟩ := found
      have hrest := length_of_match? hmatch
      simp only [ih rest.length hrest (by omega : rest.length < fuel) rfl, ih rest.length hrest hrest rfl]

theorem lex_nil : c.lex [] = .finished [] := rfl

theorem lex_blank (h : c.match? cs = some (.blank, word, rest)) : c.lex cs = c.lex rest := by
  rw [lex, lexFrom, if_neg (by simpa using ne_nil_of_match? h), h]
  simp only [if_true]
  exact lexFrom_eq_lex (length_of_match? h)

theorem lex_token (h : c.match? cs = some (t, word, rest)) (ht : t ≠ .blank) :
    c.lex cs = .token (c.classify t word, word) rest := by
  rw [lex, lexFrom, if_neg (by simpa using ne_nil_of_match? h), h]
  simp only [if_neg ht]

theorem lex_stuck (hcs : cs ≠ []) (h : c.match? cs = none) : c.lex cs = .stuck := by
  rw [lex, lexFrom, if_neg (by simpa using hcs), h]

/-- Reading a lexeme, one case for each of the equations. -/
@[elab_as_elim]
theorem lex_induction {motive : List Char → Lexed → Prop} (cs : List Char) (nil : motive [] (.finished []))
    (stuck : ∀ cs, cs ≠ [] → c.match? cs = none → motive cs .stuck)
    (token : ∀ cs t word rest, c.match? cs = some (t, word, rest) → t ≠ .blank →
      motive cs (.token (c.classify t word, word) rest))
    (blank : ∀ cs word rest, c.match? cs = some (.blank, word, rest) → motive rest (c.lex rest) →
      motive cs (c.lex rest)) : motive cs (c.lex cs) := by
  induction hlen : cs.length using Nat.strong_induction_on generalizing cs with
  | _ length ih =>
    subst hlen
    by_cases hcs : cs = []
    · rw [hcs]
      exact nil
    · cases hmatch : c.match? cs with
      | none =>
        rw [lex_stuck hcs hmatch]
        exact stuck cs hcs hmatch
      | some found =>
        obtain ⟨t, word, rest⟩ := found
        by_cases hblank : t = .blank
        · subst hblank
          rw [lex_blank hmatch]
          exact blank cs word rest hmatch (ih _ (length_of_match? hmatch) rest rfl)
        · rw [lex_token hmatch hblank]
          exact token cs t word rest hmatch hblank

/-- A text is finished when nothing is left of it. -/
theorem lex_finished (h : c.lex cs = .finished rest) : rest = [] := by
  induction cs using lex_induction (c := c) with
  | nil => exact (Lexed.finished.inj h).symm
  | stuck => cases h
  | token => cases h
  | blank cs word left hmatch ih => exact ih h

theorem length_of_lex_token {x : Lexeme} (h : c.lex cs = .token x rest) : rest.length < cs.length := by
  induction cs using lex_induction (c := c) with
  | nil => cases h
  | stuck => cases h
  | token cs t word left hmatch =>
    obtain ⟨-, rfl⟩ := Lexed.token.inj h
    exact length_of_match? hmatch
  | blank cs word left hmatch ih => exact (ih h).trans (length_of_match? hmatch)

end Candidates

/-! ### The machine -/

/-- A stack, what is left of the text, and the lexeme read ahead. -/
structure Situation where
  stack : List Frame
  rest : List Char
  ahead : Option Lexeme

namespace Situation

def start (cs : List Char) : Situation :=
  { stack := [⟨0, []⟩], rest := cs, ahead := none }

def state (s : Situation) : Nat :=
  match s.stack with
  | frame :: _ => frame.state
  | [] => 0

end Situation

inductive Outcome
  | next (s : Situation)
  | accepted (tree : Node)
  | failed

/-- The lexeme that stands for the end of the text. -/
def endLexeme : Lexeme :=
  (.finish, [])

def readLexeme (m : Automaton) (s : Situation) : Outcome :=
  match (Candidates.of (m.terminals s.state)).lex s.rest with
  | .token x rest => .next { s with rest := rest, ahead := some x }
  | .finished rest => .next { s with rest := rest, ahead := some endLexeme }
  | .stuck => .failed

def useLexeme (m : Automaton) (s : Situation) (x : Lexeme) : Outcome :=
  match m.action? s.state x.1 with
  | some (.shift target) =>
    .next { s with stack := ⟨target, Lexeme.nodes x⟩ :: s.stack, ahead := none }
  | some (.reduce p) =>
    match reduce m s.stack p with
    | some stack => .next { s with stack := stack }
    | none => .failed
  | some .accept => .accepted ((s.stack.head?.bind (·.nodes.head?)).getD .absent)
  | none => .failed

def move (m : Automaton) (s : Situation) : Outcome :=
  match s.ahead with
  | none => readLexeme m s
  | some x => useLexeme m s x

def Token.lexeme (t : Token) : Lexeme :=
  (t.terminal, t.text.toList)

def Config.view (c : Config) : Situation :=
  { stack := c.stack, rest := c.cursor.rest, ahead := c.lookahead.map Token.lexeme }

def Step.forget : Step → Outcome
  | .next c => .next c.view
  | .accepted tree => .accepted tree
  | .failed _ => .failed

def Scan.forget : Scan → Lexed
  | .token t after => .token t.lexeme after.rest
  | .finished place => .finished place.rest
  | .stuck _ => .stuck

theorem forget_scan (c : Candidates) (cursor : Cursor) : (scan c cursor).forget = c.lex cursor.rest := by
  have hfrom : ∀ fuel cursor, (scanFrom c fuel cursor).forget = c.lexFrom fuel cursor.rest := by
    intro fuel
    induction fuel with
    | zero => exact fun cursor => rfl
    | succ fuel ih =>
      intro cursor
      rw [scanFrom, Candidates.lexFrom]
      by_cases hempty : cursor.rest.isEmpty = true
      · rw [if_pos hempty, if_pos hempty]
        rfl
      · rw [if_neg hempty, if_neg hempty]
        cases hmatch : c.match? cursor.rest with
        | none => rfl
        | some found =>
          obtain ⟨t, word, rest⟩ := found
          by_cases hblank : t = .blank
          · simp only [hblank, if_true]
            exact ih _
          · simp only [hblank, if_false, Scan.forget, Token.lexeme, String.toList_ofList, Cursor.advance]
  exact hfrom _ cursor

theorem lexeme_finishToken (previous : Option Token) : (finishToken previous).lexeme = endLexeme := by
  cases previous <;> rfl

theorem nodes_lexeme (t : Token) : Lexeme.nodes t.lexeme = if t.terminal.isKept then [t.node] else [] := by
  simp only [Lexeme.nodes, Token.lexeme, Token.node, String.ofList_toList]

theorem forget_readToken (m : Automaton) (text : List Char) (c : Config) :
    (readToken m text c).forget = readLexeme m c.view := by
  unfold readToken readLexeme
  have hrest : c.view.rest = c.cursor.rest := rfl
  have hstate : c.view.state = c.state := rfl
  rw [hrest, hstate, ← forget_scan]
  cases hscan : scan (Candidates.of (m.terminals c.state)) c.cursor with
  | token t after => simp only [hscan, Step.forget, Scan.forget, Config.view, Option.map_some]
  | finished place =>
    simp only [hscan, Step.forget, Scan.forget, Config.view, Option.map_some, lexeme_finishToken]
  | stuck place => simp only [hscan, Step.forget, Scan.forget]

theorem forget_useToken (m : Automaton) (c : Config) (t : Token) :
    (useToken m c t).forget = useLexeme m c.view t.lexeme := by
  unfold useToken useLexeme
  have hstack : c.view.stack = c.stack := rfl
  have hstate : c.view.state = c.state := rfl
  have hterminal : t.lexeme.1 = t.terminal := rfl
  rw [hstack, hstate, hterminal]
  cases m.action? c.state t.terminal with
  | none => rfl
  | some action =>
    cases action with
    | shift target => simp only [Step.forget, Config.view, Option.map_none, nodes_lexeme]
    | reduce p =>
      cases hred : reduce m c.stack p with
      | none => simp only [hred, Step.forget]
      | some stack => simp only [hred, Step.forget, Config.view]
    | accept => rfl

/-- A step of the parser is a move of the machine. -/
theorem forget_step (m : Automaton) (text : List Char) (c : Config) : (step m text c).forget = move m c.view := by
  cases hahead : c.lookahead with
  | none =>
    have hview : c.view.ahead = none := by simp only [Config.view, hahead, Option.map_none]
    rw [step, move, hahead, hview]
    exact forget_readToken m text c
  | some t =>
    have hview : c.view.ahead = some t.lexeme := by
      simp only [Config.view, hahead, Option.map_some]
    rw [step, move, hahead, hview]
    exact forget_useToken m c t

/-! ### Runs -/

def Moves (m : Automaton) (s s' : Situation) : Prop :=
  move m s = .next s'

namespace Moves

variable {m : Automaton} {s : Situation} {x : Lexeme} {rest : List Char}

theorem read (hahead : s.ahead = none) (hlex : (Candidates.of (m.terminals s.state)).lex s.rest = .token x rest) :
    Moves m s { s with rest := rest, ahead := some x } := by
  rw [Moves, move, hahead]
  simp only [readLexeme, hlex]

theorem finish (hahead : s.ahead = none) (hlex : (Candidates.of (m.terminals s.state)).lex s.rest = .finished rest) :
    Moves m s { s with rest := rest, ahead := some endLexeme } := by
  rw [Moves, move, hahead]
  simp only [readLexeme, hlex]

theorem shift {target : Nat} (hahead : s.ahead = some x) (hact : m.action? s.state x.1 = some (.shift target)) :
    Moves m s { s with stack := ⟨target, Lexeme.nodes x⟩ :: s.stack, ahead := none } := by
  rw [Moves, move, hahead]
  simp only [useLexeme, hact]

theorem reduce {i : Nat} {stack : List Frame} (hahead : s.ahead = some x)
    (hact : m.action? s.state x.1 = some (.reduce i))
    (hred : Grammar.reduce m s.stack i = some stack) : Moves m s { s with stack := stack } := by
  rw [Moves, move, hahead]
  simp only [useLexeme, hact, hred]
  rw [← hahead]

end Moves

/-- A move reads a lexeme or the end of the text, goes over the lexeme ahead, or finishes a
production. -/
theorem moves_cases {m : Automaton} {s s' : Situation} (h : Moves m s s') :
    (s.ahead = none ∧ ∃ x rest, (Candidates.of (m.terminals s.state)).lex s.rest = .token x rest ∧
      s' = { s with rest := rest, ahead := some x }) ∨
    (s.ahead = none ∧ ∃ rest, (Candidates.of (m.terminals s.state)).lex s.rest = .finished rest ∧
      s' = { s with rest := rest, ahead := some endLexeme }) ∨
    (∃ x target, s.ahead = some x ∧ m.action? s.state x.1 = some (.shift target) ∧
      s' = { s with stack := ⟨target, Lexeme.nodes x⟩ :: s.stack, ahead := none }) ∨
    (∃ x i stack, s.ahead = some x ∧ m.action? s.state x.1 = some (.reduce i) ∧
      reduce m s.stack i = some stack ∧ s' = { s with stack := stack }) := by
  unfold Moves move at h
  cases hahead : s.ahead with
  | none =>
    rw [hahead] at h
    simp only [readLexeme] at h
    cases hlex : (Candidates.of (m.terminals s.state)).lex s.rest with
    | token x rest =>
      rw [hlex] at h
      exact .inl ⟨rfl, x, rest, rfl, (Outcome.next.inj h).symm⟩
    | finished rest =>
      rw [hlex] at h
      exact .inr (.inl ⟨rfl, rest, rfl, (Outcome.next.inj h).symm⟩)
    | stuck => simp [hlex] at h
  | some x =>
    rw [hahead] at h
    simp only [useLexeme] at h
    cases hact : m.action? s.state x.1 with
    | none => simp [hact] at h
    | some action =>
      cases action with
      | shift target =>
        rw [hact] at h
        exact .inr (.inr (.inl ⟨x, target, rfl, hact, (Outcome.next.inj h).symm⟩))
      | reduce i =>
        cases hred : reduce m s.stack i with
        | none => simp [hact, hred] at h
        | some stack =>
          simp only [hact, hred, hahead] at h
          exact .inr (.inr (.inr ⟨x, i, stack, rfl, hact, hred, (Outcome.next.inj h).symm⟩))
      | accept => simp [hact] at h

/-- A tree is accepted from the top of the stack. -/
theorem accepted_cases {m : Automaton} {s : Situation} {tree : Node} (h : move m s = .accepted tree) :
    ∃ x, s.ahead = some x ∧ m.action? s.state x.1 = some .accept ∧
      tree = (s.stack.head?.bind (·.nodes.head?)).getD .absent := by
  unfold move at h
  cases hahead : s.ahead with
  | none =>
    simp only [hahead, readLexeme] at h
    split at h <;> simp at h
  | some x =>
    simp only [hahead, useLexeme] at h
    cases hact : m.action? s.state x.1 with
    | none => simp [hact] at h
    | some action =>
      cases action with
      | shift target => simp [hact] at h
      | reduce i =>
        simp only [hact] at h
        split at h <;> simp at h
      | accept =>
        simp only [hact] at h
        exact ⟨x, rfl, hact, (Outcome.accepted.inj h).symm⟩

/-- The machine gets from one situation to the other. -/
def Reaches (m : Automaton) : Situation → Situation → Prop :=
  Relation.ReflTransGen (Moves m)

/-- The machine gets to an accepted tree. -/
def Accepts (m : Automaton) (s : Situation) (tree : Node) : Prop :=
  ∃ last, Reaches m s last ∧ move m last = .accepted tree

variable {m : Automaton} {s s' : Situation} {tree : Node} {text : List Char} {c : Config}

theorem accepts_of_run {fuel : Nat} (h : run m text fuel c = .ok tree) : Accepts m c.view tree := by
  induction fuel generalizing c with
  | zero => simp [run] at h
  | succ fuel ih =>
    rw [run] at h
    have hmove := forget_step m text c
    cases hstep : step m text c with
    | next c' =>
      rw [hstep] at h hmove
      obtain ⟨last, hreach, hlast⟩ := ih h
      exact ⟨last, .head hmove.symm hreach, hlast⟩
    | accepted tree' =>
      rw [hstep] at h hmove
      obtain rfl : tree' = tree := by simpa using h
      exact ⟨c.view, .refl, hmove.symm⟩
    | failed e =>
      rw [hstep] at h
      cases h

theorem step_of_moves (h : Moves m c.view s) : ∃ c', step m text c = .next c' ∧ c'.view = s := by
  have hmove := forget_step m text c
  rw [h] at hmove
  cases hstep : step m text c with
  | next c' =>
    rw [hstep] at hmove
    exact ⟨c', rfl, by simpa [Step.forget] using hmove⟩
  | accepted tree => simp [hstep, Step.forget] at hmove
  | failed e => simp [hstep, Step.forget] at hmove

theorem run_of_accepts (h : Accepts m c.view tree) : ∃ fuel, run m text fuel c = .ok tree := by
  obtain ⟨last, hreach, hlast⟩ := h
  generalize hview : c.view = s at hreach
  induction hreach using Relation.ReflTransGen.head_induction_on generalizing c with
  | refl =>
    subst hview
    have hmove := forget_step m text c
    rw [hlast] at hmove
    refine ⟨1, ?_⟩
    rw [run]
    cases hstep : step m text c with
    | next c' => simp [hstep, Step.forget] at hmove
    | accepted tree' =>
      rw [hstep] at hmove
      obtain rfl : tree' = tree := by simpa [Step.forget] using hmove
      rfl
    | failed e => simp [hstep, Step.forget] at hmove
  | head hmove _ ih =>
    subst hview
    obtain ⟨c', hstep, hview⟩ := step_of_moves hmove
    obtain ⟨fuel, hrun⟩ := ih hview
    exact ⟨fuel + 1, by rw [run, hstep]; exact hrun⟩

/-- More fuel does not change an answer. -/
theorem run_add {fuel : Nat} (h : run m text fuel c ≠ .error .exhausted) (more : Nat) :
    run m text (fuel + more) c = run m text fuel c := by
  induction fuel generalizing c with
  | zero => exact absurd rfl h
  | succ fuel ih =>
    rw [Nat.add_right_comm, run, run]
    rw [run] at h
    cases hstep : step m text c with
    | next c' =>
      rw [hstep] at h
      exact ih h
    | accepted tree => rfl
    | failed e => rfl

/-! ### One run -/

theorem Accepts.of_reaches (h : Accepts m s tree) (hreach : Reaches m s s') : Accepts m s' tree := by
  induction hreach using Relation.ReflTransGen.head_induction_on with
  | refl => exact h
  | head hmove _ ih =>
    obtain ⟨last, hlast, hacc⟩ := h
    refine ih ?_
    -- There is only one move, so the run to the accepted tree begins with it.
    rcases hlast.cases_head with rfl | ⟨after, hafter, hrest⟩
    · rw [hmove] at hacc
      cases hacc
    · obtain rfl := Outcome.next.inj (hafter.symm.trans hmove)
      exact ⟨last, hrest, hacc⟩

theorem Reaches.accepts (hreach : Reaches m s s') (h : Accepts m s' tree) : Accepts m s tree := by
  obtain ⟨last, hlast, hacc⟩ := h
  exact ⟨last, hreach.trans hlast, hacc⟩

theorem Accepts.unique {other : Node} (h : Accepts m s tree) (h' : Accepts m s other) : tree = other := by
  obtain ⟨last, hlast, hacc⟩ := h'
  obtain ⟨last', hlast', hacc'⟩ := h.of_reaches hlast
  rcases hlast'.cases_head with rfl | ⟨after, hafter, -⟩
  · exact Outcome.accepted.inj (hacc'.symm.trans hacc)
  · rw [hafter] at hacc
    cases hacc

/-- Something is done about the lexeme ahead. -/
theorem Accepts.action_isSome {x : Lexeme} (h : Accepts m s tree) (hahead : s.ahead = some x) :
    (m.action? s.state x.1).isSome = true := by
  obtain ⟨last, hlast, hacc⟩ := h
  have hmove : move m s ≠ .failed := by
    rcases hlast.cases_head with rfl | ⟨after, hafter, -⟩
    · rw [hacc]
      simp
    · rw [hafter]
      simp
  by_contra hnone
  refine hmove ?_
  rw [move, hahead]
  simp only [useLexeme, Option.not_isSome_iff_eq_none.mp hnone]

end FapLang.Grammar
