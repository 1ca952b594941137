import FapLang.Grammar.Table

/-!
The automaton that drives parsing. In a state, a token is either read, which leads to another state, or it
ends a production, if it may follow that. Where both are possible, reading on is preferred.
-/

namespace FapLang.Grammar

inductive Action
  | shift (state : Nat)
  | reduce (production : Nat)
  | accept
  deriving DecidableEq, Repr

/-- Productions and states by number, and what may follow a category. State 0 comes first. -/
structure Automaton where
  productions : List Production
  followers : Category → List Terminal
  states : List State

namespace Automaton

def isFinished (m : Automaton) (item : Nat × Nat) : Bool :=
  match m.productions[item.1]? with
  | some p => p.symbols.length = item.2
  | none => false

/-- The production that is finished in a state. -/
def finished? (m : Automaton) (s : State) : Option Nat :=
  (s.items.find? m.isFinished).map (·.1)

def mayFollow (m : Automaton) (production : Nat) (t : Terminal) : Bool :=
  match m.productions[production]? with
  | some p => (m.followers p.category).contains t
  | none => false

def actionIn (m : Automaton) (s : State) (t : Terminal) : Option Action :=
  match s.shifts.lookup t with
  | some target => some (if t = .finish then .accept else .shift target)
  | none => ((m.finished? s).filter (m.mayFollow · t)).map .reduce

def action? (m : Automaton) (state : Nat) (t : Terminal) : Option Action :=
  m.states[state]?.bind (m.actionIn · t)

def goto? (m : Automaton) (state : Nat) (c : Category) : Option Nat :=
  m.states[state]?.bind (·.gotos.lookup c)

/-- The terminals that have an action in a state. -/
def terminals (m : Automaton) (state : Nat) : List Terminal :=
  (Terminal.all ++ [Terminal.finish]).filter fun t => (m.action? state t).isSome

end Automaton

/-- The automaton of the language. -/
def automaton : Automaton :=
  { productions := productions, followers := followers, states := states }

end FapLang.Grammar
