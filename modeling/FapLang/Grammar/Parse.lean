import FapLang.Grammar.Automaton
import FapLang.Grammar.ParseError

/-!
Parsing. The automaton runs over the text with a stack of states; the state on top decides which
terminals the next token may be, so reading a token is a step of the parser.
-/

namespace FapLang.Grammar

/-- A state with the nodes that its symbol contributes to the tree. -/
structure Frame where
  state : Nat
  nodes : List Node

structure Config where
  /-- The stack, top first. -/
  stack : List Frame
  cursor : Cursor
  /-- The token read ahead. -/
  lookahead : Option Token
  /-- The last token of the text. -/
  previous : Option Token

namespace Config

def start (cs : List Char) : Config :=
  { stack := [⟨0, []⟩], cursor := Cursor.start cs, lookahead := none, previous := none }

def state (c : Config) : Nat :=
  match c.stack with
  | frame :: _ => frame.state
  | [] => 0

end Config

/-- The nodes of a finished production. -/
def Production.build (p : Production) (children : List Node) : List Node :=
  if p.category.isSpliced then children
  else if p.marksAbsence && children.isEmpty then [.tree p.label [.absent]]
  else [.tree p.label children]

/-- Replaces the symbols of a production on top of the stack by its category. -/
def reduce (m : Automaton) (stack : List Frame) (production : Nat) : Option (List Frame) := do
  let p ← m.productions[production]?
  let size := p.symbols.length
  let below := stack.drop size
  let base ← below.head?
  let target ← m.goto? base.state p.category
  return ⟨target, p.build ((stack.take size).reverse.flatMap (·.nodes))⟩ :: below

/-- Whether a terminal would be taken after the reductions it calls for. -/
def accepts (m : Automaton) (t : Terminal) : Nat → List Frame → Bool
  | 0, _ => false
  | fuel + 1, stack =>
    match stack with
    | [] => false
    | frame :: _ =>
      match m.action? frame.state t with
      | some (.shift _) | some .accept => true
      | some (.reduce p) =>
        match reduce m stack p with
        | some stack => accepts m t fuel stack
        | none => false
      | none => false

/-- The terminals that the parser would really take. -/
def acceptable (m : Automaton) (stack : List Frame) (state : Nat) : List Terminal :=
  (m.terminals state).filter fun t => accepts m t (8 * stack.length + 100) stack

inductive Step
  | next (c : Config)
  | accepted (tree : Node)
  | failed (e : ParseError)

/-- The end of a text stands where its last token stands. -/
def finishToken (previous : Option Token) : Token :=
  match previous with
  | some t => ⟨.finish, "", t.line, t.column⟩
  | none => ⟨.finish, "", 1, 1⟩

/-- The error for a place where no candidate matches. -/
def stuckError (m : Automaton) (text : List Char) (c : Config) (place : Cursor)
    (candidates : Candidates) : ParseError :=
  match scan .everything place with
  | .token t _ =>
    let real := acceptable m c.stack c.state
    .foreign t (if real.isEmpty then candidates.expected else real) c.previous
  | _ =>
    .character (place.rest.headD ' ') place.line place.column
      ((text.take place.offset).drop (place.offset - 40)) (place.rest.take 40) candidates.expected
      c.previous

/-- Reads the next token. -/
def readToken (m : Automaton) (text : List Char) (c : Config) : Step :=
  let candidates := Candidates.of (m.terminals c.state)
  match scan candidates c.cursor with
  | .token t after => .next { c with cursor := after, lookahead := some t, previous := some t }
  | .finished place =>
    .next { c with cursor := place, lookahead := some (finishToken c.previous) }
  | .stuck place => .failed (stuckError m text c place candidates)

/-- Does what the table says for the token read ahead. -/
def useToken (m : Automaton) (c : Config) (t : Token) : Step :=
  match m.action? c.state t.terminal with
  | some (.shift target) =>
    let nodes := if t.terminal.isKept then [t.node] else []
    .next { c with stack := ⟨target, nodes⟩ :: c.stack, lookahead := none }
  | some (.reduce p) =>
    match reduce m c.stack p with
    | some stack => .next { c with stack := stack }
    | none => .failed .exhausted
  | some .accept => .accepted ((c.stack.head?.bind (·.nodes.head?)).getD .absent)
  | none =>
    let real := acceptable m c.stack c.state
    .failed (.misplaced t (if real.isEmpty then m.terminals c.state else real))

def step (m : Automaton) (text : List Char) (c : Config) : Step :=
  match c.lookahead with
  | none => readToken m text c
  | some t => useToken m c t

def run (m : Automaton) (text : List Char) : Nat → Config → Except ParseError Node
  | 0, _ => .error .exhausted
  | fuel + 1, c =>
    match step m text c with
    | .next c => run m text fuel c
    | .accepted tree => .ok tree
    | .failed e => .error e

/-- A token is read and shifted once and takes part in a bounded number of reductions. -/
def stepBound (text : List Char) : Nat :=
  64 * (text.length + 2)

/-- The tree of a program. -/
def parse (source : String) : Except ParseError Node :=
  let text := source.toList
  run automaton text (stepBound text) (Config.start text)

end FapLang.Grammar
