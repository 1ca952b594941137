import FapLang.Proofs.Grammar.Coherence
import FapLang.Proofs.Grammar.Moves
import Mathlib.Tactic.SplitIfs

/-!
Soundness of the parser: a tree that it accepts has a derivation (`derives_of_accepts`). The
invariant is that the stack is built from derivations (`Built`), of which finishing a production
takes as many off as it has symbols (`Built.pop`).
-/

namespace FapLang.Grammar

open Lexeme

variable {m : Automaton} {c : Candidates} {x : Lexeme} {ls : List Lexeme} {i : Nat} {p : Production}
  {s s' : Situation}

/-- Some state finishes the production before the terminal. -/
def Automaton.Finishes (m : Automaton) (p : Production) (next : Terminal) : Prop :=
  ∃ state i, m.productions[i]? = some p ∧ m.action? state next = some (.reduce i)

theorem mem_productions_of_finishes {next : Terminal} (h : automaton.Finishes p next) : p ∈ productions := by
  obtain ⟨-, i, hp, -⟩ := h
  exact List.mem_of_getElem? hp

/-- `Built m stack ls next`: the frames of the stack derive the lexemes `ls`, before `next`. -/
inductive Built (m : Automaton) : List Frame → List Lexeme → Terminal → Prop
  | bottom (next : Terminal) : Built m [⟨0, []⟩] [] next
  | push {frame below : Frame} {stack : List Frame} {x : Symbol} {ls phrase : List Lexeme}
      {next : Terminal} (hstack : Built m (below :: stack) ls (leading phrase next))
      (hedge : m.Edge below.state x frame.state)
      (hderives : Derives m.Finishes [x] phrase next frame.nodes) :
      Built m (frame :: below :: stack) (ls ++ phrase) next

namespace Built

variable {m : Automaton} {stack : List Frame} {ls : List Lexeme} {next : Terminal}

theorem ne_nil (h : Built m stack ls next) : stack ≠ [] := by
  cases h <;> exact List.cons_ne_nil _ _

theorem linked (h : Built m stack ls next) : Linked m stack := by
  induction h with
  | bottom next => exact .bottom
  | push _ hedge _ ih => exact .push ih hedge

/-- The frames above a mark derive the symbols before it. -/
theorem pop (hm : m.isCoherent = true) {k : Nat}
    (hp : m.productions[i]? = some p) {frame : Frame} (h : Built m (frame :: stack) ls next)
    (hholds : m.Holds frame.state i p k) :
    ∃ base below front phrase, (frame :: stack).drop k = base :: below ∧ ls = front ++ phrase ∧
      Built m (base :: below) front (leading phrase next) ∧ m.Holds base.state i p 0 ∧
      Derives m.Finishes (p.symbols.take k) phrase next
        (((frame :: stack).take k).reverse.flatMap (·.nodes)) := by
  induction k generalizing frame stack ls next with
  | zero =>
    refine ⟨frame, stack, ls, [], rfl, by simp, h, hholds, ?_⟩
    simpa using Derives.nil next
  | succ k ih =>
    cases h with
    | bottom => exact absurd hholds (Automaton.not_holds_start hm)
    | @push _ below stack x ls last _ hbelow hedge hder =>
      obtain ⟨hsym, hheld⟩ := Automaton.holds_of_edge hm hedge hp hholds
      obtain ⟨base, rest, front, phrase, hdrop, rfl, hbase, hroot, hphrase⟩ := ih hbelow hheld
      refine ⟨base, rest, front, phrase ++ last, hdrop, by simp, ?_, hroot, ?_⟩
      · rwa [leading_append]
      · have hjoined := hphrase.append hder
        have htake : p.symbols.take (k + 1) = p.symbols.take k ++ [x] := by
          rw [List.take_add_one, hsym, Option.toList_some]
        rw [htake]
        simpa using hjoined

end Built

/-- A production that is finished can be reduced, and the stack stays built. -/
theorem Built.reduce (hm : m.isCoherent = true)
    {frame : Frame} {stack : List Frame} (h : Built m (frame :: stack) ls x.1)
    (hact : m.action? frame.state x.1 = some (.reduce i)) :
    ∃ after, Grammar.reduce m (frame :: stack) i = some after ∧ Built m after ls x.1 := by
  obtain ⟨p, hp, hroot, -, hholds⟩ := Automaton.holds_of_reduce hm hact
  obtain ⟨base, below, front, phrase, hdrop, rfl, hbase, hstart, hder⟩ := h.pop hm hp hholds
  obtain ⟨target, htarget⟩ := Automaton.goto_of_holds hstart hroot
  rw [List.take_length] at hder
  refine ⟨_, reduce_eq_some hp hdrop htarget, ?_⟩
  exact .push hbase (Automaton.edge_of_goto htarget) (.single ⟨_, _, hp, hact⟩ hder)

/-- The frames of a finished production are replaced by one. -/
theorem reaches_reduce (frames : List Frame) {stack : List Frame} {base : Frame} {target : Nat} {y : Lexeme}
    (hstack : s.stack = frames ++ base :: stack) (hahead : s.ahead = some y) (hp : m.productions[i]? = some p)
    (hlen : frames.length = p.symbols.length) (hact : m.action? s.state y.1 = some (.reduce i))
    (hgoto : m.goto? base.state p.category = some target) : Reaches m s { s with
      stack := ⟨target, p.build (frames.reverse.flatMap (·.nodes))⟩ :: base :: stack } := by
  have hdrop : s.stack.drop p.symbols.length = base :: stack := by
    rw [hstack, ← hlen, List.drop_left]
  have htake : s.stack.take p.symbols.length = frames := by
    rw [hstack, ← hlen, List.take_left]
  have hred := reduce_eq_some hp hdrop hgoto
  rw [htake] at hred
  exact .single (.reduce hahead hact hred)

theorem Terminal.spells_of_keyword {word : List Char} {t : Terminal} (h : Candidates.spells word t = true) :
    t.Spells word := by
  unfold Candidates.spells at h
  unfold Terminal.Spells Pattern.Spells
  cases hpat : t.pattern with
  | word text =>
    rw [hpat] at h
    exact takeLiteral_eq_some_iff.mpr ⟨by simpa using h, by simp⟩
  | anyCase text =>
    rw [hpat] at h
    exact takeAnyCase_eq_some_iff.mpr ⟨by simp, by simpa using h⟩
  | identifier => simp [hpat] at h
  | numeral => simp [hpat] at h
  | lineEnds => simp [hpat] at h
  | blankRun => simp [hpat] at h
  | quotedText => simp [hpat] at h
  | oneOf texts => simp [hpat] at h

/-- A lexeme belongs to the terminal it is classified as. -/
theorem Candidates.classify_spells {t : Terminal} {word : List Char}
    (h : t.Spells word) : (c.classify t word).Spells word := by
  unfold classify
  split_ifs with hident
  · cases hfind : c.keywords.find? (Candidates.spells word) with
    | none => simpa [hident] using h
    | some keyword => exact Terminal.spells_of_keyword (List.find?_some hfind)
  · exact h

theorem Candidates.spells_of_lex {cs rest : List Char} (h : c.lex cs = .token x rest) : x.1.Spells x.2 := by
  induction cs using lex_induction (c := c) with
  | nil => cases h
  | stuck => cases h
  | token cs t word left hmatch =>
    obtain ⟨rfl, -⟩ := Lexed.token.inj h
    exact classify_spells (Pattern.take?_spells (match?_eq_some hmatch).2).2
  | blank cs word left hmatch ih => exact ih h

/-- The stack is built from the lexemes `ls`, and the lexeme read ahead belongs to its terminal. -/
def Situation.Derived (m : Automaton) (s : Situation) (ls : List Lexeme) : Prop :=
  match s.ahead with
  | none => ∀ next, Built m s.stack ls next
  | some x => (x = endLexeme ∨ x.1.Spells x.2) ∧ Built m s.stack ls x.1

/-- The stack is built, and the lexeme read ahead belongs to its terminal. -/
def Situation.Sound (m : Automaton) (s : Situation) : Prop :=
  ∃ ls, s.Derived m ls

theorem Situation.Derived.built (hs : s.Derived m ls)
    (hahead : s.ahead = some x) : (x = endLexeme ∨ x.1.Spells x.2) ∧ Built m s.stack ls x.1 := by
  rwa [Derived, hahead] at hs

theorem Situation.derived_start (m : Automaton) (cs : List Char) : (Situation.start cs).Derived m [] :=
  fun next => .bottom next

theorem Situation.sound_start (m : Automaton) (cs : List Char) : (Situation.start cs).Sound m :=
  ⟨[], derived_start m cs⟩

/-- A built stack starts with the frame that decides. -/
theorem Built.exists_frame {next : Terminal} (h : Built m s.stack ls next) :
    ∃ frame stack, s.stack = frame :: stack ∧ s.state = frame.state := by
  obtain ⟨frame, stack, hstack⟩ := List.exists_cons_of_ne_nil h.ne_nil
  exact ⟨frame, stack, hstack, by rw [Situation.state, hstack]⟩

/-- A move keeps the stack built: it stays while a lexeme is looked for; then its lexemes and the
one ahead stay. -/
theorem Situation.Derived.moves (hm : m.isCoherent = true) (hs : s.Derived m ls) (hmove : Moves m s s') :
    ∃ ls', s'.Derived m ls' ∧ (s.ahead = none → ls' = ls) ∧
      (s.ahead ≠ none → ls' ++ s'.ahead.toList = ls ++ s.ahead.toList) := by
  obtain ⟨hahead, x, rest, hlex, rfl⟩ | ⟨hahead, rest, -, rfl⟩ | ⟨x, target, hahead, hact, rfl⟩ |
    ⟨x, i, after, hahead, hact, hred, rfl⟩ := moves_cases hmove
  · rw [Derived, hahead] at hs
    exact ⟨ls, ⟨.inr (Candidates.spells_of_lex hlex), hs x.1⟩, fun _ => rfl, fun h => absurd hahead h⟩
  · rw [Derived, hahead] at hs
    exact ⟨ls, ⟨.inl rfl, hs .finish⟩, fun _ => rfl, fun h => absurd hahead h⟩
  · obtain ⟨hword, hbuilt⟩ := hs.built hahead
    obtain ⟨hedge, hfin⟩ := Automaton.edge_of_shift hact
    have hspells : x.1.Spells x.2 := hword.resolve_left fun hend => hfin (by rw [hend]; rfl)
    obtain ⟨frame, stack, hstack, hstate⟩ := hbuilt.exists_frame
    rw [hstate] at hedge
    refine ⟨ls ++ [x], fun next => ?_, fun h => absurd h (by simp [hahead]), fun _ => by simp [hahead]⟩
    simp only [hstack] at hbuilt ⊢
    exact .push hbuilt hedge (.single_terminal hspells)
  · obtain ⟨hword, hbuilt⟩ := hs.built hahead
    obtain ⟨frame, stack, hstack, hstate⟩ := hbuilt.exists_frame
    rw [hstate] at hact
    rw [hstack] at hbuilt hred
    obtain ⟨after', hred', hafter⟩ := hbuilt.reduce hm hact
    obtain rfl : after' = after := Option.some.inj (hred'.symm.trans hred)
    exact ⟨ls, by simpa only [Derived, hahead] using ⟨hword, hafter⟩, fun _ => rfl, fun _ => rfl⟩

theorem Situation.Sound.moves (hm : m.isCoherent = true) (hs : s.Sound m) (hmove : Moves m s s') : s'.Sound m := by
  obtain ⟨ls, hder⟩ := hs
  obtain ⟨ls', hder', -⟩ := hder.moves hm hmove
  exact ⟨ls', hder'⟩

theorem Situation.Sound.reaches (hm : m.isCoherent = true) (hs : s.Sound m) (hreach : Reaches m s s') : s'.Sound m := by
  induction hreach with
  | refl => exact hs
  | tail _ hmove ih => exact ih.moves hm hmove

/-- An accepted tree derives from the category of whole texts. -/
theorem Situation.Derived.derives_of_accepted (hm : m.isCoherent = true) {tree : Node}
    (hs : s.Derived m ls) (h : move m s = .accepted tree) :
    ∃ frame stack front phrase, s.stack = frame :: stack ∧ ls = front ++ phrase ∧
      Built m stack front (leading phrase .finish) ∧ Derives m.Finishes [.category .start] phrase .finish [tree] := by
  obtain ⟨x, hahead, hact, htree⟩ := accepted_cases h
  obtain ⟨-, hbuilt⟩ := hs.built hahead
  obtain ⟨frame, stack, hstack, hstate⟩ := hbuilt.exists_frame
  rw [hstate] at hact
  rw [hstack] at hbuilt htree
  obtain ⟨p, hp, hsym, hholds⟩ := Automaton.holds_of_accept hm hact
  cases hbuilt with
  | bottom => exact absurd hholds (Automaton.not_holds_start hm)
  | @push _ below stack symbol front phrase _ hbelow hedge hder =>
    obtain ⟨hsym', -⟩ := Automaton.holds_of_edge hm hedge hp hholds
    obtain rfl : symbol = .category .start := Option.some.inj (hsym'.symm.trans hsym)
    rw [Automaton.finish_of_accept hact] at hbelow hder
    obtain ⟨q, inner, hq, hnodes, hallowed, hinner⟩ := hder.single_inv
    obtain ⟨node, hnode⟩ := List.length_eq_one_iff.mp (q.build_length inner (by rw [hq]; rfl))
    obtain rfl : tree = node := by simpa [hnodes, hnode] using htree
    rw [hnodes, hnode] at hder
    exact ⟨frame, below :: stack, front, phrase, hstack, rfl, hbelow, hder⟩

/-- An accepted tree derives from the category of whole texts. -/
theorem derives_of_accepts (hm : m.isCoherent = true) {tree : Node} (hs : s.Sound m) (h : Accepts m s tree) :
    ∃ ls, Derives m.Finishes [.category .start] ls .finish [tree] := by
  obtain ⟨last, hreach, hlast⟩ := h
  obtain ⟨ls, hderived⟩ := hs.reaches hm hreach
  obtain ⟨-, -, -, phrase, -, -, -, hder⟩ := hderived.derives_of_accepted hm hlast
  exact ⟨phrase, hder⟩

end FapLang.Grammar
