import FapLang.Grammar.Parse

/-!
How the states of an automaton hang together. In a coherent one a state holds only what the state
before it held, with the mark moved over the symbol in between (`Linked.holds_drop`). The automaton
of the language is coherent (`automaton_isCoherent`).
-/

namespace FapLang.Grammar

namespace State

/-- The ways on to other states. The end of the text is accepted and leads nowhere. -/
def edges (s : State) : List (Symbol × Nat) :=
  (s.shifts.filter fun e => e.1 ≠ .finish).map (fun e => (.terminal e.1, e.2)) ++
    s.gotos.map fun e => (.category e.1, e.2)

/-- Whether production `p`, which has number `i`, may stand with its mark at a place. -/
def holds (s : State) (i : Nat) (p : Production) : Nat → Bool
  | 0 => p.category = .root || (s.gotos.lookup p.category).isSome
  | k + 1 => s.items.contains (i, k + 1)

/-- Whether the end of the text is taken only after the text as a whole. -/
def endsAfterStart (s : State) : Bool :=
  (s.shifts.lookup .finish).isNone || s.items.contains (0, 1)

end State

namespace Automaton

/-- Whether an item of a state comes from the state before it, over the symbol `x`. -/
def stems (m : Automaton) (before : State) (x : Symbol) (item : Nat × Nat) : Bool :=
  match m.productions[item.1]?, item.2 with
  | some _, 0 => true
  | some p, k + 1 => p.symbols[k]? = some x && before.holds item.1 p k
  | none, _ => false

/-- Whether an item without read symbols has its category lead on from the state. -/
def isRooted (m : Automaton) (s : State) (item : Nat × Nat) : Bool :=
  match m.productions[item.1]? with
  | some p => item.2 ≠ 0 || s.holds item.1 p 0
  | none => false

def isCoherent (m : Automaton) : Bool :=
  (m.followers .root).isEmpty &&
  (m.productions[0]?.map (·.symbols) = some [.category .start, .terminal .finish]) &&
  (match m.states[0]? with
    | some s => s.items.all fun item => item.2 = 0
    | none => false) &&
  m.states.all fun s => s.endsAfterStart && s.items.all (m.isRooted s) && s.edges.all fun e =>
    match m.states[e.2]? with
    | some after => after.items.any (·.2 ≠ 0) && after.items.all (m.stems s e.1)
    | none => false

end Automaton

theorem automaton_isCoherent : automaton.isCoherent = true := by
  decide +kernel

theorem mem_of_lookup_eq_some {α β : Type} [BEq α] [LawfulBEq α] {key : α} {value : β}
    {entries : List (α × β)} (h : entries.lookup key = some value) : (key, value) ∈ entries := by
  obtain ⟨before, behind, rfl, -⟩ := List.lookup_eq_some_iff.mp h
  exact List.mem_append_right _ (.head _)

namespace Automaton

variable {m : Automaton} {state target i k : Nat} {p : Production} {x : Symbol} {t : Terminal}
  {c : Category}

/-- One state leads to another over a symbol. -/
def Edge (m : Automaton) (state : Nat) (x : Symbol) (target : Nat) : Prop :=
  ∃ s, m.states[state]? = some s ∧ (x, target) ∈ s.edges

/-- A state holds the production with its mark after `k` symbols. -/
def Holds (m : Automaton) (state i : Nat) (p : Production) (k : Nat) : Prop :=
  ∃ s, m.states[state]? = some s ∧ s.holds i p k = true

/-- What a state holds after a symbol, the state before it held before that symbol. -/
theorem holds_of_edge (hm : m.isCoherent = true) (hedge : m.Edge state x target)
    (hp : m.productions[i]? = some p) (hholds : m.Holds target i p (k + 1)) :
    p.symbols[k]? = some x ∧ m.Holds state i p k := by
  obtain ⟨s, hs, hmem⟩ := hedge
  obtain ⟨after, hafter, hitem⟩ := hholds
  simp only [isCoherent, Bool.and_eq_true, List.all_eq_true] at hm
  have hstems := (hm.2 s (List.mem_of_getElem? hs)).2 _ hmem
  simp only [hafter, Bool.and_eq_true, List.all_eq_true] at hstems
  have hitem' : (i, k + 1) ∈ after.items := by simpa [State.holds] using hitem
  have hstem := hstems.2 _ hitem'
  simp only [stems, hp, Bool.and_eq_true, decide_eq_true_eq] at hstem
  exact ⟨hstem.1, s, hs, hstem.2⟩

/-- The symbol that was read last in a state. -/
def entered (m : Automaton) (state : Nat) : Option Symbol := do
  let s ← m.states[state]?
  let item ← s.items.find? (·.2 ≠ 0)
  let p ← m.productions[item.1]?
  p.symbols[item.2 - 1]?

theorem entered_of_edge (hm : m.isCoherent = true) (hedge : m.Edge state x target) : m.entered target = some x := by
  obtain ⟨s, hs, hmem⟩ := hedge
  simp only [isCoherent, Bool.and_eq_true, List.all_eq_true] at hm
  have hafter := (hm.2 s (List.mem_of_getElem? hs)).2 _ hmem
  cases htarget : m.states[target]? with
  | none => simp [htarget] at hafter
  | some after =>
    simp only [htarget, Bool.and_eq_true, List.all_eq_true] at hafter
    obtain ⟨hany, hstems⟩ := hafter
    cases hfind : after.items.find? (·.2 ≠ 0) with
    | none =>
      rw [List.find?_eq_none] at hfind
      obtain ⟨item, hitem, hmark⟩ := List.any_eq_true.mp hany
      exact absurd hmark (hfind item hitem)
    | some item =>
      obtain ⟨i, k⟩ := item
      have hmark : k ≠ 0 := by simpa using List.find?_some hfind
      obtain ⟨k, rfl⟩ := Nat.exists_eq_succ_of_ne_zero hmark
      have hstem := hstems _ (List.mem_of_find?_eq_some hfind)
      cases hp : m.productions[i]? with
      | none => simp [stems, hp] at hstem
      | some p =>
        simp only [stems, hp, Bool.and_eq_true, decide_eq_true_eq] at hstem
        simp only [entered, htarget, hfind, hp, Option.bind_eq_bind, Option.bind_some, Nat.succ_sub_one, hstem.1]

/-- Nothing has been read in the initial state. -/
theorem not_holds_start (hm : m.isCoherent = true) : ¬ m.Holds 0 i p (k + 1) := by
  rintro ⟨s, hs, hholds⟩
  simp only [isCoherent, Bool.and_eq_true, hs, List.all_eq_true, decide_eq_true_eq] at hm
  have hitem : (i, k + 1) ∈ s.items := by simpa [State.holds] using hholds
  exact absurd (hm.1.2 _ hitem) (Nat.succ_ne_zero k)

/-- An action is the end of the text, a token that leads on, or a finished production if nothing can
be read. -/
theorem action_cases {action : Action} (h : m.action? state t = some action) : ∃ s, m.states[state]? = some s ∧
      ((∃ target, s.shifts.lookup t = some target ∧
          (t = .finish ∧ action = .accept ∨ t ≠ .finish ∧ action = .shift target)) ∨
        s.shifts.lookup t = none ∧ ∃ i, m.finished? s = some i ∧ m.mayFollow i t = true ∧
          action = .reduce i) := by
  obtain ⟨s, hs, hact⟩ := Option.bind_eq_some_iff.mp h
  refine ⟨s, hs, ?_⟩
  cases hlookup : s.shifts.lookup t with
  | some target =>
    rw [actionIn, hlookup] at hact
    by_cases hfin : t = .finish
    · exact .inl ⟨target, rfl, .inl ⟨hfin, by simpa [hfin] using hact.symm⟩⟩
    · exact .inl ⟨target, rfl, .inr ⟨hfin, by simpa [hfin] using hact.symm⟩⟩
  | none =>
    rw [actionIn, hlookup] at hact
    obtain ⟨i, hi, hact⟩ := Option.map_eq_some_iff.mp hact
    obtain ⟨hfinished, hfollow⟩ := Option.filter_eq_some_iff.mp hi
    exact .inr ⟨rfl, i, hfinished, hfollow, hact.symm⟩

theorem edge_of_shift (h : m.action? state t = some (.shift target)) :
    m.Edge state (.terminal t) target ∧ t ≠ .finish := by
  obtain ⟨s, hs, ⟨found, hlookup, ⟨-, hact⟩ | ⟨hfin, hact⟩⟩ | ⟨-, i, -, -, hact⟩⟩ :=
    action_cases h
  · cases hact
  · cases hact
    refine ⟨⟨s, hs, List.mem_append_left _ ?_⟩, hfin⟩
    refine List.mem_map.mpr ⟨(t, target), List.mem_filter.mpr ⟨?_, by simpa using hfin⟩, rfl⟩
    exact mem_of_lookup_eq_some hlookup
  · cases hact

theorem edge_of_goto (h : m.goto? state c = some target) : m.Edge state (.category c) target := by
  obtain ⟨s, hs, hlookup⟩ := Option.bind_eq_some_iff.mp h
  refine ⟨s, hs, List.mem_append_right _ (List.mem_map.mpr ⟨(c, target), ?_, rfl⟩)⟩
  exact mem_of_lookup_eq_some hlookup

theorem goto_of_holds (h : m.Holds state i p 0) (hroot : p.category ≠ .root) :
    ∃ target, m.goto? state p.category = some target := by
  obtain ⟨s, hs, hholds⟩ := h
  simp only [State.holds, Bool.or_eq_true, decide_eq_true_eq] at hholds
  obtain ⟨target, htarget⟩ := Option.isSome_iff_exists.mp (hholds.resolve_left hroot)
  exact ⟨target, by simp [goto?, hs, htarget]⟩

/-- A production is finished in a state that holds all of it, before a terminal that may follow. -/
theorem holds_of_reduce (hm : m.isCoherent = true) (h : m.action? state t = some (.reduce i)) :
    ∃ p, m.productions[i]? = some p ∧ p.category ≠ .root ∧ t ∈ m.followers p.category ∧
      m.Holds state i p p.symbols.length := by
  obtain ⟨s, hs, ⟨found, -, ⟨-, hact⟩ | ⟨-, hact⟩⟩ | ⟨-, j, hfinished, hfollow, hact⟩⟩ :=
    action_cases h
  · cases hact
  · cases hact
  · cases hact
    obtain ⟨⟨j, k⟩, hfind, rfl⟩ := Option.map_eq_some_iff.mp hfinished
    have hitem := List.mem_of_find?_eq_some hfind
    have hmark := List.find?_some hfind
    simp only [isCoherent, Bool.and_eq_true, List.all_eq_true] at hm
    have hrooted := (hm.2 s (List.mem_of_getElem? hs)).1.2 _ hitem
    cases hp : m.productions[j]? with
    | none => simp [isFinished, hp] at hmark
    | some p =>
      simp only [isFinished, hp, decide_eq_true_eq] at hmark
      simp only [mayFollow, hp, List.contains_iff_mem] at hfollow
      have hroot : p.category ≠ .root := by
        intro hroot
        rw [hroot, List.isEmpty_iff.mp hm.1.1.1] at hfollow
        exact List.not_mem_nil hfollow
      refine ⟨p, rfl, hroot, hfollow, s, hs, ?_⟩
      subst hmark
      cases hlen : p.symbols.length with
      | zero => simpa [isRooted, hp, hlen] using hrooted
      | succ n => simpa [State.holds, hlen] using hitem

theorem finish_of_accept (h : m.action? state t = some .accept) : t = .finish := by
  obtain ⟨s, -, ⟨found, -, ⟨hfin, -⟩ | ⟨-, hact⟩⟩ | ⟨-, i, -, -, hact⟩⟩ := action_cases h
  · exact hfin
  · cases hact
  · cases hact

/-- A text is accepted where all of it has been read as one. -/
theorem holds_of_accept (hm : m.isCoherent = true) (h : m.action? state t = some .accept) :
    ∃ p, m.productions[0]? = some p ∧ p.symbols[0]? = some (.category .start) ∧
      m.Holds state 0 p 1 := by
  obtain ⟨s, hs, ⟨found, hlookup, ⟨rfl, -⟩ | ⟨-, hact⟩⟩ | ⟨-, i, -, -, hact⟩⟩ := action_cases h
  · simp only [isCoherent, Bool.and_eq_true, List.all_eq_true, decide_eq_true_eq] at hm
    obtain ⟨p, hp, hsyms⟩ := Option.map_eq_some_iff.mp hm.1.1.2
    have hends := (hm.2 s (List.mem_of_getElem? hs)).1.1
    refine ⟨p, hp, by rw [hsyms]; rfl, s, hs, ?_⟩
    simpa [State.endsAfterStart, hlookup, State.holds] using hends
  · cases hact
  · cases hact

end Automaton

/-- A stack in which every state is entered from the one below it. -/
inductive Linked (m : Automaton) : List Frame → Prop
  | bottom : Linked m [⟨0, []⟩]
  | push {frame below : Frame} {stack : List Frame} {x : Symbol} (hstack : Linked m (below :: stack))
      (hedge : m.Edge below.state x frame.state) : Linked m (frame :: below :: stack)

/-- A mark at `j + k` in the top state is at `k` in the state `j` places below. -/
theorem Linked.holds_drop {m : Automaton} (hm : m.isCoherent = true) {i j k : Nat} {p : Production}
    (hp : m.productions[i]? = some p) {frame : Frame} {stack : List Frame}
    (hstack : Linked m (frame :: stack)) (hholds : m.Holds frame.state i p (j + k)) :
    ∃ base below, (frame :: stack).drop j = base :: below ∧ Linked m (base :: below) ∧
      m.Holds base.state i p k := by
  induction j generalizing frame stack with
  | zero => exact ⟨frame, stack, rfl, hstack, by rwa [Nat.zero_add] at hholds⟩
  | succ j ih =>
    rw [Nat.add_right_comm] at hholds
    cases hstack with
    | bottom => exact absurd hholds (Automaton.not_holds_start hm)
    | push hbelow hedge => exact ih hbelow (Automaton.holds_of_edge hm hedge hp hholds).2

theorem reduce_eq_some {m : Automaton} {i target : Nat} {p : Production} {stack below : List Frame}
    {base : Frame} (hp : m.productions[i]? = some p) (hdrop : stack.drop p.symbols.length = base :: below)
    (htarget : m.goto? base.state p.category = some target) : reduce m stack i = some
      (⟨target, p.build ((stack.take p.symbols.length).reverse.flatMap (·.nodes))⟩ :: base :: below) := by
  simp only [reduce, hp, hdrop, List.head?_cons, htarget, Option.bind_eq_bind, Option.bind_some, Option.pure_def]

end FapLang.Grammar
