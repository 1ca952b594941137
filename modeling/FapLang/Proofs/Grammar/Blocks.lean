import FapLang.Proofs.Grammar.Termination

/-!
A block is read in the same way wherever it stands: what the machine does above a frame of the stack
does not depend on the frames below it (`moves_above`), so a run to the end of a text splits at its
block (`block_splits`).
-/

namespace FapLang.Grammar

variable {n tree : Node} {b : Frame} {x : Lexeme} {rest : List Char} {nodes : List Node} {i k state : Nat}
  {p : Production} {s s' : Situation}
variable {below : List Frame}

/-! ### Above a frame -/

theorem Situation.Sound.linked (hs : s.Sound automaton) : Linked automaton s.stack := by
  obtain ⟨ls, hder⟩ := hs
  cases hahead : s.ahead with
  | none =>
    rw [Situation.Derived, hahead] at hder
    exact (hder .finish).linked
  | some x => exact (hder.built hahead).2.linked

theorem Situation.state_above (frames : List Frame) (b : Frame) (below other : List Frame)
    (rest rest' : List Char) (ahead ahead' : Option Lexeme) : Situation.state ⟨frames ++ b :: below, rest, ahead⟩ =
      Situation.state ⟨frames ++ b :: other, rest', ahead'⟩ := by
  cases frames <;> rfl

/-- The production that is finished began at a frame that stays, or right below the frame `b`. -/
theorem reduce_above {frames : List Frame} {t : Terminal} {stack' : List Frame} {ahead : Option Lexeme}
    (hlinked : Linked automaton (frames ++ b :: below)) (hmark : ∀ i p k, automaton.Holds b.state i p (k + 1) → k = 0)
    (hact : automaton.action? (Situation.state ⟨frames ++ b :: below, rest, ahead⟩) t =
      some (.reduce i)) (hred : reduce automaton (frames ++ b :: below) i = some stack') :
    (∃ frames', stack' = frames' ++ b :: below ∧
      ∀ other, reduce automaton (frames ++ b :: other) i = some (frames' ++ b :: other)) ∨
    ∃ p, automaton.productions[i]? = some p ∧ automaton.Holds b.state i p 1 ∧
      p.symbols.length = frames.length + 1 := by
  obtain ⟨p, hp, hroot, -, hholds⟩ := Automaton.holds_of_reduce automaton_isCoherent hact
  obtain ⟨top, under, hstack⟩ := List.exists_cons_of_ne_nil
    (show frames ++ b :: below ≠ [] by simp)
  have htop : Situation.state ⟨frames ++ b :: below, rest, ahead⟩ = top.state := by
    rw [hstack]
    rfl
  rw [htop] at hholds
  by_cases hle : p.symbols.length ≤ frames.length
  · left
    have hholds' : automaton.Holds top.state i p (p.symbols.length + 0) := hholds
    rw [hstack] at hlinked
    obtain ⟨base, rest', hdrop, -, hbase⟩ := hlinked.holds_drop automaton_isCoherent hp hholds'
    obtain ⟨target, htarget⟩ := Automaton.goto_of_holds hbase hroot
    rw [← hstack] at hdrop
    have hsplit : ∀ other, ∃ behind, (frames ++ b :: other).drop p.symbols.length = base :: behind ∧
        base :: behind = frames.drop p.symbols.length ++ b :: other := by
      intro other
      rw [List.drop_append_of_le_length hle] at hdrop ⊢
      cases hframes : frames.drop p.symbols.length with
      | nil =>
        rw [hframes] at hdrop
        cases hdrop
        exact ⟨other, rfl, rfl⟩
      | cons f fs =>
        rw [hframes] at hdrop
        cases hdrop
        exact ⟨fs ++ b :: other, rfl, rfl⟩
    let frame : Frame :=
      ⟨target, p.build ((frames.take p.symbols.length).reverse.flatMap (·.nodes))⟩
    have hother : ∀ other, reduce automaton (frames ++ b :: other) i =
        some (frame :: frames.drop p.symbols.length ++ b :: other) := by
      intro other
      obtain ⟨behind, hdrop, hbehind⟩ := hsplit other
      rw [reduce_eq_some hp hdrop htarget, List.take_append_of_le_length hle, hbehind]
      rfl
    exact ⟨frame :: frames.drop p.symbols.length, Option.some.inj (hred.symm.trans (hother below)), hother⟩
  · right
    obtain ⟨k, hk⟩ : ∃ k, p.symbols.length = frames.length + (k + 1) :=
      ⟨p.symbols.length - frames.length - 1, by omega⟩
    rw [hk] at hholds
    rw [hstack] at hlinked
    obtain ⟨base, rest', hdrop, -, hbase⟩ := hlinked.holds_drop automaton_isCoherent hp hholds
    rw [← hstack, List.drop_left] at hdrop
    cases hdrop
    obtain rfl := hmark i p k hbase
    exact ⟨p, hp, hbase, hk⟩

/-- A move above the frame `b` does not depend on the frames below, or it finishes a production that
began right below `b`. -/
theorem moves_above {frames : List Frame} (hstack : s.stack = frames ++ b :: below) (hs : s.Sound automaton)
    (hmark : ∀ i p k, automaton.Holds b.state i p (k + 1) → k = 0) (h : Moves automaton s s') :
    (∃ frames', s'.stack = frames' ++ b :: below ∧ ∀ other,
      Moves automaton { s with stack := frames ++ b :: other }
        { s' with stack := frames' ++ b :: other }) ∨
    ∃ x i p, s.ahead = some x ∧ automaton.action? s.state x.1 = some (.reduce i) ∧
      automaton.productions[i]? = some p ∧ automaton.Holds b.state i p 1 ∧
      p.symbols.length = frames.length + 1 ∧ reduce automaton s.stack i = some s'.stack ∧
      s' = { s with stack := s'.stack } := by
  obtain ⟨stack, rest, ahead⟩ := s
  dsimp only at hstack
  subst hstack
  have hstate : ∀ other, Situation.state ⟨frames ++ b :: other, rest, ahead⟩ =
      Situation.state ⟨frames ++ b :: below, rest, ahead⟩ :=
    fun other => Situation.state_above frames b other below rest rest ahead ahead
  obtain ⟨hahead, x, left, hlex, rfl⟩ | ⟨hahead, left, hlex, rfl⟩ | ⟨x, target, hahead, hact, rfl⟩ |
    ⟨x, i, after, hahead, hact, hred, rfl⟩ := moves_cases h
  · refine .inl ⟨frames, rfl, fun other => Moves.read hahead ?_⟩
    rw [hstate]
    exact hlex
  · refine .inl ⟨frames, rfl, fun other => Moves.finish hahead ?_⟩
    rw [hstate]
    exact hlex
  · refine .inl ⟨⟨target, Lexeme.nodes x⟩ :: frames, rfl, fun other => Moves.shift hahead ?_⟩
    rw [hstate]
    exact hact
  · rcases reduce_above hs.linked hmark hact hred with ⟨frames', rfl, hother⟩ |
      ⟨p, hp, hholds, hlen⟩
    · refine .inl ⟨frames', rfl, fun other => Moves.reduce hahead ?_ (hother other)⟩
      rw [hstate]
      exact hact
    · exact .inr ⟨x, i, p, hahead, hact, hp, hholds, hlen, hred, rfl⟩

/-- The whole text is a category of the initial state only. -/
theorem eq_zero_of_edge_start {target : Nat} (h : automaton.Edge state (.category .start) target) : state = 0 := by
  obtain ⟨s, hs, hmem⟩ := h
  have hcheck : ∀ state ∈ List.range automaton.states.length, state ≠ 0 →
      ∀ s ∈ automaton.states[state]?, ∀ e ∈ s.edges, e.1 ≠ .category .start := by
    decide +kernel
  by_contra hne
  exact hcheck state (List.mem_range.mpr (List.getElem?_eq_some_iff.mp hs).1) hne s hs _ hmem rfl

/-- The initial state is not entered from another one. -/
theorem ne_zero_of_edge {target : Nat} {x : Symbol} (h : automaton.Edge state x target) : target ≠ 0 := by
  rintro rfl
  have hentered := Automaton.entered_of_edge automaton_isCoherent h
  have hnone : automaton.entered 0 = none := by decide
  rw [hnone] at hentered
  cases hentered

/-- A tree is accepted only right above the initial state. -/
theorem stack_of_accepted (hs : s.Sound automaton) (h : move automaton s = .accepted tree) :
    ∃ frame, s.stack = [frame, ⟨0, []⟩] ∧ tree = frame.nodes.head?.getD .absent := by
  obtain ⟨x, -, hact, htree⟩ := accepted_cases h
  have hlinked := hs.linked
  obtain ⟨p, hp, hsym, hholds⟩ := Automaton.holds_of_accept automaton_isCoherent hact
  generalize hstack : s.stack = stack at hlinked htree
  have hstate : s.state = Situation.state ⟨stack, s.rest, s.ahead⟩ := by rw [← hstack]
  rw [hstate] at hholds
  cases hlinked with
  | bottom => exact absurd hholds (Automaton.not_holds_start automaton_isCoherent)
  | @push frame below stack y hbelow hedge =>
    obtain ⟨hsym', -⟩ := Automaton.holds_of_edge automaton_isCoherent hedge hp hholds
    obtain rfl : y = .category .start := Option.some.inj (hsym'.symm.trans hsym)
    have hzero := eq_zero_of_edge_start hedge
    cases hbelow with
    | bottom => exact ⟨frame, rfl, htree⟩
    | push _ hentered => exact absurd hzero (ne_zero_of_edge hentered)

/-- A run from above the frame `b` to an accepted tree finishes a production that began right below
it, and does not depend on the frames below up to there. -/
theorem Accepts.leaves
    (h : Accepts automaton s tree) (frames : List Frame) (hs : s.Sound automaton) (hstack : s.stack = frames ++ b :: below)
    (hmark : ∀ i p k, automaton.Holds b.state i p (k + 1) → k = 0) (hbelow : 2 ≤ below.length) :
    ∃ frames' x i p rest, automaton.productions[i]? = some p ∧ automaton.Holds b.state i p 1 ∧
      p.symbols.length = frames'.length + 1 ∧
      automaton.action? (Situation.state ⟨frames' ++ b :: below, rest, some x⟩) x.1 =
        some (.reduce i) ∧
      Accepts automaton ⟨frames' ++ b :: below, rest, some x⟩ tree ∧
      ∀ other, Reaches automaton { s with stack := frames ++ b :: other }
        ⟨frames' ++ b :: other, rest, some x⟩ := by
  obtain ⟨last, hreach, hacc⟩ := h
  induction hreach using Relation.ReflTransGen.head_induction_on generalizing frames with
  | refl =>
    -- Nothing is accepted above a frame with two more below it.
    obtain ⟨frame, hshort, -⟩ := stack_of_accepted hs hacc
    have hlen := congrArg List.length (hstack.symm.trans hshort)
    simp only [List.length_append, List.length_cons, List.length_nil] at hlen
    omega
  | @head s s' hmove hrest ih =>
    rcases moves_above hstack hs hmark hmove with ⟨frames', hstack', hother⟩ |
      ⟨x, i, p, hahead, hact, hp, hholds, hlen, -, -⟩
    · obtain ⟨frames'', x, i, p, rest, hp, hholds, hlen, hact, haccepts, hreaches⟩ :=
        ih frames' (hs.moves automaton_isCoherent hmove) hstack'
      exact ⟨frames'', x, i, p, rest, hp, hholds, hlen, hact, haccepts,
        fun other => .head (hother other) (hreaches other)⟩
    · have hself : s = ⟨frames ++ b :: below, s.rest, some x⟩ := by rw [← hstack, ← hahead]
      refine ⟨frames, x, i, p, s.rest, hp, hholds, hlen, ?_, ?_, fun other => ?_⟩
      · rw [← hself]
        exact hact
      · rw [← hself]
        exact ⟨last, .head hmove hrest, hacc⟩
      · rw [hahead]
        exact .refl

/-- The items of a state with a mark behind a symbol, if they are the listed ones. -/
theorem mem_of_holds (items : List (Nat × Nat)) (hitems : automaton.states[state]?.map (·.items) = some items)
    (h : automaton.Holds state i p (k + 1)) : (i, k + 1) ∈ items := by
  obtain ⟨s, hs, hholds⟩ := h
  rw [hs, Option.map_some] at hitems
  cases hitems
  exact List.contains_iff_mem.mp hholds

/-! ### Blocks -/

/-- After the opening bracket of a block only the bracket has been read. -/
theorem holds_block (h : automaton.Holds 78 i p (k + 1)) : k = 0 ∧ i ∈ [34, 35] := by
  have hitem := mem_of_holds [(34, 1), (35, 1)] (by decide) h
  simp only [List.mem_cons, Prod.mk.injEq, List.not_mem_nil, or_false] at hitem ⊢
  omega

theorem build_block (hi : i ∈ [34, 35]) (hp : automaton.productions[i]? = some p) :
    p.category = .block ∧ ∀ children, p.build children = [.tree "block" children] := by
  have hcheck : ∀ i ∈ [34, 35], ∀ p ∈ automaton.productions[i]?, p.category = .block ∧
      p.marksAbsence = false ∧ p.label = "block" := by
    decide
  obtain ⟨hcat, habs, hlabel⟩ := hcheck i hi p hp
  refine ⟨hcat, fun children => ?_⟩
  simp [Production.build, hcat, Category.isSpliced, habs, hlabel]

/-- A run to an accepted tree splits at the block, and its first part is possible on every stack
that expects a block. -/
theorem block_splits {cs : List Char}
    (hs : Situation.Sound automaton ⟨⟨78, []⟩ :: below, cs, none⟩) (hbelow : 2 ≤ below.length)
    (h : Accepts automaton ⟨⟨78, []⟩ :: below, cs, none⟩ tree) :
    ∃ items rest x, ∀ base stack target, automaton.goto? base.state .block = some target →
      Reaches automaton ⟨⟨78, []⟩ :: base :: stack, cs, none⟩
        ⟨⟨target, [.tree "block" items]⟩ :: base :: stack, rest, some x⟩ := by
  obtain ⟨frames, x, i, p, rest, hp, hholds, hlen, hact, -, hreach⟩ :=
    h.leaves [] hs rfl (fun _ _ _ hholds => (holds_block hholds).1) hbelow
  obtain ⟨hcat, hbuild⟩ := build_block (holds_block hholds).2 hp
  let opened : List Frame := frames ++ [⟨78, []⟩]
  refine ⟨opened.reverse.flatMap (·.nodes), rest, x, fun base stack target hgoto => ?_⟩
  have hstack : frames ++ ⟨78, []⟩ :: base :: stack = opened ++ base :: stack :=
    List.append_cons frames ⟨78, []⟩ (base :: stack)
  have hlen' : opened.length = p.symbols.length := by
    rw [hlen, List.length_append, List.length_singleton]
  rw [Situation.state_above frames ⟨78, []⟩ below (base :: stack) rest rest (some x) (some x)] at hact
  rw [← hcat] at hgoto
  have hblock := reaches_reduce (s := ⟨frames ++ ⟨78, []⟩ :: base :: stack, rest, some x⟩) opened hstack
    rfl hp hlen' hact hgoto
  rw [hbuild] at hblock
  exact (hreach (base :: stack)).trans hblock

/-! ### Statements that are followed by others -/

/-- The nodes stand at the beginning of the tree that is under way, or of the finished tree. -/
def Begins (nodes : List Node) (s : Situation) : Prop :=
  (∃ frames more, s.stack = frames ++ [⟨2, nodes ++ more⟩, ⟨0, []⟩]) ∨
    ∃ more, s.stack = [⟨1, [.tree "start" (nodes ++ more)]⟩, ⟨0, []⟩]

/-- What is under way after statements: the whole text, or more statements. -/
theorem holds_statements (h : automaton.Holds 2 i p (k + 1)) : k = 0 ∧ i ∈ [1, 2, 6] := by
  have hitem := mem_of_holds [(1, 1), (2, 1), (6, 1)] (by decide) h
  simp only [List.mem_cons, Prod.mk.injEq, List.not_mem_nil, or_false] at hitem ⊢
  omega

theorem build_statements (hi : i ∈ [1, 2, 6]) (hp : automaton.productions[i]? = some p) :
    (automaton.goto? 0 p.category = some 1 ∧
        ∀ children, p.build children = [.tree "start" children]) ∨
      automaton.goto? 0 p.category = some 2 ∧ ∀ children, p.build children = children := by
  have hcheck : ∀ i ∈ [1, 2, 6], ∀ p ∈ automaton.productions[i]?,
      (p.category = .start ∧ p.marksAbsence = false ∧ p.label = "start") ∨
        p.category = .statements := by
    decide
  rcases hcheck i hi p hp with ⟨hcat, habs, hlabel⟩ | hcat
  · refine .inl ⟨by rw [hcat]; decide, fun children => ?_⟩
    simp [Production.build, hcat, Category.isSpliced, habs, hlabel]
  · refine .inr ⟨by rw [hcat]; decide, fun children => ?_⟩
    simp [Production.build, hcat, Category.isSpliced]

/-- Nothing but the end of the text is left to do after the whole text. -/
theorem eq_accept_of_action {t : Terminal} {action : Action}
    (h : automaton.action? 1 t = some action) : action = .accept := by
  have hcheck : ∀ t ∈ Terminal.all ++ [Terminal.finish],
      ∀ action ∈ automaton.action? 1 t, action = .accept := by
    decide
  exact hcheck t t.mem_all action h

theorem Begins.moves (h : Begins nodes s)
    (hs : s.Sound automaton) (hmove : Moves automaton s s') : Begins nodes s' := by
  rcases h with ⟨frames, more, hstack⟩ | ⟨more, hstack⟩
  · rcases moves_above hstack hs (fun _ _ _ hholds => (holds_statements hholds).1) hmove with
      ⟨frames', hstack', -⟩ | ⟨x, i, p, -, -, hp, hholds, hlen, hred, -⟩
    · exact .inl ⟨frames', more, hstack'⟩
    · let read : List Frame := frames ++ [⟨2, nodes ++ more⟩]
      have hread : s.stack = read ++ [⟨0, []⟩] := by
        rw [hstack]
        exact List.append_cons _ _ _
      have hsize : read.length = p.symbols.length := by
        rw [hlen, List.length_append, List.length_singleton]
      have hdrop : s.stack.drop p.symbols.length = [⟨0, []⟩] := by
        rw [hread, ← hsize, List.drop_left]
      have hnodes : (s.stack.take p.symbols.length).reverse.flatMap (·.nodes) =
          nodes ++ (more ++ frames.reverse.flatMap (·.nodes)) := by
        rw [hread, ← hsize, List.take_left]
        simp [read]
      rcases build_statements (holds_statements hholds).2 hp with ⟨hgoto, hbuild⟩ | ⟨hgoto, hbuild⟩
      · rw [reduce_eq_some hp hdrop hgoto, hnodes, hbuild] at hred
        exact .inr ⟨_, (Option.some.inj hred).symm⟩
      · rw [reduce_eq_some hp hdrop hgoto, hnodes, hbuild] at hred
        exact .inl ⟨[], _, (Option.some.inj hred).symm⟩
  · have hstate : s.state = 1 := by rw [Situation.state, hstack]
    obtain ⟨-, x, left, -, rfl⟩ | ⟨-, left, -, rfl⟩ | ⟨x, target, -, hact, -⟩ |
      ⟨x, i, after, -, hact, -, -⟩ := moves_cases hmove
    · exact .inr ⟨more, hstack⟩
    · exact .inr ⟨more, hstack⟩
    · rw [hstate] at hact
      cases eq_accept_of_action hact
    · rw [hstate] at hact
      cases eq_accept_of_action hact

theorem Begins.reaches (h : Begins nodes s)
    (hs : s.Sound automaton) (hreach : Reaches automaton s s') : Begins nodes s' := by
  induction hreach with
  | refl => exact h
  | tail hbefore hmove ih => exact ih.moves (hs.reaches automaton_isCoherent hbefore) hmove

/-- Statements that have been read stay at the beginning of the tree. -/
theorem start_of_accepts (hs : s.Sound automaton)
    (hstack : s.stack = [⟨2, nodes⟩, ⟨0, []⟩]) (h : Accepts automaton s tree) :
    ∃ more, tree = .tree "start" (nodes ++ more) := by
  obtain ⟨last, hreach, hacc⟩ := h
  have hbegins : Begins nodes s := .inl ⟨[], [], by rw [hstack, List.append_nil]; rfl⟩
  obtain ⟨frame, hlast, htree⟩ :=
    stack_of_accepted (hs.reaches automaton_isCoherent hreach) hacc
  rcases hbegins.reaches hs hreach with ⟨frames, more, hframes⟩ | ⟨more, hframes⟩
  · -- The text does not end where more statements may follow without an end of the tree.
    obtain ⟨x, -, hact, -⟩ := accepted_cases hacc
    have hcheck : ∀ t ∈ Terminal.all ++ [Terminal.finish], automaton.action? 2 t ≠ some .accept := by
      decide
    rw [hlast] at hframes
    obtain ⟨-, hframe⟩ := List.append_inj' (show [] ++ [frame, ⟨0, []⟩] = frames ++ _ from hframes) rfl
    have hstate : last.state = 2 := by
      rw [Situation.state, hlast, (List.cons.inj hframe).1]
    rw [hstate] at hact
    exact absurd hact (hcheck x.1 x.1.mem_all)
  · rw [hlast] at hframes
    cases hframes
    exact ⟨more, htree⟩

/-! ### A text that is one statement -/

/-- A conditional or a loop is a statement, whatever comes next. -/
theorem reaches_statement {q : Nat} (hq : (q, i) ∈ [(7, 10), (10, 13)]) (n : Node)
    (rest : List Char) (hact : (automaton.action? q x.1).isSome = true) :
    Reaches automaton ⟨[⟨q, [n]⟩, ⟨0, []⟩], rest, some x⟩
      ⟨[⟨3, [.tree "statement" [n]]⟩, ⟨0, []⟩], rest, some x⟩ := by
  have hcheck : ∀ e ∈ [(7, 10), (10, 13)], (∀ t ∈ Terminal.all ++ [Terminal.finish],
      (automaton.action? e.1 t).isSome = true → automaton.action? e.1 t = some (.reduce e.2)) ∧
      ∃ p ∈ automaton.productions[e.2]?, p.symbols.length = 1 ∧ p.marksAbsence = false ∧
        p.category = .statement ∧ p.label = "statement" ∧ automaton.goto? 0 p.category = some 3 := by
    decide
  obtain ⟨hred, p, hp, hlen, habs, hcat, hlabel, hgoto⟩ := hcheck _ hq
  have hstep := reaches_reduce (s := ⟨[⟨q, [n]⟩, ⟨0, []⟩], rest, some x⟩) [⟨q, [n]⟩]
    rfl rfl hp hlen.symm (hred x.1 x.1.mem_all hact) hgoto
  have hbuild : p.build [n] = [.tree "statement" [n]] := by
    simp [Production.build, hcat, Category.isSpliced, habs, hlabel]
  exact hbuild ▸ hstep

/-- A statement before the end of the text makes up the whole tree. -/
theorem accepts_statement (hx : x.1 = .finish) :
    Accepts automaton ⟨[⟨3, [n]⟩, ⟨0, []⟩], rest, some x⟩ (.tree "start" [n]) := by
  have hcheck : automaton.action? 3 .finish = some (.reduce 3) ∧
      automaton.action? 1 .finish = some .accept ∧ automaton.goto? 0 .start = some 1 := by
    decide
  have hact : automaton.action? 3 x.1 = some (.reduce 3) := by
    rw [hx]
    exact hcheck.1
  have hstep := reaches_reduce (s := ⟨[⟨3, [n]⟩, ⟨0, []⟩], rest, some x⟩) [⟨3, [n]⟩]
    (i := 3) rfl rfl rfl rfl hact hcheck.2.2
  refine ⟨_, hstep, ?_⟩
  have haccept : automaton.action? 1 x.1 = some .accept := by
    rw [hx]
    exact hcheck.2.1
  simp only [move, useLexeme, Situation.state, haccept]
  rfl

/-- A line end after a statement goes on with more statements, which stay in the tree. -/
theorem start_of_newline (hx : x.1 = .newline) (hs : Situation.Sound automaton ⟨[⟨3, [n]⟩, ⟨0, []⟩], rest, some x⟩)
    (h : Accepts automaton ⟨[⟨3, [n]⟩, ⟨0, []⟩], rest, some x⟩ tree) :
    ∃ more, tree = .tree "start" (n :: (Lexeme.nodes x ++ more)) := by
  have hcheck : automaton.action? 3 .newline = some (.shift 30) ∧
      automaton.goto? 0 .statements = some 2 ∧ ∀ t ∈ Terminal.all ++ [Terminal.finish],
        (automaton.action? 30 t).isSome = true → automaton.action? 30 t = some (.reduce 5) := by
    decide
  obtain ⟨hshift, hgoto, hred⟩ := hcheck
  rw [← hx] at hshift
  have hstep : Moves automaton ⟨[⟨3, [n]⟩, ⟨0, []⟩], rest, some x⟩
      ⟨[⟨30, Lexeme.nodes x⟩, ⟨3, [n]⟩, ⟨0, []⟩], rest, none⟩ :=
    Moves.shift rfl hshift
  have hs' := hs.moves automaton_isCoherent hstep
  have haccepts := h.of_reaches (.single hstep)
  -- Whatever comes next is read, and the statement with its line end is finished before it.
  obtain ⟨left, z, hread⟩ : ∃ left z, Moves automaton
      ⟨[⟨30, Lexeme.nodes x⟩, ⟨3, [n]⟩, ⟨0, []⟩], rest, none⟩
      ⟨[⟨30, Lexeme.nodes x⟩, ⟨3, [n]⟩, ⟨0, []⟩], left, some z⟩ := by
    obtain ⟨last, hreach, hacc⟩ := haccepts
    rcases hreach.cases_head with rfl | ⟨after, hmove, -⟩
    · obtain ⟨y, hy, -⟩ := accepted_cases hacc
      cases hy
    · obtain ⟨-, z, left, -, rfl⟩ | ⟨-, left, -, rfl⟩ | ⟨y, target, hy, -, -⟩ |
        ⟨y, i, stack, hy, -, -, -⟩ := moves_cases hmove
      · exact ⟨left, z, hmove⟩
      · exact ⟨left, endLexeme, hmove⟩
      · cases hy
      · cases hy
  have haccepts' := haccepts.of_reaches (.single hread)
  have hact := hred z.1 z.1.mem_all (haccepts'.action_isSome rfl)
  have hfin := reaches_reduce
    (s := ⟨[⟨30, Lexeme.nodes x⟩, ⟨3, [n]⟩, ⟨0, []⟩], left, some z⟩)
    [⟨30, Lexeme.nodes x⟩, ⟨3, [n]⟩] (i := 5) rfl rfl rfl rfl hact hgoto
  have hsound := (hs'.moves automaton_isCoherent hread).reaches automaton_isCoherent hfin
  obtain ⟨more, htree⟩ := start_of_accepts hsound rfl (haccepts'.of_reaches hfin)
  refine ⟨more, htree.trans ?_⟩
  simp [Production.build, Category.isSpliced]

/-- A text whose tree is a single statement ends after it. -/
theorem finish_of_single {q : Nat} (hq : (q, i) ∈ [(7, 10), (10, 13)]) {only : Node}
    (hs : Situation.Sound automaton ⟨[⟨q, [n]⟩, ⟨0, []⟩], rest, some x⟩)
    (h : Accepts automaton ⟨[⟨q, [n]⟩, ⟨0, []⟩], rest, some x⟩ (.tree "start" [only])) :
    x.1 = .finish ∧ only = .tree "statement" [n] := by
  have hreach := reaches_statement hq n rest (h.action_isSome rfl)
  have haccepts := h.of_reaches hreach
  have hcheck : ∀ t ∈ Terminal.all ++ [Terminal.finish],
      (automaton.action? 3 t).isSome = true → t = .newline ∨ t = .finish := by
    decide
  rcases hcheck x.1 x.1.mem_all (haccepts.action_isSome rfl) with hx | hx
  · obtain ⟨more, htree⟩ := start_of_newline hx (hs.reaches automaton_isCoherent hreach) haccepts
    obtain ⟨-, hnodes⟩ := Node.tree.inj htree
    obtain ⟨-, hrest⟩ := List.cons.inj hnodes
    simp [Lexeme.nodes, hx, Terminal.isKept] at hrest
  · refine ⟨hx, ?_⟩
    have htree := haccepts.unique (accepts_statement hx)
    simpa using htree

end FapLang.Grammar
