import FapLang.Proofs.Grammar.Shapes
import FapLang.Proofs.Run.Visits

/-!
The names of an accepted text are collected: nothing keeps its statements from being visited
(`succeeds_collect_of_parse`), and what is found are the names of the definitions at any depth, less
those that are faulty (`collecting_finds_definitions`).
-/

namespace FapLang.Run

open Interp Grammar

variable {c program : Node} {cs : List Node} {code name rule : String} {most : String → Prop}

/-! ### Steps that succeed -/

/-- The step has a result in every session. -/
def Interp.Succeeds {α : Type} (m : Interp α) : Prop :=
  ∀ s, ∃ a t, m.exec s = (.ok a, t)

namespace Interp.Succeeds

variable {α β : Type}

theorem of_tells {m : Interp α} (h : ∀ s, ∃ a, m.Tells s a) : m.Succeeds := by
  intro s
  obtain ⟨a, t, hexec, -⟩ := h s
  exact ⟨a, t, hexec⟩

protected theorem pure (a : α) : (pure a : Interp α).Succeeds :=
  fun s => ⟨a, s, rfl⟩

protected theorem get : (get : Interp Session).Succeeds :=
  fun s => ⟨s, s, rfl⟩

protected theorem modify (f : Session → Session) : (modify f : Interp Unit).Succeeds :=
  fun s => ⟨(), f s, rfl⟩

protected theorem bind {m : Interp α} {k : α → Interp β} (hm : m.Succeeds) (hk : ∀ a, (k a).Succeeds) :
    (m >>= k).Succeeds := by
  intro s
  obtain ⟨a, t, hexec⟩ := hm s
  obtain ⟨b, u, hexec'⟩ := hk a t
  exact ⟨b, u, by rw [exec_bind_ok hexec, hexec']⟩

protected theorem ite {c : Prop} [Decidable c] {m m' : Interp α} (hm : m.Succeeds) (hm' : m'.Succeeds) :
    (if c then m else m').Succeeds :=
  iteInduction (fun _ => hm) fun _ => hm'

end Interp.Succeeds

theorem succeeds_debugIf (on : Bool) (message : String) : (debugIf on message).Succeeds :=
  .ite (.modify _) (.pure ())

theorem succeeds_programFailure (message : String) : (programFailure message).Succeeds :=
  .bind .get fun _ => .bind (succeeds_debugIf _ _) fun _ => .ite (.pure ()) (.modify _)

/-- What keeps a program from running to its end is recorded: a run that is not cut off returns. -/
theorem exec_executeWithin_cases (visit : Visit) (code : String) (s : Session) :
    ((executeWithin visit code).exec s).1 = .error .exhausted ∨ ∃ t, (executeWithin visit code).exec s = (.ok (), t) := by
  obtain ⟨_, t, hdebug⟩ := succeeds_debugIf s.modes.any "Parsing code..." { s with notes := #[] }
  rw [executeWithin, exec_bind_ok (exec_modify _ s), exec_get_bind, exec_bind_ok hdebug]
  cases parse code with
  | error e =>
    obtain ⟨_, u, hfail⟩ := succeeds_programFailure e.message t
    exact .inr ⟨u, hfail⟩
  | ok program =>
    rw [exec_recover]
    cases (runTree visit program).exec t with
    | mk outcome u =>
      rcases outcome with (f | _) | a
      · obtain ⟨_, v, hfail⟩ := succeeds_programFailure f.message u
        exact .inr ⟨v, hfail⟩
      · exact .inl rfl
      · exact .inr ⟨u, rfl⟩

/-! ### Definitions in a tree -/

/-- The rules of definitions, with the place of the name among the children. -/
def definitionPlaces : List (String × Nat) :=
  [("var_def", 1), ("const_def", 1), ("list_def", 0), ("assignment", 0), ("func_def", 0)]

/-- The node itself is a definition of the name. -/
def Defines (n : Node) (name : String) : Prop :=
  ∃ rule cs place, n = .tree rule cs ∧ (rule, place) ∈ definitionPlaces ∧ cs[place]? = some (.token "IDENT" name)

/-- The name is defined somewhere in the node. -/
def DefinedIn (n : Node) (name : String) : Prop :=
  ∃ d : Node, d.Part n ∧ Defines d name

/-- The name is defined somewhere in one of the nodes. -/
def DefinedAmong (cs : List Node) (name : String) : Prop :=
  ∃ c ∈ cs, DefinedIn c name

theorem defines_tree_iff {place : Nat} (h : (rule, place) ∈ definitionPlaces)
    (name : String) : Defines (.tree rule cs) name ↔ cs[place]? = some (.token "IDENT" name) := by
  have honce : ∀ p ∈ definitionPlaces, ∀ q ∈ definitionPlaces, p.1 = q.1 → p.2 = q.2 := by decide
  constructor
  · rintro ⟨rule', cs', place', heq, h', hname⟩
    obtain ⟨rfl, rfl⟩ := Node.tree.inj heq
    obtain rfl : place = place' := honce (rule, place) h (rule, place') h' rfl
    exact hname
  · exact fun hname => ⟨rule, cs, place, rfl, h, hname⟩

theorem definedIn_tree_iff : DefinedIn (.tree rule cs) name ↔ Defines (.tree rule cs) name ∨ DefinedAmong cs name := by
  constructor
  · rintro ⟨d, hpart, hd⟩
    cases hpart with
    | refl => exact .inl hd
    | child hc hpart => exact .inr ⟨_, hc, d, hpart, hd⟩
  · rintro (hd | ⟨c, hc, d, hpart, hd⟩)
    · exact ⟨_, .refl _, hd⟩
    · exact ⟨d, .child hc hpart, hd⟩

theorem definedAmong_cons_iff {rest : List Node} :
    DefinedAmong (c :: rest) name ↔ DefinedIn c name ∨ DefinedAmong rest name :=
  List.exists_mem_cons_iff _ c rest

/-- Only trees hold definitions. -/
theorem DefinedIn.isTree {n : Node} (h : DefinedIn n name) : n.isTree = true := by
  obtain ⟨d, hpart, rule, cs, _, rfl, -⟩ := h
  cases hpart <;> rfl

/-! ### Steps that collect names -/

/-- Only trace lines and names have been added: `least`, unless faulty, and none but `most`. -/
structure Collected (least most : String → Prop) (s t : Session) : Prop where
  rest : ∃ notes defined, t = { s with notes := notes, defined := defined }
  kept : s.defined ⊆ t.defined
  least : ∀ name, least name → name ∉ s.faulty → name ∈ t.defined
  most : ∀ name ∈ t.defined, name ∈ s.defined ∨ name ∉ s.faulty ∧ most name

theorem Collected.faulty_eq {least : String → Prop} {s t : Session} (h : Collected least most s t) :
    t.faulty = s.faulty := by
  obtain ⟨_, _, rfl⟩ := h.rest
  rfl

/-- In every session the step has a result and adds the names. -/
def Interp.Collects (m : Interp Unit) (least most : String → Prop) : Prop :=
  ∀ s, ∃ t, m.exec s = (.ok (), t) ∧ Collected least most s t

namespace Interp.Collects

variable {m : Interp Unit} {k : Unit → Interp Unit} {least least' most most' : String → Prop}

theorem mono (hm : m.Collects least most) (hleast : ∀ name, least' name → least name)
    (hmost : ∀ name, most name → most' name) : m.Collects least' most' := by
  intro s
  obtain ⟨t, hexec, hrest, hkept, hadded, hothers⟩ := hm s
  exact ⟨t, hexec, hrest, hkept, fun name hname => hadded name (hleast name hname),
    fun name hname => (hothers name hname).imp_right (.imp_right (hmost name))⟩

protected theorem pure (hnone : ∀ name, ¬ least name) : (pure () : Interp Unit).Collects least most :=
  fun s => ⟨s, rfl, ⟨s.notes, s.defined, rfl⟩, fun _ => id, fun name hname => absurd hname (hnone name), fun _ => .inl⟩

protected theorem bind (hm : m.Collects least most) (hk : ∀ a, (k a).Collects least' most) :
    (m >>= k).Collects (fun name => least name ∨ least' name) most := by
  intro s
  obtain ⟨t, hexec, ht⟩ := hm s
  obtain ⟨u, hexec', hu⟩ := hk () t
  refine ⟨u, by rw [exec_bind_ok hexec, hexec'], ?_, fun _ h => hu.kept (ht.kept h), ?_, ?_⟩
  · obtain ⟨_, _, rfl⟩ := ht.rest
    obtain ⟨notes, defined, rfl⟩ := hu.rest
    exact ⟨notes, defined, rfl⟩
  · rintro name (hname | hname) hfaulty
    · exact hu.kept (ht.least name hname hfaulty)
    · exact hu.least name hname (ht.faulty_eq ▸ hfaulty)
  · intro name hname
    rcases hu.most name hname with hname | hname
    · exact ht.most name hname
    · exact .inr (ht.faulty_eq ▸ hname)

/-- What an earlier step has to add may be forgotten. -/
theorem after (hm : m.Collects least' most) (hk : ∀ a, (k a).Collects least most) : (m >>= k).Collects least most :=
  (Collects.bind hm hk).mono (fun _ => .inr) fun _ => id

protected theorem child {i : Nat} (hc : cs[i]? = some c) {k : Node → Interp Unit}
    (hk : (k c).Collects least most) : (child cs i >>= k).Collects least most := by
  have hexec : ∀ s, (child cs i).exec s = (.ok c, s) := fun s => by
    rw [child, Node.childAt, hc]
    rfl
  exact fun s => by rw [exec_bind_ok (hexec s)]; exact hk s

protected theorem ite {p : Prop} [Decidable p] {m' : Interp Unit} (hm : p → m.Collects least most)
    (hm' : ¬ p → m'.Collects least most) : (if p then m else m').Collects least most := by
  by_cases hp : p
  · rw [if_pos hp]
    exact hm hp
  · rw [if_neg hp]
    exact hm' hp

end Interp.Collects

theorem exec_note_lits (texts : List String) (s : Session) :
    ∃ notes, (note (texts.map .lit)).exec s = (.ok (), { s with notes := notes }) := by
  have hwrites : s.Writes (texts.map .lit) := by simp [Session.Writes, Piece.isWritable]
  rw [note, exec_bind_ok (exec_checkWritable hwrites), exec_get_bind]
  by_cases hfull : s.modes.full = true
  · rw [if_pos hfull]
    exact exists_notes_addNote s.line _ _ s
  · rw [if_neg hfull]
    exact ⟨s.notes, rfl⟩

theorem collects_collectName (what name : String) :
    (collectName what (.token "IDENT" name)).Collects (· = name) (· = name) := by
  intro s
  rw [collectName, exec_bind_ok (exec_isFaulty name s)]
  by_cases hfaulty : name ∈ s.faulty
  · rw [if_pos (Array.contains_iff_mem.mpr hfaulty)]
    refine ⟨s, rfl, ⟨s.notes, s.defined, rfl⟩, fun _ => id, fun _ hname hnot => ?_, fun _ => .inl⟩
    exact absurd (hname ▸ hfaulty) hnot
  · rw [if_neg (mt Array.contains_iff_mem.mp hfaulty), markDefined, exec_bind_ok (exec_modify _ s)]
    obtain ⟨notes, hnote⟩ := exec_note_lits ["[RUNTIME] Defined ", what, ": ", name]
      { s with defined := s.defined.insert name }
    refine ⟨_, hnote, ⟨notes, _, rfl⟩, Names.subset_insert _ _, fun _ hname _ => Names.mem_insert.mpr (.inr hname), ?_⟩
    intro other hother
    refine (Names.mem_insert.mp hother).imp_right fun heq => ?_
    exact ⟨heq ▸ hfaulty, heq⟩

/-! ### The walk over a tree -/

/-- The children of a node at which collecting looks are there. -/
structure Targets (rule : String) (cs : List Node) : Prop where
  name : ∀ place, (rule, place) ∈ definitionPlaces → ∃ name, cs[place]? = some (.token "IDENT" name)
  second : rule ∈ ["cause_stmt", "again_stmt"] → 1 < cs.length
  third : rule = "cause_stmt" → ∀ other, cs[2]? = some other → other.isTree = true

theorem collects_collectTarget (h : Targets rule cs) :
    (collectTarget rule cs).Collects (Defines (.tree rule cs)) (Defines (.tree rule cs)) := by
  have hplace : ∀ place what, (rule, place) ∈ definitionPlaces →
      (do collectName what (← child cs place)).Collects (Defines (.tree rule cs)) (Defines (.tree rule cs)) := by
    intro place what hrule
    obtain ⟨name, hname⟩ := h.name place hrule
    have hiff : ∀ other, Defines (.tree rule cs) other ↔ other = name := fun other => by
      rw [defines_tree_iff hrule, hname, Option.some_inj, Node.token.injEq, eq_comm (a := name)]
      exact and_iff_right rfl
    have hcollects := collects_collectName what name
    exact .child hname (hcollects.mono (fun other => (hiff other).mp) fun other => (hiff other).mpr)
  rw [collectTarget.eq_def]
  split
  · exact hplace 1 _ (by decide)
  · exact hplace 1 _ (by decide)
  · exact hplace 0 _ (by decide)
  · exact hplace 0 _ (by decide)
  · exact hplace 0 _ (by decide)
  · next hvar hconst hlist hassign hfunc =>
    refine .pure ?_
    rintro name ⟨_, _, place, heq, hrule, -⟩
    obtain ⟨rfl, rfl⟩ := Node.tree.inj heq
    simp [definitionPlaces] at hrule
    grind

/-- All trees in a node have the children at which collecting looks. -/
def HasTargets (n : Node) : Prop :=
  ∀ rule cs, (Node.tree rule cs).Part n → Targets rule cs

/-- Collecting from the node ends, and finds none but the names `most`. -/
structure Searchable (most : String → Prop) (n : Node) : Prop where
  targets : HasTargets n
  most : ∀ name, DefinedIn n name → most name

theorem Searchable.of_mem (h : Searchable most (.tree rule cs)) (hc : c ∈ cs) : Searchable most c :=
  ⟨fun _ _ hpart => h.targets _ _ (.child hc hpart),
    fun name hname => h.most name (definedIn_tree_iff.mpr (.inr ⟨c, hc, hname⟩))⟩

mutual

theorem collects_collect (n : Node) (h : Searchable most n) : (collect n).Collects (DefinedIn n) most := by
  cases n with
  | tree rule cs =>
    have htargets := h.targets rule cs (.refl _)
    have htrees := collects_collectTrees cs fun c hc => h.of_mem hc
    -- The blocks are searched once more with the other children, so nothing is asked of their own search.
    have hblocks := fun i => collects_collectBlockAt cs i fun c hc => h.of_mem hc
    have htarget := (collects_collectTarget htargets).mono (fun _ => id)
      fun name hname => h.most name (definedIn_tree_iff.mpr (.inl hname))
    rw [collect]
    refine (Collects.bind htarget fun _ => ?_).mono (fun _ => definedIn_tree_iff.mp) fun _ => id
    dsimp only
    split
    · refine .child (List.getElem?_eq_getElem (htargets.second (by decide))) (.after (hblocks 1) fun _ => ?_)
      split
      · exact htrees
      · exact .after (hblocks 2) fun _ => htrees
      · rename_i other hnone hother
        have htree := htargets.third rfl other hother
        cases other with
        | tree r ds => exact absurd rfl (hnone r ds)
        | token | absent | plain => cases htree
    · refine .ite (fun _ => .after (hblocks 2) fun _ => htrees) fun _ => ?_
      exact .child (List.getElem?_eq_getElem (htargets.second (by decide))) (.after (hblocks 1) fun _ => htrees)
    · exact htrees
  | token | absent | plain =>
    rw [collect]
    · exact .pure fun _ hname => absurd hname.isTree Bool.false_ne_true
    · simp

theorem collects_collectTrees (cs : List Node) (h : ∀ c ∈ cs, Searchable most c) :
    (collectTrees cs).Collects (DefinedAmong cs) most := by
  cases cs with
  | nil =>
    rw [collectTrees]
    exact .pure fun _ ⟨_, hc, _⟩ => absurd hc List.not_mem_nil
  | cons c rest =>
    obtain ⟨hc, hrest⟩ := List.forall_mem_cons.mp h
    rw [collectTrees]
    refine .ite (fun _ => ?_) fun htree => ?_
    · exact ((collects_collect c hc).bind fun _ => collects_collectTrees rest hrest).mono
        (fun _ => definedAmong_cons_iff.mp) fun _ => id
    · exact (collects_collectTrees rest hrest).mono
        (fun _ hname => (definedAmong_cons_iff.mp hname).resolve_left fun hc => htree hc.isTree) fun _ => id

theorem collects_collectBlockAt (cs : List Node) (i : Nat)
    (h : ∀ c ∈ cs, Searchable most c) : (collectBlockAt i cs).Collects (fun _ => False) most := by
  cases cs with
  | nil =>
    rw [collectBlockAt]
    exact .pure fun _ => id
  | cons c rest =>
    obtain ⟨hc, hrest⟩ := List.forall_mem_cons.mp h
    cases i with
    | zero =>
      rw [collectBlockAt]
      exact collects_collectBlock c hc
    | succ i =>
      rw [collectBlockAt]
      exact collects_collectBlockAt rest i hrest

theorem collects_collectBlock (n : Node) (h : Searchable most n) : (collectBlock n).Collects (fun _ => False) most := by
  cases n with
  | tree rule cs =>
    rw [collectBlock]
    exact .ite (fun _ => collects_collectBare cs fun c hc => h.of_mem hc) fun _ => .pure fun _ => id
  | token | absent | plain =>
    rw [collectBlock]
    · exact .pure fun _ => id
    · simp

theorem collects_collectBare (cs : List Node) (h : ∀ c ∈ cs, Searchable most c) :
    (collectBare cs).Collects (fun _ => False) most := by
  cases cs with
  | nil =>
    rw [collectBare]
    exact .pure fun _ => id
  | cons c rest =>
    obtain ⟨hc, hrest⟩ := List.forall_mem_cons.mp h
    rw [collectBare]
    refine .ite (fun _ => ?_) fun _ => collects_collectBare rest hrest
    exact (collects_collect c hc).after fun _ => collects_collectBare rest hrest

end

/-! ### Accepted texts -/

theorem targets_of_part (hparse : parse code = .ok program)
    (hpart : (Node.tree rule cs).Part program) : Targets rule cs := by
  have hcat := of_part hparse hpart
  refine ⟨fun place hrule => ?_, fun hrule => ?_, fun hrule other hother => ?_⟩
  · simp only [definitionPlaces, List.mem_cons, Prod.mk.injEq, List.not_mem_nil, or_false] at hrule
    rcases hrule with ⟨hrule, rfl⟩ | ⟨hrule, rfl⟩ | ⟨hrule, rfl⟩ | ⟨hrule, rfl⟩ | ⟨hrule, rfl⟩
    · obtain ⟨type, name, rest, heq, -⟩ := (hcat .varDef (by rw [hrule]; decide)).varDef_inv
      exact ⟨name, by rw [(Node.tree.inj heq).2]; rfl⟩
    · obtain ⟨type, name, value, heq, -⟩ := (hcat .constDef (by rw [hrule]; decide)).constDef_inv
      exact ⟨name, by rw [(Node.tree.inj heq).2]; rfl⟩
    · obtain ⟨name, items, heq, -⟩ := (hcat .listDef (by rw [hrule]; decide)).listDef_inv
      exact ⟨name, by rw [(Node.tree.inj heq).2]; rfl⟩
    · obtain ⟨name, value, heq, -⟩ := (hcat .assignment (by rw [hrule]; decide)).assignment_inv
      exact ⟨name, by rw [(Node.tree.inj heq).2]; rfl⟩
    · obtain ⟨name, params, body, heq, -⟩ := (hcat .funcDef (by rw [hrule]; decide)).funcDef_inv
      exact ⟨name, by rw [(Node.tree.inj heq).2]; rfl⟩
  · simp only [List.mem_cons, List.not_mem_nil, or_false] at hrule
    rcases hrule with hrule | hrule
    · obtain ⟨conditions, block, rest, heq, -⟩ := (hcat .causeStmt (by rw [hrule]; decide)).causeStmt_inv
      rw [(Node.tree.inj heq).2]
      exact Nat.succ_lt_succ (Nat.succ_pos _)
    · obtain ⟨times, rest, block, heq, -⟩ := (hcat .againStmt (by rw [hrule]; decide)).againStmt_inv
      rw [(Node.tree.inj heq).2, List.length_cons, List.length_append, List.length_singleton]
      omega
  · obtain ⟨conditions, block, rest, heq, -, -, hrest⟩ := (hcat .causeStmt (by rw [hrule]; decide)).causeStmt_inv
    rw [(Node.tree.inj heq).2] at hother
    rcases hrest with rfl | ⟨last, rfl, hlast⟩
    · cases hother
    · obtain rfl : last = other := Option.some.inj hother
      obtain ⟨items, rfl, -⟩ := hlast.block_inv
      rfl

theorem collects_collect_of_parse (hparse : parse code = .ok program) :
    (collect program).Collects (DefinedIn program) (DefinedIn program) :=
  collects_collect program ⟨fun _ _ hpart => targets_of_part hparse hpart, fun _ => id⟩

theorem succeeds_collect_of_parse (hparse : parse code = .ok program) : (collect program).Succeeds := by
  intro s
  obtain ⟨t, hexec, -⟩ := collects_collect_of_parse hparse s
  exact ⟨(), t, hexec⟩

/-- Collecting from the tree of an accepted text ends, adds the names of all definitions in the tree
that are not faulty, and leaves everything but the names and the trace as it is; and every node with
the rule of a definition defines a name. -/
theorem collecting_finds_definitions {code : String} {program : Node} (hparse : parse code = .ok program)
    (s : Session) :
    (∃ t, (collect program).exec s = (.ok (), t) ∧
      (∃ notes defined, t = { s with notes := notes, defined := defined }) ∧
      ∀ name, name ∈ t.defined ↔ name ∈ s.defined ∨ name ∉ s.faulty ∧ DefinedIn program name) ∧
    ∀ rule cs, (Node.tree rule cs).Part program → ∀ place, (rule, place) ∈ definitionPlaces →
      ∃ name, Defines (.tree rule cs) name := by
  constructor
  · obtain ⟨t, hexec, hcollected⟩ := collects_collect_of_parse hparse s
    refine ⟨t, hexec, hcollected.rest, fun name ↦ ⟨hcollected.most name, ?_⟩⟩
    rintro (hold | ⟨hfaulty, hname⟩)
    · exact hcollected.kept hold
    · exact hcollected.least name hname hfaulty
  · intro rule cs hpart place hrule
    obtain ⟨name, hname⟩ := (targets_of_part hparse hpart).name place hrule
    exact ⟨name, (defines_tree_iff hrule name).mpr hname⟩

/-- The name in a loop is found, and the faulty one before the loop is not. -/
theorem definition_in_loop_found :
    ∃ program t, parse "y -> 2\nAgain (3) [x -> 1]" = .ok program ∧
      (collect program).exec { Session.fresh with faulty := #["y"] } = (.ok (), t) ∧
      "x" ∈ t.defined ∧ "y" ∉ t.defined := by
  let value (text : String) : Node := .tree "expr" [.tree "term" [.tree "factor" [.token "NUMBER" text]]]
  let inner : Node := .tree "assignment" [.token "IDENT" "x", value "1"]
  let loop : Node := .tree "again_stmt" [value "3", .tree "block" [.tree "statement" [inner]]]
  let first : Node := .tree "assignment" [.token "IDENT" "y", value "2"]
  let program : Node :=
    .tree "start" [.tree "statement" [first], .token "NEWLINE" "\n", .tree "statement" [loop]]
  have hparse : parse "y -> 2\nAgain (3) [x -> 1]" = .ok program := by rfl
  have hloop : inner.Part loop := .child (.tail _ (.head _)) (.child (.head _) (.child (.head _) (.refl _)))
  have hpart : inner.Part program := .child (.tail _ (.tail _ (.head _))) (.child (.head _) hloop)
  have hdefines : Defines inner "x" := ⟨"assignment", [_, _], 0, rfl, by decide, rfl⟩
  obtain ⟨t, hexec, -, hdefined⟩ :=
    (collecting_finds_definitions hparse { Session.fresh with faulty := #["y"] }).1
  refine ⟨program, t, hparse, hexec, (hdefined "x").mpr (.inr ⟨by simp, inner, hpart, hdefines⟩), fun hy ↦ ?_⟩
  rcases (hdefined "y").mp hy with hold | ⟨hfaulty, -⟩
  · cases hold
  · exact hfaulty (by simp)

end FapLang.Run
