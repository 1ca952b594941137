import FapLang.Proofs.Grammar.Declarations

/-!
The shapes of trees. The tree of a category (`Of`) has the children of one of its productions
(`Fits`). Repetitions are spliced into it: operators and operands in turn (`InTurn`), or rows of
nodes of one kind.
-/

namespace FapLang.Grammar

variable {t : Terminal} {source : String} {program : Node}

/-- The nodes that a sequence of symbols puts into a tree. -/
def Fits (symbols : List Symbol) (nodes : List Node) : Prop :=
  ∃ ls next, DerivesAny symbols ls next nodes

/-- A node of a category. -/
def Of (c : Category) (n : Node) : Prop :=
  Fits [.category c] [n]

/-- The productions of a category. -/
def rulesOf (c : Category) : List Production :=
  productions.filter fun p => p.category = c

variable {symbols : List Symbol} {nodes : List Node} {n : Node} {c : Category}

namespace Fits

theorem nil_inv (h : Fits [] nodes) : nodes = [] := by
  obtain ⟨ls, next, h⟩ := h
  exact h.nil_inv.2

theorem dropped_inv (h : Fits (.terminal t :: symbols) nodes) (ht : t.isKept = false) : Fits symbols nodes := by
  obtain ⟨ls, next, h⟩ := h
  obtain ⟨rest, h⟩ := h.dropped_inv ht
  exact ⟨rest, next, h⟩

theorem kept_inv (h : Fits (.terminal t :: symbols) nodes) (ht : t.isKept = true) :
    ∃ text more, nodes = .token t.name text :: more ∧ t.Spells text.toList ∧ Fits symbols more := by
  obtain ⟨ls, next, h⟩ := h
  obtain ⟨word, rest, more, hword, -, rfl, hrest⟩ := h.terminal_inv
  refine ⟨String.ofList word, more, ?_, by rwa [String.toList_ofList], rest, next, hrest⟩
  rw [Lexeme.nodes, if_pos ht, List.cons_append, List.nil_append]

/-- A category gives the nodes that one of its productions builds. -/
theorem category_inv (h : Fits (.category c :: symbols) nodes) :
    ∃ piece more, nodes = piece ++ more ∧ Fits [.category c] piece ∧ Fits symbols more := by
  obtain ⟨ls, next, h⟩ := h
  obtain ⟨p, phrase, rest, inner, more, rfl, -, rfl, hp, hinner, hrest⟩ := h.category_inv
  refine ⟨p.build inner, more, rfl, ⟨phrase, next, ?_⟩, rest, next, hrest⟩
  have hsingle : DerivesAny [.category p.category] (phrase ++ []) next (p.build inner ++ []) :=
    .category hp (hinner.change_next _) (.nil next)
  rwa [List.append_nil, List.append_nil] at hsingle

/-- What a category gives is built by one of its productions. -/
theorem rule_inv (h : Fits [.category c] nodes) :
    ∃ p ∈ rulesOf c, ∃ inner, Fits p.symbols inner ∧ nodes = p.build inner := by
  obtain ⟨ls, next, h⟩ := h
  obtain ⟨p, inner, hc, rfl, hp, hinner⟩ := h.single_inv
  exact ⟨p, List.mem_filter.mpr ⟨hp, by simpa using hc⟩, inner, ⟨ls, next, hinner⟩, rfl⟩

/-- A category with a tree of its own gives one node. -/
theorem tree_inv (h : Fits (.category c :: symbols) nodes) (hc : c.isSpliced = false) :
    ∃ n more, nodes = n :: more ∧ Of c n ∧ Fits symbols more := by
  obtain ⟨piece, more, rfl, hpiece, hmore⟩ := h.category_inv
  obtain ⟨p, hp, inner, -, hbuild⟩ := hpiece.rule_inv
  have hcat : p.category = c := by simpa using (List.mem_filter.mp hp).2
  obtain ⟨n, hn⟩ := List.length_eq_one_iff.mp (p.build_length inner (by rwa [hcat]))
  rw [hbuild, hn] at hpiece
  exact ⟨n, more, by rw [hbuild, hn]; rfl, hpiece, hmore⟩

theorem single_inv (h : Fits [.category c] nodes) (hc : c.isSpliced = false) : ∃ n, nodes = [n] ∧ Of c n := by
  obtain ⟨n, more, rfl, hn, hmore⟩ := h.tree_inv hc
  rw [hmore.nil_inv]
  exact ⟨n, rfl, hn⟩

end Fits

/-- The nodes of a sequence of symbols, one symbol after the other. -/
def Reads : List Symbol → List Node → Prop
  | [], nodes => nodes = []
  | .terminal t :: symbols, nodes =>
    if t.isKept then
      ∃ text more, nodes = .token t.name text :: more ∧ t.Spells text.toList ∧ Reads symbols more
    else Reads symbols nodes
  | .category c :: symbols, nodes =>
    if c.isSpliced then
      ∃ row more, nodes = row ++ more ∧ Fits [.category c] row ∧ Reads symbols more
    else ∃ n more, nodes = n :: more ∧ Of c n ∧ Reads symbols more

theorem Fits.reads (h : Fits symbols nodes) : Reads symbols nodes := by
  induction symbols generalizing nodes with
  | nil => exact h.nil_inv
  | cons x symbols ih =>
    cases x with
    | terminal t =>
      rw [Reads]
      split
      · rename_i hkept
        obtain ⟨text, more, rfl, htext, hmore⟩ := h.kept_inv hkept
        exact ⟨text, more, rfl, htext, ih hmore⟩
      · rename_i hkept
        exact ih (h.dropped_inv (Bool.of_not_eq_true hkept))
    | category c =>
      rw [Reads]
      split
      · obtain ⟨row, more, rfl, hrow, hmore⟩ := h.category_inv
        exact ⟨row, more, rfl, hrow, ih hmore⟩
      · rename_i hc
        obtain ⟨n, more, rfl, hn, hmore⟩ := h.tree_inv (Bool.of_not_eq_true hc)
        exact ⟨n, more, rfl, hn, ih hmore⟩

/-- The tree of a category is what one of its productions builds. -/
theorem Of.inv (h : Of c n) (hc : c.isSpliced = false) : ∃ p ∈ rulesOf c, ∃ inner, Reads p.symbols inner ∧
      n = .tree p.label (if p.marksAbsence && inner.isEmpty then [.absent] else inner) := by
  obtain ⟨p, hp, inner, hinner, hbuild⟩ := Fits.rule_inv h
  have hcat : p.category = c := by simpa using (List.mem_filter.mp hp).2
  rw [Production.build, hcat, hc, if_neg Bool.false_ne_true] at hbuild
  refine ⟨p, hp, inner, hinner.reads, ?_⟩
  split at hbuild
  · rename_i habs
    rw [if_pos habs]
    exact (List.cons.inj hbuild).1
  · rename_i habs
    rw [if_neg habs]
    exact (List.cons.inj hbuild).1

/-- The tree of a category whose productions differ in their symbols alone. -/
theorem Of.alternative (h : Of c n) (label : String) (bodies : List (List Symbol))
    (hrules : rulesOf c = alternatives c label bodies) (hc : c.isSpliced = false) :
    ∃ body ∈ bodies, ∃ inner, Reads body inner ∧ n = .tree label inner := by
  obtain ⟨p, hp, inner, hinner, rfl⟩ := h.inv hc
  rw [hrules] at hp
  obtain ⟨body, hbody, rfl⟩ := List.mem_map.mp hp
  exact ⟨body, hbody, inner, hinner, rfl⟩

theorem Of.only (h : Of c n) (label : String) (body : List Symbol)
    (hrules : rulesOf c = alternatives c label [body]) (hc : c.isSpliced = false) :
    ∃ inner, Reads body inner ∧ n = .tree label inner := by
  obtain ⟨_, hbody, inner, hinner, rfl⟩ := h.alternative label _ hrules hc
  rw [List.mem_singleton.mp hbody] at hinner
  exact ⟨inner, hinner, rfl⟩

theorem Of.either (h : Of c n) (label : String) (first second : List Symbol)
    (hrules : rulesOf c = alternatives c label [first, second]) (hc : c.isSpliced = false) :
    ∃ inner, (Reads first inner ∨ Reads second inner) ∧ n = .tree label inner := by
  obtain ⟨body, hbody, inner, hinner, rfl⟩ := h.alternative label _ hrules hc
  simp only [List.mem_cons, List.not_mem_nil, or_false] at hbody
  rcases hbody with rfl | rfl
  · exact ⟨inner, .inl hinner, rfl⟩
  · exact ⟨inner, .inr hinner, rfl⟩

/-! ### Repetitions -/

/-- A repetition has what its pieces have, if that is kept when pieces are put in a row. -/
theorem Fits.row {more : Category} {P : List Node → Prop} (bases : List (List Symbol))
    (h : Fits [.category more] nodes) (hmore : more.isSpliced = true)
    (hrules : (rulesOf more).map (·.symbols) = bases ++ bases.map (.category more :: ·))
    (hbase : ∀ base ∈ bases, ∀ piece, Fits base piece → P piece)
    (happend : ∀ row piece, P row → P piece → P (row ++ piece)) : P nodes := by
  have hrow : ∀ {symbols ls next nodes}, DerivesAny symbols ls next nodes →
      ∀ rest, symbols = .category more :: rest →
        ∃ row others, nodes = row ++ others ∧ P row ∧ Fits rest others := by
    intro symbols ls next nodes h
    induction h with
    | nil => simp
    | terminal => exact fun rest hrest => absurd (List.cons.inj hrest).1 (by simp)
    | @category p symbols phrase ls next inner nodes hp hinner hothers ihinner _ =>
      intro rest hrest
      obtain ⟨hcat, rfl⟩ := List.cons.inj hrest
      have hcat : p.category = more := Symbol.category.inj hcat
      refine ⟨p.build inner, nodes, rfl, ?_, ls, next, hothers⟩
      rw [Production.build, hcat, if_pos hmore]
      have hsyms : p.symbols ∈ (rulesOf more).map (·.symbols) :=
        List.mem_map_of_mem (List.mem_filter.mpr ⟨hp, by simpa using hcat⟩)
      rw [hrules, List.mem_append, List.mem_map] at hsyms
      rcases hsyms with hbody | ⟨base, hmem, hbody⟩
      · exact hbase _ hbody inner ⟨phrase, _, hinner⟩
      · obtain ⟨row, piece, rfl, hrow, hpiece⟩ := ihinner base hbody.symm
        exact happend row piece hrow (hbase base hmem piece hpiece)
  obtain ⟨ls, next, h⟩ := h
  obtain ⟨row, others, rfl, hrow, hothers⟩ := hrow h [] rfl
  rwa [hothers.nil_inv, List.append_nil]

/-- Nodes of two kinds in turn. -/
inductive InTurn (P Q : Node → Prop) : List Node → Prop
  | nil : InTurn P Q []
  | cons {a b : Node} {rest : List Node} (ha : P a) (hb : Q b) (hrest : InTurn P Q rest) :
      InTurn P Q (a :: b :: rest)

theorem InTurn.append {P Q : Node → Prop} {first second : List Node} (hfirst : InTurn P Q first)
    (hsnd : InTurn P Q second) : InTurn P Q (first ++ second) := by
  induction hfirst with
  | nil => exact hsnd
  | cons ha hb _ ih => exact .cons ha hb ih

/-- Perhaps one tree of expressions. -/
def AreArgs (label : String) (nodes : List Node) : Prop :=
  nodes = [] ∨ ∃ args, nodes = [.tree label args] ∧ ∀ arg ∈ args, Of .expr arg

/-- A token of a terminal. -/
def IsToken (t : Terminal) (n : Node) : Prop :=
  ∃ text, n = .token t.name text ∧ t.Spells text.toList

theorem Fits.operands {part more : Category} (h : Fits [.category more] nodes)
    (ht : t.isKept = true) (hpart : part.isSpliced = false) (hmore : more.isSpliced = true)
    (hrules : (rulesOf more).map (·.symbols) =
      [[.terminal t, .category part]] ++ [[.terminal t, .category part]].map (.category more :: ·)) :
    InTurn (IsToken t) (Of part) nodes := by
  refine h.row _ hmore hrules (fun base hbase piece hpiece => ?_) fun _ _ => .append
  rw [List.mem_singleton.mp hbase] at hpiece
  obtain ⟨text, _, rfl, htext, hpiece⟩ := hpiece.kept_inv ht
  obtain ⟨n, rfl, hn⟩ := hpiece.single_inv hpart
  exact .cons ⟨text, rfl, htext⟩ hn .nil

theorem Fits.exprs (h : Fits [.category .moreExprs] nodes) : ∀ n ∈ nodes, Of .expr n := by
  refine h.row (P := fun row => ∀ n ∈ row, Of .expr n) [[.terminal .comma, .category .expr]] rfl rfl
    (fun base hbase piece hpiece => ?_) fun row piece hrow hpiece n hn => ?_
  · rw [List.mem_singleton.mp hbase] at hpiece
    obtain ⟨m, rfl, hm⟩ := (hpiece.dropped_inv rfl).single_inv rfl
    exact List.forall_mem_singleton.mpr hm
  · exact (List.mem_append.mp hn).elim (hrow n) (hpiece n)

/-- A statement, or a line end between statements. -/
def IsItem (n : Node) : Prop :=
  Of .statement n ∨ ∃ text, n = .token "NEWLINE" text

theorem Fits.statements (h : Fits [.category .statements] nodes) : ∀ n ∈ nodes, IsItem n := by
  refine h.row (P := fun row => ∀ n ∈ row, IsItem n) [[.category .statement, .terminal .newline]] rfl rfl
    (fun base hbase piece hpiece => ?_) fun row piece hrow hpiece n hn => ?_
  · rw [List.mem_singleton.mp hbase] at hpiece
    obtain ⟨m, _, rfl, hm, hpiece⟩ := hpiece.tree_inv rfl
    obtain ⟨text, _, rfl, -, hpiece⟩ := hpiece.kept_inv rfl
    rw [hpiece.nil_inv]
    exact List.forall_mem_cons.mpr ⟨.inl hm, List.forall_mem_singleton.mpr (.inr ⟨text, rfl⟩)⟩
  · exact (List.mem_append.mp hn).elim (hrow n) (hpiece n)

theorem Fits.blockItems (h : Fits [.category .blockItems] nodes) : ∀ n ∈ nodes, IsItem n := by
  refine h.row (P := fun row => ∀ n ∈ row, IsItem n) [[.category .statement], [.terminal .newline]] rfl rfl
    (fun base hbase piece hpiece => ?_) fun row piece hrow hpiece n hn => ?_
  · simp only [List.mem_cons, List.not_mem_nil, or_false] at hbase
    rcases hbase with rfl | rfl
    · obtain ⟨m, rfl, hm⟩ := hpiece.single_inv rfl
      exact List.forall_mem_singleton.mpr (.inl hm)
    · obtain ⟨text, _, rfl, -, hpiece⟩ := hpiece.kept_inv rfl
      rw [hpiece.nil_inv]
      exact List.forall_mem_singleton.mpr (.inr ⟨text, rfl⟩)
  · exact (List.mem_append.mp hn).elim (hrow n) (hpiece n)

theorem Fits.moreConditions (h : Fits [.category .moreConditions] nodes) :
    InTurn (Of .logicOp) (Of .condition) nodes := by
  refine h.row [[.category .logicOp, .category .condition]] rfl rfl
    (fun base hbase piece hpiece => ?_) fun _ _ => .append
  rw [List.mem_singleton.mp hbase] at hpiece
  obtain ⟨op, _, rfl, hop, hpiece⟩ := hpiece.tree_inv rfl
  obtain ⟨n, rfl, hn⟩ := hpiece.single_inv rfl
  exact .cons hop hn .nil

/-! ### Trees of expressions -/

namespace Of

/-- A first part, and perhaps a row of more. -/
theorem row_inv {part more : Category} {P : List Node → Prop} (h : Of c n) (label : String)
    (hrules : rulesOf c = alternatives c label [[.category part, .category more], [.category part]])
    (hspliced : (c.isSpliced, part.isSpliced, more.isSpliced) = (false, false, true)) (hnil : P [])
    (hmore : ∀ row, Fits [.category more] row → P row) :
    ∃ first rest, n = .tree label (first :: rest) ∧ Of part first ∧ P rest := by
  simp only [Prod.mk.injEq] at hspliced
  obtain ⟨inner, hinner, rfl⟩ := h.either label _ _ hrules hspliced.1
  simp only [Reads, hspliced, if_true, Bool.false_eq_true, if_false] at hinner
  obtain ⟨first, _, rfl, hfirst, row, _, rfl, hrow, rfl⟩ | ⟨first, _, rfl, hfirst, rfl⟩ := hinner
  · exact ⟨first, row, by rw [List.append_nil], hfirst, hmore row hrow⟩
  · exact ⟨first, [], rfl, hfirst, hnil⟩

/-- A sum: terms with operators between them. -/
theorem expr_inv (h : Of .expr n) : ∃ first rest, n = .tree "expr" (first :: rest) ∧ Of .term first ∧
      InTurn (IsToken .addOp) (Of .term) rest :=
  h.row_inv _ rfl rfl .nil fun _ hrow => hrow.operands rfl rfl rfl rfl

/-- A product: factors with operators between them. -/
theorem term_inv (h : Of .term n) : ∃ first rest, n = .tree "term" (first :: rest) ∧ Of .factor first ∧
      InTurn (IsToken .mulOp) (Of .factor) rest :=
  h.row_inv _ rfl rfl .nil fun _ hrow => hrow.operands rfl rfl rfl rfl

/-- The tokens and the trees that are factors. -/
theorem factor_inv (h : Of .factor n) : ∃ only, n = .tree "factor" [only] ∧
      ((∃ t ∈ [Terminal.number, .quotedText, .ident], IsToken t only) ∨
        ∃ c ∈ [Category.memberAccessExpr, .inputCall, .mathFuncCall, .listLiteral, .listAccess, .absExpr,
          .funcCall, .expr], Of c only) := by
  obtain ⟨body, hbody, inner, hinner, rfl⟩ := h.alternative "factor"
    [[.terminal .number], [.terminal .quotedText], [.terminal .ident], [.category .memberAccessExpr],
      [.category .inputCall], [.category .mathFuncCall], [.category .listLiteral], [.category .listAccess],
      [.category .absExpr], [.category .funcCall],
      [.terminal .openParen, .category .expr, .terminal .closeParen]] rfl rfl
  have htoken : ∀ t ∈ [Terminal.number, .quotedText, .ident], Reads [.terminal t] inner →
      ∃ only, inner = [only] ∧ IsToken t only := by
    intro t ht hreads
    have hkept : ∀ t ∈ [Terminal.number, .quotedText, .ident], t.isKept = true := by decide
    rw [Reads, if_pos (hkept t ht)] at hreads
    obtain ⟨text, _, rfl, htext, rfl⟩ := hreads
    exact ⟨_, rfl, text, rfl, htext⟩
  simp only [List.mem_cons, List.not_mem_nil, or_false] at hbody
  rcases hbody with rfl | rfl | rfl | rfl | rfl | rfl | rfl | rfl | rfl | rfl | rfl
  iterate 3
    · obtain ⟨only, rfl, honly⟩ := htoken _ (by decide) hinner
      exact ⟨only, rfl, .inl ⟨_, by decide, honly⟩⟩
  all_goals
    obtain ⟨only, _, rfl, honly, rfl⟩ := hinner
    exact ⟨only, rfl, .inr ⟨_, by decide, honly⟩⟩

theorem memberAccessExpr_inv (h : Of .memberAccessExpr n) :
    ∃ object member, n = .tree "member_access_expr" [.token "IDENT" object, .token "IDENT" member] := by
  obtain ⟨_, ⟨object, _, rfl, -, member, _, rfl, -, rfl⟩, rfl⟩ := h.only _ _ rfl rfl
  exact ⟨object, member, rfl⟩

theorem inputCall_inv (h : Of .inputCall n) : ∃ prompt, n = .tree "input_call" [.token "STRING" prompt] := by
  obtain ⟨_, ⟨prompt, _, rfl, -, rfl⟩ | ⟨prompt, _, rfl, -, rfl⟩, rfl⟩ := h.either _ _ _ rfl rfl
  · exact ⟨prompt, rfl⟩
  · exact ⟨prompt, rfl⟩

theorem mathFuncCall_inv (h : Of .mathFuncCall n) :
    ∃ name args, n = .tree "math_func_call" (.token "IDENT" name :: args) ∧ ∀ arg ∈ args, Of .expr arg := by
  obtain ⟨_, ⟨name, _, rfl, -, first, _, rfl, hfirst, row, _, rfl, hrow, rfl⟩ |
    ⟨name, _, rfl, -, first, _, rfl, hfirst, rfl⟩, rfl⟩ := h.either _ _ _ rfl rfl
  · exact ⟨name, first :: row, by rw [List.append_nil]; rfl, List.forall_mem_cons.mpr ⟨hfirst, hrow.exprs⟩⟩
  · exact ⟨name, [first], rfl, List.forall_mem_singleton.mpr hfirst⟩

/-- An empty list has one absent child. -/
theorem listLiteral_inv (h : Of .listLiteral n) :
    ∃ items, n = .tree "list_literal" items ∧ (items = [.absent] ∨ ∀ item ∈ items, Of .expr item) := by
  obtain ⟨p, hp, inner, hinner, rfl⟩ := h.inv rfl
  rw [show rulesOf .listLiteral = alternatives .listLiteral "list_literal"
    [[.terminal .openBracket, .category .expr, .category .moreExprs, .terminal .closeBracket],
      [.terminal .openBracket, .category .expr, .terminal .closeBracket]] ++
    [⟨.listLiteral, "list_literal", [.terminal .openBracket, .terminal .closeBracket], true⟩] from rfl] at hp
  simp only [alternatives, List.map_cons, List.map_nil, List.cons_append, List.nil_append, List.mem_cons,
    List.not_mem_nil, or_false] at hp
  rcases hp with rfl | rfl | rfl
  · obtain ⟨first, _, rfl, hfirst, row, _, rfl, hrow, rfl⟩ := hinner
    exact ⟨first :: row, by rw [List.append_nil]; rfl, .inr (List.forall_mem_cons.mpr ⟨hfirst, hrow.exprs⟩)⟩
  · obtain ⟨first, _, rfl, hfirst, rfl⟩ := hinner
    exact ⟨[first], rfl, .inr (List.forall_mem_singleton.mpr hfirst)⟩
  · obtain rfl : inner = [] := hinner
    exact ⟨[.absent], rfl, .inl rfl⟩

theorem listAccess_inv (h : Of .listAccess n) :
    ∃ name index, n = .tree "list_access" [.token "IDENT" name, index] ∧ Of .expr index := by
  obtain ⟨_, ⟨name, _, rfl, -, index, _, rfl, hindex, rfl⟩, rfl⟩ := h.only _ _ rfl rfl
  exact ⟨name, index, rfl, hindex⟩

theorem absExpr_inv (h : Of .absExpr n) : ∃ operand, n = .tree "abs_expr" [operand] ∧ Of .expr operand := by
  obtain ⟨_, ⟨operand, _, rfl, hopd, rfl⟩, rfl⟩ := h.only _ _ rfl rfl
  exact ⟨operand, rfl, hopd⟩

/-- A row of expressions in a tree of its own. -/
theorem exprs_inv (h : Of c n) (label : String)
    (hrules : rulesOf c = alternatives c label [[.category .expr, .category .moreExprs], [.category .expr]])
    (hc : c.isSpliced = false) : AreArgs label [n] := by
  obtain ⟨first, row, rfl, hfirst, hrow⟩ := h.row_inv label hrules (by rw [hc]; rfl) (List.forall_mem_nil _)
    fun _ hrow => hrow.exprs
  exact .inr ⟨first :: row, rfl, List.forall_mem_cons.mpr ⟨hfirst, hrow⟩⟩

/-- A call: a name and perhaps arguments. -/
theorem call_inv (h : Of c n) (label : String) (hrules : rulesOf c = alternatives c label
      [[.terminal .ident, .terminal .openParen, .category .funcArgs, .terminal .closeParen],
        [.terminal .ident, .terminal .openParen, .terminal .closeParen]]) (hc : c.isSpliced = false) :
    ∃ name rest, n = .tree label (.token "IDENT" name :: rest) ∧ AreArgs "func_args" rest := by
  obtain ⟨_, ⟨name, _, rfl, -, args, _, rfl, hargs, rfl⟩ | ⟨name, _, rfl, -, rfl⟩, rfl⟩ := h.either label _ _ hrules hc
  · exact ⟨name, [args], rfl, hargs.exprs_inv _ rfl rfl⟩
  · exact ⟨name, [], rfl, .inl rfl⟩

theorem funcCall_inv (h : Of .funcCall n) :
    ∃ name rest, n = .tree "func_call" (.token "IDENT" name :: rest) ∧ AreArgs "func_args" rest :=
  h.call_inv _ rfl rfl

theorem funcCallStmt_inv (h : Of .funcCallStmt n) :
    ∃ name rest, n = .tree "func_call_stmt" (.token "IDENT" name :: rest) ∧ AreArgs "func_args" rest :=
  h.call_inv _ rfl rfl

/-! ### Trees of conditions -/

theorem condition_inv (h : Of .condition n) :
    ∃ left op right, n = .tree "condition" [left, .token "COMPARISON_OP" op, right] ∧ Of .expr left ∧
      Terminal.comparison.Spells op.toList ∧ Of .expr right := by
  obtain ⟨_, ⟨left, _, rfl, hleft, op, _, rfl, hop, right, _, rfl, hright, rfl⟩, rfl⟩ := h.only _ _ rfl rfl
  exact ⟨left, op, right, rfl, hleft, hop, hright⟩

theorem logicOp_inv (h : Of .logicOp n) : n = .tree "logic_op" [] := by
  obtain ⟨inner, hinner, rfl⟩ := h.either _ _ _ rfl rfl
  obtain rfl : inner = [] := hinner.elim id id
  rfl

theorem conditions_inv (h : Of .conditions n) :
    ∃ first rest, n = .tree "conditions" (first :: rest) ∧ Of .condition first ∧
      InTurn (Of .logicOp) (Of .condition) rest :=
  h.row_inv _ rfl rfl .nil fun _ hrow => hrow.moreConditions

/-! ### Trees of statements -/

/-- A type is a node without children. -/
theorem exists_namedType (h : Of .typeName n) : ∃ type, n.namedType? = some type := by
  have hcheck : ∀ p ∈ rulesOf .typeName, (Node.tree p.label []).namedType?.isSome = true ∧ p.marksAbsence = false ∧
      ∃ t ∈ Terminal.all, t.isKept = false ∧ p.symbols = [.terminal t] := by decide +kernel
  obtain ⟨p, hp, inner, hinner, rfl⟩ := h.inv rfl
  obtain ⟨hnamed, habs, t, -, hdropped, hsyms⟩ := hcheck p hp
  rw [hsyms, Reads, hdropped, if_neg Bool.false_ne_true, Reads] at hinner
  rw [habs, hinner]
  exact Option.isSome_iff_exists.mp hnamed

theorem typeName_inv (h : Of .typeName n) : ∃ label, n = .tree label [] := by
  obtain ⟨type, htype⟩ := h.exists_namedType
  unfold Node.namedType? at htype
  split at htype
  · exact ⟨_, rfl⟩
  · exact ⟨_, rfl⟩
  · exact ⟨_, rfl⟩
  · cases htype

theorem constDef_inv (h : Of .constDef n) :
    ∃ type name value, n = .tree "const_def" [type, .token "IDENT" name, value] ∧ Of .typeName type ∧
      Of .expr value := by
  obtain ⟨_, ⟨type, _, rfl, htype, name, _, rfl, -, value, _, rfl, hvalue, rfl⟩, rfl⟩ := h.only _ _ rfl rfl
  exact ⟨type, name, value, rfl, htype, hvalue⟩

theorem varDef_inv (h : Of .varDef n) :
    ∃ type name rest, n = .tree "var_def" (type :: .token "IDENT" name :: rest) ∧ Of .typeName type ∧
      (rest = [] ∨ ∃ value, rest = [value] ∧ Of .expr value) := by
  obtain ⟨_, ⟨type, _, rfl, htype, name, _, rfl, -, value, _, rfl, hvalue, rfl⟩ |
    ⟨type, _, rfl, htype, name, _, rfl, -, rfl⟩, rfl⟩ := h.either _ _ _ rfl rfl
  · exact ⟨type, name, [value], rfl, htype, .inr ⟨value, rfl, hvalue⟩⟩
  · exact ⟨type, name, [], rfl, htype, .inl rfl⟩

theorem listDef_inv (h : Of .listDef n) :
    ∃ name items, n = .tree "list_def" [.token "IDENT" name, items] ∧ Of .listLiteral items := by
  obtain ⟨_, ⟨name, _, rfl, -, items, _, rfl, hitems, rfl⟩, rfl⟩ := h.only _ _ rfl rfl
  exact ⟨name, items, rfl, hitems⟩

theorem assignment_inv (h : Of .assignment n) :
    ∃ name value, n = .tree "assignment" [.token "IDENT" name, value] ∧ Of .expr value := by
  obtain ⟨_, ⟨name, _, rfl, -, value, _, rfl, hvalue, rfl⟩, rfl⟩ := h.only _ _ rfl rfl
  exact ⟨name, value, rfl, hvalue⟩

theorem causeStmt_inv (h : Of .causeStmt n) :
    ∃ conditions block rest, n = .tree "cause_stmt" (conditions :: block :: rest) ∧
      Of .conditions conditions ∧ Of .block block ∧ (rest = [] ∨ ∃ other, rest = [other] ∧ Of .block other) := by
  obtain ⟨_, ⟨conditions, _, rfl, hconds, block, _, rfl, hblock, other, _, rfl, hother, rfl⟩ |
    ⟨conditions, _, rfl, hconds, block, _, rfl, hblock, rfl⟩, rfl⟩ := h.either _ _ _ rfl rfl
  · exact ⟨conditions, block, [other], rfl, hconds, hblock, .inr ⟨other, rfl, hother⟩⟩
  · exact ⟨conditions, block, [], rfl, hconds, hblock, .inl rfl⟩

theorem conditions_of_cause {rule : String} {conditions : Node} {rest : List Node}
    (h : Of .causeStmt (.tree rule (conditions :: rest))) : Of .conditions conditions := by
  obtain ⟨_, _, _, heq, hconds, -⟩ := h.causeStmt_inv
  exact (List.cons.inj (Node.tree.inj heq).2).1 ▸ hconds

theorem block_inv (h : Of .block n) : ∃ items, n = .tree "block" items ∧ ∀ item ∈ items, IsItem item := by
  obtain ⟨inner, hinner, rfl⟩ := h.either _ _ _ rfl rfl
  rcases hinner with ⟨items, _, rfl, hitems, rfl⟩ | hnone
  · rw [List.append_nil]
    exact ⟨items, rfl, hitems.blockItems⟩
  · obtain rfl : inner = [] := hnone
    exact ⟨[], rfl, by simp⟩

theorem memberAccess_inv (h : Of .memberAccess n) :
    ∃ object member, n = .tree "member_access" [.token "IDENT" object, .token "IDENT" member] := by
  obtain ⟨_, ⟨object, _, rfl, -, member, _, rfl, -, rfl⟩, rfl⟩ := h.only _ _ rfl rfl
  exact ⟨object, member, rfl⟩

theorem outputStmt_inv (h : Of .outputStmt n) :
    ∃ target rest, n = .tree "output_stmt" (target :: rest) ∧ Of .memberAccess target ∧
      AreArgs "output_args" rest := by
  obtain ⟨_, ⟨target, _, rfl, htarget, args, _, rfl, hargs, rfl⟩ |
    ⟨target, _, rfl, htarget, rfl⟩, rfl⟩ := h.either _ _ _ rfl rfl
  · exact ⟨target, [args], rfl, htarget, hargs.exprs_inv _ rfl rfl⟩
  · exact ⟨target, [], rfl, htarget, .inl rfl⟩

theorem againStmt_inv (h : Of .againStmt n) :
    ∃ times rest block, n = .tree "again_stmt" (times :: (rest ++ [block])) ∧ Of .expr times ∧
      (rest = [] ∨ ∃ var, rest = [.token "IDENT" var]) ∧ Of .block block := by
  obtain ⟨_, ⟨times, _, rfl, htimes, block, _, rfl, hblock, rfl⟩ |
    ⟨times, _, rfl, htimes, var, _, rfl, -, block, _, rfl, hblock, rfl⟩, rfl⟩ := h.either _ _ _ rfl rfl
  · exact ⟨times, [], block, rfl, htimes, .inl rfl, hblock⟩
  · exact ⟨times, [_], block, rfl, htimes, .inr ⟨var, rfl⟩, hblock⟩

theorem repStop_inv (h : Of .repStop n) : n = .tree "rep_stop" [] := by
  obtain ⟨_, rfl, rfl⟩ := h.only _ _ rfl rfl
  rfl

theorem listMethodCall_inv (h : Of .listMethodCall n) :
    ∃ name method rest, n = .tree "list_method_call" (.token "IDENT" name :: method :: rest) ∧
      (rest = [] ∨ ∃ value, rest = [value] ∧ Of .expr value) := by
  obtain ⟨_, ⟨name, _, rfl, -, method, _, rfl, -, value, _, rfl, hvalue, rfl⟩ |
    ⟨name, _, rfl, -, method, _, rfl, -, rfl⟩, rfl⟩ := h.either _ _ _ rfl rfl
  · exact ⟨name, method, [value], rfl, .inr ⟨value, rfl, hvalue⟩⟩
  · exact ⟨name, method, [], rfl, .inl rfl⟩

theorem funcDef_inv (h : Of .funcDef n) :
    ∃ name params body, n = .tree "func_def" [.token "IDENT" name, params, body] ∧ Of .block body := by
  obtain ⟨_, ⟨name, _, rfl, -, params, _, rfl, -, body, _, rfl, hbody, rfl⟩, rfl⟩ := h.only _ _ rfl rfl
  exact ⟨name, params, body, rfl, hbody⟩

theorem backStmt_inv (h : Of .backStmt n) :
    ∃ rest, n = .tree "back_stmt" rest ∧ (rest = [] ∨ ∃ value, rest = [value] ∧ Of .expr value) := by
  obtain ⟨inner, hinner, rfl⟩ := h.either _ _ _ rfl rfl
  rcases hinner with ⟨value, _, rfl, hvalue, rfl⟩ | hnone
  · exact ⟨[value], rfl, .inr ⟨value, rfl, hvalue⟩⟩
  · obtain rfl : inner = [] := hnone
    exact ⟨[], rfl, .inl rfl⟩

theorem statement_inv (h : Of .statement n) :
    ∃ c ∈ [Category.constDef, .varDef, .assignment, .causeStmt, .outputStmt, .inputCall, .againStmt, .repStop,
        .listMethodCall, .listDef, .funcDef, .funcCallStmt, .backStmt],
      ∃ only, n = .tree "statement" [only] ∧ Of c only := by
  obtain ⟨body, hbody, inner, hinner, rfl⟩ := h.alternative "statement"
    [[.category .constDef], [.category .varDef], [.category .assignment], [.category .causeStmt],
      [.category .outputStmt], [.category .inputCall], [.category .againStmt], [.category .repStop],
      [.category .listMethodCall], [.category .listDef], [.category .funcDef], [.category .funcCallStmt],
      [.category .backStmt]] rfl rfl
  simp only [List.mem_cons, List.not_mem_nil, or_false] at hbody
  rcases hbody with rfl | rfl | rfl | rfl | rfl | rfl | rfl | rfl | rfl | rfl | rfl | rfl | rfl
  all_goals
    obtain ⟨only, _, rfl, honly, rfl⟩ := hinner
    exact ⟨_, by decide, only, rfl, honly⟩

theorem start_inv (h : Of .start n) : ∃ items, n = .tree "start" items ∧ ∀ item ∈ items, IsItem item := by
  obtain ⟨body, hbody, inner, hinner, rfl⟩ := h.alternative "start"
    [[.category .statements, .category .statement], [.category .statements], [.category .statement], []] rfl rfl
  refine ⟨inner, rfl, ?_⟩
  simp only [List.mem_cons, List.not_mem_nil, or_false] at hbody
  rcases hbody with rfl | rfl | rfl | rfl
  · obtain ⟨row, _, rfl, hrow, last, _, rfl, hlast, rfl⟩ := hinner
    intro item hitem
    rcases List.mem_append.mp hitem with hitem | hitem
    · exact hrow.statements item hitem
    · exact .inl (List.mem_singleton.mp hitem ▸ hlast)
  · obtain ⟨row, _, rfl, hrow, rfl⟩ := hinner
    rw [List.append_nil]
    exact hrow.statements
  · obtain ⟨only, _, rfl, honly, rfl⟩ := hinner
    exact List.forall_mem_singleton.mpr (.inl honly)
  · obtain rfl : inner = [] := hinner
    simp

/-- A node bears the label of a production of its category. -/
theorem exists_label (h : Of c n) (hc : c.isSpliced = false) : ∃ p ∈ rulesOf c, ∃ cs, n = .tree p.label cs := by
  obtain ⟨p, hp, inner, -, hbuild⟩ := h.rule_inv
  have hcat : p.category = c := by simpa using (List.mem_filter.mp hp).2
  obtain ⟨others, htree⟩ := p.exists_build_eq_tree inner (by rwa [hcat])
  exact ⟨p, hp, others, List.singleton_inj.mp (hbuild.trans htree)⟩

/-- The category of a statement shows in its label. -/
theorem of_statement {rule : String} {cs : List Node} (h : Of .statement (.tree "statement" [.tree rule cs]))
    (hc : ∀ d ∈ [Category.constDef, .varDef, .assignment, .causeStmt, .outputStmt, .inputCall, .againStmt, .repStop,
        .listMethodCall, .listDef, .funcDef, .funcCallStmt, .backStmt],
      d.isSpliced = false ∧ (d = c ∨ ∀ p ∈ rulesOf d, p.label ≠ rule)) : Of c (.tree rule cs) := by
  obtain ⟨d, hd, only, heq, honly⟩ := h.statement_inv
  obtain rfl := List.singleton_inj.mp (Node.tree.inj heq).2
  obtain ⟨hspliced, rfl | hlabels⟩ := hc d hd
  · exact honly
  · obtain ⟨p, hp, others, htree⟩ := honly.exists_label hspliced
    exact absurd (Node.tree.inj htree).1.symm (hlabels p hp)

end Of

/-- An accepted text is a tree of statements. -/
theorem of_parse (h : parse source = .ok program) : Of .start program := by
  obtain ⟨ls, hder⟩ := derives_of_parse h
  exact ⟨ls, _, hder.mono fun p t => mem_productions_of_finishes⟩

/-- A tree in the tree of an accepted text is one of the category of its rule. -/
theorem of_part (h : parse source = .ok program) {rule : String} {cs : List Node}
    (hpart : (Node.tree rule cs).Part program) (c : Category)
    (hrule : ∀ p ∈ productions, p.label = rule → p.category = c) : Of c (.tree rule cs) := by
  obtain ⟨ls, next, hder⟩ := of_parse h
  rcases hder.part_cases (List.mem_singleton_self program) hpart with
    h | ⟨_, _, h, -⟩ | ⟨p, _, ls, next, heq, hp, hof, -⟩
  · cases h
  · cases h
  · cases heq
    exact hrule p hp rfl ▸ ⟨ls, next, hof⟩

/-- The declarations of an accepted text have a type, a name and perhaps an initial value. -/
theorem declaration_of_parse {n : Node} (h : parse source = .ok program)
    (hn : n.Part program) (hrule : n.isDeclaration = true) : ∃ d, n.declaration? = some d := by
  cases n with
  | token | absent | plain => cases hrule
  | tree rule cs =>
    have hcases : rule = "var_def" ∨ rule = "const_def" := by simpa [Node.isDeclaration] using hrule
    rcases hcases with rfl | rfl
    · obtain ⟨node, name, rest, htree, hnode, hrest⟩ := (of_part h hn .varDef (by decide)).varDef_inv
      obtain ⟨type, htype⟩ := hnode.exists_namedType
      rw [htree]
      rcases hrest with rfl | ⟨initial, rfl, -⟩
      · exact ⟨⟨false, type, name, none⟩, by rw [Node.declaration?, htype]; rfl⟩
      · exact ⟨⟨false, type, name, some initial⟩, by rw [Node.declaration?, htype]; rfl⟩
    · obtain ⟨node, name, initial, htree, hnode, -⟩ := (of_part h hn .constDef (by decide)).constDef_inv
      obtain ⟨type, htype⟩ := hnode.exists_namedType
      rw [htree]
      exact ⟨⟨true, type, name, some initial⟩, by rw [Node.declaration?, htype]; rfl⟩

/-- The parts of the program in a text, of which a refused text has none. -/
def parsedItems (source : String) : List Node :=
  match parse source with
  | .ok (.tree _ items) => items
  | _ => []

theorem parse_eq_parsedItems (h : (parse source).isOk = true) :
    parse source = .ok (.tree "start" (parsedItems source)) := by
  cases hparse : parse source with
  | error e =>
    rw [hparse] at h
    cases h
  | ok program =>
    obtain ⟨items, rfl, -⟩ := (of_parse hparse).start_inv
    rw [parsedItems, hparse]

theorem isItem_of_parse {items : List Node} (h : parse source = .ok (.tree "start" items)) :
    ∀ item ∈ items, IsItem item := by
  obtain ⟨_, heq, hall⟩ := (of_parse h).start_inv
  rwa [(Node.tree.inj heq).2]

/-- The only statement of an accepted text. -/
theorem of_parse_statement {n : Node}
    (h : parse source = .ok (.tree "start" [.tree "statement" [n]])) : Of .statement (.tree "statement" [n]) :=
  (isItem_of_parse h _ (.head _)).resolve_right (by simp)

end FapLang.Grammar
