import FapLang.Proofs.Grammar.Brackets
import FapLang.Proofs.Grammar.Termination

/-!
Where statements stand in a tree. A calm node holds no statement that could bind a name, end a call
or leave a loop; in an orderly one such statements stand only where statements belong. The parser
gives orderly trees (`isOrderly_of_parse`).
-/

namespace FapLang

variable {n : Node} {cs : List Node} {rule : String}
variable {p : Production}

namespace Node

/-- Rules whose step may bind a name, end a call or leave a loop. -/
def activeRules : List String :=
  ["root", "start", "statement", "block", "cause_stmt", "again_stmt", "func_def", "const_def", "var_def",
    "list_def", "assignment", "list_method_call", "rep_stop", "back_stmt"]

/-- Rules whose children may all be statements. -/
def nestingRules : List String := ["root", "start", "statement", "block"]

/-- Rules whose children may be statements, except the first one. -/
def headedRules : List String := ["cause_stmt", "again_stmt", "func_def"]

mutual

/-- Whether no active rule occurs in a node. -/
def isCalm : Node → Bool
  | tree rule children => !activeRules.contains rule && areCalm children
  | token terminal _ => !activeRules.contains terminal
  | absent | plain _ => true

def areCalm : List Node → Bool
  | [] => true
  | c :: cs => isCalm c && areCalm cs

end

def headIsCalm : List Node → Bool
  | [] => true
  | c :: _ => isCalm c

mutual

/-- Whether active rules occur in a node only where statements belong. -/
def isOrderly : Node → Bool
  | tree rule children =>
    if nestingRules.contains rule then areOrderly children
    else if headedRules.contains rule then headIsCalm children && areOrderly children
    else areCalm children
  | token terminal _ => !activeRules.contains terminal
  | absent | plain _ => true

def areOrderly : List Node → Bool
  | [] => true
  | c :: cs => isOrderly c && areOrderly cs

end

theorem areCalm_iff : areCalm cs = true ↔ ∀ c ∈ cs, c.isCalm = true := by
  induction cs with
  | nil => simp [areCalm]
  | cons c cs ih => simp [areCalm, ih]

theorem areOrderly_iff : areOrderly cs = true ↔ ∀ c ∈ cs, c.isOrderly = true := by
  induction cs with
  | nil => simp [areOrderly]
  | cons c cs ih => simp [areOrderly, ih]

/-- A rule that is not active has calm children only. -/
theorem isOrderly_tree_of_not_active
    (hrule : activeRules.contains rule = false) : (tree rule cs).isOrderly = areCalm cs := by
  have hactive : ∀ rule ∈ nestingRules ++ headedRules, activeRules.contains rule = true := by decide
  have hnesting : ¬ nestingRules.contains rule = true := by
    intro h
    rw [hactive rule (List.mem_append_left _ (List.contains_iff_mem.mp h))] at hrule
    cases hrule
  have hheaded : ¬ headedRules.contains rule = true := by
    intro h
    rw [hactive rule (List.mem_append_right _ (List.contains_iff_mem.mp h))] at hrule
    cases hrule
  rw [isOrderly, if_neg hnesting, if_neg hheaded]

/-- Calm nodes are orderly. -/
theorem isOrderly_of_isCalm (h : n.isCalm = true) : n.isOrderly = true := by
  cases n with
  | tree rule cs =>
    rw [isCalm, Bool.and_eq_true, Bool.not_eq_true'] at h
    rw [isOrderly_tree_of_not_active h.1]
    exact h.2
  | token terminal text => exact h
  | absent => rfl
  | plain text => rfl

/-- An orderly node whose own rule is not active is calm. -/
theorem isCalm_of_isOrderly (h : (tree rule cs).isOrderly = true)
    (hrule : activeRules.contains rule = false) : (tree rule cs).isCalm = true := by
  rw [isOrderly_tree_of_not_active hrule] at h
  rw [isCalm, hrule, h]
  rfl

/-- The parts of an orderly node are orderly. -/
theorem isOrderly_of_mem_tree (h : (tree rule cs).isOrderly = true) : ∀ c ∈ cs, c.isOrderly = true := by
  rw [isOrderly] at h
  split_ifs at h
  · exact areOrderly_iff.mp h
  · rw [Bool.and_eq_true] at h
    exact areOrderly_iff.mp h.2
  · exact fun c hc => isOrderly_of_isCalm (areCalm_iff.mp h c hc)

/-- The nodes of a tree, itself among them. -/
inductive Part : Node → Node → Prop
  | refl (n : Node) : Part n n
  | child {n c : Node} {rule : String} {cs : List Node} (hc : c ∈ cs) (h : Part n c) :
      Part n (tree rule cs)

theorem Part.isOrderly {m : Node} (h : Part n m) (hm : m.isOrderly = true) : n.isOrderly = true := by
  induction h with
  | refl => exact hm
  | child hc _ ih => exact ih (isOrderly_of_mem_tree hm _ hc)

end Node

namespace Grammar

open FapLang.Node (activeRules nestingRules headedRules)

/-- The categories of expressions, their parts, and the statements that only call or write. -/
def Category.isCalm : Category → Bool
  | root | start | statements | statement | constDef | varDef | listDef | assignment | causeStmt | block
  | blockItems | againStmt | repStop | listMethodCall | funcDef | backStmt => false
  | _ => true

def Symbol.isCalm : Symbol → Bool
  | terminal _ => true
  | category c => c.isCalm

/-- Whether the first node that symbols put into the tree is calm. -/
def leadsCalm : List Symbol → Bool
  | [] => true
  | .terminal t :: rest => t.isKept || leadsCalm rest
  | .category c :: _ => c.isCalm && !c.isSpliced

theorem calm_production (hp : p ∈ productions) (hcalm : p.category.isCalm = true) :
    activeRules.contains p.label = false ∧ ∀ x ∈ p.symbols, x.isCalm = true := by
  revert p
  decide

/-- A tree whose rule takes no statements has calm symbols. -/
theorem symbols_isCalm (hp : p ∈ productions)
    (hspliced : p.category.isSpliced = false) (hnesting : ¬ nestingRules.contains p.label = true)
    (hheaded : ¬ headedRules.contains p.label = true) : ∀ x ∈ p.symbols, x.isCalm = true := by
  revert p
  decide

theorem leadsCalm_of_headed (hp : p ∈ productions)
    (hheaded : headedRules.contains p.label = true) : leadsCalm p.symbols = true := by
  revert p
  decide

theorem activeRules_not_name (t : Terminal) : activeRules.contains t.name = false := by
  cases t <;> decide

theorem isCalm_of_mem_nodes {x : Lexeme} (h : n ∈ x.nodes) : n.isCalm = true := by
  unfold Lexeme.nodes at h
  by_cases hkept : x.1.isKept = true
  · rw [if_pos hkept, List.mem_singleton] at h
    rw [h, Node.isCalm, activeRules_not_name]
    rfl
  · rw [if_neg hkept] at h
    cases h

variable {symbols : List Symbol} {ls : List Lexeme} {next : Terminal} {nodes : List Node}

/-- Calm symbols put calm nodes into the tree. -/
theorem Derives.isCalm (h : DerivesAny symbols ls next nodes)
    (hsyms : ∀ x ∈ symbols, x.isCalm = true) : ∀ n ∈ nodes, n.isCalm = true := by
  induction h with
  | nil next => simp
  | terminal hword _ ih =>
    intro n hn
    rcases List.mem_append.mp hn with hn | hn
    · exact isCalm_of_mem_nodes hn
    · exact ih (fun x hx => hsyms x (.tail _ hx)) n hn
  | @category p symbols phrase rest next inner nodes hp _ _ ihinner ihrest =>
    obtain ⟨hlabel, hparts⟩ := calm_production hp (hsyms _ (.head _))
    intro n hn
    rcases List.mem_append.mp hn with hn | hn
    · rcases Production.mem_build hn with hn | ⟨-, -, cs, rfl, hcs⟩
      · exact ihinner hparts n hn
      · have hcalm : ∀ c ∈ cs, c.isCalm = true := by
          rcases hcs with rfl | rfl
          · simp [Node.isCalm]
          · exact ihinner hparts
        rw [Node.isCalm, hlabel, Node.areCalm_iff.mpr hcalm]
        rfl
    · exact ihrest (fun x hx => hsyms x (.tail _ hx)) n hn

/-- The first node is calm if the symbols say so. -/
theorem Derives.headIsCalm (h : DerivesAny symbols ls next nodes)
    (hleads : leadsCalm symbols = true) : Node.headIsCalm nodes = true := by
  induction h with
  | nil next => rfl
  | @terminal t word symbols ls next nodes hword _ ih =>
    by_cases hkept : t.isKept = true
    · have hnodes : Lexeme.nodes (t, word) = [.token t.name (String.ofList word)] := if_pos hkept
      rw [hnodes, List.singleton_append, Node.headIsCalm, Node.isCalm, activeRules_not_name]
      rfl
    · have hnodes : Lexeme.nodes (t, word) = [] := if_neg hkept
      rw [leadsCalm, Bool.or_eq_true] at hleads
      rw [hnodes, List.nil_append]
      exact ih (hleads.resolve_left hkept)
  | @category p symbols phrase ls next inner nodes hp hinner _ _ _ =>
    rw [leadsCalm, Bool.and_eq_true, Bool.not_eq_true'] at hleads
    have hsingle : DerivesAny [.category p.category] phrase _ (p.build inner) :=
      .single hp hinner
    have hcalm : ∀ m ∈ p.build inner, m.isCalm = true := by
      refine hsingle.isCalm fun x hx => ?_
      rw [List.mem_singleton.mp hx]
      exact hleads.1
    obtain ⟨m, hm⟩ := List.length_eq_one_iff.mp (p.build_length inner hleads.2)
    rw [hm] at hcalm ⊢
    exact hcalm m (List.mem_singleton_self m)

/-- What a production builds is orderly if its children are. -/
theorem build_isOrderly (hp : p ∈ productions) {inner : List Node}
    (hinner : DerivesAny p.symbols ls next inner)
    (horderly : ∀ n ∈ inner, n.isOrderly = true) : ∀ n ∈ p.build inner, n.isOrderly = true := by
  intro n hn
  rcases Production.mem_build hn with hn | ⟨hspliced, -, cs, rfl, hcs⟩
  · exact horderly n hn
  have hall : Node.areOrderly cs = true := by
    rw [Node.areOrderly_iff]
    rcases hcs with rfl | rfl
    · simp [Node.isOrderly]
    · exact horderly
  rw [Node.isOrderly]
  split_ifs with hnesting hheaded
  · exact hall
  · have hhead : Node.headIsCalm cs = true := by
      rcases hcs with rfl | rfl
      · rfl
      · exact hinner.headIsCalm (leadsCalm_of_headed hp hheaded)
    rw [hhead, hall]
    rfl
  · rw [Node.areCalm_iff]
    rcases hcs with rfl | rfl
    · simp [Node.isCalm]
    · exact hinner.isCalm (symbols_isCalm hp hspliced hnesting hheaded)

/-- Every node of a derivation is orderly. -/
theorem Derives.isOrderly (h : DerivesAny symbols ls next nodes) : ∀ n ∈ nodes, n.isOrderly = true := by
  induction h with
  | nil next => simp
  | terminal hword _ ih =>
    intro n hn
    rcases List.mem_append.mp hn with hn | hn
    · exact Node.isOrderly_of_isCalm (isCalm_of_mem_nodes hn)
    · exact ih n hn
  | category hp hinner _ ihinner ihrest =>
    intro n hn
    rcases List.mem_append.mp hn with hn | hn
    · exact build_isOrderly hp hinner ihinner n hn
    · exact ihrest n hn

/-- A token in a derivation is spelled as its terminal is, and a tree is built by a production. -/
theorem Derives.part_cases {allowed : Production → Terminal → Prop} (h : Derives allowed symbols ls next nodes)
    {m : Node} (hm : m ∈ nodes) (hpart : n.Part m) :
    n = .absent ∨ (∃ (t : Terminal) (text : String), n = .token t.name text ∧ t.Spells text.toList) ∨
      ∃ p cs ls next, n = .tree p.label cs ∧ allowed p next ∧ Derives allowed [.category p.category] ls next [n] ∧
        (cs = [.absent] ∨ Derives allowed p.symbols ls next cs) := by
  induction h generalizing m with
  | nil => cases hm
  | @terminal t word symbols ls next nodes hword _ ih =>
    rcases List.mem_append.mp hm with hm | hm
    · unfold Lexeme.nodes at hm
      split at hm
      · rw [List.mem_singleton.mp hm] at hpart
        cases hpart
        exact .inr (.inl ⟨t, _, rfl, by rwa [String.toList_ofList]⟩)
      · cases hm
    · exact ih hm hpart
  | @category p symbols phrase ls next inner nodes hp hinner _ ihinner ihrest =>
    rcases List.mem_append.mp hm with hm | hm
    · rcases Production.mem_build hm with hm | ⟨-, hbuild, cs, rfl, hcs⟩
      · exact ihinner hm hpart
      · cases hpart with
        | refl =>
          have hsingle := Derives.single hp hinner
          exact .inr (.inr ⟨p, cs, _, _, rfl, hp, hbuild ▸ hsingle, hcs.imp_right fun h ↦ h ▸ hinner⟩)
        | child hc hpart =>
          rcases hcs with rfl | rfl
          · rw [List.mem_singleton.mp hc] at hpart
            cases hpart
            exact .inl rfl
          · exact ihinner hc hpart
    · exact ihrest hm hpart

/-- The parser gives orderly trees. -/
theorem isOrderly_of_parse {source : String} {tree : Node} (h : parse source = .ok tree) : tree.isOrderly = true := by
  obtain ⟨ls, hder⟩ := derives_of_parse h
  have hall := (hder.mono fun p t => mem_productions_of_finishes).isOrderly
  exact hall tree (List.mem_singleton_self tree)

end Grammar

end FapLang
