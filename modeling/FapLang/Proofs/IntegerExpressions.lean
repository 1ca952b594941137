import FapLang.Proofs.Grammar.Sums
import FapLang.Proofs.Run.Exec
import FapLang.Run.Visit
import Mathlib.Tactic.IntervalCases

/-!
Integer expressions mean what they say: a sum that is written with its parentheses where they are
needed parses, and visiting its tree gives its value and leaves the session as it was
(`visit_written_sum`).
-/

namespace FapLang

open Grammar

/-! ### Numerals -/

theorem mem_digits_of_isAsciiDigit {c : Char} (h : isAsciiDigit c = true) :
    c ∈ ['0', '1', '2', '3', '4', '5', '6', '7', '8', '9'] := by
  simp only [isAsciiDigit, Bool.and_eq_true, decide_eq_true_eq, Char.le_def, UInt32.le_iff_toNat_le] at h
  obtain ⟨hlow, hhigh⟩ := h
  have hlow : 48 ≤ c.toNat := hlow
  have hhigh : c.toNat ≤ 57 := hhigh
  have hc : c = Char.ofNat c.toNat := (Char.ofNat_toNat c).symm
  generalize c.toNat = n at hlow hhigh hc
  subst hc
  interval_cases n <;> decide

/-- Digits have a value, and are neither blank nor a sign or point. -/
theorem digit_facts {c : Char} (h : isAsciiDigit c = true) :
    Text.digitValue? c = some (c.toNat - '0'.toNat) ∧ Text.isBlank c = false ∧ c ≠ '-' ∧ c ≠ '+' ∧
      c ≠ '.' := by
  have hdigit := mem_digits_of_isAsciiDigit h
  simp only [List.mem_cons, List.not_mem_nil, or_false] at hdigit
  rcases hdigit with rfl | rfl | rfl | rfl | rfl | rfl | rfl | rfl | rfl | rfl <;>
    exact ⟨rfl, rfl, by decide, by decide, by decide⟩

theorem Text.trim_eq_self {cs : List Char} (h : ∀ c ∈ cs, isBlank c = false) : trim cs = cs := by
  have hend : ∀ cs : List Char, (∀ c ∈ cs, isBlank c = false) → trimEnd cs = cs := by
    intro cs h
    induction cs with
    | nil => rfl
    | cons c cs ih =>
      rw [trimEnd, ih fun d hd => h d (List.mem_cons_of_mem c hd)]
      cases cs with
      | nil => simp [h c (.head _)]
      | cons d cs => rfl
  have hstart : trimStart cs = cs := by
    cases cs with
    | nil => rfl
    | cons c cs => simp [trimStart, h c (.head _)]
  rw [trim, hstart, hend cs h]

theorem Number.readDigits_eq {cs : List Char} (h : ∀ c ∈ cs, isAsciiDigit c = true) (afterDigit : Bool) :
    readDigits afterDigit cs = (cs.map fun c => c.toNat - '0'.toNat, []) := by
  induction cs generalizing afterDigit with
  | nil => rfl
  | cons c cs ih =>
    simp only [readDigits, (digit_facts (h c (.head _))).1,
      ih (fun d hd => h d (List.mem_cons_of_mem c hd)), List.map_cons]

namespace IntLiteral

variable (l : IntLiteral)

theorem ne_point {c : Char} (hc : c ∈ l.text) : c ≠ '.' ∧ Text.isBlank c = false := by
  have hdigit : ∀ c ∈ l.digits, c ≠ '.' ∧ Text.isBlank c = false := fun c hc =>
    ⟨(digit_facts (l.decimal c hc)).2.2.2.2, (digit_facts (l.decimal c hc)).2.1⟩
  rw [text] at hc
  split at hc
  · rcases List.mem_cons.mp hc with rfl | hc
    · decide
    · exact hdigit c hc
  · exact hdigit c hc

theorem readSign_text : Number.readSign l.text = (l.isNegative, l.digits) := by
  rw [text]
  split
  · rename_i hneg
    simp [Number.readSign, hneg]
  · rename_i hneg
    obtain ⟨c, cs, hdigits⟩ := List.exists_cons_of_ne_nil l.nonempty
    have hfacts := digit_facts (l.decimal c (by rw [hdigits]; exact .head _))
    rw [hdigits]
    unfold Number.readSign
    split
    · rename_i heq
      exact absurd (List.cons.inj heq).1 hfacts.2.2.1
    · rename_i heq
      exact absurd (List.cons.inj heq).1 hfacts.2.2.2.1
    · simp [hneg]

/-- A literal is read as its value. -/
theorem readInt_text : Number.readInt (String.ofList l.text) = .value l.value := by
  have htrim : Text.trim l.text = l.text := Text.trim_eq_self fun c hc => (l.ne_point hc).2
  have hshort : ¬ Number.digitLimit < (l.digits.map fun c => c.toNat - '0'.toNat).length := by
    rw [List.length_map]
    exact Nat.not_lt.mpr l.short
  have hsome : ((l.digits.map fun c => c.toNat - '0'.toNat).isEmpty || !([] : List Char).isEmpty) = false := by
    simp [l.nonempty]
  simp only [Number.readInt, String.toList_ofList, htrim, l.readSign_text, Number.readDigits_eq l.decimal,
    if_neg hshort, hsome, Bool.false_eq_true, if_false, value, magnitude, Number.ofDigits, List.foldl_map]

theorem numberOf_text : Run.numberOf (String.ofList l.text) = .ok (.int l.value) := by
  have hpoint : (String.ofList l.text).toList.contains '.' = false := by
    rw [String.toList_ofList, List.contains_eq_mem, decide_eq_false_iff_not]
    exact fun hmem => (l.ne_point hmem).1 rfl
  rw [Run.numberOf, if_neg (ne_true_of_eq_false hpoint)]
  change Value.ofReading _ (Number.readInt _) = _
  rw [l.readInt_text]
  rfl

end IntLiteral

namespace Run

open Interp

variable {n : Int} {nodes : List Node} {levels : Nat} {v : Value}

/-! ### Visits that change nothing -/

/-- `Gives visit n v s`: the visit of the node gives the value and leaves the session as it is. -/
def Gives (visit : Visit) (n : Node) (v : Value) (s : Session) : Prop :=
  (visit n).exec s = (.ok v, s)

section

variable {s : Session} (hs : s.modes.full = false)

include hs

theorem exec_noteStep (step : String) : (noteStep step).exec s = (.ok (), s) := by
  rw [noteStep, exec_get_bind, callNote, addNote, exec_modify, hs]
  rfl

theorem exec_noteResult (label : List Piece) (v : Value) : (noteResult label v).exec s = (.ok (), s) := by
  rw [noteResult, exec_get_bind, hs]
  rfl

/-- A step that gives a value is a visit that does. -/
theorem gives_tree {rule : String} {children : List Node} {step : Node → Interp Value} (hrule : rule ≠ "token")
    (hstep : namedStep (visit levels) rule = some step) (hv : (step (.tree rule children)).exec s = (.ok v, s)) :
    Gives (visit (levels + 1)) (.tree rule children) v s := by
  have hnode : (visitNode (visit levels) (.tree rule children)).exec s = (.ok v, s) := by
    rw [visitNode, visitTree, exec_bind_ok (exec_noteStep hs _)]
    simp only [if_neg hrule, hstep, Option.getD_some]
    rw [exec_bind_ok hv, exec_bind_ok (exec_noteResult hs _ v)]
    rfl
  rw [Gives, visit, exec_recover, hnode]

theorem gives_token {kind text : String} {step : Node → Interp Value}
    (hstep : namedStep (visit levels) kind = some step) (hv : (step (.token kind text)).exec s = (.ok v, s)) :
    Gives (visit (levels + 1)) (.token kind text) v s := by
  have hnode : (visitNode (visit levels) (.token kind text)).exec s = (.ok v, s) := by
    have hkind : (Interp.ofExcept (Node.token kind text).tokenKind).exec s = (.ok kind, s) := rfl
    have htext : (textOf (.token kind text)).exec s = (.ok text, s) := rfl
    rw [visitNode, visitToken, exec_bind_ok hkind, exec_bind_ok htext, exec_bind_ok (exec_noteStep hs _),
      hstep, Option.getD_some, exec_bind_ok hv, exec_bind_ok (exec_noteResult hs _ v)]
    rfl
  rw [Gives, visit, exec_recover, hnode]

theorem gives_literal (levels : Nat) (l : IntLiteral) :
    Gives (visit (levels + 1)) (.token "NUMBER" (String.ofList l.text)) (.int l.value) s := by
  refine gives_token hs (show namedStep _ _ = some visitNumber from rfl) ?_
  have htext : (textOf (.token "NUMBER" (String.ofList l.text))).exec s =
      (.ok (String.ofList l.text), s) := rfl
  rw [visitNumber, exec_bind_ok (exec_noteStep hs _), exec_bind_ok htext, l.numberOf_text]
  rfl

theorem gives_operator (levels : Nat) {kind : String} (hkind : kind ∈ ["ADD_OP", "MUL_OP"])
    (text : String) : Gives (visit (levels + 1)) (.token kind text) (.text text) s := by
  have htext : ∀ step, (visitText step (.token kind text)).exec s = (.ok (.text text), s) := by
    intro step
    rw [visitText, exec_bind_ok (exec_noteStep hs _)]
    rfl
  simp only [List.mem_cons, List.not_mem_nil, or_false] at hkind
  rcases hkind with rfl | rfl
  · exact gives_token hs rfl (htext _)
  · exact gives_token hs rfl (htext _)

/-! ### Rows of operators -/

/-- The nodes come to the value, whatever operators and operands come after them. -/
def FoldsTo (visit : Visit) (apply : Value → Value → Value → Interp Progress) (nodes : List Node)
    (v : Value) (s : Session) : Prop :=
  ∃ first others, nodes = first :: others ∧ ∀ more,
    (do let left ← visit first; foldOperators visit apply left (others ++ more) : Interp Value).exec s =
      (foldOperators visit apply v more).exec s

omit hs in
theorem FoldsTo.first {visit : Visit} {apply : Value → Value → Value → Interp Progress} {n : Node}
    (h : Gives visit n v s) : FoldsTo visit apply [n] v s :=
  ⟨n, [], rfl, fun _ => exec_bind_ok h⟩

omit hs in
theorem FoldsTo.more {visit : Visit} {apply : Value → Value → Value → Interp Progress}
    {op n : Node} {u w x : Value} (h : FoldsTo visit apply nodes u s)
    (hop : Gives visit op x s) (hn : Gives visit n v s) (happly : (apply x u v).exec s = (.ok (.more w), s)) :
    FoldsTo visit apply (nodes ++ [op, n]) w s := by
  obtain ⟨first, others, rfl, hfold⟩ := h
  refine ⟨first, others ++ [op, n], rfl, fun more => ?_⟩
  rw [List.append_assoc, hfold]
  change (foldOperators visit apply u (op :: n :: more)).exec s = _
  rw [foldOperators, exec_bind_ok hop, exec_bind_ok hn, exec_bind_ok happly]

/-- A row of operators that comes to a value gives it. -/
theorem FoldsTo.gives {visit : Visit} {apply : Value → Value → Value → Interp Progress}
    (h : FoldsTo visit apply nodes v s) (step rule : String) :
    (visitChain step apply visit (.tree rule nodes)).exec s = (.ok v, s) := by
  obtain ⟨first, others, rfl, hfold⟩ := h
  have hall := hfold []
  rw [List.append_nil] at hall
  have hkids : (childrenOf (.tree rule (first :: others))).exec s = (.ok (first :: others), s) := rfl
  rw [visitChain, exec_bind_ok (exec_noteStep hs _), exec_bind_ok hkids]
  cases others with
  | nil =>
    -- A single operand is visited without a row around it.
    rcases hfirst : (visit first).exec s with ⟨stop | u, t⟩
    · rw [exec_bind_error hfirst] at hall
      exact absurd (congrArg Prod.fst hall) (by simp [foldOperators])
    · rw [exec_bind_ok hfirst] at hall
      exact hall
  | cons op others => exact hall

omit hs in
theorem exec_applyInProduct (a b : Int) :
    (applyInProduct (.text "*") (.int a) (.int b)).exec s = (.ok (.more (.int (a * b))), s) := rfl

omit hs in
theorem exec_applyInSum (a b : Int) :
    (applyInSum (.text "+") (.int a) (.int b)).exec s = (.ok (.more (.int (a + b))), s) ∧
      (applyInSum (.text "-") (.int a) (.int b)).exec s = (.ok (.more (.int (a - b))), s) :=
  ⟨rfl, rfl⟩

/-- What the nodes of an expression come to, by the level where it stands, in visits that deep. -/
def Computes : Arith.Level → Nat → List Node → Int → Session → Prop
  | .sum, levels, nodes, n, s => FoldsTo (visit (levels + 2)) applyInSum nodes (.int n) s
  | .product, levels, nodes, n, s => FoldsTo (visit (levels + 1)) applyInProduct nodes (.int n) s
  | .operand, levels, nodes, n, s =>
    (visitFactor (visit levels) (.tree "factor" nodes)).exec s = (.ok (.int n), s)

theorem gives_operand (h : Computes .operand levels nodes n s) :
    Gives (visit (levels + 1)) (.tree "factor" nodes) (.int n) s :=
  gives_tree hs (by decide) rfl h

theorem gives_product (h : Computes .product levels nodes n s) :
    Gives (visit (levels + 2)) (.tree "term" nodes) (.int n) s :=
  gives_tree hs (by decide) rfl (FoldsTo.gives hs h _ _)

theorem gives_sum (h : Computes .sum levels nodes n s) : Gives (visit (levels + 3)) (.tree "expr" nodes) (.int n) s :=
  gives_tree hs (by decide) rfl (FoldsTo.gives hs h _ _)

/-- The nodes of an expression come to its value. -/
theorem computes_of_laid {level : Arith.Level} {depth : Nat} {e : Arith} {ls : List Lexeme}
    (h : Arith.Laid level depth e ls nodes) (levels : Nat)
    (hlevels : 3 * depth + 1 ≤ levels) : Computes level levels nodes e.value s := by
  induction h generalizing levels with
  | literal depth l =>
    obtain ⟨levels, rfl⟩ : ∃ n, levels = n + 1 := ⟨levels - 1, by omega⟩
    change (visitFactor _ _).exec s = _
    rw [visitFactor, exec_bind_ok (exec_noteStep hs _)]
    exact gives_literal hs levels l
  | @parens depth e ls nodes _ ih =>
    obtain ⟨levels, rfl⟩ : ∃ n, levels = n + 3 := ⟨levels - 3, by omega⟩
    change (visitFactor _ _).exec s = _
    rw [visitFactor, exec_bind_ok (exec_noteStep hs _)]
    exact gives_sum hs (ih levels (by omega))
  | operand _ ih => exact .first (gives_operand hs (ih levels hlevels))
  | mul _ _ iha ihb =>
    exact FoldsTo.more (iha levels hlevels) (gives_operator hs levels (by decide) "*")
      (gives_operand hs (ihb levels hlevels)) (exec_applyInProduct _ _)
  | product _ ih => exact .first (gives_product hs (ih levels hlevels))
  | add _ _ iha ihb =>
    exact FoldsTo.more (iha levels hlevels) (gives_operator hs (levels + 1) (by decide) "+")
      (gives_product hs (ihb levels hlevels)) (exec_applyInSum _ _).1
  | sub _ _ iha ihb =>
    exact FoldsTo.more (iha levels hlevels) (gives_operator hs (levels + 1) (by decide) "-")
      (gives_product hs (ihb levels hlevels)) (exec_applyInSum _ _).2

end

/-- A written sum parses as the value of an assignment. Outside of the full trace, visiting its tree
gives the value of the expression and changes nothing, at a depth of three visits for each pair of
parentheses and four more. -/
theorem visit_written_sum {depth : Nat} {e : Arith} {text : List Char} (h : Arith.Written .sum depth e text) :
    ∃ nodes, parse ("x -> " ++ String.ofList text) =
        .ok (Arith.assignmentTree "x" (.tree "expr" nodes)) ∧
      ∀ (s : Session) (levels : Nat), s.modes.full = false → 3 * depth + 4 ≤ levels →
        (visit levels (.tree "expr" nodes)).exec s = (.ok (.int e.value), s) := by
  obtain ⟨ls, nodes, hlaid, hparse⟩ := h.exists_parse
  refine ⟨nodes, hparse, fun s levels hs hlevels ↦ ?_⟩
  obtain ⟨levels, rfl⟩ : ∃ n, levels = n + 3 := ⟨levels - 3, by omega⟩
  exact gives_sum hs (computes_of_laid hs hlaid levels (by omega))

/-- The literal of a single digit. -/
def digitLiteral (isNegative : Bool) (c : Char) (hc : isAsciiDigit c = true) : IntLiteral where
  isNegative := isNegative
  digits := [c]
  nonempty := List.cons_ne_nil _ _
  decimal _ hd := List.mem_singleton.mp hd ▸ hc
  short := by simp [Number.digitLimit]

theorem visit_written_sum_signs :
    ∃ nodes, parse "x -> 2 -(3--4)*  5" = .ok (Arith.assignmentTree "x" (.tree "expr" nodes)) ∧
      (visit depthLimit (.tree "expr" nodes)).exec Session.fresh = (.ok (.int (-33)), Session.fresh) := by
  have hwritten : Arith.Written .sum 1
      (.sub (.literal (digitLiteral false '2' rfl))
        (.mul (.sub (.literal (digitLiteral false '3' rfl)) (.literal (digitLiteral true '4' rfl)))
          (.literal (digitLiteral false '5' rfl)))) "2 -(3--4)*  5".toList :=
    .sub 1 (.product (.operand (.literal 1 0 _)))
      (.mul 0 (.operand (.parens 0 0 (.sub 0 (.product (.operand (.literal 0 0 _)))
        (.operand (.literal 0 0 _))))) (.literal 1 2 _))
  obtain ⟨nodes, hparse, hvisit⟩ := visit_written_sum hwritten
  exact ⟨nodes, hparse, hvisit Session.fresh depthLimit rfl (by decide)⟩

end Run

end FapLang
