import FapLang.Proofs.Grammar.Conditional

/-!
Sums and products of integers as they are written (`Arith.Written`): products bind tighter than
sums, and both group from the left. The machine reads such a text as a row of operands and operators
(`Arith.Laid`).
-/

namespace FapLang

open Grammar

/-! ### Expressions and their texts -/

/-- An integer as it is written: some digits, perhaps after a sign. -/
structure IntLiteral where
  isNegative : Bool
  digits : List Char
  nonempty : digits ≠ []
  decimal : ∀ c ∈ digits, isAsciiDigit c = true
  short : digits.length ≤ Number.digitLimit

namespace IntLiteral

def text (l : IntLiteral) : List Char :=
  if l.isNegative then '-' :: l.digits else l.digits

def magnitude (l : IntLiteral) : Nat :=
  l.digits.foldl (fun n c => 10 * n + (c.toNat - '0'.toNat)) 0

def value (l : IntLiteral) : Int :=
  if l.isNegative then -l.magnitude else l.magnitude

theorem spells_text (l : IntLiteral) : Terminal.number.Spells l.text := by
  have hrun : takeRun isAsciiDigit l.digits = some (l.digits, []) :=
    takeRun_eq_some_iff.mpr ⟨by simp, l.nonempty, l.decimal, by simp⟩
  have hsign : ∀ tail, l.digits ≠ '-' :: tail := by
    intro tail hdigits
    have hdigit := l.decimal '-' (by rw [hdigits]; exact .head _)
    cases hdigit
  change takeNumeral l.text = some (l.text, [])
  rw [text]
  split
  · simp only [takeNumeral, hrun]
    rfl
  · unfold takeNumeral
    split
    · rename_i tail heq
      exact absurd heq (hsign tail)
    · rw [hrun]
      rfl

end IntLiteral

inductive Arith
  | literal (l : IntLiteral)
  | add (a b : Arith)
  | sub (a b : Arith)
  | mul (a b : Arith)

namespace Arith

variable {e : Arith} {ls : List Lexeme} {nodes : List Node} {depth : Nat}

def value : Arith → Int
  | literal l => l.value
  | add a b => a.value + b.value
  | sub a b => a.value - b.value
  | mul a b => a.value * b.value

/-- Where an expression can stand: anywhere, beside a multiplication sign, or on its right. -/
inductive Level
  | sum
  | product
  | operand

def spaces (n : Nat) : List Char :=
  List.replicate n ' '

/-- The text is a way to write the expression at a level, with parentheses at most `depth` deep. -/
inductive Written : Level → Nat → Arith → List Char → Prop
  | literal (depth gap : Nat) (l : IntLiteral) :
      Written .operand depth (.literal l) (spaces gap ++ l.text)
  | parens {depth : Nat} {e : Arith} {text : List Char} (before after : Nat)
      (h : Written .sum depth e text) :
      Written .operand (depth + 1) e (spaces before ++ '(' :: (text ++ (spaces after ++ [')'])))
  | operand {depth : Nat} {e : Arith} {text : List Char} (h : Written .operand depth e text) :
      Written .product depth e text
  | mul {depth : Nat} {a b : Arith} {left right : List Char} (gap : Nat)
      (ha : Written .product depth a left) (hb : Written .operand depth b right) :
      Written .product depth (.mul a b) (left ++ (spaces gap ++ '*' :: right))
  | product {depth : Nat} {e : Arith} {text : List Char} (h : Written .product depth e text) :
      Written .sum depth e text
  | add {depth : Nat} {a b : Arith} {left right : List Char} (gap : Nat)
      (ha : Written .sum depth a left) (hb : Written .product depth b right) :
      Written .sum depth (.add a b) (left ++ (spaces gap ++ '+' :: right))
  | sub {depth : Nat} {a b : Arith} {left right : List Char} (gap : Nat)
      (ha : Written .sum depth a left) (hb : Written .product depth b right) :
      Written .sum depth (.sub a b) (left ++ (spaces gap ++ '-' :: right))

/-- `Laid level depth e ls nodes`: the lexemes of the expression and the nodes below its tree. -/
inductive Laid : Level → Nat → Arith → List Lexeme → List Node → Prop
  | literal (depth : Nat) (l : IntLiteral) :
      Laid .operand depth (.literal l) [(.number, l.text)] [.token "NUMBER" (String.ofList l.text)]
  | parens {depth : Nat} {e : Arith} {ls : List Lexeme} {nodes : List Node}
      (h : Laid .sum depth e ls nodes) :
      Laid .operand (depth + 1) e ((.openParen, ['(']) :: (ls ++ [(.closeParen, [')'])]))
        [.tree "expr" nodes]
  | operand {depth : Nat} {e : Arith} {ls : List Lexeme} {nodes : List Node}
      (h : Laid .operand depth e ls nodes) : Laid .product depth e ls [.tree "factor" nodes]
  | mul {depth : Nat} {a b : Arith} {ls₁ ls₂ : List Lexeme} {nodes₁ nodes₂ : List Node}
      (ha : Laid .product depth a ls₁ nodes₁) (hb : Laid .operand depth b ls₂ nodes₂) :
      Laid .product depth (.mul a b) (ls₁ ++ (.mulOp, ['*']) :: ls₂)
        (nodes₁ ++ [.token "MUL_OP" "*", .tree "factor" nodes₂])
  | product {depth : Nat} {e : Arith} {ls : List Lexeme} {nodes : List Node}
      (h : Laid .product depth e ls nodes) : Laid .sum depth e ls [.tree "term" nodes]
  | add {depth : Nat} {a b : Arith} {ls₁ ls₂ : List Lexeme} {nodes₁ nodes₂ : List Node}
      (ha : Laid .sum depth a ls₁ nodes₁) (hb : Laid .product depth b ls₂ nodes₂) :
      Laid .sum depth (.add a b) (ls₁ ++ (.addOp, ['+']) :: ls₂)
        (nodes₁ ++ [.token "ADD_OP" "+", .tree "term" nodes₂])
  | sub {depth : Nat} {a b : Arith} {ls₁ ls₂ : List Lexeme} {nodes₁ nodes₂ : List Node}
      (ha : Laid .sum depth a ls₁ nodes₁) (hb : Laid .product depth b ls₂ nodes₂) :
      Laid .sum depth (.sub a b) (ls₁ ++ (.addOp, ['-']) :: ls₂)
        (nodes₁ ++ [.token "ADD_OP" "-", .tree "term" nodes₂])

theorem Laid.lexemes_ne_nil {level : Level} (h : Laid level depth e ls nodes) : ls ≠ [] := by
  induction h <;> simp_all

/-- No word is among the lexemes. -/
theorem Laid.mem_terminals {level : Level} (h : Laid level depth e ls nodes) :
    ∀ x ∈ ls, x.1 ∈ [Terminal.number, .openParen, .closeParen, .addOp, .mulOp] := by
  induction h with
  | literal => simp
  | operand _ ih | product _ ih => exact ih
  | parens _ ih =>
    rw [List.forall_mem_cons, List.forall_mem_append]
    exact ⟨by simp, ih, by simp⟩
  | mul _ _ iha ihb | add _ _ iha ihb | sub _ _ iha ihb =>
    rw [List.forall_mem_append, List.forall_mem_cons]
    exact ⟨iha, by simp, ihb⟩

/-! ### From the text to the lexemes -/

theorem isGap_spaces (n : Nat) : IsGap (spaces n) := by
  constructor
  · intro c hc
    rw [List.eq_of_mem_replicate hc]
    rfl
  · cases n <;> rfl

/-- A mark after some spaces, before other lexemes. -/
theorem laid_mark {t : Terminal} {c : Char} {text : List Char} (gap : Nat) (hc : t.Spells [c])
    (h : Grammar.Laid ls text) : Grammar.Laid ((t, [c]) :: ls) (spaces gap ++ c :: text) :=
  .cons (isGap_spaces gap) hc h

/-- A written expression has lexemes and nodes. -/
theorem Written.exists_laid {level : Level} {text : List Char}
    (h : Written level depth e text) : ∃ ls nodes, Laid level depth e ls nodes ∧ Grammar.Laid ls text := by
  induction h with
  | literal depth gap l =>
    refine ⟨_, _, .literal depth l, ?_⟩
    simpa using Grammar.Laid.cons (isGap_spaces gap) l.spells_text .nil
  | @parens depth e text before gap _ ih =>
    obtain ⟨ls, nodes, hlaid, htext⟩ := ih
    have hclose : Grammar.Laid [(.closeParen, [')'])] (spaces gap ++ [')']) := laid_mark gap (by decide) .nil
    exact ⟨_, _, .parens hlaid, laid_mark before (by decide) (htext.append hclose)⟩
  | operand _ ih =>
    obtain ⟨ls, nodes, hlaid, htext⟩ := ih
    exact ⟨ls, _, .operand hlaid, htext⟩
  | mul gap _ _ iha ihb =>
    obtain ⟨ls₁, nodes₁, hlaid1, htext1⟩ := iha
    obtain ⟨ls₂, nodes₂, hlaid2, htext2⟩ := ihb
    exact ⟨_, _, .mul hlaid1 hlaid2, htext1.append (laid_mark gap (by decide) htext2)⟩
  | product _ ih =>
    obtain ⟨ls, nodes, hlaid, htext⟩ := ih
    exact ⟨ls, _, .product hlaid, htext⟩
  | add gap _ _ iha ihb =>
    obtain ⟨ls₁, nodes₁, hlaid1, htext1⟩ := iha
    obtain ⟨ls₂, nodes₂, hlaid2, htext2⟩ := ihb
    exact ⟨_, _, .add hlaid1 hlaid2, htext1.append (laid_mark gap (by decide) htext2)⟩
  | sub gap _ _ iha ihb =>
    obtain ⟨ls₁, nodes₁, hlaid1, htext1⟩ := iha
    obtain ⟨ls₂, nodes₂, hlaid2, htext2⟩ := ihb
    exact ⟨_, _, .sub hlaid1 hlaid2, htext1.append (laid_mark gap (by decide) htext2)⟩

/-! ### Operators in a row -/

/-- Operands with operators between them: one operand, or one and a row of others. -/
def Row (part more : Category) (ls : List Lexeme) (nodes : List Node) : Prop :=
  DerivesInline [.category part] ls .finish nodes ∨
    DerivesInline [.category part, .category more] ls .finish nodes

/-- What the grammar has to say for operands and operators to be derived so. -/
structure Rows (whole part more : Category) (label : String) (op : Terminal) : Prop where
  kept : op.isKept = true
  whole {ls : List Lexeme} {nodes : List Node} (h : Row part more ls nodes) :
    DerivesInline [.category whole] ls .finish [.tree label nodes]
  begins {ls : List Lexeme} {nodes : List Node} (h : DerivesInline [.terminal op, .category part] ls .finish nodes) :
    DerivesInline [.category more] ls .finish nodes
  goesOn {ls : List Lexeme} {nodes : List Node}
    (h : DerivesInline [.category more, .terminal op, .category part] ls .finish nodes) :
    DerivesInline [.category more] ls .finish nodes

theorem rows_products : Rows .term .factor .moreFactors "term" .mulOp where
  kept := rfl
  whole h := h.elim (.rule (i := 72) rfl rfl) (.rule (i := 71) rfl rfl)
  begins h := .rule (i := 73) rfl rfl h
  goesOn h := .rule (i := 74) rfl rfl h

theorem rows_sums : Rows .expr .term .moreTerms "expr" .addOp where
  kept := rfl
  whole h := h.elim (.rule (i := 68) rfl rfl) (.rule (i := 67) rfl rfl)
  begins h := .rule (i := 69) rfl rfl h
  goesOn h := .rule (i := 70) rfl rfl h

/-- One more operator and operand. -/
theorem Row.more {whole part more : Category} {label : String} {op : Terminal} (hrows : Rows whole part more label op)
    {ls₁ ls₂ : List Lexeme} {n : Node} {word : List Char} (hword : op.Spells word)
    (h : Row part more ls₁ nodes) (hpart : DerivesInline [.category part] ls₂ .finish [n]) :
    Row part more (ls₁ ++ (op, word) :: ls₂) (nodes ++ [.token op.name (String.ofList word), n]) := by
  have hop : Lexeme.nodes (op, word) = [.token op.name (String.ofList word)] := by
    simp [Lexeme.nodes, hrows.kept]
  have hnext : DerivesInline [.terminal op, .category part] ((op, word) :: ls₂) .finish
      (Lexeme.nodes (op, word) ++ [n]) :=
    .terminal hword hpart
  rw [hop] at hnext
  rcases h with h | h
  · exact .inr ((h.change_next _).append (hrows.begins hnext))
  · obtain ⟨p, phrase, rest, inner, after, rfl, rfl, rfl, hp, hinner, hrest⟩ := h.category_inv
    have hmore := hrows.goesOn ((hrest.change_next _).append hnext)
    rw [List.append_assoc, List.append_assoc]
    exact .inr (.category hp (hinner.change_next _) hmore)

/-- What an expression is to the grammar, by the level where it stands. -/
def Level.Derived : Level → List Lexeme → List Node → Prop
  | sum, ls, nodes => Row .term .moreTerms ls nodes
  | product, ls, nodes => Row .factor .moreFactors ls nodes
  | operand, ls, nodes => DerivesInline [.category .factor] ls .finish [.tree "factor" nodes]

theorem Laid.derived {level : Level} (h : Laid level depth e ls nodes) : level.Derived ls nodes := by
  induction h with
  | literal depth l =>
    have hnum : DerivesInline [.terminal .number] [(.number, l.text)] .finish _ := .single_terminal l.spells_text
    exact .rule (i := 75) rfl rfl hnum
  | @parens _ _ ls nodes _ ih =>
    have hclose : DerivesInline [.terminal .closeParen] [(.closeParen, [')'])] .finish [] :=
      .single_terminal (by decide)
    have hinner : DerivesInline [.category .expr, .terminal .closeParen] (ls ++ [(.closeParen, [')'])]) .finish
        [.tree "expr" nodes] :=
      ((rows_sums.whole ih).change_next _).append hclose
    have hall : DerivesInline [.terminal .openParen, .category .expr, .terminal .closeParen] _ .finish _ :=
      .terminal (show Terminal.openParen.Spells ['('] by decide) hinner
    exact .rule (i := 85) rfl rfl hall
  | operand _ ih => exact .inl ih
  | mul _ _ iha ihb => exact iha.more rows_products (by decide) ihb
  | product _ ih => exact .inl (rows_products.whole ih)
  | add _ _ iha ihb => exact iha.more rows_sums (by decide) (rows_products.whole ihb)
  | sub _ _ iha ihb => exact iha.more rows_sums (by decide) (rows_products.whole ihb)

/-! ### An assignment of a sum -/

/-- The tree of a text that gives a value to a name. -/
def assignmentTree (name : String) (value : Node) : Node :=
  .tree "start" [.tree "statement" [.tree "assignment" [.token "IDENT" name, value]]]

theorem reaches_assignment (cs : List Char) :
    Reaches automaton (Situation.start ('x' :: ' ' :: '-' :: '>' :: ' ' :: cs))
      ⟨[⟨37, []⟩, ⟨19, [.token "IDENT" "x"]⟩, ⟨0, []⟩], ' ' :: cs, none⟩ := by
  have hname : (Candidates.of (automaton.terminals 0)).lex ('x' :: ' ' :: '-' :: '>' :: ' ' :: cs) =
      .token (.ident, ['x']) (' ' :: '-' :: '>' :: ' ' :: cs) :=
    Candidates.lex_token (show _ = some (.ident, ['x'], _) from rfl) (by decide)
  have harrow : (Candidates.of (automaton.terminals 19)).lex ('-' :: '>' :: ' ' :: cs) =
      .token (.arrow, ['-', '>']) (' ' :: cs) :=
    Candidates.lex_token (show _ = some (.arrow, ['-', '>'], _) from rfl) (by decide)
  have hfirst : automaton.action? 0 .ident = some (.shift 19) := by decide
  have hsnd : automaton.action? 19 .arrow = some (.shift 37) := by decide
  have hread := Relation.ReflTransGen.single (Moves.read (s := Situation.start _) rfl hname)
  exact (hread.tail (Moves.shift rfl hfirst)).trans (reaches_word rfl harrow hsnd)

/-- A text that gives a name the value of an expression has the tree of that expression. -/
theorem Written.exists_parse {text : List Char}
    (h : Written .sum depth e text) : ∃ ls nodes, Laid .sum depth e ls nodes ∧
      parse ("x -> " ++ String.ofList text) = .ok (assignmentTree "x" (.tree "expr" nodes)) := by
  obtain ⟨ls, nodes, hlaid, htext⟩ := h.exists_laid
  refine ⟨ls, nodes, hlaid, parse_eq_ok_iff.mpr ?_⟩
  have hstart : ("x -> " ++ String.ofList text).toList = 'x' :: ' ' :: '-' :: '>' :: ' ' :: text := by
    simp [String.toList_append, String.toList_ofList]
  have hspares : SparesReserved ls := .of_not_mem fun hmem => absurd (hlaid.mem_terminals _ hmem) (by decide)
  have hlong : ¬ HasLong ls := by
    rintro ⟨x, hx, hlong⟩
    exact absurd (hlong ▸ hlaid.mem_terminals x hx) (by decide)
  have htable : automaton.follow 37 [.category .expr] = some 69 ∧ automaton.goto? 0 .assignment = some 6 ∧
      automaton.goto? 0 .statement = some 3 ∧ automaton.action? 69 .finish = some (.reduce 24) ∧
        automaton.action? 6 .finish = some (.reduce 9) := by
    decide
  obtain ⟨hfollow, hassignment, hstmt, hred, hred'⟩ := htable
  have hexpr : Reaches automaton ⟨[⟨37, []⟩, ⟨19, [.token "IDENT" "x"]⟩, ⟨0, []⟩], ' ' :: text, none⟩
      ⟨[⟨69, [.tree "expr" nodes]⟩, ⟨37, []⟩, ⟨19, [.token "IDENT" "x"]⟩, ⟨0, []⟩], [], some endLexeme⟩ :=
    reaches_last (rows_sums.whole hlaid.derived) (by decide) rfl (by decide) (htext.blank hlaid.lexemes_ne_nil) hspares
      hlong hfollow
  have hassign := reaches_reduce (i := 24) [⟨69, [.tree "expr" nodes]⟩, ⟨37, []⟩, ⟨19, [.token "IDENT" "x"]⟩]
    (s := ⟨[⟨69, [.tree "expr" nodes]⟩, ⟨37, []⟩, ⟨19, [.token "IDENT" "x"]⟩, ⟨0, []⟩], [], some endLexeme⟩)
    rfl rfl rfl rfl hred hassignment
  have hwhole := reaches_reduce (i := 9) [⟨6, [.tree "assignment" [.token "IDENT" "x", .tree "expr" nodes]]⟩]
    (s := ⟨[⟨6, [.tree "assignment" [.token "IDENT" "x", .tree "expr" nodes]]⟩, ⟨0, []⟩], [], some endLexeme⟩)
    rfl rfl rfl rfl hred' hstmt
  rw [hstart]
  exact Reaches.accepts ((((reaches_assignment text).trans hexpr).trans hassign).trans hwhole)
    (accepts_statement rfl)

end Arith

end FapLang
