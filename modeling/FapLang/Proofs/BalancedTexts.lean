import FapLang.Proofs.Grammar.Layout
import FapLang.Proofs.LineRules

/-!
Brackets and quotes of accepted texts. The scan agrees with the lexemes: over the words of a
derivation it comes back to where it was, with the brackets of the symbols opened and closed
(`Derives.opened`).
-/

namespace FapLang.Check

open Grammar (Terminal Symbol Production Derives Lexeme Spaced isGap)

/-! ### The scan of a text -/

namespace Balance

/-- The characters that the scan looks at. -/
def marks : List Char :=
  '"' :: Bracket.all.flatMap fun kind => [kind.opening, kind.closing]

variable (n : Nat)

theorem feed_of_not_mark (b : Balance) {c : Char} (hc : c ∉ marks) : feed n b c = b := by
  simp only [marks, Bracket.all, List.flatMap_cons, List.flatMap_nil, List.append_nil, List.cons_append,
    List.nil_append, List.mem_cons, List.not_mem_nil, or_false, not_or] at hc
  obtain ⟨hquote, hsquare, hsquare', hcurly, hcurly', hround, hround'⟩ := hc
  have hopening : Bracket.ofOpening? c = none := by
    simp [Bracket.ofOpening?, Bracket.all, Ne.symm hsquare, Ne.symm hcurly, Ne.symm hround]
  have hclosing : Bracket.ofClosing? c = none := by
    simp [Bracket.ofClosing?, Bracket.all, Ne.symm hsquare', Ne.symm hcurly', Ne.symm hround']
  rw [feed, if_neg hquote, hopening, hclosing]
  exact ite_self _

theorem feed_opening {b : Balance} (hb : b.quote = none) (kind : Bracket) :
    feed n b kind.opening = b.setStack kind (n :: b.stack kind) := by
  cases kind <;> simp [feed, hb, Bracket.opening, Bracket.ofOpening?, Bracket.all]

theorem feed_closing {b : Balance} (hb : b.quote = none) (kind : Bracket) :
    feed n b kind.closing = b.close n kind := by
  cases kind <;>
    simp [feed, hb, Bracket.opening, Bracket.closing, Bracket.ofOpening?, Bracket.ofClosing?, Bracket.all]

/-- The scan of a text that begins in line `n`. -/
def scan : Nat → Balance → List Char → Balance
  | _, b, [] => b
  | n, b, c :: rest => scan (n + if c = '\n' then 1 else 0) (feed n b c) rest

theorem scan_append (b : Balance) (cs ds : List Char) :
    scan n b (cs ++ ds) = scan (n + cs.count '\n') (scan n b cs) ds := by
  induction cs generalizing n b with
  | nil => rfl
  | cons c cs ih =>
    rw [List.cons_append, scan, scan, ih, List.count_cons, Nat.add_assoc]
    simp only [beq_iff_eq, Nat.add_comm]

theorem scan_of_no_marks (b : Balance) {cs : List Char} (h : ∀ c ∈ cs, c ∉ marks) : scan n b cs = b := by
  induction cs generalizing n with
  | nil => rfl
  | cons c cs ih =>
    obtain ⟨hc, hcs⟩ := List.forall_mem_cons.mp h
    rw [scan, feed_of_not_mark n b hc, ih _ hcs]

/-- Lines of blanks need not be told apart: the scan passes over blanks. -/
theorem feedLine_eq (b : Balance) (n : Nat) (text : String) : b.feedLine n text = text.toList.foldl (feed n) b := by
  have hall : (marks.all fun c => !Text.isBlank c) = true := by decide
  have hmarks : ∀ c ∈ marks, Text.isBlank c = false := by simpa using hall
  rw [feedLine]
  split
  · rename_i hblank
    have hblanks := Text.trim_eq_nil_iff.mp (List.isEmpty_iff.mp hblank)
    refine (List.foldlRecOn (motive := fun d => d = b) text.toList (feed n) rfl fun d hd c hc => ?_).symm
    rw [hd]
    exact feed_of_not_mark n b fun hmark => Bool.eq_false_iff.mp (hmarks c hmark) (hblanks c hc)
  · rfl

/-- Going line by line is the scan of the text. -/
theorem feedLines_lines (b : Balance) (n : Nat) (code : String) :
    b.feedLines n (Text.lines code) = scan n b code.toList := by
  unfold Text.lines
  generalize code.toList = cs
  induction cs generalizing b n with
  | nil => exact feedLine_eq b n (String.ofList [])
  | cons c cs ih =>
    obtain ⟨piece, pieces, hpieces, hcons⟩ := Text.splitAtChar_cons '\n' c cs
    rw [scan, ← ih, hcons, hpieces]
    by_cases hc : c = '\n'
    · rw [if_pos hc, if_pos hc, hc, feed_of_not_mark n b (by decide), List.map_cons, feedLines, feedLine_eq]
      rfl
    · rw [if_neg hc, if_neg hc, List.map_cons, List.map_cons, feedLines, feedLines, feedLine_eq, feedLine_eq,
        String.toList_ofList, String.toList_ofList]
      rfl

/-! ### Open brackets -/

theorem quote_setStack (b : Balance) (kind : Bracket) (stack : List Nat) : (b.setStack kind stack).quote = b.quote := by
  cases kind <;> rfl

/-- A bracket that is closed after it has been opened leaves nothing behind. -/
theorem close_setStack (b : Balance) (kind : Bracket) (n m : Nat) :
    (b.setStack kind (m :: b.stack kind)).close n kind = b := by
  cases kind <;> rfl

/-- The scan is at `b` but for the brackets in the list, which are open, the last one first. -/
inductive Opened : List Bracket → Balance → Balance → Prop
  | nil (b : Balance) : Opened [] b b
  | cons {opened : List Bracket} {b c : Balance} (n : Nat) (kind : Bracket) (h : Opened opened b c) :
      Opened (kind :: opened) b (c.setStack kind (n :: c.stack kind))

namespace Opened

variable {opened : List Bracket} {b c : Balance}

theorem quote_eq (h : Opened opened b c) : c.quote = b.quote := by
  induction h with
  | nil b => rfl
  | cons n kind _ ih => rw [quote_setStack, ih]

theorem nil_inv (h : Opened [] b c) : c = b := by
  cases h
  rfl

theorem close {kind : Bracket} (h : Opened (kind :: opened) b c) (n : Nat) : Opened opened b (c.close n kind) := by
  cases h with
  | cons m _ h => rwa [close_setStack]

end Opened

theorem scan_quoted (n : Nat) {b : Balance} (hb : b.quote = none) {inner : List Char} (h : ∀ c ∈ inner, c ≠ '"') :
    scan n b ('"' :: inner ++ ['"']) = b := by
  have hinner : ∀ (m : Nat) (d : Balance), d.quote.isSome = true → scan m d inner = d := by
    intro m d hd
    induction inner generalizing m with
    | nil => rfl
    | cons c inner ih =>
      obtain ⟨hc, hrest⟩ := List.forall_mem_cons.mp h
      rw [scan, feed, if_neg hc, if_pos hd, ih hrest]
  have hopen : feed n b '"' = { b with quote := some n } := by simp [feed, hb]
  have hclose : ∀ m, feed m { b with quote := some n } '"' = b := by
    intro m
    simp [feed, ← hb]
  have hfirst : scan n b ('"' :: inner) = { b with quote := some n } := by rw [scan, hopen, hinner _ _ rfl]
  rw [scan_append, hfirst, scan, hclose, scan]

end Balance

/-! ### Brackets of the grammar -/

def opens? : Terminal → Option Bracket
  | .openBracket => some .square
  | .openParen => some .round
  | _ => none

def closes? : Terminal → Option Bracket
  | .closeBracket => some .square
  | .closeParen => some .round
  | _ => none

/-- The brackets that are open after a terminal. -/
def leaves? (t : Terminal) (opened : List Bracket) : Option (List Bracket) :=
  match opens? t, closes? t with
  | some kind, _ => some (kind :: opened)
  | none, some kind => if opened.head? = some kind then some opened.tail else none
  | none, none => some opened

/-- The brackets that are open after a sequence of symbols, if its categories leave none open. -/
def leavesAll? : List Symbol → List Bracket → Option (List Bracket)
  | [], opened => some opened
  | .terminal t :: rest, opened => (leaves? t opened).bind (leavesAll? rest)
  | .category _ :: rest, opened => leavesAll? rest opened

/-- Every production closes the brackets it opens. -/
theorem leavesAll?_of_mem : ∀ p ∈ Grammar.productions, leavesAll? p.symbols [] = some [] := by
  decide

section Words

variable {t : Terminal} {kind : Bracket} {word : List Char}

theorem word_of_opens (h : opens? t = some kind) (hword : t.Spells word) : word = [kind.opening] := by
  have hpat : t.pattern = .oneOf [String.ofList [kind.opening]] := by
    cases t <;> simp only [opens?, Option.some.injEq, reduceCtorEq] at h <;> subst h <;> rfl
  rw [Terminal.Spells, hpat] at hword
  simpa using (Grammar.Pattern.oneOf_resume hword).1

theorem word_of_closes (h : closes? t = some kind) (hword : t.Spells word) : word = [kind.closing] := by
  have hpat : t.pattern = .oneOf [String.ofList [kind.closing]] := by
    cases t <;> simp only [closes?, Option.some.injEq, reduceCtorEq] at h <;> subst h <;> rfl
  rw [Terminal.Spells, hpat] at hword
  simpa using (Grammar.Pattern.oneOf_resume hword).1

/-- Words other than brackets and texts in quotes have no mark. -/
theorem not_mark_of_spells (hopens : opens? t = none) (hcloses : closes? t = none) (hquoted : t ≠ .quotedText)
    (hword : t.Spells word) : ∀ c ∈ word, c ∉ Balance.marks := by
  have hall : (Balance.marks.all fun c => !t.pattern.mayHold c) = true := by
    cases t <;> first | decide | simp [opens?, closes?] at *
  have hmarks : ∀ c ∈ Balance.marks, t.pattern.mayHold c = false := by simpa using hall
  intro c hc hmark
  exact Bool.eq_false_iff.mp (hmarks c hmark) (hword.mayHold c hc)

end Words

/-! ### Derivations -/

namespace Balance.Opened

variable {opened opened' : List Bracket} {b c : Balance}

theorem scan_word (h : Opened opened b c) (hb : b.quote = none) {t : Terminal} {word : List Char}
    (hword : t.Spells word) (hleaves : leaves? t opened = some opened') (n : Nat) : Opened opened' b (scan n c word) := by
  have hc : c.quote = none := h.quote_eq.trans hb
  unfold leaves? at hleaves
  cases hopens : opens? t with
  | some kind =>
    simp only [hopens, Option.some.injEq] at hleaves
    subst hleaves
    rw [word_of_opens hopens hword, scan, scan, feed_opening n hc]
    exact .cons n kind h
  | none =>
    cases hcloses : closes? t with
    | some kind =>
      simp only [hopens, hcloses] at hleaves
      split at hleaves
      · rename_i hhead
        obtain ⟨rest, rfl⟩ := List.head?_eq_some_iff.mp hhead
        cases hleaves
        rw [word_of_closes hcloses hword, scan, scan, feed_closing n hc]
        exact h.close n
      · cases hleaves
    | none =>
      simp only [hopens, hcloses, Option.some.injEq] at hleaves
      subst hleaves
      by_cases hquoted : t = .quotedText
      · subst hquoted
        obtain ⟨inner, rfl, -, hinner⟩ := Grammar.takeQuoted_eq_some_iff.mp hword
        rwa [scan_quoted n hc hinner]
      · rwa [scan_of_no_marks n c (not_mark_of_spells hopens hcloses hquoted hword)]

end Balance.Opened

theorem Balance.scan_gap (n : Nat) (b : Balance) {gap : List Char} (hgap : ∀ c ∈ gap, isGap c = true) :
    scan n b gap = b := by
  have hall : (marks.all fun c => !isGap c) = true := by decide
  have hmarks : ∀ c ∈ marks, isGap c = false := by simpa using hall
  exact scan_of_no_marks n b fun c hc hmark => Bool.eq_false_iff.mp (hmarks c hmark) (hgap c hc)

/-- Over the words of a derivation the scan does what the brackets of the symbols say. -/
theorem opened_of_derives {symbols : List Symbol} {ls : List Lexeme} {next : Terminal} {nodes : List Node}
    (h : Derives Grammar.automaton.Finishes symbols ls next nodes) {text : List Char} (hspaced : Spaced ls text)
    {opened opened' : List Bracket} {b c : Balance} (hb : b.quote = none) (hopened : Balance.Opened opened b c)
    (hleaves : leavesAll? symbols opened = some opened') (n : Nat) :
    Balance.Opened opened' b (Balance.scan n c text) := by
  induction h generalizing text opened opened' b c n with
  | nil next =>
    obtain rfl := hspaced.nil_inv
    cases hleaves
    exact hopened
  | @terminal t word symbols rest next nodes hword _ ih =>
    obtain ⟨gap, after, rfl, hgap, hafter⟩ := hspaced.cons_inv
    obtain ⟨between, hword', hrest⟩ := Option.bind_eq_some_iff.mp hleaves
    rw [Balance.scan_append, Balance.scan_gap n c hgap, Balance.scan_append]
    exact ih hafter hb (hopened.scan_word hb hword hword' _) hrest _
  | @category p symbols phrase rest next inner nodes hallowed _ _ ihinner ihrest =>
    obtain ⟨left, right, rfl, hleft, hright⟩ := hspaced.append_inv
    have hprod := leavesAll?_of_mem p (Grammar.mem_productions_of_finishes hallowed)
    have hback := (ihinner hleft (hopened.quote_eq.trans hb) (.nil c) hprod n).nil_inv
    rw [Balance.scan_append, hback]
    exact ihrest hright hb hopened hleaves _

/-- The scan of a text that has a tree comes back to where it was. -/
theorem scan_of_parse {code : String} {tree : Node} (h : Grammar.parse code = .ok tree) (n : Nat) {b : Balance}
    (hb : b.quote = none) : Balance.scan n b code.toList = b := by
  obtain ⟨ls, hder, hspaced⟩ := Grammar.exists_spaced_of_parse h
  obtain ⟨front, rest, htext, hfront, hrest⟩ := hspaced.append_inv
  obtain ⟨gap, nothing, rfl, hgap, hnothing⟩ := hrest.cons_inv
  obtain rfl := hnothing.nil_inv
  have hback := (opened_of_derives hder hfront hb (.nil b) rfl n).nil_inv
  rw [htext, Balance.scan_append, hback, List.append_nil]
  exact (congrArg (Balance.scan _ b) (List.append_nil gap)).trans (Balance.scan_gap _ b hgap)

/-- One more bracket or quote after a text that is in order is found. -/
theorem finish_feed_ne_nil (n : Nat) {mark : Char} (h : mark ∈ Balance.marks) :
    (Balance.feed n .start mark).finish ≠ [] := by
  simp only [Balance.marks, Bracket.all, List.flatMap_cons, List.flatMap_nil, List.append_nil, List.cons_append,
    List.nil_append, List.mem_cons, List.not_mem_nil, or_false] at h
  rcases h with rfl | rfl | rfl | rfl | rfl | rfl | rfl <;> exact List.cons_ne_nil _ _

/-- In a text that the parser accepts the scan of brackets and quotes finds nothing, so the check of
the balance leaves the errors as they are. With one more bracket or quote at the end something is
found. -/
theorem accepted_texts_are_balanced {code : String} {tree : Node} (h : Grammar.parse code = .ok tree) :
    balanceProblems (Text.lines code) = [] ∧
      (∀ c : Checker, (c.checkBalance (Text.lines code)).errors = c.errors) ∧
      ∀ mark ∈ Balance.marks, balanceProblems (Text.lines (code.push mark)) ≠ [] := by
  have hnone : balanceProblems (Text.lines code) = [] := by
    rw [balanceProblems, Balance.feedLines_lines, scan_of_parse h 1 rfl]
    rfl
  refine ⟨hnone, fun c ↦ ?_, fun mark hmark ↦ ?_⟩
  · rw [Checker.checkBalance, hnone]
    split
    · exact c.errors_noteLines 1 _
    · rfl
  · rw [balanceProblems, Balance.feedLines_lines, String.toList_push, Balance.scan_append, scan_of_parse h 1 rfl]
    exact finish_feed_ne_nil _ hmark

/-- Brackets in a text in quotes, which reaches over the end of a line. -/
theorem quoted_brackets_are_balanced :
    (∃ tree, Grammar.parse "x -> [f(1), \"])\n(\"]" = .ok tree) ∧
      balanceProblems (Text.lines "x -> [f(1), \"])\n(\"]") = [] ∧ ')' ∈ Balance.marks ∧
      balanceProblems (Text.lines ("x -> [f(1), \"])\n(\"]".push ')')) ≠ [] := by
  obtain ⟨tree, hparse⟩ : ∃ tree, Grammar.parse "x -> [f(1), \"])\n(\"]" = .ok tree := ⟨_, rfl⟩
  obtain ⟨hnone, -, hmore⟩ := accepted_texts_are_balanced hparse
  have hmark : ')' ∈ Balance.marks := by decide
  exact ⟨⟨tree, hparse⟩, hnone, hmark, hmore ')' hmark⟩

/-- A call in a call is a statement for the parser, but the rules for lines refuse it. -/
theorem nested_call_refused : (∃ n, Grammar.parse "f(f(1))" = .ok (.tree "start" [.tree "statement" [n]])) ∧
    ((Checker.start .quiet #[]).check "f(f(1))").errors.length = 1 :=
  ⟨⟨_, rfl⟩, by decide +kernel⟩

end FapLang.Check
