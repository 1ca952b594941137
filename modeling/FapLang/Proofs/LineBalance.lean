import FapLang.Proofs.BalancedTexts
import Mathlib.Algebra.Group.Nat.Even

/-!
What the scan for brackets and quotes decides: it finds nothing exactly if quotes come in pairs and,
outside of them, the brackets of each kind are balanced (`balance_check_finds_nothing_iff`). The
height of a stack must not fall below zero and must come down to it (`Closes`).
-/

namespace FapLang.Check

/-- The characters outside of quotes, from inside a quote or from outside. -/
def unquoted : Bool → List Char → List Char
  | _, [] => []
  | inside, c :: rest =>
    if c = '"' then unquoted (!inside) rest
    else if inside then unquoted inside rest
    else c :: unquoted inside rest

/-- With `height` brackets of the kind open, no more are closed than are open, and in the end all.
-/
def Closes (kind : Bracket) (height : Nat) (cs : List Char) : Prop :=
  (∀ part, part <+: cs → part.count kind.closing ≤ height + part.count kind.opening) ∧
    height + cs.count kind.opening = cs.count kind.closing

variable {kind : Bracket} {height : Nat} {c : Char} {cs : List Char}

namespace Bracket

theorem opening_ne_closing (kind other : Bracket) : kind.opening ≠ other.closing := by
  cases kind <;> cases other <;> decide

theorem opening_inj {kind other : Bracket} (h : kind.opening = other.opening) : kind = other := by
  revert h
  cases kind <;> cases other <;> decide

theorem closing_inj {kind other : Bracket} (h : kind.closing = other.closing) : kind = other := by
  revert h
  cases kind <;> cases other <;> decide

end Bracket

theorem closes_nil_iff : Closes kind height [] ↔ height = 0 := by
  simp [Closes]

theorem forall_prefix_cons_iff {p : List Char → Prop} :
    (∀ part, part <+: c :: cs → p part) ↔ p [] ∧ ∀ part, part <+: cs → p (c :: part) := by
  simp only [List.prefix_cons_iff]
  constructor
  · exact fun h => ⟨h [] (.inl rfl), fun part hpart => h _ (.inr ⟨part, rfl, hpart⟩)⟩
  · rintro ⟨hnil, hcons⟩ part (rfl | ⟨rest, rfl, hrest⟩)
    · exact hnil
    · exact hcons rest hrest

theorem closes_opening_iff : Closes kind height (kind.opening :: cs) ↔ Closes kind (height + 1) cs := by
  have hne := kind.opening_ne_closing kind
  simp only [Closes, forall_prefix_cons_iff, List.count_cons_self, List.count_cons_of_ne hne, List.count_nil]
  simp only [Nat.zero_le, true_and, Nat.add_assoc, Nat.add_comm 1]

/-- A closing bracket needs one that is open. -/
theorem closes_closing_iff :
    Closes kind height (kind.closing :: cs) ↔ ∃ less, height = less + 1 ∧ Closes kind less cs := by
  have hne := (kind.opening_ne_closing kind).symm
  simp only [Closes, forall_prefix_cons_iff, List.count_cons_self, List.count_cons_of_ne hne, List.count_nil,
    Nat.zero_le, true_and]
  constructor
  · rintro ⟨hparts, htotal⟩
    have hfirst := hparts [] List.nil_prefix
    rw [List.count_nil, List.count_nil] at hfirst
    exact ⟨height - 1, by omega, fun part hpart => by have := hparts part hpart; omega, by omega⟩
  · rintro ⟨less, rfl, hparts, htotal⟩
    exact ⟨fun part hpart => by have := hparts part hpart; omega, by omega⟩

theorem closes_cons_iff (hopening : c ≠ kind.opening) (hclosing : c ≠ kind.closing) :
    Closes kind height (c :: cs) ↔ Closes kind height cs := by
  simp only [Closes, forall_prefix_cons_iff, List.count_cons_of_ne hopening, List.count_cons_of_ne hclosing,
    List.count_nil, Nat.zero_le, true_and]

namespace Balance

theorem stack_setStack (b : Balance) (kind other : Bracket) (stack : List Nat) :
    (b.setStack kind stack).stack other = if other = kind then stack else b.stack other := by
  cases kind <;> cases other <;> rfl

theorem problems_setStack (b : Balance) (kind : Bracket) (stack : List Nat) :
    (b.setStack kind stack).problems = b.problems := by
  cases kind <;> rfl

/-- The characters still to come leave nothing to complain about. -/
def Sees (b : Balance) (cs : List Char) : Prop :=
  b.problems = [] ∧ (cs.count '"' % 2 = if b.quote.isSome then 1 else 0) ∧
    ∀ kind, Closes kind (b.stack kind).length (unquoted b.quote.isSome cs)

theorem finish_eq_nil_iff (b : Balance) : b.finish = [] ↔ b.Sees [] := by
  have hquote : b.quote = none ↔ ([].count '"' % 2 = if b.quote.isSome then 1 else 0) := by
    cases b.quote <;> simp
  have hstacks : (∀ kind, Closes kind (b.stack kind).length []) ↔ ∀ kind ∈ Bracket.all, b.stack kind = [] := by
    simp only [closes_nil_iff, List.length_eq_zero_iff]
    exact ⟨fun h kind _ => h kind, fun h kind => h kind (by cases kind <;> decide)⟩
  have hnil : ∀ inside, unquoted inside [] = [] := fun _ => rfl
  rw [Sees, hnil, hstacks, ← hquote]
  simp [finish, and_comm]

/-- A bracket of one kind changes the height of that kind only. -/
theorem forall_closes_iff {b : Balance} {stack : List Nat} (hopening : ∀ other, other ≠ kind → c ≠ other.opening)
    (hclosing : ∀ other, other ≠ kind → c ≠ other.closing)
    (hkind : Closes kind (b.stack kind).length (c :: cs) ↔ Closes kind stack.length cs) :
    (∀ other, Closes other (b.stack other).length (c :: cs)) ↔
      ∀ other, Closes other ((b.setStack kind stack).stack other).length cs := by
  refine forall_congr' fun other => ?_
  rw [stack_setStack]
  by_cases h : other = kind
  · rw [if_pos h, h, hkind]
  · rw [if_neg h, closes_cons_iff (hopening other h) (hclosing other h)]

variable (n : Nat)

theorem sees_opening_iff {b : Balance} (hb : b.quote = none) :
    (b.setStack kind (n :: b.stack kind)).Sees cs ↔ b.Sees (kind.opening :: cs) := by
  have hquote : kind.opening ≠ '"' := by cases kind <;> decide
  have hheights := @forall_closes_iff kind kind.opening (unquoted false cs) b (n :: b.stack kind)
    (fun other hother heq => hother (Bracket.opening_inj heq).symm) (fun other _ => kind.opening_ne_closing other)
    closes_opening_iff
  simp only [Sees, quote_setStack, problems_setStack, hb, unquoted, if_neg hquote, List.count_cons_of_ne hquote,
    Option.isSome_none, Bool.false_eq_true, if_false, hheights]

theorem sees_closing_iff {b : Balance} (hb : b.quote = none) :
    (b.close n kind).Sees cs ↔ b.Sees (kind.closing :: cs) := by
  have hquote : kind.closing ≠ '"' := by cases kind <;> decide
  rw [close]
  cases hstack : b.stack kind with
  | nil =>
    refine iff_of_false (fun h => List.append_ne_nil_of_right_ne_nil _ (List.cons_ne_nil _ _) h.1) fun h => ?_
    have hcloses := h.2.2 kind
    rw [hb, unquoted, if_neg hquote, hstack] at hcloses
    obtain ⟨_, hheight, -⟩ := closes_closing_iff.mp hcloses
    cases hheight
  | cons first rest =>
    have hkind : Closes kind (b.stack kind).length (kind.closing :: unquoted false cs) ↔
        Closes kind rest.length (unquoted false cs) := by
      rw [hstack, closes_closing_iff, List.length_cons]
      simp
    have hheights := forall_closes_iff (fun other _ heq => other.opening_ne_closing kind heq.symm)
      (fun other hother heq => hother (Bracket.closing_inj heq).symm) hkind
    simp only [Sees, quote_setStack, problems_setStack, hb, unquoted, if_neg hquote, List.count_cons_of_ne hquote,
      Option.isSome_none, Bool.false_eq_true, if_false, hheights]

/-- One character of the scan. -/
theorem sees_feed_iff (b : Balance) (c : Char) (cs : List Char) : (feed n b c).Sees cs ↔ b.Sees (c :: cs) := by
  by_cases hquote : c = '"'
  · subst hquote
    cases hb : b.quote with
    | none => simp [feed, Sees, hb, unquoted, stack]; omega
    | some start => simp [feed, Sees, hb, unquoted, stack]; omega
  cases hb : b.quote with
  | some start =>
    simp only [feed, if_neg hquote, hb, Option.isSome_some, if_true, Sees, unquoted, List.count_cons_of_ne hquote]
  | none =>
    by_cases hopening : ∃ kind : Bracket, c = kind.opening
    · obtain ⟨kind, rfl⟩ := hopening
      rw [feed_opening n hb, sees_opening_iff n hb]
    by_cases hclosing : ∃ kind : Bracket, c = kind.closing
    · obtain ⟨kind, rfl⟩ := hclosing
      rw [feed_closing n hb, sees_closing_iff n hb]
    have hmark : c ∉ marks := by
      simp only [marks, List.mem_cons, List.mem_flatMap, List.not_mem_nil, or_false, not_or]
      refine ⟨hquote, ?_⟩
      rintro ⟨kind, -, h | h⟩
      · exact hopening ⟨kind, h⟩
      · exact hclosing ⟨kind, h⟩
    have hother : ∀ kind height, Closes kind height (c :: unquoted false cs) ↔ Closes kind height (unquoted false cs) :=
      fun kind _ => closes_cons_iff (fun h => hopening ⟨kind, h⟩) fun h => hclosing ⟨kind, h⟩
    simp only [feed_of_not_mark n b hmark, Sees, hb, unquoted, if_neg hquote, List.count_cons_of_ne hquote,
      Option.isSome_none, Bool.false_eq_true, if_false, hother]

theorem sees_foldl_iff (b : Balance) (cs rest : List Char) :
    (cs.foldl (feed n) b).Sees rest ↔ b.Sees (cs ++ rest) := by
  induction cs generalizing b with
  | nil => rfl
  | cons c cs ih => rw [List.foldl_cons, ih, sees_feed_iff, List.cons_append]

/-- Line by line, a quote goes on over the end of a line. -/
theorem sees_feedLines_iff (b : Balance) (ls : List String) (rest : List Char) :
    (b.feedLines n ls).Sees rest ↔ b.Sees (ls.flatMap String.toList ++ rest) := by
  induction ls generalizing n b with
  | nil => rfl
  | cons line ls ih => rw [feedLines, ih, feedLine_eq, sees_foldl_iff, List.flatMap_cons, List.append_assoc]

end Balance

/-- In the full trace mode and with no errors so far, the scan of some lines records nothing if and
only if their quotes are even in number and, outside of quotes, each kind of bracket is balanced by
itself. -/
theorem balance_check_finds_nothing_iff (c : Checker) (ls : List String) :
    ({ c with modes := { c.modes with full := true }, errors := [] }.checkBalance ls).errors = [] ↔
      Even ((ls.flatMap String.toList).count '"') ∧
      ∀ kind : Bracket,
        (∀ part, part <+: unquoted false (ls.flatMap String.toList) →
          part.count kind.closing ≤ part.count kind.opening) ∧
        (unquoted false (ls.flatMap String.toList)).count kind.opening =
          (unquoted false (ls.flatMap String.toList)).count kind.closing := by
  have hproblems : balanceProblems ls = [] ↔ Balance.start.Sees (ls.flatMap String.toList) := by
    rw [balanceProblems, Balance.finish_eq_nil_iff, Balance.sees_feedLines_iff, List.append_nil]
  have hheights : ∀ kind, (Balance.start.stack kind).length = 0 := by
    intro kind
    cases kind <;> rfl
  rw [Checker.errors_checkBalance_eq_nil_iff, and_iff_right rfl, imp_iff_right rfl, hproblems, Balance.Sees,
    and_iff_right (show Balance.start.problems = [] from rfl), Nat.even_iff]
  simp only [hheights, Closes, Nat.zero_add]
  rfl

end FapLang.Check
