import Mathlib.Data.List.Infix

/-!
How texts begin. Texts that differ before one of them ends (`differ`) stay different whatever is put
after them, and a text has no other beginning up to a separator (`startsWithText_cut`).
-/

namespace FapLang.Text

def startsWithText (text lead : String) : Bool :=
  lead.toList.isPrefixOf text.toList

/-- Whether two texts differ before one of them ends. -/
def differ (a b : String) : Bool :=
  !startsWithText a b && !startsWithText b a

variable {a b : String}

theorem startsWithText_append (lead rest : String) : startsWithText (lead ++ rest) lead = true := by
  rw [startsWithText, List.isPrefixOf_iff_prefix, String.toList_append]
  exact List.prefix_append _ _

/-- No text begins with two texts that differ. -/
theorem startsWithText_unique {text : String} (h : differ a b = true) (ha : startsWithText text a = true) :
    startsWithText text b = false := by
  by_contra hne
  rw [differ, Bool.and_eq_true, Bool.not_eq_true', Bool.not_eq_true'] at h
  have hb := Bool.not_eq_false _ ▸ hne
  rw [startsWithText, List.isPrefixOf_iff_prefix] at ha hb
  rcases List.prefix_or_prefix_of_prefix ha hb with hsame | hsame
  · exact absurd (List.isPrefixOf_iff_prefix.mpr hsame) (by rw [← startsWithText, h.2]; exact Bool.false_ne_true)
  · exact absurd (List.isPrefixOf_iff_prefix.mpr hsame) (by rw [← startsWithText, h.1]; exact Bool.false_ne_true)

theorem startsWithText_eq_false (h : differ a b = true) (rest : String) : startsWithText (b ++ rest) a = false :=
  startsWithText_unique (by rw [differ, Bool.and_comm]; exact h) (startsWithText_append b rest)

theorem append_ne_append (h : differ a b = true) (x y : String) : a ++ x ≠ b ++ y := by
  intro heq
  have hstarts := startsWithText_append a x
  rw [heq, startsWithText_eq_false h y] at hstarts
  exact Bool.false_ne_true hstarts

theorem startsWithText_append_append (lead x y : String) :
    startsWithText (lead ++ x) (lead ++ y) = startsWithText x y := by
  rw [Bool.eq_iff_iff]
  simp only [startsWithText, List.isPrefixOf_iff_prefix, String.toList_append]
  exact List.prefix_append_right_inj _

theorem startsWithText_of_append {text lead rest : String} (h : startsWithText text (lead ++ rest) = true) :
    startsWithText text lead = true := by
  rw [startsWithText, List.isPrefixOf_iff_prefix, String.toList_append] at h
  exact List.isPrefixOf_iff_prefix.mpr ((List.prefix_append _ _).trans h)

theorem prefix_cut {c : Char} {first second x y : List Char} (hfirst : c ∉ first) (hsnd : c ∉ second)
    (h : first ++ c :: x <+: second ++ c :: y) : first = second ∧ x <+: y := by
  induction first generalizing second with
  | nil =>
    cases second with
    | nil => exact ⟨rfl, (List.cons_prefix_cons.mp h).2⟩
    | cons d second =>
      obtain ⟨rfl, -⟩ := List.cons_prefix_cons.mp h
      exact absurd (.head _) hsnd
  | cons d first ih =>
    cases second with
    | nil =>
      obtain ⟨rfl, -⟩ := List.cons_prefix_cons.mp h
      exact absurd (.head _) hfirst
    | cons e second =>
      obtain ⟨rfl, hrest⟩ := List.cons_prefix_cons.mp h
      obtain ⟨rfl, hx⟩ := ih (fun hmem => hfirst (.tail _ hmem))
        (fun hmem => hsnd (.tail _ hmem)) hrest
      exact ⟨rfl, hx⟩

/-- The part before a separator is the same in a text and in how it begins. -/
theorem startsWithText_cut {c : Char} {tail : List Char} {sep x y : String} (hsep : sep.toList = c :: tail)
    (ha : c ∉ a.toList) (hb : c ∉ b.toList) (h : startsWithText (b ++ (sep ++ y)) (a ++ (sep ++ x)) = true) :
    a = b ∧ startsWithText y x = true := by
  simp only [startsWithText, List.isPrefixOf_iff_prefix, String.toList_append, hsep, List.cons_append] at h ⊢
  obtain ⟨hab, hrest⟩ := prefix_cut ha hb h
  exact ⟨String.toList_inj.mp hab, (List.prefix_append_right_inj _).mp hrest⟩

theorem isDigit_of_mem_toString {n : Nat} {c : Char} (h : c ∈ (toString n).toList) : c.isDigit = true := by
  rw [Nat.toString_eq_repr, Nat.toList_repr] at h
  exact Nat.isDigit_of_mem_toDigits (by decide) (by decide) h

theorem toString_inj {n m : Nat} (h : toString n = toString m) : n = m := by
  have hdigits := congrArg String.toList h
  rw [Nat.toString_eq_repr, Nat.toString_eq_repr, Nat.toList_repr, Nat.toList_repr] at hdigits
  rw [← Nat.ofDigitChars_ten_toDigits (n := n), ← Nat.ofDigitChars_ten_toDigits (n := m), hdigits]

end FapLang.Text
