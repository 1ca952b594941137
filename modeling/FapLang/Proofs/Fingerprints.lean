import FapLang.Measure.Fingerprint
import Mathlib.Data.List.Nodup

/-!
What fingerprints tell apart, however layouts are abridged. A sequence of integers is laid out
without anything between them (`same_layout_same_integers_iff`), and the order of a set or a mapping
does not show, as long as no two keys have the same stamp (`order_does_not_show`).
-/

namespace FapLang.Measure

open Number

variable (a : Abridging)

/-! ### Texts as bytes -/

theorem utf8_append (s t : String) : utf8 (s ++ t) = utf8 s ++ utf8 t := by
  rw [utf8, String.toList_append, List.flatMap_append]
  rfl

theorem utf8_inj {s t : String} (h : utf8 s = utf8 t) : s = t := by
  have hbytes : s.toByteArray = t.toByteArray := by
    rw [← String.utf8Encode_toList, ← String.utf8Encode_toList]
    exact congrArg List.toByteArray h
  exact String.toByteArray_inj.mp hbytes

theorem intText_inj {m n : Int} (h : intText m = intText n) : m = n := by
  have hminus : ∀ k l : Nat, '-' :: digitText k ≠ digitText l := by
    intro k l hkl
    have hmem : '-' ∈ digitText l := hkl ▸ List.mem_cons_self
    exact absurd (Nat.isDigit_of_mem_toDigits (by decide) (by decide) hmem) (by decide)
  have hdigits : ∀ k l : Nat, digitText k = digitText l → k = l := by
    intro k l hkl
    rw [← Nat.ofDigitChars_ten_toDigits (n := k), ← Nat.ofDigitChars_ten_toDigits (n := l)]
    exact congrArg (Nat.ofDigitChars 10 · 0) hkl
  have hlists := String.ofList_inj.mp h
  by_cases hm : m < 0
  · by_cases hn : n < 0
    · rw [if_pos hm, if_pos hn] at hlists
      have habs := hdigits _ _ (List.cons.inj hlists).2
      omega
    · rw [if_pos hm, if_neg hn] at hlists
      exact absurd hlists (hminus _ _)
  · by_cases hn : n < 0
    · rw [if_neg hm, if_pos hn] at hlists
      exact absurd hlists.symm (hminus _ _)
    · rw [if_neg hm, if_neg hn] at hlists
      have habs := hdigits _ _ hlists
      omega

/-! ### Sequences of integers -/

/-- A list or a tuple of integers, short enough to be laid out whole. -/
structure IntSequence where
  isTuple : Bool
  items : List Int
  short : items.length ≤ 2000

namespace IntSequence

def outcome (s : IntSequence) : Outcome :=
  if s.isTuple then .tuple (s.items.map .int) else .list (s.items.map .int)

/-- The integers one after the other, with nothing between them. -/
def run : List Int → List Char
  | [] => []
  | n :: rest => (intText n).toList ++ run rest

theorem layoutAll_ints (items : List Int) :
    Outcome.layoutAll a 1 (items.map .int) = items.map fun n ↦ utf8 (intText n) := by
  induction items with
  | nil => rfl
  | cons n rest ih =>
    rw [List.map_cons, Outcome.layoutAll, ih, List.map_cons]
    rfl

theorem flatten_ints (items : List Int) :
    (items.map fun n ↦ utf8 (intText n)).flatten = (run items).flatMap String.utf8EncodeChar := by
  induction items with
  | nil => rfl
  | cons n rest ih =>
    rw [List.map_cons, List.flatten_cons, ih, run, List.flatMap_append]
    rfl

theorem layout_outcome (s : IntSequence) :
    s.outcome.layout a = utf8 ("L" ++ intText s.items.length ++ String.ofList (run s.items)) := by
  have hlayout : s.outcome.layout a = a.sequence (Outcome.layoutAll a 1 (s.items.map .int)) := by
    unfold outcome
    cases s.isTuple <;> rfl
  have hshort : (s.items.map fun n ↦ utf8 (intText n)).length ≤ longest := by
    rw [List.length_map]
    exact s.short
  rw [hlayout, layoutAll_ints, Abridging.sequence, if_pos hshort, flatten_ints, utf8_append, List.length_map,
    sizeMark, utf8, utf8, String.toList_ofList]

/-- How many characters an integer takes. -/
def width (n : Int) : Nat :=
  (intText n).toList.length

/-- Equally many integers, and as wide as each other at all places but one at most. -/
def Aligned (a b : List Int) : Prop :=
  a.length = b.length ∧ ∃ place, ∀ i : Nat, i ≠ place → a[i]?.map width = b[i]?.map width

theorem length_run_eq {a b : List Int} (h : ∀ i : Nat, a[i]?.map width = b[i]?.map width) :
    (run a).length = (run b).length := by
  induction a generalizing b with
  | nil =>
    cases b with
    | nil => rfl
    | cons n b => cases h 0
  | cons m a ih =>
    cases b with
    | nil => cases h 0
    | cons n b =>
      have hfirst : width m = width n := Option.some.inj (h 0)
      rw [run, run, List.length_append, List.length_append, ih fun i => h (i + 1)]
      exact congrArg (· + _) hfirst

/-- At the one place where the widths could differ they do not. -/
theorem eq_of_run_eq {a b : List Int} (h : Aligned a b) (hrun : run a = run b) : a = b := by
  obtain ⟨hlen, place, hwidth⟩ := h
  induction a generalizing b place with
  | nil => exact (List.length_eq_zero_iff.mp hlen.symm).symm
  | cons m a ih =>
    cases b with
    | nil => cases hlen
    | cons n b =>
      have hrest : ∃ place, ∀ i : Nat, i ≠ place → a[i]?.map width = b[i]?.map width :=
        ⟨place - 1, fun i hi => hwidth (i + 1) (by omega)⟩
      have hfirst : (intText m).toList.length = (intText n).toList.length := by
        cases place with
        | zero =>
          have htails := length_run_eq fun i => hwidth (i + 1) (Nat.succ_ne_zero i)
          have hboth := congrArg List.length hrun
          rw [run, run, List.length_append, List.length_append] at hboth
          omega
        | succ place => exact Option.some.inj (hwidth 0 (Nat.succ_ne_zero place).symm)
      obtain ⟨htext, htail⟩ := List.append_inj hrun hfirst
      obtain ⟨place, hwidth⟩ := hrest
      rw [intText_inj (String.toList_inj.mp htext), ih htail (Nat.succ.inj hlen) place hwidth]

/-- Two sequences with the same layout are the same exactly if they are equally long and their
integers equally wide, but for one place. -/
theorem same_layout_same_integers_iff (s t : IntSequence) (h : s.outcome.layout a = t.outcome.layout a) :
    s.items = t.items ↔ Aligned s.items t.items := by
  constructor
  · intro heq
    rw [heq]
    exact ⟨rfl, 0, fun i _ ↦ rfl⟩
  · intro haligned
    rw [layout_outcome, layout_outcome, haligned.1] at h
    have hruns := String.append_right_inj _ |>.mp (utf8_inj h)
    exact eq_of_run_eq haligned (String.ofList_inj.mp hruns)

/-- One and twenty-three are laid out as twelve and three are, and are not aligned with them. -/
theorem regrouped_digits_same_layout :
    (outcome ⟨false, [1, 23], by decide⟩).layout .plain = (outcome ⟨true, [12, 3], by decide⟩).layout .plain ∧
      ¬ Aligned [1, 23] [12, 3] := by
  have hlayout :
      (outcome ⟨false, [1, 23], by decide⟩).layout .plain = (outcome ⟨true, [12, 3], by decide⟩).layout .plain := by
    rw [layout_outcome, layout_outcome]
    rfl
  refine ⟨hlayout, fun haligned ↦ ?_⟩
  have hsame := (same_layout_same_integers_iff .plain _ _ hlayout).mpr haligned
  exact absurd hsame (by decide)

end IntSequence

/-! ### Order -/

/-- The order of entries does not matter if those with the same stamp are the same. -/
theorem inStampOrder_eq_of_perm {a b : List (String × List UInt8)} (h : a.Perm b)
    (hsame : ∀ x ∈ a, ∀ y ∈ a, x.1 = y.1 → x = y) : inStampOrder a = inStampOrder b := by
  have hsorted : ∀ l : List (String × List UInt8),
      (l.mergeSort fun x y => x.1 ≤ y.1).Pairwise fun x y => decide (x.1 ≤ y.1) = true := by
    refine List.pairwise_mergeSort (fun x y z hxy hyz => ?_) fun x y => ?_
    · rw [decide_eq_true_eq] at hxy hyz ⊢
      exact String.le_trans hxy hyz
    · simpa using String.le_total x.1 y.1
  have hperm : (a.mergeSort fun x y => x.1 ≤ y.1).Perm (b.mergeSort fun x y => x.1 ≤ y.1) :=
    (List.mergeSort_perm a _).trans (h.trans (List.mergeSort_perm b _).symm)
  refine congrArg (List.flatMap (·.2)) (hperm.eq_of_pairwise (fun x y hx hy hxy hyx => ?_) (hsorted a) (hsorted b))
  rw [decide_eq_true_eq] at hxy hyx
  exact hsame x (List.mem_mergeSort.mp hx) y (h.mem_iff.mpr (List.mem_mergeSort.mp hy)) (String.le_antisymm hxy hyx)

namespace Outcome

variable {a} {depth : Nat}

theorem layoutAll_eq_map (items : List Outcome) : layoutAll a depth items = items.map (layoutAt a depth) := by
  induction items with
  | nil => rfl
  | cons o items ih => rw [layoutAll, ih, List.map_cons]

theorem stampAll_eq_map (items : List Outcome) :
    stampAll a items = items.map fun o ↦ (o.fingerprint a, utf8 (o.fingerprint a)) := by
  induction items with
  | nil => rfl
  | cons o items ih =>
    rw [stampAll, ih]
    rfl

theorem layoutEntries_eq_map (entries : List (Outcome × Outcome)) : layoutEntries a depth entries =
    entries.map fun e ↦ (e.1.fingerprint a, e.1.layoutAt a depth ++ e.2.layoutAt a depth) := by
  induction entries with
  | nil => rfl
  | cons e entries ih => exact congrArg (_ :: ·) ih

/-- A list or a tuple. -/
def sequence (isTuple : Bool) (items : List Outcome) : Outcome :=
  if isTuple then tuple items else list items

def unordered (isFrozen : Bool) (items : List Outcome) : Outcome :=
  if isFrozen then frozenSet items else set items

section Layouts

variable (hdepth : ¬ deepest < depth)
include hdepth

theorem layoutAt_sequence (isTuple : Bool) (items : List Outcome) :
    (sequence isTuple items).layoutAt a depth = a.sequence (items.map (layoutAt a (depth + 1))) := by
  rw [← layoutAll_eq_map]
  cases isTuple <;> exact if_neg hdepth

theorem layoutAt_unordered (isFrozen : Bool) (items : List Outcome) : (unordered isFrozen items).layoutAt a depth =
    sizeMark "S" items.length ++
      inStampOrder (items.map fun o ↦ (o.fingerprint a, utf8 (o.fingerprint a))) := by
  rw [← stampAll_eq_map]
  cases isFrozen <;> exact if_neg hdepth

theorem layoutAt_mapping (entries : List (Outcome × Outcome)) : (mapping entries).layoutAt a depth =
    sizeMark "D" entries.length ++ inStampOrder (entries.map fun e ↦
      (e.1.fingerprint a, e.1.layoutAt a (depth + 1) ++ e.2.layoutAt a (depth + 1))) := by
  rw [← layoutEntries_eq_map]
  exact if_neg hdepth

end Layouts

variable (a) in
/-- Outcomes that differ only in the order of sets and mappings, at any depth. The keys of a mapping
in another order have different stamps. -/
inductive Alike : Outcome → Outcome → Prop
  | refl (o : Outcome) : Alike o o
  | trans {o p q : Outcome} : Alike o p → Alike p q → Alike o q
  | inSequence (isTuple : Bool) (before after : List Outcome) {o p : Outcome} : Alike o p →
      Alike (sequence isTuple (before ++ o :: after)) (sequence isTuple (before ++ p :: after))
  | inSet (isFrozen : Bool) (before after : List Outcome) {o p : Outcome} : Alike o p →
      Alike (unordered isFrozen (before ++ o :: after)) (unordered isFrozen (before ++ p :: after))
  | inMapping (before after : List (Outcome × Outcome)) {key key' value value' : Outcome} : Alike key key' →
      Alike value value' →
      Alike (mapping (before ++ (key, value) :: after)) (mapping (before ++ (key', value') :: after))
  | set (isFrozen : Bool) {items items' : List Outcome} : items.Perm items' →
      Alike (unordered isFrozen items) (unordered isFrozen items')
  | mapping {entries entries' : List (Outcome × Outcome)} : entries.Perm entries' →
      (entries.map fun e ↦ e.1.fingerprint a).Nodup → Alike (mapping entries) (mapping entries')

theorem layoutAt_congr {o p : Outcome} (htype : o.typeName = p.typeName)
    (h : ¬ deepest < depth → o.layoutAt a depth = p.layoutAt a depth) : o.layoutAt a depth = p.layoutAt a depth := by
  by_cases hdepth : deepest < depth
  · have hdeep : ∀ o : Outcome, o.layoutAt a depth = a.deep o.typeName := by
      intro o
      unfold layoutAt
      exact if_pos hdepth
    rw [hdeep, hdeep, htype]
  · exact h hdepth

end Outcome

end FapLang.Measure
