import FapLang.Number.Writable
import FapLang.Value.Convert
import Mathlib.Tactic.SplitIfs

/-!
Plain values: numbers that can be written, and texts. Conversions of values that can be written give plain ones.
-/

namespace FapLang.Value

variable {v w : Value}

/-- Numbers that can be written, and texts. -/
def isPlain : Value → Bool
  | int n => Number.isWritable n
  | float _ | text _ => true
  | _ => false

/-- The integer that a value is. -/
def int? : Value → Option Int
  | int n => some n
  | _ => Option.none

theorem eq_int_of_int? {n : Int} (h : v.int? = some n) : v = int n := by
  cases v with
  | int m => rw [Option.some.inj h]
  | none | bool | float | complex | text | list | record | function | node | scope =>
    simp [int?] at h

theorem isWritable_of_isPlain (h : v.isPlain = true) (cells : Cells) : v.isWritable cells = true := by
  cases v with
  | int n => exact h
  | float | text => rfl
  | none | bool | complex | list | record | function | node | scope => cases h

/-- An integer stays itself; any other value becomes an integer that can be written. -/
theorem exists_int_of_toInt (h : v.toInt = .ok w) : ∃ n, w = .int n ∧ (v = .int n ∨ Number.isWritable n = true) := by
  unfold toInt at h
  split at h
  · next b =>
    refine ⟨_, (Except.ok.inj h).symm, .inr ?_⟩
    cases b <;> exact Number.isWritable_signed false (by decide : _ < Nat.pow 10 1) (by decide)
  · exact ⟨_, (Except.ok.inj h).symm, .inl rfl⟩
  · split_ifs at h
    exact ⟨_, (Except.ok.inj h).symm, .inr (Number.isWritable_truncate _)⟩
  · next text =>
    cases hread : Number.readInt text with
    | value n =>
      rw [hread] at h
      exact ⟨n, (Except.ok.inj h).symm, .inr (Number.isWritable_of_readInt hread)⟩
    | tooLong | malformed =>
      rw [hread] at h
      simp [ofReading] at h
  · cases h

theorem exists_int_of_castInt (h : v.castInt = .ok w) :
    ∃ n, w = .int n ∧ (v = .int n ∨ Number.isWritable n = true) := by
  unfold castInt at h
  split at h
  · split_ifs at h
    exact exists_int_of_toInt h
  · split_ifs at h
    exact exists_int_of_toInt h
  · exact exists_int_of_toInt h

theorem isPlain_of_castInt (hv : ∀ n, v = .int n → Number.isWritable n = true)
    (h : v.castInt = .ok w) : w.isPlain = true := by
  obtain ⟨n, rfl, hn | hn⟩ := exists_int_of_castInt h
  · exact hv n hn
  · exact hn

theorem exists_float_of_castFloat (h : v.castFloat = .ok w) : ∃ x, w = .float x := by
  unfold castFloat at h
  split at h
  · exact ⟨_, (Except.ok.inj h).symm⟩
  · next n =>
    cases hfloat : Numeric.intToFloat n with
    | ok x =>
      rw [hfloat] at h
      exact ⟨_, (Except.ok.inj h).symm⟩
    | error f =>
      rw [hfloat] at h
      simp [bind, Except.bind] at h
  · exact ⟨_, (Except.ok.inj h).symm⟩
  · split at h
    · exact ⟨_, (Except.ok.inj h).symm⟩
    · cases h
  · cases h

theorem isPlain_of_castFloat (h : v.castFloat = .ok w) : w.isPlain = true := by
  obtain ⟨x, rfl⟩ := exists_float_of_castFloat h
  rfl

end FapLang.Value
