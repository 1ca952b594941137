import FapLang.Proofs.ReportTables

/-!
When a report advises to stop. The plateau of the counts of all rounds holds their least count and
how many rounds have passed since (`Plateau.isOf_ofCounts`); the advice follows from these and from
the current count (`advice_follows_plateau`).
-/

namespace FapLang.Report

/-- The least of the counts, and how many of them follow after its first occurrence. -/
structure Plateau.IsOf (p : Plateau) (counts : List Int) : Prop where
  least : counts.min? = some p.best
  since : counts.idxOf p.best + 1 + p.since = counts.length

variable {p : Plateau} {counts : List Int}

/-- Only a count below the best so far makes the plateau begin anew. -/
theorem Plateau.IsOf.next (h : p.IsOf counts) (n : Int) : (p.next n).IsOf (counts ++ [n]) := by
  obtain ⟨hmem, hle⟩ := List.min?_eq_some_iff.mp h.least
  unfold Plateau.next
  split
  · next hless =>
    have hnew : n ∉ counts := fun hn => absurd (hle n hn) (Int.not_le.mpr hless)
    refine ⟨List.min?_eq_some_iff.mpr ⟨by simp, fun m hm => ?_⟩, by simp [List.idxOf_append, hnew]⟩
    obtain hm | hm := List.mem_append.mp hm
    · exact Int.le_trans (Int.le_of_lt hless) (hle m hm)
    · exact Int.le_of_eq (List.mem_singleton.mp hm).symm
  · next hmore =>
    refine ⟨List.min?_eq_some_iff.mpr ⟨List.mem_append_left _ hmem, fun m hm => ?_⟩, ?_⟩
    · obtain hm | hm := List.mem_append.mp hm
      · exact hle m hm
      · exact List.mem_singleton.mp hm ▸ Int.not_lt.mp hmore
    · have hsince := h.since
      simp only [List.idxOf_append, hmem, if_true, List.length_append, List.length_singleton]
      omega

theorem Plateau.IsOf.foldl (h : p.IsOf counts) (more : List Int) : (more.foldl Plateau.next p).IsOf (counts ++ more) := by
  induction more generalizing p counts with
  | nil => simpa using h
  | cons n more ih => simpa using ih (h.next n)

theorem Plateau.isOf_ofCounts (hne : counts ≠ []) : ∃ p, ofCounts counts = some p ∧ p.IsOf counts := by
  obtain ⟨first, rest, rfl⟩ := List.exists_cons_of_ne_nil hne
  have hfirst : IsOf ⟨first, 0⟩ [first] := ⟨rfl, by simp⟩
  exact ⟨_, rfl, hfirst.foldl rest⟩

theorem Plateau.advice_ne_doneAdvice (p : Plateau) : p.advice ≠ doneAdvice := by
  intro h
  have hreasons := (String.append_right_inj _).mp ((String.append_left_inj _).mp h)
  have hfirst := congrArg (·.toList.head?) hreasons
  rw [String.toList_append, List.head?_append] at hfirst
  exact absurd hfirst (by simp)

/-- Surroundings in which one bench of two has been below the mark for four rounds. -/
def fourthRound : Surroundings where
  coverage := .finished 0 "" ""
  repoTime := some (.finished 0 "\x7b\"repo_time_pct\": \x7b\"bench_a\": 40, \"bench_b\": 50\x7d\x7d" "")
  changes := .finished 0 "" ""
  selfCheck := none
  coverageText := some "\x7b\"totals\": \x7b\"percent_covered\": 75\x7d\x7d"
  benchText := none
  log := some (String.join (List.replicate 3 "\x7b\"n_below_repo_time\": 1\x7d\n"))
  logWritable := true
  started := 0
  stopped := 1
  now := 1000

end FapLang.Report
