/-
# Proofs.Descents -- names that lead down

A name that is put below a folder has been cleaned before.  There are four sorts
of clean names (`clean_cases`): absolute ones, those that begin with a way up,
the one that stays, and those that are steps down and nothing else (`Descends`).
Only the last lead strictly below the folder: `locate_under` says where, and
`locate_dir_under` where the folder of the name is.
-/
import SymbolHistory.Proofs.Places

set_option autoImplicit false

namespace SymbolHistory

namespace Path

/-- The name means the steps `ss`, at least one, all of them down. -/
structure Descends (name : Bytes) (ss : List Bytes) : Prop where
  clean : clean name = ofSteps false ss
  nonempty : ss ≠ []
  names : ∀ s ∈ ss, IsName s

/-- The shortest way of a relative path: some steps up, then steps down. -/
theorem shortest_false (p : Bytes) :
    ∃ ups ss, shortest false (steps p) = List.replicate ups parent ++ ss ∧ ∀ s ∈ ss, IsName s := by
  obtain ⟨ups, names, reached, down⟩ := foldl_walk_false (steps p)
  have each := isStep_of_mem_shortest false fun _ member => isStep_of_mem_steps (p := p) member
  have whole : shortest false (steps p) = List.replicate ups parent ++ names.reverse := by
    rw [shortest, reached, List.reverse_append, List.reverse_replicate]
  refine ⟨ups, names.reverse, whole, fun s member => ⟨each s ?_, down s ?_⟩⟩
  · rw [whole]
    exact List.mem_append_right _ member
  · exact List.mem_reverse.mp member

/-- What a clean path can look like. -/
theorem clean_cases (name : Bytes) :
    isAbsolute name = true ∨
      (clean name = parent ∨ ∃ rest, clean name = parent ++ [slash] ++ rest) ∨
      clean name = here ∨ ∃ ss, Descends name ss := by
  cases absolute : isAbsolute name with
  | true => exact .inl rfl
  | false =>
      obtain ⟨ups, ss, whole, names⟩ := shortest_false name
      have cleaned : clean name = ofSteps false (List.replicate ups parent ++ ss) := by
        simp only [clean, absolute, whole]
      right
      cases ups with
      | zero =>
          right
          cases ss with
          | nil => exact .inl cleaned
          | cons s ss => exact .inr ⟨s :: ss, cleaned, by simp, names⟩
      | succ ups =>
          left
          rw [List.replicate_succ, List.cons_append] at cleaned
          generalize List.replicate ups parent ++ ss = rest at cleaned
          cases rest with
          | nil => exact .inl (cleaned.trans (Bytes.join_singleton [slash] parent))
          | cons t rest =>
              refine .inr ⟨Bytes.join [slash] (t :: rest), cleaned.trans ?_⟩
              exact Bytes.join_cons_cons [slash] parent t rest

variable {name : Bytes} {ss : List Bytes}

theorem steps_names (names : ∀ s ∈ ss, IsName s) : steps (ofSteps false ss) = ss :=
  steps_ofSteps false fun s member => (names s member).toIsStep

theorem isAbsolute_names (names : ∀ s ∈ ss, IsName s) : isAbsolute (ofSteps false ss) = false :=
  isAbsolute_ofSteps false fun s member => (names s member).toIsStep

/-- Steps down are the shortest way. -/
theorem clean_names (names : ∀ s ∈ ss, IsName s) : clean (ofSteps false ss) = ofSteps false ss := by
  have down : ∀ s ∈ ss, s ≠ parent := fun s member => (names s member).notParent
  simp only [clean, isAbsolute_names names, steps_names names, shortest,
    foldl_walk_names false down, List.append_nil, List.reverse_reverse]

namespace Descends

/-- Paths that descend begin with no way up and with no root, and lead somewhere. -/
theorem relative (descends : Descends name ss) : isAbsolute (Path.clean name) = false := by
  rw [descends.clean]
  exact isAbsolute_names descends.names

theorem steps_clean (descends : Descends name ss) : steps (Path.clean name) = ss := by
  rw [descends.clean]
  exact steps_names descends.names

theorem ne_parent (descends : Descends name ss) : Path.clean name ≠ parent := by
  intro same
  have := descends.steps_clean
  rw [same] at this
  obtain rfl : ss = [parent] := this.symm
  exact (descends.names parent (by simp)).notParent rfl

theorem not_up (descends : Descends name ss) (rest : Bytes) :
    Path.clean name ≠ parent ++ [slash] ++ rest := by
  intro same
  have := descends.steps_clean
  rw [same, List.append_assoc, List.singleton_append, steps_slash] at this
  obtain rfl : ss = parent :: steps rest := this.symm
  exact (descends.names parent (by simp)).notParent rfl

end Descends

end Path

namespace Host

open SymbolHistory.Path

variable {ss : List Bytes}

/-- Steps down from a path lead as far below it. -/
theorem locate_under (h : Host) (d : Bytes) (names : ∀ s ∈ ss, IsName s) :
    h.locate (join [d, ofSteps false ss]) = h.locate d ++ ss := by
  have each : ∀ s ∈ ss, IsStep s := fun s member => (names s member).toIsStep
  have sort := isAbsolute_under d (isAbsolute_names names)
  rw [join_pair d _ (ofSteps_ne_nil false each), locate_clean, locate_eq, locate_eq,
    h.origin_congr sort, steps_under, steps_names names]
  simp only [shortest, ← List.append_assoc, List.foldl_append]
  rw [foldl_walk_names true fun s member => (names s member).notParent]
  simp

/-- The folder of a path that was joined to `d` is as far below `d`, but for the last step. -/
theorem locate_dir_under (h : Host) (d : Bytes) {s : Bytes} (names : ∀ t ∈ ss ++ [s], IsName t) :
    h.locate (dir (join [d, ofSteps false (ss ++ [s])])) = h.locate d ++ ss := by
  have each : ∀ t ∈ ss ++ [s], IsStep t := fun t member => (names t member).toIsStep
  have last := names s (by simp)
  have before : ∀ t ∈ ss, IsName t := fun t member => names t (by simp [member])
  have sort := isAbsolute_under d (isAbsolute_names names)
  rw [dir, locate_clean, join_pair d _ (ofSteps_ne_nil false each), clean, sort, steps_under,
    steps_names names, ← List.append_assoc, shortest_append_name _ _ last.notParent]
  have front : ∀ t ∈ shortest (isAbsolute d) (steps d ++ ss), IsStep t :=
    isStep_of_mem_shortest (isAbsolute d) fun t member => by
      rcases List.mem_append.mp member with first | second
      · exact isStep_of_mem_steps first
      · exact (before t second).toIsStep
  obtain ⟨steps, sort⟩ := splitLast_ofSteps (isAbsolute d) front last.toIsStep
  rw [← h.locate_under d before, join_pair d _ (ofSteps_ne_nil false fun t member =>
    (before t member).toIsStep)]
  refine h.locate_congr ?_ ?_
  · rw [sort, isAbsolute_clean, isAbsolute_under d (isAbsolute_names before)]
  · rw [steps, Host.steps_clean, isAbsolute_under d (isAbsolute_names before), steps_under,
      steps_names before]

end Host

end SymbolHistory
