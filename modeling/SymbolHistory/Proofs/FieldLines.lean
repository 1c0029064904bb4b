/-
# Proofs.FieldLines -- lines of fields between tabs

Symbol files and diff files separate the fields of a line by tabs and escape
nothing.  Joined fields are split where they were joined as long as no field but
the last has a tab (`splitAtMost_join`), and what a line was split into is of that
form (`splitAtMost_spec`).  The fields that the index writes on its own, kinds and
numbers, have neither tab nor newline.
-/
import SymbolHistory.Symbol
import SymbolHistory.Proofs.Decimals
import SymbolHistory.Proofs.PatternLines

set_option autoImplicit false

namespace SymbolHistory

/-- A computation that gave a result gave one at each step. -/
theorem exists_of_bind_ok {ε α β : Type} {x : Except ε α} {f : α → Except ε β} {b : β}
    (done : x >>= f = .ok b) : ∃ a, x = .ok a ∧ f a = .ok b := by
  cases x with
  | error e => cases done
  | ok a => exact ⟨a, rfl, done⟩

/-! ## Fields -/

namespace Bytes

theorem eq_of_cutByte {sep : UInt8} {s u v : Bytes} (found : cutByte sep s = some (u, v)) :
    s = u ++ sep :: v ∧ sep ∉ u := by
  rw [cutByte, List.span_eq_takeWhile_dropWhile] at found
  cases back : s.dropWhile (· != sep) with
  | nil =>
      rw [back] at found
      cases found
  | cons b rest =>
      rw [back] at found
      obtain ⟨rfl, rfl⟩ := Prod.mk.inj (Option.some.inj found)
      have isSep : b = sep := by
        have stops := List.head?_dropWhile_not (· != sep) s
        rw [back] at stops
        simpa using stops
      subst isSep
      refine ⟨?_, fun bad => ?_⟩
      · rw [← back, List.takeWhile_append_dropWhile]
      · simpa using List.mem_takeWhile_imp bad

/-- The fields before the last have no separator, and together they give back the text. -/
theorem splitAtMost_spec (sep : UInt8) (n : Nat) :
    ∀ s : Bytes, join [sep] (splitAtMost sep n s) = s ∧
      ∀ f ∈ (splitAtMost sep n s).dropLast, sep ∉ f := by
  induction n with
  | zero =>
      intro s
      rw [splitAtMost]
      exact ⟨join_singleton _ _, by simp⟩
  | succ n ih =>
      intro s
      rw [splitAtMost]
      cases cut : cutByte sep s with
      | none => exact ⟨join_singleton _ _, by simp⟩
      | some parts =>
          obtain ⟨head, rest⟩ := parts
          obtain ⟨whole, clean⟩ := eq_of_cutByte cut
          obtain ⟨together, each⟩ := ih rest
          obtain ⟨first, more, split⟩ : ∃ first more, splitAtMost sep n rest = first :: more := by
            cases n with
            | zero => exact ⟨rest, [], rfl⟩
            | succ n =>
                rw [splitAtMost]
                cases cutByte sep rest <;> exact ⟨_, _, rfl⟩
          rw [split] at together each
          dsimp only
          rw [split]
          refine ⟨?_, fun f member => ?_⟩
          · rw [join_cons_cons, together, whole, List.append_assoc, List.singleton_append]
          · rw [List.dropLast_cons_cons] at member
            rcases List.mem_cons.mp member with rfl | later
            · exact clean
            · exact each f later

/-- Fields without the separator are found again, whatever the last one is. -/
theorem splitAtMost_join {sep : UInt8} (last : Bytes) {fields : List Bytes}
    (clean : ∀ f ∈ fields, sep ∉ f) :
    splitAtMost sep fields.length (join [sep] (fields ++ [last])) = fields ++ [last] := by
  induction fields with
  | nil => exact congrArg (splitAtMost sep 0) (join_singleton _ _)
  | cons f fields ih =>
      have later := ih fun g member => clean g (List.mem_cons_of_mem _ member)
      obtain ⟨g, more, rest⟩ : ∃ g more, fields ++ [last] = g :: more := by
        cases fields <;> exact ⟨_, _, rfl⟩
      rw [List.cons_append, rest, join_cons_cons, ← rest, List.append_assoc, List.singleton_append,
        List.length_cons, splitAtMost, cutByte_append (clean f List.mem_cons_self)]
      exact congrArg (f :: ·) later

end Bytes

/-! ## Kinds and numbers -/

namespace SymbolKind

theorem ofName_name (k : SymbolKind) : ofName k.name = k := by cases k <;> decide +kernel

theorem not_mem_name {b : UInt8} (control : b < 32) (k : SymbolKind) : b ∉ k.name := by
  have printed : ∀ c ∈ k.name, 32 ≤ c := by cases k <;> decide +kernel
  exact fun member => absurd (printed b member) (UInt8.not_le.mpr control)

end SymbolKind

namespace Decimal

/-- What `signed` reads is a number of 64 signed bits. -/
theorem signed_bounds {s : Bytes} {n : Int} (read : signed s = .ok n) :
    -signedLimit ≤ n ∧ n < signedLimit := by
  have positive : ∀ {m : Nat}, (if m < signedLimit then pure (Int.ofNat m) else throw .outOfRange :
      Except Reason Int) = .ok n → -signedLimit ≤ n ∧ n < signedLimit := by
    intro m kept
    split at kept
    · cases kept
      rw [Int.ofNat_eq_natCast]
      omega
    · cases kept
  unfold signed at read
  split at read
  · cases read
  · rename_i rest
    obtain ⟨m, -, kept⟩ := exists_of_bind_ok read
    split at kept
    · cases kept
      have limit : 0 < signedLimit := by decide
      rw [Int.ofNat_eq_natCast]
      omega
    · cases kept
  · obtain ⟨m, -, kept⟩ := exists_of_bind_ok read
    exact positive kept
  · obtain ⟨m, -, kept⟩ := exists_of_bind_ok read
    exact positive kept

theorem not_mem_ofInt_of_control {b : UInt8} (control : b < 32) (n : Int) : b ∉ ofInt n := by
  refine not_mem_ofInt ?_ ?_ n
  · rw [Bytes.isDigit, Bool.and_eq_false_iff, decide_eq_false_iff_not]
    left
    exact UInt8.not_le.mpr (UInt8.lt_trans control (by decide))
  · rintro rfl
    revert control
    decide

end Decimal

end SymbolHistory
