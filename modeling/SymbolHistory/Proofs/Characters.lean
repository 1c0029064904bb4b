/-
# Proofs.Characters -- valid text is a sequence of characters

A byte string is valid when every byte belongs to a character.  `Characters` says
this by how the string is put together, one character after the other
(`valid_iff`): a character is a byte below 128, or bytes none of which is below
128.  So valid text can be taken apart and put together (`Characters.append`),
and text of bytes below 128 is valid (`characters_of_ascii`).
-/
import SymbolHistory.Text.Utf8

set_option autoImplicit false

namespace SymbolHistory

namespace Utf8

/-- Bytes that are read as one character, whatever follows. -/
structure IsCharacter (c : Bytes) : Prop where
  reads : ∃ (a : UInt8) (tail : Bytes) (code : Nat), c = a :: tail ∧
    ∀ rest, first a (tail ++ rest) = .char code c
  plain : (∃ a, c = [a] ∧ a < 128) ∨ ∀ b ∈ c, 128 ≤ b

/-- A sequence of characters. -/
inductive Characters : Bytes → Prop where
  | nil : Characters []
  | cons {c rest : Bytes} : IsCharacter c → Characters rest → Characters (c ++ rest)

/-! ## One character -/

theorem isCharacter_of_ascii {a : UInt8} (ascii : a < 128) : IsCharacter [a] where
  reads := ⟨a, [], a.toNat, rfl, fun _ => if_pos ascii⟩
  plain := .inl ⟨a, rfl, ascii⟩

theorem high_of_isTail {b : UInt8} (isTail : isTail b = true) : 128 ≤ b := by
  simp only [Utf8.isTail] at isTail
  grind

theorem high_of_secondOk {a b : UInt8} (ok : secondOk a b = true) : 128 ≤ b := by
  simp only [secondOk, isTail] at ok
  grind

theorem isCharacter_of_high {a : UInt8} {tail : Bytes} {n : Nat} (high : ∀ b ∈ a :: tail, 128 ≤ b)
    (reads : ∀ rest, first a (tail ++ rest) = .char n (a :: tail)) : IsCharacter (a :: tail) where
  reads := ⟨a, tail, n, rfl, reads⟩
  plain := .inr high

/-- What is read first, if it is no broken byte, is a character at the front. -/
theorem isCharacter_of_first {a : UInt8} {s c : Bytes} {code : Nat} (reads : first a s = .char code c) :
    IsCharacter c ∧ ∃ rest, a :: s = c ++ rest := by
  unfold first at reads
  split at reads
  · rename_i ascii
    cases reads
    exact ⟨isCharacter_of_ascii ascii, s, rfl⟩
  rename_i notAscii
  have high : 128 ≤ a := UInt8.not_lt.mp notAscii
  split at reads
  · rename_i two
    split at reads
    · split at reads
      · rename_i b rest isTail
        cases reads
        have second := high_of_isTail isTail
        refine ⟨isCharacter_of_high (n := code2 a b) (by simp [high, second]) fun rest => ?_, rest, rfl⟩
        simp [first, notAscii, two, isTail]
      · cases reads
    · cases reads
  rename_i notTwo
  split at reads
  · rename_i three
    split at reads
    · split at reads
      · rename_i b c rest tails
        cases reads
        have both := Bool.and_eq_true_iff.mp tails
        have second := high_of_secondOk both.1
        have third := high_of_isTail both.2
        refine ⟨isCharacter_of_high (n := code3 a b c) (by simp [high, second, third]) fun rest => ?_,
          rest, rfl⟩
        simp [first, notAscii, notTwo, three, both]
      · cases reads
    · cases reads
  rename_i notThree
  split at reads
  · rename_i four
    split at reads
    · split at reads
      · rename_i b c d rest tails
        cases reads
        simp only [Bool.and_eq_true] at tails
        have second := high_of_secondOk tails.1.1
        have third := high_of_isTail tails.1.2
        have fourth := high_of_isTail tails.2
        refine ⟨isCharacter_of_high (n := code4 a b c d) (by simp [high, second, third, fourth])
          fun rest => ?_, rest, rfl⟩
        simp [first, notAscii, notTwo, notThree, four, tails]
      · cases reads
    · cases reads
  · cases reads

/-! ## All characters -/

theorem piecesFrom_eq (fuel : Nat) : ∀ (done : List Piece) (s : Bytes), s.length ≤ fuel →
    piecesFrom fuel done s = done.reverse ++ pieces s := by
  induction fuel using Nat.strongRecOn with
  | _ fuel ih =>
      intro done s bound
      cases s with
      | nil => cases fuel <;> simp [piecesFrom, pieces]
      | cons a rest =>
          obtain ⟨fuel, rfl⟩ : ∃ n, fuel = n + 1 := ⟨fuel - 1, by simp at bound; omega⟩
          have shorter : (rest.drop ((first a rest).bytes.length - 1)).length ≤ rest.length := by simp
          have enough : rest.length ≤ fuel := by simpa using bound
          rw [pieces, List.length_cons, piecesFrom, piecesFrom, ih fuel (by omega) _ _ (by omega),
            ih rest.length (by omega) _ _ shorter]
          simp

theorem pieces_cons (a : UInt8) (rest : Bytes) :
    pieces (a :: rest) = first a rest :: pieces (rest.drop ((first a rest).bytes.length - 1)) := by
  rw [pieces, List.length_cons, piecesFrom, piecesFrom_eq _ _ _ (by simp)]
  rfl

/-- What is read first stands at the front. -/
theorem first_front (a : UInt8) (s : Bytes) :
    ∃ tail rest, (first a s).bytes = a :: tail ∧ s = tail ++ rest := by
  cases reads : first a s with
  | broken b =>
      have same : b = a := by
        unfold first at reads
        grind
      exact ⟨[], s, by rw [same, Piece.bytes], rfl⟩
  | char code c =>
      obtain ⟨isCharacter, rest, parts⟩ := isCharacter_of_first reads
      obtain ⟨b, tail, -, rfl, -⟩ := isCharacter.reads
      obtain ⟨rfl, rfl⟩ : a = b ∧ s = tail ++ rest := List.cons.inj parts
      exact ⟨tail, rest, rfl, rfl⟩

/-- A text is its first piece and a text of the others. -/
@[elab_as_elim]
theorem pieces_induction {motive : Bytes → Prop} (nil : motive [])
    (cons : ∀ a s rest, a :: s = (first a s).bytes ++ rest → pieces (a :: s) = first a s :: pieces rest →
      motive rest → motive (a :: s)) (s : Bytes) : motive s := by
  induction h : s.length using Nat.strongRecOn generalizing s with
  | _ n ih =>
      cases s with
      | nil => exact nil
      | cons a s =>
          obtain ⟨tail, rest, own, rfl⟩ := first_front a s
          refine cons a _ rest (by rw [own, List.cons_append]) ?_ (ih rest.length ?_ rest rfl)
          · rw [pieces_cons, own, List.length_cons, Nat.add_sub_cancel, List.drop_left]
          · rw [← h, List.length_cons, List.length_append]
            omega

/-- No byte is lost. -/
theorem flatMap_pieces (s : Bytes) : (pieces s).flatMap Piece.bytes = s := by
  induction s using pieces_induction with
  | nil => rfl
  | cons a s rest whole parts ih => rw [parts, List.flatMap_cons, ih, ← whole]

theorem valid_cons (a : UInt8) (rest : Bytes) : valid (a :: rest) =
    (!(first a rest).isBroken && valid (rest.drop ((first a rest).bytes.length - 1))) := by
  rw [valid, pieces_cons, List.all_cons]
  rfl

theorem characters_of_valid (s : Bytes) : valid s = true → Characters s := by
  induction s using pieces_induction with
  | nil => exact fun _ => .nil
  | cons a s rest whole parts ih =>
      intro valid
      rw [Utf8.valid, parts, List.all_cons, Bool.and_eq_true] at valid
      rw [whole]
      refine .cons ?_ (ih valid.2)
      cases reads : first a s with
      | broken b => simp [reads, Piece.isBroken] at valid
      | char code c => exact (isCharacter_of_first reads).1

theorem valid_iff {s : Bytes} : valid s = true ↔ Characters s := by
  refine ⟨characters_of_valid s, fun characters => ?_⟩
  induction characters with
  | nil => rfl
  | cons isCharacter _ ih =>
      obtain ⟨a, tail, code, rfl, reads⟩ := isCharacter.reads
      rw [List.cons_append, valid_cons, reads, Piece.bytes, List.length_cons, Nat.add_sub_cancel,
        List.drop_left, ih]
      rfl

theorem Characters.append {s t : Bytes} (front : Characters s) (back : Characters t) : Characters (s ++ t) := by
  induction front with
  | nil => exact back
  | cons isCharacter _ ih =>
      rw [List.append_assoc]
      exact .cons isCharacter ih

theorem characters_of_ascii {s : Bytes} (ascii : ∀ b ∈ s, b < 128) : Characters s := by
  induction s with
  | nil => exact .nil
  | cons b s ih =>
      exact .cons (isCharacter_of_ascii (ascii b List.mem_cons_self))
        (ih fun c member => ascii c (List.mem_cons_of_mem _ member))

end Utf8

end SymbolHistory
