/-
# Proofs.QuotedTexts -- reading a text between double quotes undoes writing it

Whatever bytes a text has, `quoted` writes it with neither a control character
nor a double quote that could end it early, and `text` reads back what was
written, up to the closing quote (`text_quoted`).  What is written for valid text
is valid text without a zero byte (`legible_quoted`).
-/
import SymbolHistory.Toml.Scalar
import SymbolHistory.Proofs.Characters
import SymbolHistory.Proofs.Places

set_option autoImplicit false

namespace SymbolHistory

namespace Toml

open Utf8

/-! ## One byte -/

theorem hexValue?_hexDigit {n : Nat} (small : n < 16) : Bytes.hexValue? (Bytes.hexDigit n) = some n := by
  have all : ∀ n : Fin 16, Bytes.hexValue? (Bytes.hexDigit n) = some n.val := by decide
  exact all ⟨n, small⟩

/-- Four digits, two of them zeros, stand for a byte. -/
theorem hexChar_hexByte {b : UInt8} (ascii : b < 128) (rest : Bytes) :
    hexChar 4 (lit "00" ++ Bytes.hexByte b ++ rest) = some ([b], rest) := by
  have high : b.toNat / 16 < 16 := by have := b.toNat_lt; omega
  have small : b.toNat < 128 := ascii
  have whole : b.toNat / 16 * 16 + b.toNat % 16 = b.toNat := by omega
  have zeros : lit "00" = [48, 48] := by decide
  have zero : Bytes.hexValue? 48 = some 0 := by decide
  simp [hexChar, zeros, zero, Bytes.hexByte, hexValue?_hexDigit high,
    hexValue?_hexDigit (Nat.mod_lt b.toNat (by decide : 16 > 0)), whole, encode, small]
  omega

/-- A byte is written as itself, by a backslash and its letter, or by its number. -/
theorem escapeByte_cases (b : UInt8) :
    (∃ c, escapeByte b = [92, c] ∧ (b < 128 ∧ c < 128 ∧ c ≠ 0) ∧ ∀ s, unescape c s = some ([b], s)) ∨
    (escapeByte b = lit "\\u00" ++ Bytes.hexByte b ∧ b < 128) ∨
    (escapeByte b = [b] ∧ b ≠ 34 ∧ b ≠ 92 ∧ isControl b = false) := by
  by_cases letter : b = 34 ∨ b = 92 ∨ b = 8 ∨ b = 9 ∨ b = 10 ∨ b = 12 ∨ b = 13
  · left
    rcases letter with rfl | rfl | rfl | rfl | rfl | rfl | rfl
    · exact ⟨34, rfl, by decide, fun _ => rfl⟩
    · exact ⟨92, rfl, by decide, fun _ => rfl⟩
    · exact ⟨98, rfl, by decide, fun _ => rfl⟩
    · exact ⟨116, rfl, by decide, fun _ => rfl⟩
    · exact ⟨110, rfl, by decide, fun _ => rfl⟩
    · exact ⟨102, rfl, by decide, fun _ => rfl⟩
    · exact ⟨114, rfl, by decide, fun _ => rfl⟩
  · right
    simp only [not_or] at letter
    obtain ⟨quote, backslash, bell, tab, newline, page, back⟩ := letter
    simp only [escapeByte, beq_iff_eq, Bool.or_eq_true, quote, backslash, bell, tab, newline, page, back,
      or_self, if_false]
    by_cases control : decide (b < 32) = true ∨ b = 127
    · rw [if_pos control]
      exact .inl ⟨rfl, by grind⟩
    · rw [if_neg control]
      refine .inr ⟨rfl, quote, backslash, ?_⟩
      simp only [isControl]
      grind

/-- What is written for a byte is read as that byte. -/
theorem basicText_escapeByte (b : UInt8) (fuel : Nat) (out rest : Bytes) :
    basicText (fuel + 1) out (escapeByte b ++ rest) = basicText fuel (b :: out) rest := by
  rcases escapeByte_cases b with ⟨c, written, -, stands⟩ | ⟨written, ascii⟩ | ⟨written, quote, backslash, printed⟩
  · simp [written, basicText, stands]
  · have digits : unescape 117 (lit "00" ++ Bytes.hexByte b ++ rest) = some ([b], rest) :=
      hexChar_hexByte ascii rest
    have start : lit "\\u00" ++ Bytes.hexByte b ++ rest = 92 :: 117 :: (lit "00" ++ Bytes.hexByte b ++ rest) := rfl
    rw [written, start]
    simp only [basicText, digits, Option.bind_eq_bind, Option.bind_some]
    rfl
  · rw [written, List.singleton_append, basicText]
    · simp [printed]
    all_goals grind

/-- What is written for a byte does not start with a double quote. -/
theorem head?_escapeByte (b : UInt8) : ∃ c tail, escapeByte b = c :: tail ∧ c ≠ 34 := by
  rcases escapeByte_cases b with ⟨c, written, -⟩ | ⟨written, -⟩ | ⟨written, quote, -⟩
  · exact ⟨92, [c], written, by decide⟩
  · exact ⟨92, _, written, by decide⟩
  · exact ⟨b, [], written, quote⟩

/-! ## The whole text -/

theorem basicText_flatMap (s : Bytes) : ∀ (fuel : Nat) (out rest : Bytes), s.length < fuel →
    basicText fuel out (s.flatMap escapeByte ++ 34 :: rest) = some (out.reverse ++ s, rest) := by
  induction s with
  | nil =>
      intro fuel out rest enough
      obtain ⟨fuel, rfl⟩ : ∃ n, fuel = n + 1 := ⟨fuel - 1, by simp at enough; omega⟩
      simp [basicText]
  | cons b s ih =>
      intro fuel out rest enough
      obtain ⟨fuel, rfl⟩ : ∃ n, fuel = n + 1 := ⟨fuel - 1, by simp at enough; omega⟩
      rw [List.flatMap_cons, List.append_assoc, basicText_escapeByte, ih fuel _ _ (by simp at enough; omega)]
      simp

theorem length_le_flatMap (s : Bytes) : s.length ≤ (s.flatMap escapeByte).length := by
  induction s with
  | nil => exact Nat.le_refl _
  | cons b s ih =>
      obtain ⟨c, tail, written, -⟩ := head?_escapeByte b
      simp only [List.flatMap_cons, written, List.length_append, List.length_cons]
      omega

theorem quoted_append (s rest : Bytes) :
    quoted s ++ rest = 34 :: (s.flatMap escapeByte ++ 34 :: rest) := by simp [quoted]

/-- Three quotes start a text of several lines, so an empty text must not be followed by one. -/
theorem text_quoted (s : Bytes) {rest : Bytes} (free : rest.head? ≠ some 34) :
    text (quoted s ++ rest) = some (s, rest) := by
  have enough : s.length < (34 :: (s.flatMap escapeByte ++ 34 :: rest)).length + 1 := by
    have := length_le_flatMap s
    simp only [List.length_cons, List.length_append]
    omega
  have read := basicText_flatMap s _ [] rest enough
  have single : ∀ more, s.flatMap escapeByte ++ 34 :: rest ≠ 34 :: 34 :: more := by
    intro more same
    cases s with
    | nil => exact free (congrArg List.head? (List.cons.inj same).2)
    | cons b s =>
        obtain ⟨c, tail, written, notQuote⟩ := head?_escapeByte b
        rw [List.flatMap_cons, written] at same
        exact notQuote (List.cons.inj same).1
  rw [quoted_append, text]
  · exact read
  · exact single

/-! ## Legible text -/

/-- Valid text without a zero byte, as a document must be. -/
structure Legible (s : Bytes) : Prop where
  characters : Characters s
  noZero : 0 ∉ s

theorem Legible.append {s t : Bytes} (front : Legible s) (back : Legible t) : Legible (s ++ t) where
  characters := front.characters.append back.characters
  noZero member := (List.mem_append.mp member).elim front.noZero back.noZero

theorem legible_of_ascii {s : Bytes} (ascii : ∀ b ∈ s, b < 128 ∧ b ≠ 0) : Legible s where
  characters := characters_of_ascii fun b member => (ascii b member).1
  noZero member := (ascii 0 member).2 rfl

theorem legible_nil : Legible [] := legible_of_ascii nofun

theorem ascii_hexByte (b : UInt8) : ∀ c ∈ Bytes.hexByte b, c < 128 ∧ c ≠ 0 := by
  have all : ∀ n : Fin 16, Bytes.hexDigit n < 128 ∧ Bytes.hexDigit n ≠ 0 := by decide
  have digit : ∀ n < 16, Bytes.hexDigit n < 128 ∧ Bytes.hexDigit n ≠ 0 := fun n small => all ⟨n, small⟩
  have := b.toNat_lt
  simp only [Bytes.hexByte, List.forall_mem_cons]
  exact ⟨digit _ (by omega), digit _ (by omega), nofun⟩

theorem legible_escapeByte {b : UInt8} (ascii : b < 128) : Legible (escapeByte b) := by
  apply legible_of_ascii
  rcases escapeByte_cases b with ⟨c, written, low, -⟩ | ⟨written, -⟩ | ⟨written, -, -, printed⟩
  · rw [written]
    simpa using low.2
  · rw [written, List.forall_mem_append]
    exact ⟨by decide +kernel, ascii_hexByte b⟩
  · rw [written, List.forall_mem_singleton]
    refine ⟨ascii, ?_⟩
    rintro rfl
    exact absurd printed (by decide)

theorem escapeByte_high {b : UInt8} (high : 128 ≤ b) : escapeByte b = [b] := by
  rcases escapeByte_cases b with ⟨c, written, low, -⟩ | ⟨written, ascii⟩ | ⟨written, -⟩
  · exact absurd low.1 (UInt8.not_lt.mpr high)
  · exact absurd ascii (UInt8.not_lt.mpr high)
  · exact written

/-- Valid text is legible once it is written. -/
theorem legible_flatMap {s : Bytes} (characters : Characters s) : Legible (s.flatMap escapeByte) := by
  induction characters with
  | nil => exact legible_nil
  | @cons c rest isCharacter _ ih =>
      rw [List.flatMap_append]
      rcases isCharacter.plain with ⟨a, rfl, ascii⟩ | high
      · simpa using (legible_escapeByte ascii).append ih
      · have same : c.flatMap escapeByte = c := by
          rw [List.flatMap_def, List.map_congr_left fun b member => escapeByte_high (high b member),
            ← List.flatMap_def, List.flatMap_singleton']
        rw [same]
        have alone : Characters c := by simpa using Characters.cons isCharacter .nil
        exact Legible.append ⟨alone, fun member => absurd (high 0 member) (by decide)⟩ ih

theorem legible_quoted {s : Bytes} (valid : valid s = true) : Legible (quoted s) := by
  have mark : Legible [34] := legible_of_ascii (by decide +kernel)
  exact (mark.append (legible_flatMap (valid_iff.mp valid))).append mark

end Toml

end SymbolHistory
