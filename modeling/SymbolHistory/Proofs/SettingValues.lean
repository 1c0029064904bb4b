/-
# Proofs.SettingValues -- a value that was written is read back

`Spells` is what makes a run of bytes a written value: at the end of a line it is
read as that value and nothing else.  Texts, lists of texts and whole numbers are
written so (`spells_quoted`, `spells_list`, `spells_integer`), whatever the texts
are and however many.
-/
import SymbolHistory.Toml.Document
import SymbolHistory.Proofs.Decimals
import SymbolHistory.Proofs.QuotedTexts

set_option autoImplicit false

namespace SymbolHistory

namespace Toml

open Decimal

/-! ## Blanks -/

/-- The bytes start with something to read: no blank, no newline and no comment. -/
def Solid (s : Bytes) : Prop := ∀ b ∈ s.head?, b ≠ 32 ∧ b ≠ 9 ∧ b ≠ 10 ∧ b ≠ 13 ∧ b ≠ 35

theorem skipSpaces_solid {s : Bytes} (solid : Solid s) (n : Nat) : skipSpaces (List.replicate n 32 ++ s) = s := by
  have blanks : ∀ c ∈ List.replicate n (32 : UInt8), (c == 32 || c == 9) = true := by
    intro c member
    rw [List.eq_of_mem_replicate member]
    rfl
  rw [skipSpaces, List.dropWhile_append_of_pos blanks]
  cases s with
  | nil => rfl
  | cons b s =>
      have first := solid b rfl
      exact List.dropWhile_cons_of_neg (by simp [first])

theorem skipLines_solid {s : Bytes} (solid : Solid s) (n fuel : Nat) :
    skipLines (fuel + 1) (List.replicate n 32 ++ s) = some s := by
  have noNewline : newline? s = none := by
    unfold newline?
    split
    · exact absurd rfl (solid 10 rfl).2.2.1
    · exact absurd rfl (solid 13 rfl).2.2.2.1
    · rfl
  simp only [skipLines, skipSpaces_solid solid n, noNewline]
  split
  · exact absurd rfl (solid 35 rfl).2.2.2.2
  · rfl

/-- At the end of a line these bytes are read as the value. -/
structure Spells (s : Bytes) (v : Value) : Prop where
  solid : ∀ rest, Solid (s ++ 10 :: rest)
  reads : ∀ (fuel : Nat) (rest : Bytes), s.length < fuel → value fuel (s ++ 10 :: rest) = some (v, 10 :: rest)

/-! ## Texts -/

theorem solid_quoted (s rest : Bytes) : Solid (quoted s ++ rest) := by
  intro b first
  rw [quoted_append] at first
  obtain rfl : 34 = b := Option.some.inj first
  decide

theorem value_quoted (s : Bytes) {rest : Bytes} (free : rest.head? ≠ some 34) (fuel : Nat) :
    value (fuel + 1) (quoted s ++ rest) = some (.string s, rest) := by
  have read := text_quoted s free
  rw [quoted_append] at read ⊢
  rw [value, read]
  rfl

theorem spells_quoted (s : Bytes) : Spells (quoted s) (.string s) where
  solid rest := solid_quoted s (10 :: rest)
  reads fuel rest enough := by
    obtain ⟨fuel, rfl⟩ : ∃ n, fuel = n + 1 := ⟨fuel - 1, by omega⟩
    exact value_quoted s (by simp) fuel

/-! ## Lists of texts -/

/-- One text of a list: what follows it decides whether the list goes on. -/
theorem listItems_quoted (s : Bytes) {rest : Bytes} (free : rest.head? ≠ some 34) (fuel n : Nat) (done : List Value) :
    listItems (fuel + 2) done (List.replicate n 32 ++ (quoted s ++ rest)) =
      (skipLines (rest.length + 1) rest).bind fun behind =>
        match behind with
        | 44 :: rest => listItems (fuel + 1) (.string s :: done) rest
        | 93 :: rest => some (.array (.string s :: done).reverse, rest)
        | _ => none := by
  have read := value_quoted s free fuel
  rw [listItems, skipLines_solid (solid_quoted s rest) n]
  rw [quoted_append] at read ⊢
  change (value (fuel + 1) (34 :: (s.flatMap escapeByte ++ 34 :: rest))).bind _ = _
  rw [read]
  rfl

/-- The texts of a list, with blanks in front of the first. -/
theorem listItems_join (items : List Bytes) : ∀ (fuel : Nat) (done : List Value) (n : Nat) (rest s : Bytes),
    items.length + 1 < fuel →
    listItems fuel done (List.replicate n 32 ++ (Bytes.join (lit ", ") ((s :: items).map quoted) ++ 93 :: rest)) =
      some (.array (done.reverse ++ (s :: items).map .string), rest) := by
  induction items with
  | nil =>
      intro fuel done n rest s enough
      obtain ⟨fuel, rfl⟩ : ∃ n, fuel = n + 2 := ⟨fuel - 2, by simp at enough; omega⟩
      have closing := skipLines_solid (s := 93 :: rest) (by simp [Solid]) 0 (93 :: rest).length
      rw [List.replicate_zero, List.nil_append] at closing
      rw [List.map_singleton, Bytes.join_singleton, listItems_quoted s (by simp), closing]
      simp
  | cons t items ih =>
      intro fuel done n rest s enough
      obtain ⟨fuel, rfl⟩ : ∃ n, fuel = n + 2 := ⟨fuel - 2, by simp at enough; omega⟩
      have others := ih (fuel + 1) (.string s :: done) 1 rest t (by simp at enough ⊢; omega)
      have parts : Bytes.join (lit ", ") ((s :: t :: items).map quoted) ++ 93 :: rest = quoted s ++
          (44 :: (List.replicate 1 32 ++ (Bytes.join (lit ", ") ((t :: items).map quoted) ++ 93 :: rest))) := by
        rw [List.map_cons, List.map_cons, Bytes.join_cons_cons, ← List.map_cons]
        simp [show lit ", " = [44, 32] from by decide]
      have comma := skipLines_solid (s := 44 ::
        (List.replicate 1 32 ++ (Bytes.join (lit ", ") ((t :: items).map quoted) ++ 93 :: rest))) (by simp [Solid]) 0
      rw [parts, listItems_quoted s (by simp)]
      simp only [List.replicate_zero, List.nil_append] at comma
      rw [comma]
      change listItems (fuel + 1) _ _ = _
      rw [others]
      simp

theorem length_le_join (items : List Bytes) : ∀ s, items.length + 1 ≤
    (Bytes.join (lit ", ") ((s :: items).map quoted)).length := by
  induction items with
  | nil =>
      intro s
      simp [Bytes.join_singleton, quoted]
  | cons t items ih =>
      intro s
      have others := ih t
      rw [List.map_cons, List.map_cons, Bytes.join_cons_cons, ← List.map_cons]
      simp only [List.length_append, List.length_cons, quoted]
      omega

theorem spells_list {items : List Bytes} (some : items ≠ []) :
    Spells (lit "[" ++ Bytes.join (lit ", ") (items.map quoted) ++ lit "]") (.array (items.map .string)) where
  solid rest b first := by
    obtain rfl : 91 = b := Option.some.inj first
    decide
  reads fuel rest enough := by
    obtain ⟨s, items, rfl⟩ := List.exists_cons_of_ne_nil some
    obtain ⟨fuel, rfl⟩ : ∃ n, fuel = n + 1 := ⟨fuel - 1, by omega⟩
    have opening : lit "[" = [91] := by decide
    have closing : lit "]" = [93] := by decide
    have more := length_le_join items s
    rw [opening, closing] at enough ⊢
    simp only [List.length_append, List.length_singleton] at enough
    have read := listItems_join items fuel [] 0 (10 :: rest) s (by omega)
    simp only [List.replicate_zero, List.nil_append, List.reverse_nil] at read
    rw [List.append_assoc, List.append_assoc, List.singleton_append, List.singleton_append, value]
    exact read

theorem legible_join (items : List Bytes) : (∀ s ∈ items, Utf8.valid s = true) →
    Legible (Bytes.join (lit ", ") (items.map quoted)) := by
  induction items with
  | nil => exact fun _ => legible_nil
  | cons s items ih =>
      intro valid
      have first := legible_quoted (valid s List.mem_cons_self)
      have rest := ih fun t member => valid t (List.mem_cons_of_mem _ member)
      cases items with
      | nil => simpa [Bytes.join_singleton] using first
      | cons t items =>
          rw [List.map_cons, List.map_cons, Bytes.join_cons_cons, ← List.map_cons]
          exact (first.append (legible_of_ascii (by decide +kernel))).append rest

theorem legible_list {items : List Bytes} (valid : ∀ s ∈ items, Utf8.valid s = true) :
    Legible (lit "[" ++ Bytes.join (lit ", ") (items.map quoted) ++ lit "]") :=
  ((legible_of_ascii (by decide +kernel)).append (legible_join items valid)).append (legible_of_ascii (by decide +kernel))

/-! ## Whole numbers -/

/-- What is written for a number are digits only, and the first is no zero unless it is the only one. -/
theorem cons_of_ofNat (n : Nat) : ∃ d ds, ofNat n = d :: ds ∧ (∀ b ∈ d :: ds, Bytes.isDigit b = true) ∧
    (d = 48 → ds = []) := by
  obtain ⟨-, nonempty, digits⟩ := ofNat_spec n
  obtain ⟨d, ds, written⟩ := List.exists_cons_of_ne_nil nonempty
  refine ⟨d, ds, written, written ▸ digits, ?_⟩
  rintro rfl
  exact ofNat_eq_zero_cons written

theorem legible_ofNat (n : Nat) : Legible (ofNat n) := by
  apply legible_of_ascii
  intro b member
  have digit := isDigit_of_mem_ofNat member
  simp only [Bytes.isDigit] at digit
  grind

/-- A fold whose steps succeed is the fold of what they come to. -/
theorem foldlM_of_steps {α β : Type} {f : β → α → Option β} {g : β → α → β} {as : List α}
    (steps : ∀ a ∈ as, ∀ b, f b a = some (g b a)) : ∀ b, as.foldlM f b = some (as.foldl g b) := by
  induction as with
  | nil => exact fun b => rfl
  | cons a as ih =>
      intro b
      rw [List.foldlM_cons, steps a List.mem_cons_self]
      exact ih (fun c member => steps c (List.mem_cons_of_mem _ member)) _

/-- Digits are read as the number they stand for. -/
theorem digitsIn_of_digits {s : Bytes} (digits : ∀ b ∈ s, Bytes.isDigit b = true) (nonempty : s ≠ []) :
    digitsIn 10 s = some (Decimal.value s) := by
  have noMark : (95 : UInt8) ∉ s := fun member => absurd (digits 95 member) (by decide)
  simp only [digitsIn, Bytes.splitOn_of_not_mem noMark, List.any_cons, List.any_nil, List.isEmpty_iff, nonempty,
    Bool.or_false, if_false, List.flatten_cons, List.flatten_nil, List.append_nil]
  refine foldlM_of_steps (g := fun (n : Nat) (b : UInt8) => n * 10 + (b.toNat - 48)) (fun b member n => ?_) 0
  have isDigit := digits b member
  have found : Bytes.hexValue? b = some (b.toNat - 48) := if_pos isDigit
  have small : b.toNat - 48 < 10 := by
    simp only [Bytes.isDigit, Bool.and_eq_true, decide_eq_true_eq, UInt8.le_iff_toNat_le] at isDigit
    have high : b.toNat ≤ 57 := isDigit.2
    omega
  rw [found]
  exact if_pos small

theorem decimalDigits_ofNat (n : Nat) : decimalDigits (ofNat n) = some n := by
  obtain ⟨d, ds, written, digits, zero⟩ := cons_of_ofNat n
  have all : (ofNat n).all (fun b => Bytes.isDigit b || b == 95) = true := by
    rw [List.all_eq_true, written]
    intro b member
    rw [digits b member, Bool.true_or]
  have read := digitsIn_of_digits (fun _ member => isDigit_of_mem_ofNat member) (ofNat_spec n).2.1
  rw [value_ofNat] at read
  unfold decimalDigits
  split
  · rename_i c more isZero
    rw [written] at isZero
    obtain ⟨rfl, rfl⟩ := List.cons.inj isZero
    exact absurd (zero rfl) (by simp)
  · rw [if_pos all, read]

theorem integer_ofNat {n : Nat} (small : n < signedLimit) : integer (ofNat n) = some (.integer n) := by
  have fits : fitting n = some (.integer n) := by
    rw [fitting, if_pos]
    simp only [Bool.and_eq_true, decide_eq_true_eq]
    exact ⟨Int.le_trans (by decide) (Int.natCast_nonneg n), Int.ofNat_lt.mpr small⟩
  have digits : ∀ b ∈ ofNat n, Bytes.isDigit b = true := fun _ member => isDigit_of_mem_ofNat member
  unfold integer
  split
  case h_6 => rw [decimalDigits_ofNat, Option.bind_some, fits]
  -- every other form has a byte that is no digit
  all_goals
    rename_i form
    rw [form] at digits
    simp only [List.forall_mem_cons] at digits
  · exact absurd digits.2.1 (by decide)
  · exact absurd digits.2.1 (by decide)
  · exact absurd digits.2.1 (by decide)
  · exact absurd digits.1 (by decide)
  · exact absurd digits.1 (by decide)

theorem word_ofNat {n : Nat} (small : n < signedLimit) (rest : Bytes) :
    word (ofNat n ++ 10 :: rest) = some (.integer n, 10 :: rest) := by
  have digits : ∀ b ∈ ofNat n, Bytes.isDigit b = true := fun _ member => isDigit_of_mem_ofNat member
  have inside : ∀ b ∈ ofNat n, (!endsWord b) = true := by
    intro b member
    have isDigit := digits b member
    simp only [Bytes.isDigit] at isDigit
    rw [Bool.not_eq_true', Bool.eq_false_iff]
    intro ends
    simp only [endsWord, Bool.or_eq_true, beq_iff_eq] at ends
    grind
  have cut := Bytes.span_append (v := 10 :: rest) inside (by simp [endsWord])
  have noName : ∀ s : Bytes, s.any (fun b => !Bytes.isDigit b) = true → (ofNat n == s) = false := by
    intro s other
    rw [beq_eq_false_iff_ne]
    rintro rfl
    obtain ⟨b, member, notDigit⟩ := List.any_eq_true.mp other
    simp [digits b member] at notDigit
  unfold word
  rw [cut]
  change (if ofNat n == lit "true" then _ else if ofNat n == lit "false" then _ else
    integer (ofNat n) <|> _).map (fun v => (v, 10 :: rest)) = _
  rw [noName (lit "true") (by decide), noName (lit "false") (by decide), integer_ofNat small]
  rfl

theorem spells_integer {n : Nat} (small : n < signedLimit) : Spells (ofInt n) (.integer n) := by
  have written : ofInt n = ofNat n := rfl
  obtain ⟨d, ds, cons, digits, -⟩ := cons_of_ofNat n
  have first := digits d List.mem_cons_self
  simp only [Bytes.isDigit] at first
  rw [written]
  refine ⟨fun rest b head => ?_, fun fuel rest enough => ?_⟩
  · rw [cons] at head
    obtain rfl : d = b := Option.some.inj head
    grind
  · obtain ⟨fuel, rfl⟩ : ∃ n, fuel = n + 1 := ⟨fuel - 1, by omega⟩
    have read := word_ofNat small rest
    rw [cons, List.cons_append] at read ⊢
    rw [value]
    · exact read
    all_goals grind

end Toml

end SymbolHistory
