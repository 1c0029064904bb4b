/-
# Proofs.NaturalOrder -- when the order of ids is an order

`verdict` says how two texts compare before the tie between texts of equal
worth is broken bytewise; `less` is `verdict` in one direction (`less_eq`).

The verdict on two texts is reached where they first differ.  There they compare
by the value of a number, or bytewise: because a number does not fit 64 bits, or
because two equal numbers are followed by nothing in one of the texts.  So a text
can be compared bytewise with two texts that compare by value with each other,
and then the three may stand in a circle.  `Crossed` says where this happens, and
it is the only way it happens (`crossed_of_cycle`).
-/
import Mathlib.Data.List.TakeDrop
import SymbolHistory.History.Table

set_option autoImplicit false

namespace SymbolHistory

/-! ## Bytewise order -/

namespace Bytes

theorem order_cons (a b : UInt8) (as bs : Bytes) :
    order (a :: as) (b :: bs) = if a < b then .lt else if b < a then .gt else order as bs := by
  rw [order]

theorem order_self (s : Bytes) : order s s = .eq := by
  induction s with
  | nil => rfl
  | cons b s ih =>
      rw [order_cons, if_neg (UInt8.lt_irrefl b), if_neg (UInt8.lt_irrefl b)]
      exact ih

theorem order_swap (s t : Bytes) : order t s = (order s t).swap := by
  induction s generalizing t with
  | nil => cases t <;> rfl
  | cons a s ih =>
      cases t with
      | nil => rfl
      | cons b t =>
          rw [order_cons, order_cons]
          by_cases less : a < b
          · rw [if_neg (UInt8.lt_asymm less), if_pos less, if_pos less]
            rfl
          · by_cases more : b < a
            · rw [if_pos more, if_neg less, if_pos more]
              rfl
            · rw [if_neg more, if_neg less, if_neg less, if_neg more]
              exact ih t

theorem eq_of_order_eq {s t : Bytes} (same : order s t = .eq) : s = t := by
  induction s generalizing t with
  | nil =>
      cases t with
      | nil => rfl
      | cons b t => cases same
  | cons a s ih =>
      cases t with
      | nil => cases same
      | cons b t =>
          rw [order_cons] at same
          split at same
          · cases same
          · rename_i notLess
            split at same
            · cases same
            · rename_i notMore
              have : a = b := UInt8.le_antisymm (UInt8.not_lt.mp notMore) (UInt8.not_lt.mp notLess)
              rw [this, ih same]

theorem order_trans {s t u : Bytes} (first : order s t = .lt) (second : order t u = .lt) :
    order s u = .lt := by
  induction s generalizing t u with
  | nil =>
      cases u with
      | nil => cases t <;> cases second
      | cons c u => rfl
  | cons a s ih =>
      cases t with
      | nil => cases first
      | cons b t =>
          cases u with
          | nil => cases second
          | cons c u =>
              rw [order_cons] at first second ⊢
              simp only [UInt8.lt_iff_toNat_lt] at first second ⊢
              split at first
              · split at second
                · rw [if_pos (by omega)]
                · split at second
                  · cases second
                  · rw [if_pos (by omega)]
              · split at first
                · cases first
                · split at second
                  · rw [if_pos (by omega)]
                  · split at second
                    · cases second
                    · rw [if_neg (by omega), if_neg (by omega)]
                      exact ih first second

/-- Three texts do not stand in a circle, whatever breaks the ties. -/
theorem order_no_cycle {s t u : Bytes} {o₁ o₂ o₃ : Ordering}
    (apart : ¬(o₁ = .lt ∧ o₂ = .lt ∧ o₃ = .lt)) (first : (order s t).then o₁ = .lt)
    (second : (order t u).then o₂ = .lt) (third : (order u s).then o₃ = .lt) : False := by
  rw [order_swap s u] at third
  cases st : order s t with
  | gt =>
      rw [st] at first
      cases first
  | eq =>
      obtain rfl := eq_of_order_eq st
      rw [st] at first
      cases tu : order s u <;> rw [tu] at second third
      · cases third
      · exact apart ⟨first, second, third⟩
      · cases second
  | lt =>
      cases tu : order t u with
      | gt =>
          rw [tu] at second
          cases second
      | eq =>
          obtain rfl := eq_of_order_eq tu
          rw [st] at third
          cases third
      | lt =>
          rw [order_trans st tu] at third
          cases third

end Bytes

/-! ## How two texts compare -/

namespace NaturalOrder

/-- The value of the number that a text starts with, if it fits 64 bits. -/
def numeral (s : Bytes) : Option Nat := Decimal.unsigned? (leadingDigits s).1

/-- What follows the number. -/
def past (s : Bytes) : Bytes := (leadingDigits s).2

/-- The text starts with a digit. -/
def Numbered (s : Bytes) : Prop := ∃ b rest, s = b :: rest ∧ Bytes.isDigit b = true

theorem leadingDigits_cons {b : UInt8} (digit : Bytes.isDigit b = true) (s : Bytes) :
    leadingDigits (b :: s) = (b :: (leadingDigits s).1, (leadingDigits s).2) := by
  simp [leadingDigits, List.span_eq_takeWhile_dropWhile, digit]

theorem leadingDigits_of_not_digit {b : UInt8} (other : Bytes.isDigit b = false) (s : Bytes) :
    leadingDigits (b :: s) = ([], b :: s) := by
  simp [leadingDigits, List.span_eq_takeWhile_dropWhile, other]

theorem past_cons {b : UInt8} (digit : Bytes.isDigit b = true) (s : Bytes) :
    past (b :: s) = past s := by
  rw [past, leadingDigits_cons digit, past]

theorem past_length_le (s : Bytes) : (past s).length ≤ s.length := by
  rw [past, leadingDigits, List.span_eq_takeWhile_dropWhile]
  exact (List.dropWhile_sublist _).length_le

theorem past_length_lt {s : Bytes} (numbered : Numbered s) : (past s).length < s.length := by
  obtain ⟨b, rest, rfl, digit⟩ := numbered
  rw [past_cons digit]
  exact Nat.lt_succ_of_le (past_length_le rest)

/-- How two texts compare, up to texts of equal worth. -/
def verdict (s t : Bytes) : Ordering :=
  match s, t with
  | [], [] => .eq
  | [], _ :: _ => .lt
  | _ :: _, [] => .gt
  | a :: as, b :: bs =>
    if Bytes.isDigit a = true ∧ Bytes.isDigit b = true then
      match numeral (a :: as), numeral (b :: bs) with
      | some m, some n =>
        if m ≠ n then compare m n
        else if past as = [] ∨ past bs = [] then Bytes.order (a :: as) (b :: bs)
        else verdict (past as) (past bs)
      | _, _ => Bytes.order (a :: as) (b :: bs)
    else if a = b then verdict as bs
    else Bytes.order (a :: as) (b :: bs)
termination_by s.length
decreasing_by
  · exact Nat.lt_succ_of_le (past_length_le as)
  · simp

/-- Equal bytes that are no digits are passed over. -/
theorem verdict_byte {b : UInt8} (other : Bytes.isDigit b = false) (s t : Bytes) :
    verdict (b :: s) (b :: t) = verdict s t := by
  rw [verdict, if_neg (by simp [other]), if_pos rfl]

theorem verdict_numbered {s t : Bytes} (numbered : Numbered s) (numbered' : Numbered t) :
    verdict s t =
      match numeral s, numeral t with
      | some m, some n =>
        if m ≠ n then compare m n
        else if past s = [] ∨ past t = [] then Bytes.order s t
        else verdict (past s) (past t)
      | _, _ => Bytes.order s t := by
  obtain ⟨a, as, rfl, digit⟩ := numbered
  obtain ⟨b, bs, rfl, digit'⟩ := numbered'
  rw [verdict, if_pos ⟨digit, digit'⟩, past_cons digit, past_cons digit']

/-- Texts that compare bytewise although both start with a number. -/
def Bytewise (s t : Bytes) : Prop :=
  numeral s = none ∨ numeral t = none ∨ numeral s = numeral t ∧ (past s = [] ∨ past t = [])

theorem verdict_bytewise {s t : Bytes} (numbered : Numbered s) (numbered' : Numbered t)
    (bytewise : Bytewise s t) : verdict s t = Bytes.order s t := by
  rw [verdict_numbered numbered numbered']
  rcases bytewise with none | none | ⟨same, ended⟩
  · rw [none]
  · rw [none]
    cases numeral s <;> rfl
  · rw [same]
    cases numeral t with
    | none => rfl
    | some n => simp only [ne_eq, not_true_eq_false, if_false, if_pos ended]

theorem verdict_past {s t : Bytes} (numbered : Numbered s) (numbered' : Numbered t) {n : Nat}
    (left : numeral s = some n) (right : numeral t = some n) (more : past s ≠ [])
    (more' : past t ≠ []) : verdict s t = verdict (past s) (past t) := by
  rw [verdict_numbered numbered numbered', left, right]
  simp only [ne_eq, not_true_eq_false, if_false, more, more', or_self]

theorem verdict_values {s t : Bytes} (numbered : Numbered s) (numbered' : Numbered t) {m n : Nat}
    (left : numeral s = some m) (right : numeral t = some n) (different : m ≠ n) :
    verdict s t = compare m n := by
  rw [verdict_numbered numbered numbered', left, right]
  simp only [ne_eq, different, not_false_eq_true, if_true]

/-- Where a text stands by what it starts with: nothing comes first, a digit stands in the place
of all digits. -/
def standing : Bytes → Nat
  | [] => 0
  | b :: _ => if Bytes.isDigit b then 49 else b.toNat + 1

theorem standing_of_numbered {s : Bytes} (numbered : Numbered s) : standing s = 49 := by
  obtain ⟨b, rest, rfl, digit⟩ := numbered
  rw [standing, if_pos digit]

theorem isDigit_iff (b : UInt8) : Bytes.isDigit b = true ↔ 48 ≤ b.toNat ∧ b.toNat ≤ 57 := by
  simp [Bytes.isDigit, UInt8.le_iff_toNat_le]

theorem numbered_of_standing {s : Bytes} (place : standing s = 49) : Numbered s := by
  cases s with
  | nil => cases place
  | cons b rest =>
      rw [standing] at place
      split at place
      · exact ⟨b, rest, rfl, by assumption⟩
      · rename_i other
        rw [isDigit_iff] at other
        omega

theorem eq_nil_of_standing {s : Bytes} (place : standing s = 0) : s = [] := by
  cases s with
  | nil => rfl
  | cons b s =>
      rw [standing] at place
      split at place <;> cases place

theorem eq_cons_of_standing {s : Bytes} {b : UInt8} (other : Bytes.isDigit b = false)
    (place : standing s = b.toNat + 1) : ∃ rest, s = b :: rest := by
  cases s with
  | nil => cases place
  | cons a s =>
      rw [standing] at place
      split at place
      · rw [← Bool.not_eq_true, isDigit_iff] at other
        omega
      · exact ⟨s, by rw [UInt8.toNat_inj.mp (Nat.succ.inj place)]⟩

/-- Texts that stand in different places compare by their places. -/
theorem verdict_of_standing {s t : Bytes} (less : standing s < standing t) : verdict s t = .lt := by
  cases s with
  | nil =>
      cases t with
      | nil => cases less
      | cons b t => rw [verdict]
  | cons a s =>
      cases t with
      | nil => cases less
      | cons b t =>
          rw [standing, standing] at less
          have notDigits : ¬(Bytes.isDigit a = true ∧ Bytes.isDigit b = true) := by
            rintro ⟨digit, digit'⟩
            rw [if_pos digit, if_pos digit'] at less
            omega
          have below : a.toNat < b.toNat := by
            simp only [isDigit_iff] at less notDigits
            split at less <;> split at less <;> omega
          have different : a ≠ b := fun same => by simp [same] at below
          rw [verdict, if_neg notDigits, if_neg different, Bytes.order_cons,
            if_pos (UInt8.lt_iff_toNat_lt.mpr below)]

/-- Bytewise texts compare bytewise in both directions. -/
theorem Bytewise.symm {s t : Bytes} (bytewise : Bytewise s t) : Bytewise t s := by
  rcases bytewise with none | none | ⟨same, ended⟩
  · exact .inr (.inl none)
  · exact .inl none
  · exact .inr (.inr ⟨same.symm, ended.symm⟩)

theorem verdict_swap (s t : Bytes) : verdict t s = (verdict s t).swap := by
  induction s, t using verdict.induct with
  | case1 => simp [verdict]
  | case2 => simp [verdict]
  | case3 => simp [verdict]
  | case4 a as b bs digits m n right left different =>
      have numbered : Numbered (a :: as) := ⟨a, as, rfl, digits.1⟩
      have numbered' : Numbered (b :: bs) := ⟨b, bs, rfl, digits.2⟩
      rw [verdict_values numbered numbered' left right different,
        verdict_values numbered' numbered right left (Ne.symm different), Nat.compare_swap]
  | case5 a as b bs digits m n right left same ended =>
      have numbered : Numbered (a :: as) := ⟨a, as, rfl, digits.1⟩
      have numbered' : Numbered (b :: bs) := ⟨b, bs, rfl, digits.2⟩
      obtain rfl : m = n := by simpa using same
      have bytewise : Bytewise (a :: as) (b :: bs) := by
        rw [← past_cons digits.1 as, ← past_cons digits.2 bs] at ended
        exact .inr (.inr ⟨left.trans right.symm, ended⟩)
      rw [verdict_bytewise numbered numbered' bytewise,
        verdict_bytewise numbered' numbered bytewise.symm, Bytes.order_swap]
  | case6 a as b bs digits m n right left same more ih =>
      have numbered : Numbered (a :: as) := ⟨a, as, rfl, digits.1⟩
      have numbered' : Numbered (b :: bs) := ⟨b, bs, rfl, digits.2⟩
      obtain rfl : m = n := by simpa using same
      rw [← past_cons digits.1 as, ← past_cons digits.2 bs, not_or] at more
      rw [verdict_past numbered numbered' left right more.1 more.2,
        verdict_past numbered' numbered right left more.2 more.1, past_cons digits.1,
        past_cons digits.2]
      exact ih
  | case7 a as b bs digits long =>
      have numbered : Numbered (a :: as) := ⟨a, as, rfl, digits.1⟩
      have numbered' : Numbered (b :: bs) := ⟨b, bs, rfl, digits.2⟩
      have bytewise : Bytewise (a :: as) (b :: bs) := by
        cases left : numeral (a :: as) with
        | none => exact .inl left
        | some m =>
            cases right : numeral (b :: bs) with
            | none => exact .inr (.inl right)
            | some n => exact (long m n left right).elim
      rw [verdict_bytewise numbered numbered' bytewise,
        verdict_bytewise numbered' numbered bytewise.symm, Bytes.order_swap]
  | case8 as b bs other ih =>
      have other : Bytes.isDigit b = false := by simpa using other
      rw [verdict_byte other, verdict_byte other]
      exact ih
  | case9 a as b bs other different =>
      rw [verdict, verdict, if_neg other, if_neg fun both => other both.symm, if_neg different,
        if_neg (Ne.symm different), Bytes.order_swap]

/-! ## `less` is the verdict -/

/-- Passing over equal bytes does not change the verdict, and leaves texts that do not start with
the same byte, unless with a digit. -/
theorem skipCommon_spec (s t : Bytes) :
    verdict (skipCommon s t).1 (skipCommon s t).2 = verdict s t ∧
      (skipCommon s t).1.length ≤ s.length ∧
      ∀ a as b bs, skipCommon s t = (a :: as, b :: bs) →
        Bytes.isDigit a = true ∧ Bytes.isDigit b = true ∨ a ≠ b := by
  induction s generalizing t with
  | nil => simp [skipCommon]
  | cons x s ih =>
      cases t with
      | nil => simp [skipCommon]
      | cons y t =>
          rw [skipCommon]
          split
          · rename_i stop
            refine ⟨rfl, Nat.le_refl _, ?_⟩
            rintro a as b bs same
            cases same
            simp only [Bool.or_eq_true, bne_iff_ne] at stop
            by_cases same : x = y
            · subst same
              exact .inl (by simpa using stop)
            · exact .inr same
          · rename_i on
            simp only [Bool.or_eq_true, bne_iff_ne, not_or, Bool.not_eq_true, not_not] at on
            obtain ⟨⟨other, -⟩, rfl⟩ := on
            obtain ⟨same, shorter, stuck⟩ := ih t
            exact ⟨by rw [same, verdict_byte other], Nat.le_succ_of_le shorter, stuck⟩

/-- With enough room for the numbers of the first text, `lessFrom` is the verdict. -/
theorem lessFrom_eq (fuel : Nat) :
    ∀ s t : Bytes, s.length < fuel → lessFrom fuel s t = (verdict s t == .lt) := by
  induction fuel with
  | zero => intro s t room; omega
  | succ fuel ih =>
      intro s t room
      obtain ⟨same, shorter, stuck⟩ := skipCommon_spec s t
      rw [lessFrom, ← same]
      generalize skipCommon s t = rest at stuck shorter ⊢
      obtain ⟨s', t'⟩ := rest
      cases s' with
      | nil => cases t' <;> simp [verdict]
      | cons a as =>
          cases t' with
          | nil =>
              have none : Decimal.unsigned? (leadingDigits []).1 = none := rfl
              simp only [List.isEmpty_cons, Bool.false_eq_true, if_false, none, Bytes.before,
                Bytes.order, verdict]
              cases Decimal.unsigned? (leadingDigits (a :: as)).1 <;> rfl
          | cons b bs =>
              simp only [List.isEmpty_cons, Bool.false_eq_true, if_false]
              by_cases digits : Bytes.isDigit a = true ∧ Bytes.isDigit b = true
              · have shorter' := past_length_lt ⟨a, as, rfl, digits.1⟩
                rw [verdict_numbered ⟨a, as, rfl, digits.1⟩ ⟨b, bs, rfl, digits.2⟩]
                change (match numeral (a :: as), numeral (b :: bs) with
                  | some m, some n =>
                    if m != n then decide (m < n)
                    else if (past (a :: as)).isEmpty || (past (b :: bs)).isEmpty then
                      Bytes.before (a :: as) (b :: bs)
                    else lessFrom fuel (past (a :: as)) (past (b :: bs))
                  | _, _ => Bytes.before (a :: as) (b :: bs)) = _
                have next := ih (past (a :: as)) (past (b :: bs)) (by dsimp only at shorter; omega)
                cases numeral (a :: as) with
                | none => rfl
                | some m =>
                    cases numeral (b :: bs) with
                    | none => rfl
                    | some n =>
                        by_cases different : m = n
                        · simp only [different, bne_self_eq_false, Bool.false_eq_true, if_false,
                            Bool.or_eq_true, List.isEmpty_iff, ne_eq, not_true_eq_false, next]
                          split <;> rfl
                        · simp only [bne_iff_ne, ne_eq, different, not_false_eq_true, if_true]
                          rw [Bool.eq_iff_iff, decide_eq_true_eq, beq_iff_eq, Nat.compare_eq_lt]
              · have different := (stuck a as b bs rfl).resolve_left digits
                rw [verdict, if_neg digits, if_neg different]
                rcases not_and_or.mp digits with other | other
                · rw [leadingDigits_of_not_digit (by simpa using other)]
                  rfl
                · rw [leadingDigits_of_not_digit (s := bs) (by simpa using other)]
                  cases Decimal.unsigned? (leadingDigits (a :: as)).1 <;> rfl

theorem less_eq (s t : Bytes) : less s t = (verdict s t == .lt) :=
  lessFrom_eq _ s t (by omega)

/-! ## Three texts -/

/-- Three texts that begin alike, and what each goes on with: equal bytes that are no digits and
numbers of equal value are alike, as long as every text goes on after them. -/
inductive Abreast : Bytes → Bytes → Bytes → Bytes → Bytes → Bytes → Prop where
  | here (x y z : Bytes) : Abreast x y z x y z
  | byte {x y z x' y' z' : Bytes} {b : UInt8} (other : Bytes.isDigit b = false)
      (rest : Abreast x y z x' y' z') : Abreast (b :: x) (b :: y) (b :: z) x' y' z'
  | number {x y z x' y' z' : Bytes} {n : Nat} (first : Numbered x ∧ numeral x = some n ∧ past x ≠ [])
      (second : Numbered y ∧ numeral y = some n ∧ past y ≠ [])
      (third : Numbered z ∧ numeral z = some n ∧ past z ≠ [])
      (rest : Abreast (past x) (past y) (past z) x' y' z') : Abreast x y z x' y' z'

/-- `x` and `y` compare by their numbers and what follows them, but `z` compares bytewise with both:
its number does not fit, or all three have one value and only `z` ends there. -/
def Odd (x y z : Bytes) : Prop :=
  numeral z = none ∧ numeral x ≠ none ∧ numeral y ≠ none ∨
    ∃ n, (numeral x = some n ∧ past x ≠ []) ∧ (numeral y = some n ∧ past y ≠ []) ∧
      numeral z = some n ∧ past z = []

/-- The texts `x`, `y` and `z` come to numbers of which the third is odd, and bytewise `z` is there
between `y` and `x`. -/
def Crossed (x y z : Bytes) : Prop :=
  ∃ x' y' z', Abreast x y z x' y' z' ∧ Numbered x' ∧ Numbered y' ∧ Numbered z' ∧ Odd x' y' z' ∧
    Bytes.order y' z' = .lt ∧ Bytes.order z' x' = .lt

theorem Abreast.verdict_eq {x y z x' y' z' : Bytes} (abreast : Abreast x y z x' y' z') :
    verdict x y = verdict x' y' ∧ verdict y z = verdict y' z' ∧ verdict z x = verdict z' x' := by
  induction abreast with
  | here x y z => exact ⟨rfl, rfl, rfl⟩
  | byte other _ ih =>
      rw [verdict_byte other, verdict_byte other, verdict_byte other]
      exact ih
  | number first second third _ ih =>
      obtain ⟨numbered, value, more⟩ := first
      obtain ⟨numbered', value', more'⟩ := second
      obtain ⟨numbered'', value'', more''⟩ := third
      rw [verdict_past numbered numbered' value value' more more',
        verdict_past numbered' numbered'' value' value'' more' more'',
        verdict_past numbered'' numbered value'' value more'' more]
      exact ih

theorem Odd.bytewise {x y z : Bytes} (odd : Odd x y z) : Bytewise y z ∧ Bytewise z x := by
  rcases odd with ⟨none, -⟩ | ⟨n, ⟨value, -⟩, ⟨value', -⟩, value'', ended⟩
  · exact ⟨.inr (.inl none), .inl none⟩
  · exact ⟨.inr (.inr ⟨value'.trans value''.symm, .inr ended⟩),
      .inr (.inr ⟨value''.trans value.symm, .inl ended⟩)⟩

theorem Odd.ne {x y z : Bytes} (odd : Odd x y z) : y ≠ z ∧ z ≠ x := by
  rcases odd with ⟨none, some, some'⟩ | ⟨n, ⟨-, more⟩, ⟨-, more'⟩, -, ended⟩
  · exact ⟨fun same => some' (same ▸ none), fun same => some (same ▸ none)⟩
  · exact ⟨fun same => more' (same ▸ ended), fun same => more (same ▸ ended)⟩

/-- Crossed texts: the third follows the second and comes before the first. -/
theorem Crossed.verdict_eq {x y z : Bytes} (crossed : Crossed x y z) :
    verdict y z = .lt ∧ verdict z x = .lt := by
  obtain ⟨x', y', z', abreast, first, second, third, odd, below, above⟩ := crossed
  obtain ⟨-, same, same'⟩ := abreast.verdict_eq
  rw [same, same', verdict_bytewise second third odd.bytewise.1,
    verdict_bytewise third first odd.bytewise.2]
  exact ⟨below, above⟩

theorem Crossed.ne {x y z : Bytes} (crossed : Crossed x y z) : x ≠ y := by
  rintro rfl
  obtain ⟨below, above⟩ := crossed.verdict_eq
  rw [verdict_swap, below] at above
  cases above

theorem Crossed.byte {x y z : Bytes} {b : UInt8} (other : Bytes.isDigit b = false)
    (crossed : Crossed x y z) : Crossed (b :: x) (b :: y) (b :: z) := by
  obtain ⟨x', y', z', abreast, rest⟩ := crossed
  exact ⟨x', y', z', abreast.byte other, rest⟩

theorem Crossed.number {x y z : Bytes} {n : Nat}
    (first : Numbered x ∧ numeral x = some n ∧ past x ≠ [])
    (second : Numbered y ∧ numeral y = some n ∧ past y ≠ [])
    (third : Numbered z ∧ numeral z = some n ∧ past z ≠ [])
    (crossed : Crossed (past x) (past y) (past z)) : Crossed x y z := by
  obtain ⟨x', y', z', abreast, rest⟩ := crossed
  exact ⟨x', y', z', abreast.number first second third, rest⟩

/-- Numbers of three texts: one of them is odd, or all pairs compare bytewise, or all go on after
equal values. -/
theorem odd_or_bytewise_or_on {x y z : Bytes}
    (same : ∀ m n k, numeral x = some m → numeral y = some n → numeral z = some k → m = n ∧ n = k) :
    (Odd x y z ∨ Odd y z x ∨ Odd z x y) ∨ (Bytewise x y ∧ Bytewise y z ∧ Bytewise z x) ∨
      ∃ n, (numeral x = some n ∧ past x ≠ []) ∧ (numeral y = some n ∧ past y ≠ []) ∧
        numeral z = some n ∧ past z ≠ [] := by
  cases first : numeral x with
  | none =>
      cases second : numeral y with
      | none => exact .inr (.inl ⟨.inl first, .inl second, .inr (.inl first)⟩)
      | some n =>
          cases third : numeral z with
          | none => exact .inr (.inl ⟨.inl first, .inr (.inl third), .inl third⟩)
          | some k => exact .inl (.inr (.inl (.inl ⟨first, by simp [second], by simp [third]⟩)))
  | some m =>
      cases second : numeral y with
      | none =>
          cases third : numeral z with
          | none => exact .inr (.inl ⟨.inr (.inl second), .inl second, .inl third⟩)
          | some k => exact .inl (.inr (.inr (.inl ⟨second, by simp [third], by simp [first]⟩)))
      | some n =>
          cases third : numeral z with
          | none => exact .inl (.inl (.inl ⟨third, by simp [first], by simp [second]⟩))
          | some k =>
              obtain ⟨rfl, rfl⟩ := same m n k first second third
              simp only [Odd, Bytewise, first, second, third]
              by_cases ended : past x = [] <;> by_cases ended' : past y = [] <;>
                by_cases ended'' : past z = [] <;> simp [ended, ended', ended'']

theorem le_of_verdict {s t : Bytes} {o : Ordering} {m n : Nat} (numbered : Numbered s)
    (numbered' : Numbered t) (left : numeral s = some m) (right : numeral t = some n)
    (ahead : (verdict s t).then o = .lt) : m ≤ n := by
  by_contra more
  have greater : compare m n = .gt := Nat.compare_eq_gt.mpr (by omega)
  rw [verdict_values numbered numbered' left right (by omega), greater] at ahead
  cases ahead

theorem crossed_of_odd {x y z : Bytes} {o o' : Ordering} (first : Numbered x) (second : Numbered y)
    (third : Numbered z) (odd : Odd x y z) (below : (verdict y z).then o = .lt)
    (above : (verdict z x).then o' = .lt) : Crossed x y z := by
  have strict : ∀ {s t : Bytes} {o : Ordering}, s ≠ t → (Bytes.order s t).then o = .lt →
      Bytes.order s t = .lt := by
    intro s t o different ahead
    cases way : Bytes.order s t with
    | lt => rfl
    | eq => exact absurd (Bytes.eq_of_order_eq way) different
    | gt =>
        rw [way] at ahead
        cases ahead
  rw [verdict_bytewise second third odd.bytewise.1] at below
  rw [verdict_bytewise third first odd.bytewise.2] at above
  exact ⟨x, y, z, .here x y z, first, second, third, odd, strict odd.ne.1 below, strict odd.ne.2 above⟩

/-- Texts in a circle are crossed in one of its three turns, unless the ties are in a circle. -/
theorem crossed_of_cycle {o₁ o₂ o₃ : Ordering} (apart : ¬(o₁ = .lt ∧ o₂ = .lt ∧ o₃ = .lt))
    (size : Nat) :
    ∀ {x y z : Bytes}, x.length < size → (verdict x y).then o₁ = .lt →
      (verdict y z).then o₂ = .lt → (verdict z x).then o₃ = .lt →
      Crossed x y z ∨ Crossed y z x ∨ Crossed z x y := by
  induction size with
  | zero => intro x y z room; omega
  | succ size ih =>
      intro x y z room first second third
      -- going round, nobody stands further on than the next
      have notBack : ∀ {s t : Bytes} {o : Ordering}, (verdict s t).then o = .lt →
          standing s ≤ standing t := by
        intro s t o ahead
        by_contra back
        rw [verdict_swap, verdict_of_standing (by omega : standing t < standing s)] at ahead
        cases ahead
      have xy := notBack first
      have yz := notBack second
      have zx := notBack third
      cases x with
      | nil =>
          obtain rfl : z = [] := eq_nil_of_standing (Nat.le_zero.mp zx)
          obtain rfl : y = [] := eq_nil_of_standing (Nat.le_zero.mp yz)
          rw [verdict] at first second third
          exact (apart ⟨first, second, third⟩).elim
      | cons b xs =>
          by_cases digit : Bytes.isDigit b = true
          · have numbered : Numbered (b :: xs) := ⟨b, xs, rfl, digit⟩
            have place := standing_of_numbered numbered
            have numbered' := numbered_of_standing (by omega : standing y = 49)
            have numbered'' := numbered_of_standing (by omega : standing z = 49)
            have same : ∀ m n k, numeral (b :: xs) = some m → numeral y = some n →
                numeral z = some k → m = n ∧ n = k := by
              intro m n k value value' value''
              have := le_of_verdict numbered numbered' value value' first
              have := le_of_verdict numbered' numbered'' value' value'' second
              have := le_of_verdict numbered'' numbered value'' value third
              omega
            rcases odd_or_bytewise_or_on same with (odd | odd | odd) | ⟨xy, yz, zx⟩ | ⟨n, on, on', on''⟩
            · exact .inl (crossed_of_odd numbered numbered' numbered'' odd second third)
            · exact .inr (.inl (crossed_of_odd numbered' numbered'' numbered odd third first))
            · exact .inr (.inr (crossed_of_odd numbered'' numbered numbered' odd first second))
            · rw [verdict_bytewise numbered numbered' xy] at first
              rw [verdict_bytewise numbered' numbered'' yz] at second
              rw [verdict_bytewise numbered'' numbered zx] at third
              exact (Bytes.order_no_cycle apart first second third).elim
            · rw [verdict_past numbered numbered' on.1 on'.1 on.2 on'.2] at first
              rw [verdict_past numbered' numbered'' on'.1 on''.1 on'.2 on''.2] at second
              rw [verdict_past numbered'' numbered on''.1 on.1 on''.2 on.2] at third
              have shorter := past_length_lt numbered
              rcases ih (by omega) first second third with crossed | crossed | crossed
              · exact .inl (crossed.number ⟨numbered, on⟩ ⟨numbered', on'⟩ ⟨numbered'', on''⟩)
              · exact .inr (.inl (crossed.number ⟨numbered', on'⟩ ⟨numbered'', on''⟩ ⟨numbered, on⟩))
              · exact .inr (.inr (crossed.number ⟨numbered'', on''⟩ ⟨numbered, on⟩ ⟨numbered', on'⟩))
          · have other : Bytes.isDigit b = false := by simpa using digit
            have place : standing (b :: xs) = b.toNat + 1 := by rw [standing, if_neg digit]
            obtain ⟨ys, rfl⟩ := eq_cons_of_standing other (by omega : standing y = b.toNat + 1)
            obtain ⟨zs, rfl⟩ := eq_cons_of_standing other (by omega : standing z = b.toNat + 1)
            rw [verdict_byte other] at first second third
            rw [List.length_cons] at room
            rcases ih (by omega) first second third with crossed | crossed | crossed
            · exact .inl (crossed.byte other)
            · exact .inr (.inl (crossed.byte other))
            · exact .inr (.inr (crossed.byte other))

theorem verdict_self (s : Bytes) : verdict s s = .eq := by
  have same := verdict_swap s s
  cases way : verdict s s <;> rw [way] at same <;> first | rfl | cases same

/-- Names compare by the verdict on their small-letter texts, ties bytewise. -/
theorem order_eq (a b : Bytes) :
    order a b = (verdict (LetterCase.lowerText a) (LetterCase.lowerText b)).then
      (Bytes.order (LetterCase.lowerText a) (LetterCase.lowerText b)) := by
  simp only [order, less_eq, verdict_swap (LetterCase.lowerText a) (LetterCase.lowerText b)]
  by_cases same : LetterCase.lowerText a = LetterCase.lowerText b
  · rw [same, verdict_self, Bytes.order_self]
    simp
  · cases verdict (LetterCase.lowerText a) (LetterCase.lowerText b) <;> simp [same]

theorem order_swap (a b : Bytes) : order b a = (order a b).swap := by
  rw [order_eq, order_eq, verdict_swap, Bytes.order_swap, Ordering.swap_then]

end NaturalOrder

/-! ## Ids -/

namespace SymbolId

/-- What decides between ids whose names are of equal worth. -/
def tie (a b : SymbolId) : Ordering :=
  (Bytes.order (LetterCase.lowerText a.name) (LetterCase.lowerText b.name)).then
    ((compare a.kind.number b.kind.number).then (Bytes.order a.name b.name))

theorem order_eq (a b : SymbolId) :
    order a b = (NaturalOrder.verdict (LetterCase.lowerText a.name)
      (LetterCase.lowerText b.name)).then (tie a b) := by
  rw [order, NaturalOrder.order_eq, tie]
  cases NaturalOrder.verdict (LetterCase.lowerText a.name) (LetterCase.lowerText b.name) <;>
    cases Bytes.order (LetterCase.lowerText a.name) (LetterCase.lowerText b.name) <;>
    cases compare a.kind.number b.kind.number <;> rfl

theorem tie_swap (a b : SymbolId) : tie b a = (tie a b).swap := by
  rw [tie, tie, Bytes.order_swap, ← Nat.compare_swap, Bytes.order_swap a.name, Ordering.swap_then,
    Ordering.swap_then]

theorem order_swap (a b : SymbolId) : order b a = (order a b).swap := by
  rw [order_eq, order_eq, NaturalOrder.verdict_swap, tie_swap, Ordering.swap_then]

theorem kind_eq_of_number {j k : SymbolKind} (same : j.number = k.number) : j = k := by
  cases j <;> cases k <;> first | rfl | cases same

/-- Ids that compare equal are equal. -/
theorem order_eq_iff (a b : SymbolId) : order a b = .eq ↔ a = b := by
  constructor
  · intro same
    rw [order_eq, tie, Ordering.then_eq_eq, Ordering.then_eq_eq, Ordering.then_eq_eq] at same
    obtain ⟨-, -, kinds, names⟩ := same
    have kinds := kind_eq_of_number (Nat.compare_eq_eq.mp kinds)
    have names := Bytes.eq_of_order_eq names
    cases a
    cases b
    simp_all
  · rintro rfl
    rw [order_eq, tie, NaturalOrder.verdict_self, Bytes.order_self, Bytes.order_self]
    simp

/-- Ties are not in a circle. -/
theorem tie_no_cycle (a b c : SymbolId) : ¬(tie a b = .lt ∧ tie b c = .lt ∧ tie c a = .lt) := by
  rintro ⟨first, second, third⟩
  refine Bytes.order_no_cycle ?_ first second third
  rintro ⟨first, second, third⟩
  have notBack : ∀ {m n : Nat} {o : Ordering}, (compare m n).then o = .lt → m ≤ n := by
    intro m n o ahead
    by_contra more
    rw [Nat.compare_eq_gt.mpr (by omega)] at ahead
    cases ahead
  have ab := notBack first
  have bc := notBack second
  have ca := notBack third
  rw [Nat.compare_eq_eq.mpr (by omega)] at first second third
  have zero : ¬(Ordering.eq = .lt ∧ Ordering.eq = .lt ∧ Ordering.eq = .lt) := by simp
  rw [Ordering.eq_then] at first second third
  refine Bytes.order_no_cycle (s := a.name) (t := b.name) (u := c.name) zero ?_ ?_ ?_
  · rwa [Ordering.then_eq]
  · rwa [Ordering.then_eq]
  · rwa [Ordering.then_eq]

/-- The names of `a` and `b` are in natural order, and the name of `c` crosses them. -/
def Clash (a b c : SymbolId) : Prop :=
  NaturalOrder.order a.name b.name = .lt ∧
    NaturalOrder.Crossed (LetterCase.lowerText a.name) (LetterCase.lowerText b.name)
      (LetterCase.lowerText c.name)

/-- Ids that clash are in a circle. -/
theorem Clash.cycle {a b c : SymbolId} (clash : Clash a b c) :
    order a b = .lt ∧ order b c = .lt ∧ order c a = .lt := by
  obtain ⟨first, crossed⟩ := clash
  obtain ⟨second, third⟩ := crossed.verdict_eq
  refine ⟨?_, ?_, ?_⟩
  · rw [order, first]
  · rw [order_eq, second]
    rfl
  · rw [order_eq, third]
    rfl

/-- Ids in a circle clash in one of its three turns. -/
theorem clash_of_cycle {a b c : SymbolId} (first : order a b = .lt) (second : order b c = .lt)
    (third : order c a = .lt) : Clash a b c ∨ Clash b c a ∨ Clash c a b := by
  -- ids whose names are crossed have different names, so their names decide
  have clash : ∀ {a b c : SymbolId}, order a b = .lt →
      NaturalOrder.Crossed (LetterCase.lowerText a.name) (LetterCase.lowerText b.name)
        (LetterCase.lowerText c.name) → Clash a b c := by
    intro a b c ahead crossed
    refine ⟨?_, crossed⟩
    have different := crossed.ne
    rw [order] at ahead
    cases way : NaturalOrder.order a.name b.name with
    | lt => rfl
    | eq =>
        rw [NaturalOrder.order_eq, Ordering.then_eq_eq] at way
        exact absurd (Bytes.eq_of_order_eq way.2) different
    | gt =>
        rw [way] at ahead
        cases ahead
  have names := first
  have names' := second
  have names'' := third
  rw [order_eq] at names names' names''
  rcases NaturalOrder.crossed_of_cycle (tie_no_cycle a b c) _ (Nat.lt_succ_self _) names names' names''
    with crossed | crossed | crossed
  · exact .inl (clash first crossed)
  · exact .inr (.inl (clash second crossed))
  · exact .inr (.inr (clash third crossed))

/-- Of three ids in a row the first comes before the last, exactly if they do not clash. -/
theorem order_trans_iff {a b c : SymbolId} (first : order a b = .lt) (second : order b c = .lt) :
    order a c = .lt ↔ ¬(Clash a b c ∨ Clash b c a ∨ Clash c a b) := by
  constructor
  · intro ahead clash
    have back : order c a = .lt := by
      rcases clash with clash | clash | clash
      · exact clash.cycle.2.2
      · exact clash.cycle.2.1
      · exact clash.cycle.1
    rw [order_swap, ahead] at back
    cases back
  · intro clear
    cases way : order a c with
    | lt => rfl
    | eq =>
        obtain rfl := (order_eq_iff a c).mp way
        rw [order_swap, first] at second
        cases second
    | gt =>
        have back : order c a = .lt := by rw [order_swap, way]; rfl
        exact absurd (clash_of_cycle first second back) clear

end SymbolId

namespace Table

/-- Sorting only needs the laws on what is sorted. -/
theorem pairwise_mergeSort_of_mem {α : Type} {le : α → α → Bool} {l : List α}
    (trans : ∀ a ∈ l, ∀ b ∈ l, ∀ c ∈ l, le a b = true → le b c = true → le a c = true)
    (total : ∀ a ∈ l, ∀ b ∈ l, (le a b || le b a) = true) :
    (l.mergeSort le).Pairwise fun a b => le a b = true := by
  let inner : { a // a ∈ l } → { a // a ∈ l } → Bool := fun a b => le a.1 b.1
  have sorted : (l.attach.mergeSort inner).Pairwise fun a b => inner a b = true :=
    List.pairwise_mergeSort (fun a b c => trans a.1 a.2 b.1 b.2 c.1 c.2)
      (fun a b => total a.1 a.2 b.1 b.2) l.attach
  have outer : (l.attach.mergeSort inner).map Subtype.val = l.mergeSort le := by
    rw [List.map_mergeSort (s := le) fun _ _ _ _ => rfl, List.attach_map_subtype_val]
  rw [← outer, List.pairwise_map]
  exact sorted

theorem eq_of_order_ne_gt {a b : SymbolId} (forth : (SymbolId.order a b != .gt) = true)
    (back : (SymbolId.order b a != .gt) = true) : a = b := by
  rw [SymbolId.order_swap] at back
  rw [← SymbolId.order_eq_iff]
  cases way : SymbolId.order a b with
  | lt =>
      rw [way] at back
      cases back
  | eq => rfl
  | gt =>
      rw [way] at forth
      cases forth

/-- Ids that do not clash are sorted. -/
theorem pairwise_mergeSort_of_clear {l : List SymbolId}
    (clear : ∀ a ∈ l, ∀ b ∈ l, ∀ c ∈ l, ¬SymbolId.Clash a b c) :
    (l.mergeSort fun a b => SymbolId.order a b != .gt).Pairwise
      fun a b => (SymbolId.order a b != .gt) = true := by
  refine pairwise_mergeSort_of_mem (fun a inA b inB c inC forth on => ?_) fun a _ b _ => ?_
  · cases ab : SymbolId.order a b with
    | gt =>
        rw [ab] at forth
        cases forth
    | eq =>
        rw [(SymbolId.order_eq_iff a b).mp ab]
        exact on
    | lt =>
        cases bc : SymbolId.order b c with
        | gt =>
            rw [bc] at on
            cases on
        | eq =>
            rw [← (SymbolId.order_eq_iff b c).mp bc, ab]
            rfl
        | lt =>
            have apart : ¬(SymbolId.Clash a b c ∨ SymbolId.Clash b c a ∨ SymbolId.Clash c a b) := by
              rintro (clash | clash | clash)
              · exact clear a inA b inB c inC clash
              · exact clear b inB c inC a inA clash
              · exact clear c inC a inA b inB clash
            rw [(SymbolId.order_trans_iff ab bc).mpr apart]
            rfl
  · rw [SymbolId.order_swap a b]
    cases SymbolId.order a b <;> rfl

/-- Tables with the same ids list them alike, unless some of the ids clash. -/
theorem ids_eq_of_perm {t u : Table} (perm : (t.rows.map Prod.fst).Perm (u.rows.map Prod.fst))
    (clear : ∀ a ∈ t.rows.map Prod.fst, ∀ b ∈ t.rows.map Prod.fst, ∀ c ∈ t.rows.map Prod.fst,
      ¬SymbolId.Clash a b c) : t.ids = u.ids := by
  have clear' : ∀ a ∈ u.rows.map Prod.fst, ∀ b ∈ u.rows.map Prod.fst, ∀ c ∈ u.rows.map Prod.fst,
      ¬SymbolId.Clash a b c := by
    intro a inA b inB c inC
    exact clear a (perm.mem_iff.mpr inA) b (perm.mem_iff.mpr inB) c (perm.mem_iff.mpr inC)
  refine List.Perm.eq_of_pairwise (fun a b _ _ => eq_of_order_ne_gt)
    (pairwise_mergeSort_of_clear clear) (pairwise_mergeSort_of_clear clear') ?_
  exact (List.mergeSort_perm _ _).trans (perm.trans (List.mergeSort_perm _ _).symm)

end Table

namespace SymbolId

/-- The order of ids is total and strict, and in a table without ids that clash it is an order, so
that the list of the table's ids does not depend on the order of its rows. -/
theorem order_total_unless_clash (a b c : SymbolId) (t u : Table) :
    order b a = (order a b).swap ∧
    (order a b = .eq ↔ a = b) ∧
    (order a b = .lt → order b c = .lt →
      (order a c = .lt ↔ ¬(Clash a b c ∨ Clash b c a ∨ Clash c a b))) ∧
    ((t.rows.map Prod.fst).Perm (u.rows.map Prod.fst) →
      (∀ a ∈ t.rows.map Prod.fst, ∀ b ∈ t.rows.map Prod.fst, ∀ c ∈ t.rows.map Prod.fst,
        ¬Clash a b c) →
      t.ids = u.ids) :=
  ⟨order_swap a b, order_eq_iff a b, order_trans_iff, Table.ids_eq_of_perm⟩

/-- A list of three is sorted by three comparisons. -/
theorem mergeSort_three {α : Type} (le : α → α → Bool) (a b c : α) :
    [a, b, c].mergeSort le =
      bif le a b then (bif le a c then (bif le b c then [a, b, c] else [a, c, b]) else [c, a, b])
      else (bif le b c then (bif le a c then [b, a, c] else [b, c, a]) else [c, b, a]) := by
  have merged : [a, b, c].mergeSort le = List.merge (List.merge [a] [b] le) [c] le := by
    simp [List.mergeSort, List.MergeSort.Internal.splitInTwo]
  rw [merged]
  cases ab : le a b <;> cases ac : le a c <;> cases bc : le b c <;> simp [ab, ac, bc]

/-- Three ids in a circle: `x1` ends after a number that `x1_` and `x01a` go on after, and stands
between them bytewise. -/
theorem order_cycle_x1 :
    order ⟨lit "x1", .function⟩ ⟨lit "x1_", .function⟩ = .lt ∧
    order ⟨lit "x1_", .function⟩ ⟨lit "x01a", .function⟩ = .lt ∧
    order ⟨lit "x1", .function⟩ ⟨lit "x01a", .function⟩ = .gt ∧
    Table.ids ⟨[(⟨lit "x1", .function⟩, []), (⟨lit "x1_", .function⟩, []),
      (⟨lit "x01a", .function⟩, [])]⟩ ≠
      Table.ids ⟨[(⟨lit "x1_", .function⟩, []), (⟨lit "x01a", .function⟩, []),
        (⟨lit "x1", .function⟩, [])]⟩ := by
  refine ⟨by decide +kernel, by decide +kernel, by decide +kernel, ?_⟩
  rw [Table.ids, Table.ids]
  simp only [List.map_cons, List.map_nil, mergeSort_three]
  decide +kernel

end SymbolId

end SymbolHistory
