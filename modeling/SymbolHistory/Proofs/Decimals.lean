/-
# Proofs.Decimals -- decimal digits stand for one number

`ofNat` writes a number in digits whose value is the number (`value_ofNat`), so
different numbers have different digits, and with no more digits than it takes
(`length_ofNat_le`).  What `ofInt` writes for a number of 64 signed bits,
`signed` reads back (`signed_ofInt`).
-/
import Mathlib.Algebra.Group.Int.Defs
import Mathlib.Algebra.Group.Nat.Defs
import SymbolHistory.Text.Decimal

set_option autoImplicit false

namespace SymbolHistory

namespace Decimal

def value (s : Bytes) : Nat := s.foldl (fun n b => n * 10 + (b.toNat - 48)) 0

theorem value_concat (s : Bytes) (b : UInt8) : value (s ++ [b]) = value s * 10 + (b.toNat - 48) := by
  simp [value, List.foldl_append]

theorem value_singleton (b : UInt8) : value [b] = b.toNat - 48 := by
  simp [value]

/-- The digit of a number below ten. -/
theorem toNat_digit (n : Nat) : (48 + n % 10).toUInt8.toNat = 48 + n % 10 := by
  have : 48 + n % 10 < 256 := by omega
  simp [Nat.mod_eq_of_lt this]

theorem isDigit_digit (n : Nat) : Bytes.isDigit (48 + n % 10).toUInt8 = true := by
  have := toNat_digit n
  simp only [Bytes.isDigit, Bool.and_eq_true, decide_eq_true_eq, UInt8.le_iff_toNat_le, this]
  constructor
  · exact Nat.le_add_right 48 _
  · change 48 + n % 10 ≤ 57
    omega

/-- The digits written before those already produced stand for the number. -/
theorem digitsFrom_eq (fuel : Nat) : ∀ (n : Nat) (done : Bytes), n < fuel →
    ∃ ds, digitsFrom fuel n done = ds ++ done ∧ value ds = n ∧ ds ≠ [] ∧
      ∀ b ∈ ds, Bytes.isDigit b = true := by
  induction fuel with
  | zero => intro n done bound; omega
  | succ fuel ih =>
      intro n done bound
      have digit := toNat_digit n
      have isDigit := isDigit_digit n
      simp only [digitsFrom]
      split
      · refine ⟨[(48 + n % 10).toUInt8], rfl, ?_, by simp, by simpa using isDigit⟩
        have := value_concat [] (48 + n % 10).toUInt8
        rw [List.nil_append, digit] at this
        rw [this, value, List.foldl_nil]
        omega
      · obtain ⟨ds, written, stands, nonempty, digits⟩ :=
          ih (n / 10) ((48 + n % 10).toUInt8 :: done) (by omega)
        refine ⟨ds ++ [(48 + n % 10).toUInt8], ?_, ?_, by simp, ?_⟩
        · rw [written, List.append_assoc, List.singleton_append]
        · rw [value_concat, stands, digit]
          omega
        · intro b member
          rcases List.mem_append.mp member with front | last
          · exact digits b front
          · rw [List.mem_singleton.mp last]
            exact isDigit

theorem ofNat_spec (n : Nat) :
    value (ofNat n) = n ∧ ofNat n ≠ [] ∧ ∀ b ∈ ofNat n, Bytes.isDigit b = true := by
  obtain ⟨ds, written, spec⟩ := digitsFrom_eq (n + 1) n [] (Nat.lt_succ_self n)
  rw [ofNat, written, List.append_nil]
  exact spec

theorem value_ofNat (n : Nat) : value (ofNat n) = n := (ofNat_spec n).1

theorem isDigit_of_mem_ofNat {n : Nat} {b : UInt8} (member : b ∈ ofNat n) :
    Bytes.isDigit b = true := (ofNat_spec n).2.2 b member

theorem ofNat_injective {m n : Nat} (same : ofNat m = ofNat n) : m = n := by
  rw [← value_ofNat m, same, value_ofNat]

theorem digitsFrom_length_le (fuel : Nat) : ∀ (n : Nat) (done : Bytes) (k : Nat), n < fuel →
    ((digitsFrom fuel n done).length ≤ done.length + (k + 1) ↔ n < 10 ^ (k + 1)) := by
  induction fuel with
  | zero => intro n done k bound; omega
  | succ fuel ih =>
      intro n done k bound
      simp only [digitsFrom]
      split
      · rename_i one
        have power : 10 ^ 1 ≤ 10 ^ (k + 1) := Nat.pow_le_pow_right (by decide) (by omega)
        simp only [List.length_cons]
        omega
      · rename_i more
        cases k with
        | zero =>
            obtain ⟨ds, written, -, nonempty, -⟩ :=
              digitsFrom_eq fuel (n / 10) ((48 + n % 10).toUInt8 :: done) (by omega)
            have positive := List.length_pos_iff.mpr nonempty
            rw [written, List.length_append, List.length_cons]
            omega
        | succ k =>
            have fewer := ih (n / 10) ((48 + n % 10).toUInt8 :: done) k (by omega)
            rw [List.length_cons, Nat.div_lt_iff_lt_mul (by decide), ← Nat.pow_succ] at fewer
            rw [← fewer]
            omega

/-- So many digits are enough for the numbers below a power of ten. -/
theorem length_ofNat_le (n k : Nat) : (ofNat n).length ≤ k + 1 ↔ n < 10 ^ (k + 1) := by
  have counted := digitsFrom_length_le (n + 1) n [] k (Nat.lt_succ_self n)
  rwa [List.length_nil, Nat.zero_add] at counted

theorem lt_length_ofNat (n k : Nat) : k + 1 < (ofNat n).length ↔ 10 ^ (k + 1) ≤ n := by
  rw [← Nat.not_le, length_ofNat_le, Nat.not_lt]

theorem length_ofNat_pos (n : Nat) : 0 < (ofNat n).length :=
  List.length_pos_iff.mpr (ofNat_spec n).2.1

theorem length_ofNat_mono {m n : Nat} (le : m ≤ n) : (ofNat m).length ≤ (ofNat n).length := by
  obtain ⟨k, digits⟩ : ∃ k, (ofNat n).length = k + 1 :=
    ⟨_, (Nat.succ_pred_eq_of_pos (length_ofNat_pos n)).symm⟩
  have small := (length_ofNat_le n k).mp (Nat.le_of_eq digits)
  rw [digits]
  exact (length_ofNat_le m k).mpr (Nat.lt_of_le_of_lt le small)

/-- A length that counts its own digits: after one correction its digits are counted right. -/
theorem length_ofNat_add (n : Nat) :
    (ofNat (n + (ofNat (n + (ofNat n).length)).length)).length =
      (ofNat (n + (ofNat n).length)).length := by
  obtain ⟨k, digits⟩ : ∃ k, (ofNat n).length = k + 1 :=
    ⟨_, (Nat.succ_pred_eq_of_pos (length_ofNat_pos n)).symm⟩
  have small : n < 10 ^ (k + 1) := (length_ofNat_le n k).mp (Nat.le_of_eq digits)
  have power : k + 1 < 10 ^ (k + 1) := Nat.lt_pow_self (by decide)
  have next : 10 ^ (k + 1 + 1) = 10 * 10 ^ (k + 1) := by rw [Nat.pow_succ, Nat.mul_comm]
  have lower := length_ofNat_mono (Nat.le_add_right n (k + 1))
  rw [digits] at lower ⊢
  -- the first correction adds one digit at most, and the second none
  by_cases large : 10 ^ (k + 1) ≤ n + (k + 1)
  · have most := (length_ofNat_le (n + (k + 1)) (k + 1)).mpr (by omega)
    have more := (lt_length_ofNat (n + (k + 1)) k).mpr large
    have once : (ofNat (n + (k + 1))).length = k + 1 + 1 := by omega
    have most' := (length_ofNat_le (n + (k + 1 + 1)) (k + 1)).mpr (by omega)
    have more' := (lt_length_ofNat (n + (k + 1 + 1)) k).mpr (by omega)
    rw [once]
    omega
  · have most := (length_ofNat_le (n + (k + 1)) k).mpr (by omega)
    have once : (ofNat (n + (k + 1))).length = k + 1 := by omega
    rw [once, once]

/-! ## The value of digits -/

theorem value_append (v : Bytes) : ∀ u, value (u ++ v) = value u * 10 ^ v.length + value v := by
  induction v with
  | nil =>
      intro u
      simp [value]
  | cons b v ih =>
      intro u
      have first := ih (u ++ [b])
      have second := ih [b]
      rw [value_concat, List.append_assoc, List.singleton_append] at first
      rw [List.singleton_append, value_singleton] at second
      rw [first, second, List.length_cons, Nat.pow_succ, Nat.add_mul, Nat.mul_assoc, Nat.mul_comm 10, Nat.add_assoc]

theorem value_cons (b : UInt8) (s : Bytes) : value (b :: s) = (b.toNat - 48) * 10 ^ s.length + value s := by
  rw [← List.singleton_append, value_append, value_singleton]

/-- Digits stand for less than their number allows. -/
theorem value_lt {s : Bytes} (digits : ∀ b ∈ s, Bytes.isDigit b = true) : value s < 10 ^ s.length := by
  induction s with
  | nil => decide
  | cons b s ih =>
      have rest := ih fun c member => digits c (List.mem_cons_of_mem _ member)
      have digit : b.toNat - 48 ≤ 9 := by
        have isDigit := digits b List.mem_cons_self
        simp only [Bytes.isDigit, Bool.and_eq_true, decide_eq_true_eq, UInt8.le_iff_toNat_le] at isDigit
        have high : b.toNat ≤ 57 := isDigit.2
        omega
      have most := Nat.mul_le_mul_right (10 ^ s.length) digit
      rw [value_cons, List.length_cons, Nat.pow_succ]
      omega

/-- No number but zero is written with a zero in front. -/
theorem ofNat_eq_zero_cons {n : Nat} {s : Bytes} (written : ofNat n = 48 :: s) : s = [] := by
  obtain ⟨stands, -, digits⟩ := ofNat_spec n
  rw [written] at stands digits
  have small := value_lt fun c member => digits c (List.mem_cons_of_mem 48 member)
  rw [value_cons] at stands
  cases length : s.length with
  | zero => exact List.length_eq_zero_iff.mp length
  | succ k =>
      have large := (lt_length_ofNat n k).mp (by rw [written, List.length_cons]; omega)
      have zero : (48 : UInt8).toNat - 48 = 0 := by decide
      rw [zero, Nat.zero_mul, Nat.zero_add] at stands
      rw [length] at small
      omega

/-! ## Reading digits back -/

/-- More digits do not make a number smaller. -/
theorem value_le_append (v u : Bytes) : value u ≤ value (u ++ v) := by
  rw [value_append]
  exact Nat.le_add_right_of_le (Nat.le_mul_of_pos_right _ (Nat.pow_pos (by decide)))

/-- Digits read after others stand for what all of them stand for. -/
theorem unsignedFrom_value (s : Bytes) : ∀ (done : Bytes), (∀ b ∈ s, Bytes.isDigit b = true) →
    value (done ++ s) < unsignedLimit → unsignedFrom (value done) s = .ok (value (done ++ s)) := by
  induction s with
  | nil =>
      intro done _ _
      rw [List.append_nil, unsignedFrom]
  | cons b s ih =>
      intro done digits small
      have together : done ++ b :: s = done ++ [b] ++ s := by simp
      rw [together] at small ⊢
      have fits : value (done ++ [b]) < unsignedLimit :=
        Nat.lt_of_le_of_lt (value_le_append _ _) small
      rw [unsignedFrom, if_pos (digits b List.mem_cons_self)]
      simp only [← value_concat, if_pos fits]
      exact ih _ (fun c member => digits c (List.mem_cons_of_mem _ member)) small

theorem unsigned_ofNat {n : Nat} (small : n < unsignedLimit) : unsigned (ofNat n) = .ok n := by
  obtain ⟨stands, nonempty, digits⟩ := ofNat_spec n
  have read := unsignedFrom_value (ofNat n) [] digits (by simpa [stands] using small)
  rw [unsigned, if_neg (by simpa using nonempty)]
  rwa [List.nil_append, stands] at read

/-- A number of 64 signed bits is read back from what is written for it. -/
theorem signed_ofInt {n : Int} (low : -signedLimit ≤ n) (high : n < signedLimit) :
    signed (ofInt n) = .ok n := by
  have limits : unsignedLimit = 2 * signedLimit := rfl
  cases n with
  | ofNat n =>
      have small : n < signedLimit := Int.ofNat_lt.mp high
      obtain ⟨-, nonempty, digits⟩ := ofNat_spec n
      have read := unsigned_ofNat (n := n) (by omega)
      rw [ofInt]
      unfold signed
      split
      · rename_i isNil
        exact absurd isNil nonempty
      · rename_i rest isOfNat
        exact absurd (digits 45 (by simp [isOfNat])) (by decide)
      · rename_i rest isOfNat
        exact absurd (digits 43 (by simp [isOfNat])) (by decide)
      · rw [read]
        exact if_pos small
  | negSucc n =>
      have small : n + 1 ≤ signedLimit := by
        rw [Int.negSucc_eq] at low
        omega
      have positive : 0 < signedLimit := by decide
      rw [ofInt, signed, unsigned_ofNat (by omega)]
      exact if_pos small

/-- What is written for an integer are digits and perhaps a sign. -/
theorem not_mem_ofInt {b : UInt8} (notDigit : Bytes.isDigit b = false) (notSign : b ≠ 45) (n : Int) :
    b ∉ ofInt n := by
  have absent : ∀ m, b ∉ ofNat m := by
    intro m member
    rw [isDigit_of_mem_ofNat member] at notDigit
    cases notDigit
  cases n with
  | ofNat m => exact absent m
  | negSucc m =>
      rw [ofInt, List.mem_cons, not_or]
      exact ⟨notSign, absent (m + 1)⟩

end Decimal

end SymbolHistory
