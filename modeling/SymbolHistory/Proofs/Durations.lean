/-
# Proofs.Durations -- a length of time is read back from its text

The text of a length of time is one decimal number with a unit, or hours,
minutes and seconds.  Every part is read as the nanoseconds it was written for
(`term_of`), since what stands behind a point is a whole number of nanoseconds
and small enough to be computed exactly.  The parts add up (`Adds.append`), so
the text is read as the length it was written for (`parse_format`).
-/
import SymbolHistory.Duration
import SymbolHistory.Proofs.Characters
import SymbolHistory.Proofs.Decimals
import SymbolHistory.Proofs.ExactNumbers
import SymbolHistory.Proofs.Places

set_option autoImplicit false

namespace SymbolHistory

namespace Duration

open Decimal

/-! ## Digits -/

theorem wholeFrom_value (s : Bytes) : ∀ done : Bytes, value (done ++ s) ≤ limit →
    wholeFrom (value done) s = some (value (done ++ s)) := by
  induction s with
  | nil =>
      intro done _
      rw [List.append_nil, wholeFrom]
  | cons b s ih =>
      intro done bound
      have together : done ++ b :: s = done ++ [b] ++ s := by simp
      rw [together] at bound ⊢
      have fits : value (done ++ [b]) ≤ limit := Nat.le_trans (value_le_append s _) bound
      have room : value done ≤ limit / 10 := by
        rw [value_concat] at fits
        omega
      rw [wholeFrom, if_neg (Nat.not_lt.mpr room)]
      simp only [← value_concat, if_neg (Nat.not_lt.mpr fits)]
      exact ih _ bound

theorem fractionFrom_value (s : Bytes) : ∀ done : Bytes, value (done ++ s) < limit →
    fractionFrom (value done) (10 ^ done.length) s = (value (done ++ s), 10 ^ (done ++ s).length) := by
  induction s with
  | nil =>
      intro done _
      rw [List.append_nil, fractionFrom]
  | cons b s ih =>
      intro done bound
      have together : done ++ b :: s = done ++ [b] ++ s := by simp
      rw [together] at bound ⊢
      have fits : value (done ++ [b]) < limit := Nat.lt_of_le_of_lt (value_le_append s _) bound
      have room : value done ≤ (limit - 1) / 10 := by
        rw [value_concat] at fits
        omega
      have scale : 10 ^ done.length * 10 = 10 ^ (done ++ [b]).length := by
        rw [List.length_append, List.length_singleton, Nat.pow_succ]
      rw [fractionFrom, if_neg (Nat.not_lt.mpr room)]
      simp only [← value_concat, if_neg (Nat.not_lt.mpr (Nat.le_of_lt fits)), scale]
      exact ih _ bound

theorem value_zeros (m : Nat) : value (List.replicate m 48) = 0 := by
  induction m with
  | zero => rfl
  | succ m ih =>
      rw [List.replicate_succ, value_cons, ih]
      exact Nat.zero_mul _

/-- What is left of digits without the zeros at their end. -/
theorem zeros_of_reverse (s : Bytes) :
    ∃ m, s = (s.reverse.dropWhile (· == 48)).reverse ++ List.replicate m 48 := by
  have zeros : s.reverse.takeWhile (· == 48) = List.replicate (s.reverse.takeWhile (· == 48)).length 48 :=
    List.eq_replicate_iff.mpr ⟨rfl, fun b member => by simpa using List.mem_takeWhile_imp member⟩
  refine ⟨(s.reverse.takeWhile (· == 48)).length, ?_⟩
  have parts := congrArg List.reverse (List.takeWhile_append_dropWhile (p := (· == 48)) (l := s.reverse))
  rw [List.reverse_append, List.reverse_reverse, zeros, List.reverse_replicate] at parts
  exact parts.symm

/-- What stands behind the point: the digits of a fraction without the zeros at their end. -/
theorem fractionText_eq {width n : Nat} (small : n < 10 ^ width) (positive : 0 < width) :
    (fractionText width n = [] ∧ n = 0) ∨
    ∃ f, fractionText width n = 46 :: f ∧ f ≠ [] ∧ (∀ b ∈ f, Bytes.isDigit b = true) ∧
      f.length ≤ width ∧ value f * 10 ^ (width - f.length) = n := by
  obtain ⟨k, rfl⟩ : ∃ k, width = k + 1 := ⟨width - 1, by omega⟩
  have few := (length_ofNat_le n k).mpr small
  let padded := List.replicate (k + 1 - (ofNat n).length) 48 ++ ofNat n
  have length : padded.length = k + 1 := by
    rw [List.length_append, List.length_replicate]
    omega
  have stands : value padded = n := by
    rw [value_append, value_zeros, value_ofNat, Nat.zero_mul, Nat.zero_add]
  have digits : ∀ b ∈ padded, Bytes.isDigit b = true := by
    intro b member
    rcases List.mem_append.mp member with zero | digit
    · rw [List.eq_of_mem_replicate zero]
      rfl
    · exact isDigit_of_mem_ofNat digit
  have text : fractionText (k + 1) n = if (padded.reverse.dropWhile (· == 48)).reverse.isEmpty then []
    else 46 :: (padded.reverse.dropWhile (· == 48)).reverse := rfl
  obtain ⟨m, parts⟩ := zeros_of_reverse padded
  generalize (padded.reverse.dropWhile (· == 48)).reverse = kept at text parts
  clear_value padded
  subst parts
  rw [value_append, value_zeros, List.length_replicate, Nat.add_zero] at stands
  rw [List.length_append, List.length_replicate] at length
  cases kept with
  | nil => exact .inl ⟨text, by simpa [value] using stands.symm⟩
  | cons b kept =>
      refine .inr ⟨b :: kept, text, List.cons_ne_nil b kept, fun c member => digits c (List.mem_append_left _ member),
        by omega, ?_⟩
      rw [← stands, ← length, Nat.add_sub_cancel_left]

/-! ## One number with its unit -/

/-- The text of a fraction with these digits. -/
def FractionOf (t f : Bytes) : Prop := t = [] ∧ f = [] ∨ t = 46 :: f ∧ f ≠ []

structure IsUnit (u : Bytes) (nanos : Nat) : Prop where
  known : unit? u = some nanos
  bytes : ∀ b ∈ u, isNumberByte b = false
  nonempty : u ≠ []
  positive : 0 < nanos
  small : nanos < 2 ^ 53

instance (u : Bytes) (nanos : Nat) : Decidable (IsUnit u nanos) :=
  decidable_of_iff
    (unit? u = some nanos ∧ u.all (fun b => !isNumberByte b) = true ∧ u ≠ [] ∧ 0 < nanos ∧ nanos < 2 ^ 53)
    ⟨fun h => ⟨h.1, by simpa using h.2.1, h.2.2.1, h.2.2.2.1, h.2.2.2.2⟩,
      fun h => ⟨h.known, by simpa using h.bytes, h.nonempty, h.positive, h.small⟩⟩

/-- A fraction of a unit that is a whole number of nanoseconds is computed as that. -/
theorem floor_fraction {nanos n k : Nat} (positive : 0 < nanos) (small : nanos < 2 ^ 53) (exact : 10 ^ k ∣ nanos)
    (part : n < 10 ^ k) :
    ((Binary64.ofNat n).mul (Binary64.div nanos (10 ^ k))).floor = n * (nanos / 10 ^ k) := by
  obtain ⟨q, rfl⟩ := exact
  have power : 0 < 10 ^ k := Nat.pow_pos (by decide)
  have some : 0 < q := Nat.pos_of_mul_pos_left positive
  have most : 10 ^ k ≤ 10 ^ k * q := Nat.le_mul_of_pos_right _ some
  have less : q ≤ 10 ^ k * q := Nat.le_mul_of_pos_left _ power
  have product : n * q ≤ 10 ^ k * q := Nat.mul_le_mul_right q (Nat.le_of_lt part)
  have digits := Binary64.toRat_ofNat (n := n) (by omega)
  have unit := Binary64.toRat_div (q := q) power (by omega)
  rw [Nat.mul_div_cancel_left q power, Nat.mul_comm (10 ^ k) q]
  exact Binary64.floor_of_toRat (Binary64.toRat_mul digits unit (by omega))

theorem notDigit_of_notNumber {b : UInt8} (other : isNumberByte b = false) : b ≠ 46 ∧ Bytes.isDigit b = false := by
  simpa [isNumberByte] using other

/-- One number with its unit, up to the next number. -/
theorem term_of {whole nanos : Nat} {t f u rest : Bytes} (fraction : FractionOf t f)
    (digits : ∀ b ∈ f, Bytes.isDigit b = true) (unit : IsUnit u nanos) (exact : 10 ^ f.length ∣ nanos)
    (bound : whole * nanos + value f * (nanos / 10 ^ f.length) ≤ limit) (starts : ∀ b ∈ rest.head?, isNumberByte b = true) :
    term (ofNat whole ++ (t ++ (u ++ rest))) =
      .ok (whole * nanos + value f * (nanos / 10 ^ f.length), rest) := by
  obtain ⟨c, tail, rfl⟩ := List.exists_cons_of_ne_nil unit.nonempty
  have other := notDigit_of_notNumber (unit.bytes c List.mem_cons_self)
  have front : (ofNat whole ++ (t ++ (c :: tail ++ rest))).span Bytes.isDigit =
      (ofNat whole, t ++ (c :: tail ++ rest)) := by
    refine Bytes.span_append (fun b member => isDigit_of_mem_ofNat member) fun b first => ?_
    rcases fraction with ⟨rfl, -⟩ | ⟨rfl, -⟩
    · obtain rfl : c = b := Option.some.inj first
      exact other.2
    · obtain rfl : 46 = b := Option.some.inj first
      rfl
  have units : (c :: tail ++ rest).span (fun b => !isNumberByte b) = (c :: tail, rest) :=
    Bytes.span_append (fun b member => by rw [unit.bytes b member]; rfl) fun b first => by rw [starts b first]; rfl
  have enough : whole ≤ limit / nanos := (Nat.le_div_iff_mul_le unit.positive).mpr (by omega)
  have within : whole ≤ limit := Nat.le_trans enough (Nat.div_le_self _ _)
  have number : wholeFrom 0 (ofNat whole) = some whole := by
    have read := wholeFrom_value (ofNat whole) [] (by rwa [List.nil_append, value_ofNat])
    rwa [List.nil_append, value_ofNat] at read
  have less := value_lt digits
  have divides : 10 ^ f.length ≤ nanos := Nat.le_of_dvd unit.positive exact
  have small := unit.small
  have limited : limit = 2 ^ 63 := rfl
  have fractionDigits : fractionFrom 0 1 f = (value f, 10 ^ f.length) :=
    fractionFrom_value f [] (by rw [List.nil_append]; omega)
  have nonempty : (ofNat whole).isEmpty = false := by
    rw [List.isEmpty_eq_false_iff]
    exact (ofNat_spec whole).2.1
  have inside : (f ++ (c :: tail ++ rest)).span Bytes.isDigit = (f, c :: tail ++ rest) :=
    Bytes.span_append digits fun b first => by
      obtain rfl : c = b := Option.some.inj first
      exact other.2
  unfold term
  rw [front]
  simp only [List.cons_append] at inside units ⊢
  rcases fraction with ⟨rfl, rfl⟩ | ⟨rfl, -⟩
  · rw [List.nil_append]
    split
    · rename_i more same
      exact absurd (List.cons.inj same).1 other.1
    · simp only [number, units, nonempty, unit.known, fractionDigits, bind, Except.bind, Option.elim_some,
        Bool.false_and, Bool.false_eq_true, List.isEmpty_cons, if_false, if_neg (Nat.not_lt.mpr enough),
        floor_fraction unit.positive unit.small exact less, if_neg (Nat.not_lt.mpr bound)]
      rfl
  · simp only [List.cons_append, inside, number, units, nonempty, unit.known, fractionDigits, bind, Except.bind,
      Option.elim_some, Bool.false_and, Bool.false_eq_true, List.isEmpty_cons, if_false,
      if_neg (Nat.not_lt.mpr enough), floor_fraction unit.positive unit.small exact less,
      if_neg (Nat.not_lt.mpr bound)]
    rfl

/-! ## The sum of the parts -/

/-- Reading these bytes adds so many nanoseconds, whatever other numbers follow. -/
def Adds (s : Bytes) (n : Nat) : Prop :=
  ∃ k ≤ s.length, ∀ (fuel total : Nat) (rest : Bytes), (∀ b ∈ rest.head?, isNumberByte b = true) →
    total + n ≤ limit → terms (fuel + k) total (s ++ rest) = terms fuel (total + n) rest

theorem Adds.append {s t : Bytes} {m n : Nat} (first : Adds s m) (second : Adds t n)
    (starts : ∃ b tail, t = b :: tail ∧ isNumberByte b = true) : Adds (s ++ t) (m + n) := by
  obtain ⟨k, short, front⟩ := first
  obtain ⟨l, short', back⟩ := second
  refine ⟨l + k, by rw [List.length_append]; omega, fun fuel total rest ends bound => ?_⟩
  have begins : ∀ b ∈ (t ++ rest).head?, isNumberByte b = true := by
    obtain ⟨b, tail, rfl, isNumber⟩ := starts
    intro c first
    obtain rfl : b = c := Option.some.inj first
    exact isNumber
  rw [List.append_assoc, ← Nat.add_assoc, front _ _ _ begins (by omega), back _ _ _ ends (by omega), Nat.add_assoc]

theorem starts_ofNat (n : Nat) (rest : Bytes) : ∃ b tail, ofNat n ++ rest = b :: tail ∧ isNumberByte b = true := by
  obtain ⟨-, nonempty, digits⟩ := ofNat_spec n
  obtain ⟨d, ds, written⟩ := List.exists_cons_of_ne_nil nonempty
  refine ⟨d, ds ++ rest, by rw [written, List.cons_append], ?_⟩
  rw [isNumberByte, digits d (written ▸ List.mem_cons_self), Bool.or_true]

/-- One number with its unit. -/
theorem adds_term {whole nanos : Nat} {t f u : Bytes} (fraction : FractionOf t f)
    (digits : ∀ b ∈ f, Bytes.isDigit b = true) (unit : IsUnit u nanos) (exact : 10 ^ f.length ∣ nanos) :
    Adds (ofNat whole ++ (t ++ u)) (whole * nanos + value f * (nanos / 10 ^ f.length)) := by
  refine ⟨1, ?_, fun fuel total rest ends bound => ?_⟩
  · have := length_ofNat_pos whole
    rw [List.length_append]
    omega
  have read := @term_of whole _ _ _ _ rest fraction digits unit exact (by omega) ends
  have together : ofNat whole ++ (t ++ u) ++ rest = ofNat whole ++ (t ++ (u ++ rest)) := by simp
  obtain ⟨b, tail, cons, isNumber⟩ := starts_ofNat whole (t ++ (u ++ rest))
  rw [together]
  rw [cons] at read ⊢
  simp only [terms, isNumber, read]
  exact if_neg (Nat.not_lt.mpr bound)

theorem adds_whole {u : Bytes} {nanos : Nat} (unit : IsUnit u nanos) (whole : Nat) :
    Adds (ofNat whole ++ u) (whole * nanos) := by
  have adds := @adds_term whole _ [] [] _ (.inl ⟨rfl, rfl⟩) nofun unit (Nat.one_dvd nanos)
  simpa [value] using adds

/-- A number of units with a fraction, of which a power of ten makes one. -/
theorem adds_decimal {u : Bytes} {width : Nat} (unit : IsUnit u (10 ^ width)) (positive : 0 < width) (whole n : Nat)
    (small : n < 10 ^ width) : Adds (ofNat whole ++ (fractionText width n ++ u)) (whole * 10 ^ width + n) := by
  rcases fractionText_eq small positive with ⟨text, rfl⟩ | ⟨f, text, nonempty, digits, short, stands⟩
  · rw [text]
    exact adds_whole unit whole
  · have divides : 10 ^ f.length ∣ 10 ^ width := Nat.pow_dvd_pow 10 short
    have quotient : 10 ^ width / 10 ^ f.length = 10 ^ (width - f.length) := Nat.pow_div short (by decide)
    have adds := @adds_term whole _ _ _ _ (.inr ⟨rfl, nonempty⟩) digits unit divides
    rw [quotient, stands] at adds
    rw [text]
    exact adds

/-! ## The whole text -/

theorem read_of_adds {s : Bytes} {n : Nat} (adds : Adds s n) (small : n < limit)
    (starts : ∃ b tail, s = b :: tail ∧ isNumberByte b = true) : read s = .ok ⟨n⟩ := by
  obtain ⟨k, short, adds⟩ := adds
  obtain ⟨fuel, enough⟩ : ∃ m, s.length + 1 = m + 1 + k := ⟨s.length - k, by omega⟩
  have sum := adds (fuel + 1) 0 [] nofun (by omega)
  rw [List.append_nil, ← enough, Nat.zero_add, terms] at sum
  obtain ⟨b, tail, rfl, isNumber⟩ := starts
  have noSign : b ≠ 45 ∧ b ≠ 43 := by
    constructor
    all_goals
      rintro rfl
      exact absurd isNumber (by decide)
  have notZero : (b :: tail == lit "0") = false := by
    rw [beq_eq_false_iff_ne]
    intro same
    have noUnit : terms 2 0 (lit "0") = .error .noUnit := rfl
    rw [same] at sum
    cases noUnit.symm.trans sum
  unfold read
  split
  rename_i negative s parts
  obtain ⟨rfl, rfl⟩ : negative = false ∧ s = b :: tail := by
    split at parts
    · rename_i same
      exact absurd (List.cons.inj same).1 noSign.1
    · rename_i same
      exact absurd (List.cons.inj same).1 noSign.2
    · cases parts
      exact ⟨rfl, rfl⟩
  simp only [notZero, sum, List.isEmpty_cons, Bool.false_eq_true, if_false, bind, Except.bind, if_pos small]
  rfl

theorem isUnit_nanoseconds : IsUnit (lit "ns") 1 := by decide +kernel

theorem isUnit_microseconds : IsUnit (lit "µs") (10 ^ 3) := by decide +kernel

theorem isUnit_milliseconds : IsUnit (lit "ms") (10 ^ 6) := by decide +kernel

theorem isUnit_seconds : IsUnit (lit "s") (10 ^ 9) := by decide +kernel

theorem isUnit_minutes : IsUnit (lit "m") 60000000000 := by decide +kernel

theorem isUnit_hours : IsUnit (lit "h") 3600000000000 := by decide +kernel

/-- The text of a length of time adds up to it. -/
theorem adds_formatNat (n : Nat) : Adds (formatNat n) n := by
  unfold formatNat
  split
  · rename_i zero
    rw [beq_iff_eq.mp zero]
    exact adds_whole isUnit_seconds 0
  split
  · have adds := adds_whole isUnit_nanoseconds n
    rwa [Nat.mul_one] at adds
  split
  · have adds := adds_decimal isUnit_microseconds (by decide) (n / 10 ^ 3) (n % 10 ^ 3) (Nat.mod_lt _ (by decide))
    rw [Nat.div_add_mod'] at adds
    rw [decimal, List.append_assoc]
    exact adds
  split
  · have adds := adds_decimal isUnit_milliseconds (by decide) (n / 10 ^ 6) (n % 10 ^ 6) (Nat.mod_lt _ (by decide))
    rw [Nat.div_add_mod'] at adds
    rw [decimal, List.append_assoc]
    exact adds
  · have seconds := adds_decimal isUnit_seconds (by decide) (n / 1000000000 % 60) (n % 1000000000)
      (Nat.mod_lt _ (by decide))
    have minutes := (adds_whole isUnit_minutes (n / 1000000000 / 60 % 60)).append seconds (starts_ofNat _ _)
    have hours := (adds_whole isUnit_hours (n / 1000000000 / 60 / 60)).append minutes
      (by rw [List.append_assoc]; exact starts_ofNat _ _)
    simp only [List.append_assoc] at seconds minutes hours ⊢
    split
    · rename_i none
      have none := beq_iff_eq.mp none
      rwa [show n / 1000000000 % 60 * 10 ^ 9 + n % 1000000000 = n from by omega] at seconds
    split
    · rename_i none
      have none := beq_iff_eq.mp none
      rwa [show n / 1000000000 / 60 % 60 * 60000000000 +
        (n / 1000000000 % 60 * 10 ^ 9 + n % 1000000000) = n from by omega] at minutes
    · rwa [show n / 1000000000 / 60 / 60 * 3600000000000 + (n / 1000000000 / 60 % 60 * 60000000000 +
        (n / 1000000000 % 60 * 10 ^ 9 + n % 1000000000)) = n from by omega] at hours

theorem starts_formatNat (n : Nat) : ∃ b tail, formatNat n = b :: tail ∧ isNumberByte b = true := by
  unfold formatNat
  split
  · exact ⟨48, lit "s", rfl, rfl⟩
  split
  · exact starts_ofNat _ _
  split
  · rw [decimal, List.append_assoc]
    exact starts_ofNat _ _
  split
  · rw [decimal, List.append_assoc]
    exact starts_ofNat _ _
  · simp only [List.append_assoc]
    split
    · exact starts_ofNat _ _
    split
    · exact starts_ofNat _ _
    · exact starts_ofNat _ _

theorem characters_of_numbers {s : Bytes} (numbers : ∀ b ∈ s, isNumberByte b = true) : Utf8.Characters s :=
  Utf8.characters_of_ascii fun b member => by
    have isNumber := numbers b member
    simp only [isNumberByte, Bytes.isDigit, Bool.or_eq_true, Bool.and_eq_true, decide_eq_true_eq, beq_iff_eq] at isNumber
    grind

theorem characters_ofNat (n : Nat) : Utf8.Characters (ofNat n) :=
  characters_of_numbers fun b member => by rw [isNumberByte, isDigit_of_mem_ofNat member, Bool.or_true]

theorem characters_fractionText (width n : Nat) : Utf8.Characters (fractionText width n) := by
  have digit : ∀ b ∈ List.replicate (width - (ofNat n).length) 48 ++ ofNat n, isNumberByte b = true := by
    intro b member
    rcases List.mem_append.mp member with zero | digit
    · rw [List.eq_of_mem_replicate zero]
      rfl
    · rw [isNumberByte, isDigit_of_mem_ofNat digit, Bool.or_true]
  simp only [fractionText]
  split
  · exact .nil
  · refine characters_of_numbers fun b member => ?_
    rcases List.mem_cons.mp member with rfl | inside
    · rfl
    · exact digit b (List.mem_reverse.mp ((List.dropWhile_sublist _).subset (List.mem_reverse.mp inside)))

theorem characters_formatNat (n : Nat) : Utf8.Characters (formatNat n) := by
  have unit : ∀ {u : Bytes}, Utf8.valid u = true → Utf8.Characters u := Utf8.valid_iff.mp
  unfold formatNat
  split
  · exact unit (by decide)
  split
  · exact (characters_ofNat n).append (unit (by decide))
  split
  · exact ((characters_ofNat _).append (characters_fractionText 3 _)).append (unit (by decide))
  split
  · exact ((characters_ofNat _).append (characters_fractionText 6 _)).append (unit (by decide))
  · have seconds := ((characters_ofNat (n / 1000000000 % 60)).append
      (characters_fractionText 9 (n % 1000000000))).append (unit (u := lit "s") (by decide))
    have minutes := ((characters_ofNat (n / 1000000000 / 60 % 60)).append (unit (u := lit "m") (by decide))).append seconds
    have hours := ((characters_ofNat (n / 1000000000 / 60 / 60)).append (unit (u := lit "h") (by decide))).append minutes
    dsimp only
    split
    · exact seconds
    split
    · exact minutes
    · exact hours

theorem valid_format (d : Duration) : Utf8.valid d.format = true := by
  rw [Utf8.valid_iff, format]
  split
  · exact characters_formatNat _
  · exact (Utf8.characters_of_ascii (s := [45]) (by decide +kernel)).append (characters_formatNat _)

/-- A length of time is read back from its text. -/
theorem parse_format {d : Duration} (natural : 0 ≤ d.nanoseconds) (small : d.nanoseconds < signedLimit) :
    parse d.format = .ok d := by
  obtain ⟨nanos⟩ := d
  obtain ⟨n, rfl⟩ := Int.eq_ofNat_of_zero_le natural
  have read := read_of_adds (adds_formatNat n) (Int.ofNat_lt.mp small) (starts_formatNat n)
  have text : format ⟨n⟩ = formatNat n := rfl
  rw [parse, text, read]
  rfl

end Duration

end SymbolHistory
