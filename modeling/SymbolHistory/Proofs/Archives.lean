/-
# Proofs.Archives -- what is written to an archive is read from it

A header is read field by field: each field stands at its place
(`slice_header`), a number in octal digits is the number it was written for
(`readOctal_octal`), and the checksum is right because it is taken over the same
bytes (`isSound_header`).  A record counts its own digits, so records follow each
other without a gap (`readRecords_records`).

Together, a member with its headers is read as that member, whatever its name is
and however long its content is (`readFrom_writeMember`), and `read_write` and
`returns_plain` say so of all members.
-/
import SymbolHistory.Bundle
import SymbolHistory.Proofs.Decimals
import SymbolHistory.Proofs.Frames
import SymbolHistory.Proofs.Places

set_option autoImplicit false

namespace SymbolHistory

namespace Bytes

/-- Only what is to be dropped at the end is trimmed. -/
theorem trimBytes_append {drop : UInt8 → Bool} {s t : Bytes} (kept : ∀ b ∈ s, drop b = false)
    (dropped : ∀ b ∈ t, drop b = true) : trimBytes drop (s ++ t) = s := by
  have stays : ∀ u : Bytes, (∀ b ∈ u, drop b = false) → u.dropWhile drop = u := by
    intro u kept
    cases u with
    | nil => rfl
    | cons b u => exact List.dropWhile_cons_of_neg (by simp [kept b])
  have behind : ∀ b ∈ t.reverse, drop b = true := fun b member =>
    dropped b (List.mem_reverse.mp member)
  have turned : (s ++ t).reverse.dropWhile drop = s.reverse := by
    rw [List.reverse_append, List.dropWhile_append_of_pos behind]
    exact stays s.reverse fun b member => kept b (List.mem_reverse.mp member)
  cases s with
  | nil =>
      rw [List.nil_append, trimBytes, List.dropWhile_eq_nil_iff.mpr dropped]
      rfl
  | cons b s =>
      rw [trimBytes, List.cons_append, List.dropWhile_cons_of_neg (by simp [kept b]),
        ← List.cons_append, turned, List.reverse_reverse]

end Bytes

namespace Bundle

namespace Archive

/-! ## Numbers -/

theorem octal_length (width n : Nat) : (octal width n).length = width := by
  induction width generalizing n with
  | zero => rfl
  | succ width ih => rw [octal, List.length_append, ih, List.length_singleton]

/-- An octal digit. -/
theorem toNat_octal (n : Nat) : (48 + n % 8).toUInt8.toNat = 48 + n % 8 := by
  simp only [Nat.toUInt8, UInt8.toNat_ofNat']
  omega

theorem octal_bounds (n : Nat) : 48 ≤ (48 + n % 8).toUInt8 ∧ (48 + n % 8).toUInt8 ≤ 55 := by
  rw [UInt8.le_iff_toNat_le, UInt8.le_iff_toNat_le, toNat_octal]
  change 48 ≤ 48 + n % 8 ∧ 48 + n % 8 ≤ 55
  omega

theorem bounds_of_mem_octal {b : UInt8} {width n : Nat} (member : b ∈ octal width n) :
    48 ≤ b ∧ b ≤ 55 := by
  induction width generalizing n with
  | zero => cases member
  | succ width ih =>
      rw [octal, List.mem_append, List.mem_singleton] at member
      rcases member with before | rfl
      · exact ih before
      · exact octal_bounds n

/-- One more octal digit. -/
def pushOctal (n : Nat) (b : UInt8) : Option Nat :=
  if 48 ≤ b && b ≤ 55 then some (n * 8 + (b.toNat - 48)) else none

theorem foldlM_octal (width : Nat) : ∀ (n value : Nat), n < 8 ^ width →
    (octal width n).foldlM pushOctal value = some (value * 8 ^ width + n) := by
  induction width with
  | zero =>
      intro n value small
      obtain rfl : n = 0 := by omega
      simp [octal]
  | succ width ih =>
      intro n value small
      rw [Nat.pow_succ] at small ⊢
      have isOctal := octal_bounds n
      have last : pushOctal (value * 8 ^ width + n / 8) (48 + n % 8).toUInt8 =
          some ((value * 8 ^ width + n / 8) * 8 + n % 8) := by
        rw [pushOctal, if_pos (by simpa only [Bool.and_eq_true, decide_eq_true_eq] using isOctal),
          toNat_octal, Nat.add_sub_cancel_left]
      rw [octal, List.foldlM_append, ih _ _ (by omega)]
      simp only [Option.bind_eq_bind, Option.bind_some, List.foldlM_cons, List.foldlM_nil, last,
        Option.pure_def, Option.some.injEq]
      rw [← Nat.mul_assoc]
      omega

/-- Octal digits have no zero among them. -/
theorem untilZero_octal (width n : Nat) : untilZero (octal width n) = octal width n := by
  refine List.takeWhile_eq_self_iff.mpr fun b member => ?_
  rw [bne_iff_ne]
  rintro rfl
  exact absurd (bounds_of_mem_octal member) (by decide)

/-- Octal digits, with blanks behind them, are read as the number. -/
theorem readOctal_octal {width n : Nat} {blanks : Bytes} (small : n < 8 ^ width)
    (blank : ∀ b ∈ blanks, b = 32 ∨ b = 0) : readOctal (octal width n ++ blanks) = some n := by
  have digits : Bytes.trimBytes (fun b => b == 32 || b == 0) (octal width n ++ blanks) =
      octal width n := by
    refine Bytes.trimBytes_append (fun b member => ?_) fun b member => by simpa using blank b member
    have bounds := bounds_of_mem_octal member
    have other : b ≠ 32 ∧ b ≠ 0 := ⟨by rintro rfl; exact absurd bounds (by decide),
      by rintro rfl; exact absurd bounds (by decide)⟩
    simpa using other
  have read := foldlM_octal width n 0 small
  rw [Nat.zero_mul, Nat.zero_add] at read
  rw [readOctal, digits, untilZero_octal]
  exact read

/-- A size is read as it was written. -/
theorem readSize_number {n : Nat} (small : n < sizeLimit) : readSize (number 12 n) = some n := by
  have blank : ∀ b ∈ ([0] : Bytes), b = 32 ∨ b = 0 := by decide +kernel
  have read : readOctal (number 12 n) = some n := readOctal_octal small blank
  cases written : octal 11 n with
  | nil =>
      have length := octal_length 11 n
      rw [written] at length
      cases length
  | cons b rest =>
      have bounds := bounds_of_mem_octal (written ▸ List.mem_cons_self)
      have low : b < 128 := UInt8.lt_of_le_of_lt bounds.2 (by decide)
      have whole : number 12 n = b :: (rest ++ [0]) := by rw [number, written]; rfl
      rw [whole] at read ⊢
      rw [readSize, if_pos low, read]

/-! ## Headers -/

theorem field_length (width : Nat) (s : Bytes) : (field width s).length = width := by
  rw [field, List.length_append, List.length_take, List.length_replicate]
  omega

theorem number_length {width : Nat} (positive : 0 < width) (n : Nat) :
    (number width n).length = width := by
  rw [number, List.length_append, octal_length, List.length_singleton]
  omega

/-- What stands in a field up to the first zero. -/
theorem untilZero_field {width : Nat} {s : Bytes} (short : s.length ≤ width) (noZero : 0 ∉ s) :
    untilZero (field width s) = s := by
  have others : ∀ b ∈ s, (b != 0) = true := by
    intro b member
    rw [bne_iff_ne]
    rintro rfl
    exact noZero member
  rw [untilZero, field, List.take_of_length_le short, List.takeWhile_append_of_pos others]
  cases width - s.length <;> simp [List.replicate_succ]

/-- The fields of a header before its checksum. -/
def front (name : Bytes) (mode size : Nat) : Bytes :=
  field 100 name ++ number 8 mode ++ number 8 0 ++ number 8 0 ++ number 12 size ++ number 12 0

/-- The fields of a header after its checksum. -/
def back (flag : UInt8) (target : Bytes) : Bytes :=
  [flag] ++ field 100 target ++ lit "ustar" ++ [0] ++ lit "00" ++
    field 32 [] ++ field 32 [] ++ number 8 0 ++ number 8 0 ++ field 155 [] ++ field 12 []

def sum (name : Bytes) (flag : UInt8) (target : Bytes) (mode size : Nat) : Nat :=
  checksum (front name mode size ++ List.replicate 8 32 ++ back flag target)

variable {name target : Bytes} {flag : UInt8} {mode size : Nat}

theorem header_eq : header name flag target mode size =
    front name mode size ++ (octal 6 (sum name flag target mode size) ++ [0, 32]) ++
      back flag target := by
  rw [← List.append_assoc (front _ _ _)]
  rfl

theorem front_length : (front name mode size).length = 148 := by
  simp only [front, List.length_append, field_length, number_length (by decide : 0 < 8),
    number_length (by decide : 0 < 12)]

theorem back_length : (back flag target).length = 356 := by
  have magic : (lit "ustar").length = 5 := rfl
  have version : (lit "00").length = 2 := rfl
  simp only [back, List.length_append, field_length, number_length (by decide : 0 < 8), magic,
    version, List.length_singleton]

theorem header_length : (header name flag target mode size).length = blockSize := by
  simp only [header_eq, List.length_append, front_length, octal_length, back_length]
  rfl

/-- A field is what stands at its place. -/
theorem slice_of_parts {s u v : Bytes} {start width : Nat} (before : u.length = start)
    (whole : v.length = width) (parts : ∃ w, s = u ++ v ++ w) : slice start width s = v := by
  obtain ⟨w, rfl⟩ := parts
  subst before whole
  simp [slice]

theorem slice_name : slice 0 100 (header name flag target mode size) = field 100 name := by
  refine slice_of_parts List.length_nil (field_length 100 name) ?_
  simp only [header_eq, front, List.append_assoc, List.nil_append]
  exact ⟨_, rfl⟩

theorem slice_size : slice 124 12 (header name flag target mode size) = number 12 size := by
  have before : (field 100 name ++ number 8 mode ++ number 8 0 ++ number 8 0).length = 124 := by
    simp only [List.length_append, field_length, number_length (by decide : 0 < 8)]
  refine slice_of_parts before (number_length (by decide) size) ?_
  simp only [header_eq, front, List.append_assoc]
  exact ⟨_, rfl⟩

theorem slice_sum : slice 148 8 (header name flag target mode size) =
    octal 6 (sum name flag target mode size) ++ [0, 32] :=
  slice_of_parts front_length (by rw [List.length_append, octal_length]; rfl) ⟨_, header_eq⟩

theorem drop_flag :
    ((header name flag target mode size).drop 156).headD 0 = flag := by
  have before : (front name mode size ++ (octal 6 (sum name flag target mode size) ++
      [0, 32])).length = 156 := by
    simp only [List.length_append, front_length, octal_length]
    rfl
  rw [header_eq, ← before, List.drop_left]
  rfl

theorem slice_prefix : slice 345 155 (header name flag target mode size) = field 155 [] := by
  have before : (front name mode size ++ (octal 6 (sum name flag target mode size) ++ [0, 32]) ++
      ([flag] ++ field 100 target ++ lit "ustar" ++ [0] ++ lit "00" ++ field 32 [] ++ field 32 [] ++
        number 8 0 ++ number 8 0)).length = 345 := by
    have magic : (lit "ustar").length = 5 := rfl
    have version : (lit "00").length = 2 := rfl
    simp only [List.length_append, front_length, octal_length, field_length,
      number_length (by decide : 0 < 8), magic, version, List.length_cons, List.length_nil]
  refine slice_of_parts before (field_length 155 []) ?_
  simp only [header_eq, back, List.append_assoc]
  exact ⟨_, rfl⟩

theorem checksum_le (s : Bytes) : checksum s ≤ 255 * s.length := by
  have each : ∀ n, s.foldl (fun n b => n + b.toNat) n ≤ n + 255 * s.length := by
    induction s with
    | nil => exact fun n => Nat.le_refl n
    | cons b s ih =>
        intro n
        have small : b.toNat < 256 := b.toNat_lt
        have rest := ih (n + b.toNat)
        rw [List.foldl_cons, List.length_cons]
        omega
  have whole := each 0
  rwa [Nat.zero_add] at whole

theorem sum_lt : sum name flag target mode size < 8 ^ 6 := by
  have bound := checksum_le (front name mode size ++ List.replicate 8 32 ++ back flag target)
  simp only [List.length_append, front_length, List.length_replicate, back_length] at bound
  rw [sum]
  omega

theorem isSound_header : isSound (header name flag target mode size) = true := by
  have first : (header name flag target mode size).take 148 = front name mode size := by
    have length : (front name mode size).length = 148 := front_length
    rw [header_eq, List.append_assoc, ← length, List.take_left]
  have behind : (front name mode size ++ (octal 6 (sum name flag target mode size) ++
      [0, 32])).length = 156 := by
    simp only [List.length_append, front_length, octal_length]
    rfl
  have last : (header name flag target mode size).drop 156 = back flag target := by
    rw [header_eq, ← behind, List.drop_left]
  have blank : ∀ b ∈ ([0, 32] : Bytes), b = 32 ∨ b = 0 := by decide +kernel
  rw [isSound, slice_sum, readOctal_octal sum_lt blank]
  simp only [first, last, sum, beq_self_eq_true]

theorem not_zero_header : (header name flag target mode size).all (· == 0) = false := by
  rw [List.all_eq_false]
  exact ⟨32, by simp [header_eq], by decide⟩

/-- A name that stands in its field is the name of the header. -/
theorem headerName_header (short : name.length ≤ 100) (noZero : 0 ∉ name) :
    headerName (header name flag target mode size) = name := by
  -- the part of a name that stands at the end is empty, however wide it is
  have unused : ∀ width ≤ 155,
      untilZero (slice 345 width (header name flag target mode size)) = [] := by
    intro width narrow
    have part : slice 345 width (header name flag target mode size) =
        (slice 345 155 (header name flag target mode size)).take width := by
      rw [slice, slice, List.take_take, Nat.min_eq_left narrow]
    have zeros : (field 155 []).take width = field width [] := by
      simp only [field, List.take_nil, List.nil_append, List.length_nil, Nat.sub_zero,
        List.take_replicate, Nat.min_eq_left narrow]
    rw [part, slice_prefix, zeros, untilZero_field (Nat.zero_le _) (by simp)]
  simp only [headerName, slice_name, untilZero_field short noZero]
  split
  · rw [unused _ (by split <;> decide)]
    rfl
  · rfl

/-- The header is read field by field. -/
theorem readHeader_header (small : size < sizeLimit) :
    readHeader (header name flag target mode size) =
      some ⟨headerName (header name flag target mode size), flag,
        untilZero (slice 157 100 (header name flag target mode size)), size⟩ := by
  rw [readHeader, isSound_header, slice_size, readSize_number small, drop_flag]
  rfl

/-! ## Records -/

/-- What a record says, and how long it is. -/
theorem record_eq (key value : Bytes) : ∃ digits, digits = Decimal.ofNat (record key value).length ∧
    record key value = digits ++ 32 :: (key ++ 61 :: value ++ [10]) := by
  refine ⟨_, rfl, ?_⟩
  let body : Bytes := [32] ++ key ++ [61] ++ value ++ [10]
  let once := body.length + (Decimal.ofNat body.length).length
  have written : record key value =
      Decimal.ofNat (body.length + (Decimal.ofNat once).length) ++ body := rfl
  have length : (record key value).length = body.length + (Decimal.ofNat once).length := by
    rw [written, List.length_append, Decimal.length_ofNat_add, Nat.add_comm]
  rw [length, written]
  simp [body]

theorem record_length_pos (key value : Bytes) : 0 < (record key value).length := by
  obtain ⟨digits, -, written⟩ := record_eq key value
  rw [written, List.length_append, List.length_cons]
  omega

theorem record_length_le (key value : Bytes) :
    (record key value).length ≤ 3 * (key.length + value.length) + 11 := by
  have few : ∀ n, (Decimal.ofNat n).length ≤ n + 1 := fun n =>
    (Decimal.length_ofNat_le n n).mpr (Nat.lt_of_succ_le (Nat.lt_pow_self (by decide)).le)
  let body : Bytes := [32] ++ key ++ [61] ++ value ++ [10]
  have size : body.length = key.length + value.length + 3 := by
    simp [body]
    omega
  have first := few body.length
  have second := few (body.length + (Decimal.ofNat body.length).length)
  have written : record key value = Decimal.ofNat (body.length + (Decimal.ofNat (body.length +
    (Decimal.ofNat body.length).length)).length) ++ body := rfl
  rw [written, List.length_append, Decimal.length_ofNat_add]
  omega

/-- One record is read, whatever its value, and then those behind it. -/
theorem readRecords_record {key : Bytes} (named : 61 ∉ key) (value : Bytes)
    (small : (record key value).length < Decimal.unsignedLimit) (fuel : Nat) (rest : Bytes)
    (done : List (Bytes × Bytes)) :
    readRecords (fuel + 1) (record key value ++ rest) done =
      readRecords fuel rest ((key, value) :: done) := by
  obtain ⟨digits, counted, written⟩ := record_eq key value
  have noBlank : 32 ∉ digits := by
    intro member
    rw [counted] at member
    exact absurd (Decimal.isDigit_of_mem_ofNat member) (by decide)
  have count : Decimal.unsigned? digits = some (record key value).length := by
    rw [counted, Decimal.unsigned?, Decimal.unsigned_ofNat small]
    rfl
  have cut : Bytes.cutByte 32 (record key value ++ rest) =
      some (digits, key ++ 61 :: value ++ [10] ++ rest) := by
    have := Bytes.cutByte_append noBlank (key ++ 61 :: value ++ [10] ++ rest)
    rw [written]
    simpa using this
  have line : ((record key value ++ rest).take (record key value).length).drop (digits.length + 1) =
      key ++ 61 :: value ++ [10] := by
    rw [List.take_left, written, List.drop_append]
    simp
  have length := congrArg List.length written
  simp only [List.length_append, List.length_cons] at length
  have enough : ¬((record key value).length ≤ digits.length + 1 ||
      (record key value ++ rest).length < (record key value).length) = true := by
    simp only [Bool.or_eq_true, decide_eq_true_eq, List.length_append]
    omega
  have nonempty : ¬(record key value ++ rest).isEmpty = true := by
    rw [List.isEmpty_iff, List.append_eq_nil_iff, ← List.length_eq_zero_iff]
    omega
  rw [readRecords, if_neg nonempty]
  simp only [cut, count, line, if_neg enough, Bytes.withoutTail_append, Bytes.cutByte_append named,
    List.drop_left]

/-- Records are read one after the other. -/
theorem readRecords_records (records : List (Bytes × Bytes)) (named : ∀ r ∈ records, 61 ∉ r.1)
    (small : (records.flatMap fun r => record r.1 r.2).length < Decimal.unsignedLimit) :
    ∀ (fuel : Nat) (done : List (Bytes × Bytes)),
      (records.flatMap fun r => record r.1 r.2).length < fuel → readRecords fuel (records.flatMap fun r => record r.1 r.2) done =
        some (records.reverse ++ done) := by
  induction records with
  | nil =>
      intro fuel done more
      obtain ⟨fuel, rfl⟩ : ∃ n, fuel = n + 1 := ⟨fuel - 1, by omega⟩
      rfl
  | cons r records ih =>
      intro fuel done more
      obtain ⟨fuel, rfl⟩ : ∃ n, fuel = n + 1 := ⟨fuel - 1, by omega⟩
      have positive := record_length_pos r.1 r.2
      rw [List.flatMap_cons, List.length_append] at small more
      rw [List.flatMap_cons, readRecords_record (named r List.mem_cons_self) r.2 (by omega),
        ih (fun r member => named r (List.mem_cons_of_mem _ member)) (by omega) fuel _ (by omega)]
      simp

/-! ## Members -/

theorem behind_padded (content rest : Bytes) : behind content.length (padded content ++ rest) = rest := by
  rw [behind, ← List.drop_drop, padded, List.append_assoc, List.drop_left, List.drop_append,
    List.drop_replicate, List.length_replicate, Nat.sub_self]
  rfl

theorem take_padded (content rest : Bytes) : (padded content ++ rest).take content.length = content := by
  rw [padded, List.append_assoc, List.take_left]

theorem length_padded (content rest : Bytes) : ¬(padded content ++ rest).length < content.length := by
  rw [padded, List.length_append, List.length_append]
  omega

section

variable {failure : Option Fault} {fuel : Nat} {notes : Notes} {rest : Bytes} {done : List Arrival}

/-- A header is taken off the stream. -/
theorem readFrom_header (small : size < sizeLimit) :
    readFrom failure (fuel + 1) notes (header name flag target mode size ++ rest) done =
      let h : Header := ⟨headerName (header name flag target mode size), flag,
        untilZero (slice 157 100 (header name flag target mode size)), size⟩
      let early := failure.getD (.other (lit "unexpected EOF"))
      if isNote flag then
        if rest.length < size then ⟨done.reverse, some early⟩
        else
          match notes.add flag (rest.take size) with
          | none => ⟨done.reverse, some badHeader⟩
          | some notes => readFrom failure fuel notes (behind size rest) done
      else
        match h.noted notes with
        | none => ⟨done.reverse, some badHeader⟩
        | some h =>
          let done := h.arrival early rest :: done
          if rest.length < h.contentSize then ⟨done.reverse, some early⟩
          else readFrom failure fuel {} (behind h.contentSize rest) done := by
  have length : (header name flag target mode size).length = blockSize := header_length
  have first : (header name flag target mode size ++ rest).splitAt blockSize =
      (header name flag target mode size, rest) := by
    rw [List.splitAt_eq, ← length, List.take_left, List.drop_left]
  have nonempty : (header name flag target mode size).isEmpty = false := by
    rw [← Bool.not_eq_true, List.isEmpty_iff, ← List.length_eq_zero_iff, length]
    decide
  have found : readHeader (header name flag target mode size) = some _ := readHeader_header small
  rw [readFrom]
  simp only [first, nonempty, length, not_zero_header, Nat.lt_irrefl, Bool.false_eq_true, if_false]
  generalize readHeader (header name flag target mode size) = h at found
  subst found
  rfl

/-- Records are read with their header. -/
theorem readFrom_records {content : Bytes} (small : content.length < sizeLimit)
    {records : List (Bytes × Bytes)} (said : readRecords (content.length + 1) content [] = some records) :
    readFrom failure (fuel + 1) notes
        (header name 120 target mode content.length ++ (padded content ++ rest)) done =
      readFrom failure fuel { notes with records } rest done := by
  have add : notes.add 120 content = some { notes with records } := by
    rw [Notes.add, if_pos (by decide), said]
    rfl
  rw [readFrom_header small]
  dsimp only
  rw [if_pos (by decide), if_neg (length_padded content rest), take_padded, add, behind_padded]

/-- A file is read with its header, whatever was said in front of it. -/
theorem readFrom_content {content : Bytes} (small : size < sizeLimit) {m : Header}
    (said : Header.noted ⟨headerName (header name 48 target mode size), 48,
      untilZero (slice 157 100 (header name 48 target mode size)), size⟩ notes = some m)
    (isFile : m.flag = 48) (sized : m.size = content.length) :
    readFrom failure (fuel + 1) notes (header name 48 target mode size ++ (padded content ++ rest)) done =
      readFrom failure fuel {} rest (Member.whole ⟨m.name, .file, content⟩ :: done) := by
  have contentSize : m.contentSize = content.length := by
    rw [Header.contentSize, isFile, if_pos (by rfl), sized]
  have arrival : ∀ early, m.arrival early (padded content ++ rest) =
      Member.whole ⟨m.name, .file, content⟩ := by
    intro early
    rw [Header.arrival, contentSize, take_padded, if_neg (length_padded content rest), isFile, sized]
    rfl
  rw [readFrom_header small]
  dsimp only
  rw [if_neg (by decide), said]
  dsimp only
  rw [arrival, contentSize, if_neg (length_padded content rest), behind_padded]

end

/-- The records of a file: what does not fit its header. -/
def notes (m : Member) : List (Bytes × Bytes) :=
  (if fits m.name then [] else [(lit "path", m.name)]) ++
    if m.content.length < sizeLimit then [] else [(lit "size", Decimal.ofNat m.content.length)]

/-- A file whose name and size an archive can hold. -/
structure Plain (m : Member) : Prop where
  type : m.type = .file
  name : Bytes.endsWith [47] m.name = false
  short : m.name.length < 2 ^ 31
  size : m.content.length < Decimal.unsignedLimit

variable {m : Member}

theorem writeMember_file (plain : Plain m) : writeMember m =
    (if ((notes m).flatMap fun r => record r.1 r.2).isEmpty then []
      else header (lit "PaxHeaders.0/entry") 120 [] 0 ((notes m).flatMap fun r => record r.1 r.2).length ++
        padded ((notes m).flatMap fun r => record r.1 r.2)) ++
      header (ascii m.name) 48 [] 420
        (if m.content.length < sizeLimit then m.content.length else 0) ++ padded m.content := by
  have records : (notes m).flatMap (fun r => record r.1 r.2) =
      (if fits m.name then [] else record (lit "path") m.name) ++
        (if m.content.length < sizeLimit then []
          else record (lit "size") (Decimal.ofNat m.content.length)) := by
    rw [notes, List.flatMap_append]
    split <;> split <;> simp
  have noTarget : fits [] = true := rfl
  have file : writtenType m = .file := by
    rw [writtenType, plain.name, Bool.and_false, if_neg Bool.false_ne_true, plain.type]
  rw [records]
  simp only [writeMember, file, noTarget, if_true, List.append_nil]
  rfl

theorem lookup_notes : lookup (notes m).reverse "path" = if fits m.name then none else some m.name := by
  have other : (lit "size" == lit "path") = false := by decide
  have named : fits m.name = false → m.name ≠ [] := by
    rintro unfit none
    rw [none] at unfit
    cases unfit
  unfold notes
  split <;> split <;> simp_all [lookup]

theorem sizeOf_notes (small : m.content.length < Decimal.unsignedLimit) :
    sizeOf? (notes m).reverse (if m.content.length < sizeLimit then m.content.length else 0) =
      some m.content.length := by
  have other : (lit "path" == lit "size") = false := by decide
  have read : Decimal.unsigned? (Decimal.ofNat m.content.length) = some m.content.length := by
    rw [Decimal.unsigned?, Decimal.unsigned_ofNat small]
    rfl
  have digits := (Decimal.ofNat_spec m.content.length).2.1
  rw [sizeOf?]
  by_cases short : m.content.length < sizeLimit
  · have silent : lookup (notes m).reverse "size" = none := by
      unfold notes
      rw [if_pos short]
      split <;> simp [lookup, other]
    rw [silent, if_pos short]
  · have said : lookup (notes m).reverse "size" = some (Decimal.ofNat m.content.length) := by
      unfold notes
      rw [if_neg short]
      split <;> simp [lookup, digits]
    rw [said]
    exact read

theorem notes_length_le (plain : Plain m) :
    ((notes m).flatMap fun r => record r.1 r.2).length < sizeLimit := by
  have path := record_length_le (lit "path") m.name
  have size := record_length_le (lit "size") (Decimal.ofNat m.content.length)
  have digits : (Decimal.ofNat m.content.length).length ≤ 19 + 1 :=
    (Decimal.length_ofNat_le _ 19).mpr (Nat.lt_trans plain.size (by decide))
  have short := plain.short
  have key : (lit "path").length = 4 := rfl
  have key' : (lit "size").length = 4 := rfl
  have limit : sizeLimit = 8589934592 := by decide
  rw [notes, List.flatMap_append, List.length_append, limit]
  split <;> split <;> simp <;> omega

/-- A name that fits its field is read from there, and any other from its record. -/
theorem name_read {size : Nat} : (lookup (notes m).reverse "path").getD
    (headerName (header (ascii m.name) 48 [] 420 size)) = m.name := by
  rw [lookup_notes]
  split
  · rename_i fit
    simp only [fits, Bool.and_eq_true, decide_eq_true_eq, List.all_eq_true, bne_iff_ne] at fit
    have whole : ascii m.name = m.name :=
      List.filter_eq_self.mpr fun b member => decide_eq_true (fit.2 b member).1
    rw [whole, Option.getD_none]
    exact headerName_header fit.1 fun member => (fit.2 0 member).2 rfl
  · rfl

section

variable {failure : Option Fault}

/-- A file is read after its records. -/
theorem readFrom_file (plain : Plain m) (fuel : Nat) (rest : Bytes) (done : List Arrival) :
    readFrom failure (fuel + 1) { records := (notes m).reverse } (header (ascii m.name) 48 [] 420
      (if m.content.length < sizeLimit then m.content.length else 0) ++ (padded m.content ++ rest)) done =
      readFrom failure fuel {} rest (m.whole :: done) := by
  have small : (if m.content.length < sizeLimit then m.content.length else 0) < sizeLimit := by
    split
    · assumption
    · decide
  have said : ∀ target, ∃ target', Header.noted
      ⟨headerName (header (ascii m.name) 48 [] 420
          (if m.content.length < sizeLimit then m.content.length else 0)), 48, target,
        if m.content.length < sizeLimit then m.content.length else 0⟩
      { records := (notes m).reverse } = some ⟨m.name, 48, target', m.content.length⟩ := by
    intro target
    refine ⟨(lookup (notes m).reverse "linkpath").getD target, ?_⟩
    rw [Header.noted]
    simp only [sizeOf_notes plain.size, name_read]
    rfl
  obtain ⟨target', said⟩ := said _
  have isFile : m.whole = Member.whole ⟨m.name, .file, m.content⟩ := by
    rw [← plain.type]
  rw [readFrom_content small said rfl rfl, isFile]

/-- The records of a member are read before it. -/
theorem readFrom_notes (plain : Plain m) (fuel : Nat) (rest : Bytes) (done : List Arrival) :
    readFrom failure (fuel + 1) {} (header (lit "PaxHeaders.0/entry") 120 [] 0
      ((notes m).flatMap fun r => record r.1 r.2).length ++
        (padded ((notes m).flatMap fun r => record r.1 r.2) ++ rest)) done =
      readFrom failure fuel { records := (notes m).reverse } rest done := by
  have small := notes_length_le plain
  have limit : sizeLimit < Decimal.unsignedLimit := by decide
  have named : ∀ r ∈ notes m, 61 ∉ r.1 := by
    intro r member
    have path : 61 ∉ lit "path" := by decide
    have size : 61 ∉ lit "size" := by decide
    rw [notes, List.mem_append] at member
    rcases member with isPath | isSize
    · split at isPath
      · cases isPath
      · rw [List.mem_singleton.mp isPath]
        exact path
    · split at isSize
      · cases isSize
      · rw [List.mem_singleton.mp isSize]
        exact size
  have read := readRecords_records (notes m) named (Nat.lt_trans small limit) _ []
    (Nat.lt_succ_self _)
  rw [List.append_nil] at read
  exact readFrom_records small read

/-- A member is read as it was written, in one step or in two, which it has the blocks for. -/
theorem readFrom_writeMember (plain : Plain m) (rest : Bytes) (done : List Arrival) :
    ∃ used, used * blockSize ≤ (writeMember m).length ∧ ∀ fuel,
      readFrom failure (fuel + used) {} (writeMember m ++ rest) done =
        readFrom failure fuel {} rest (m.whole :: done) := by
  rw [writeMember_file plain]
  by_cases silent : ((notes m).flatMap fun r => record r.1 r.2).isEmpty = true
  · refine ⟨1, ?_, fun fuel => ?_⟩
    · simp only [List.length_append, header_length]
      omega
    · have none : notes m = [] := by
        cases said : notes m with
        | nil => rfl
        | cons r more =>
            have positive := record_length_pos r.1 r.2
            rw [said, List.flatMap_cons, List.isEmpty_iff, List.append_eq_nil_iff] at silent
            rw [silent.1] at positive
            cases positive
      have file := @readFrom_file _ failure plain fuel rest done
      rw [none, List.reverse_nil] at file
      rw [if_pos silent, List.nil_append, List.append_assoc]
      exact file
  · refine ⟨2, ?_, fun fuel => ?_⟩
    · rw [if_neg silent]
      simp only [List.length_append, header_length]
      omega
    · rw [if_neg silent]
      simp only [List.append_assoc]
      rw [readFrom_notes plain, readFrom_file plain]

/-- Two empty blocks end an archive. -/
theorem readFrom_end (fuel : Nat) (notes : Notes) (done : List Arrival) :
    readFrom failure (fuel + 1) notes (List.replicate (2 * blockSize) 0) done = ⟨done.reverse, none⟩ := by
  have first : (List.replicate (2 * blockSize) (0 : UInt8)).splitAt blockSize =
      (List.replicate blockSize 0, List.replicate blockSize 0) := by
    rw [List.splitAt_eq, List.take_replicate, List.drop_replicate]
    rfl
  have zero : (List.replicate blockSize (0 : UInt8)).all (· == 0) = true := by
    simp
  have nonempty : (List.replicate blockSize (0 : UInt8)).isEmpty = false := rfl
  have whole : (List.replicate blockSize (0 : UInt8)).take blockSize = List.replicate blockSize 0 := by
    rw [List.take_replicate, Nat.min_self]
  rw [readFrom]
  simp only [first, nonempty, List.length_replicate, Nat.lt_irrefl, zero, ended, whole,
    Bool.false_eq_true, if_false, if_true]

theorem readFrom_members (ms : List Member) (plain : ∀ m ∈ ms, Plain m) :
    ∀ (fuel : Nat) (done : List Arrival), (ms.flatMap writeMember).length < fuel * blockSize →
      readFrom failure fuel {} (write ms) done = ⟨done.reverse ++ ms.map Member.whole, none⟩ := by
  induction ms with
  | nil =>
      intro fuel done more
      obtain ⟨fuel, rfl⟩ : ∃ n, fuel = n + 1 := by
        cases fuel with
        | zero => simp at more
        | succ n => exact ⟨n, rfl⟩
      rw [List.map_nil, List.append_nil]
      exact readFrom_end fuel {} done
  | cons m ms ih =>
      intro fuel done more
      obtain ⟨used, blocks, read⟩ :=
        readFrom_writeMember (plain m List.mem_cons_self) (write ms) done
      rw [List.flatMap_cons, List.length_append] at more
      have enough : used ≤ fuel :=
        Nat.le_of_mul_le_mul_right (by omega) (by decide : 0 < blockSize)
      obtain ⟨fuel, rfl⟩ : ∃ n, fuel = n + used := ⟨fuel - used, by omega⟩
      have written : write (m :: ms) = writeMember m ++ write ms := by
        rw [write, write, List.flatMap_cons, List.append_assoc]
      rw [Nat.add_mul] at more
      rw [written, read, ih (fun k member => plain k (List.mem_cons_of_mem m member)) fuel _ (by omega)]
      simp

end

/-- Files that an archive can hold are read from it as they were, up to its end mark. -/
theorem read_write {ms : List Member} (plain : ∀ m ∈ ms, Plain m) :
    read ⟨write ms, none⟩ = ⟨ms.map Member.whole, none⟩ := by
  have length : (write ms).length = (ms.flatMap writeMember).length + 2 * blockSize := by
    rw [write, List.length_append, List.length_replicate]
  have enough : (ms.flatMap writeMember).length < ((write ms).length / blockSize + 1) * blockSize := by
    have := Nat.lt_div_mul_add (by decide : 0 < blockSize) (a := (write ms).length)
    rw [Nat.add_mul, Nat.one_mul]
    omega
  rw [read, readFrom_members ms plain _ [] enough]
  rfl

end Archive

/-- A codec gives back what it was given: the same members, whole and in order. -/
def Codec.Returns (c : Codec) (ms : List Member) : Prop :=
  c.decode ⟨c.encode ms, none⟩ = ⟨ms.map Member.whole, none⟩

/-- The plain codec gives back any files that an archive can hold. -/
theorem returns_plain {ms : List Member} (plain : ∀ m ∈ ms, Archive.Plain m) :
    Codec.plain.Returns ms := by
  simp only [Codec.Returns, Codec.plain, Frame.unwrap_wrap, Archive.read_write plain]

end Bundle

end SymbolHistory
