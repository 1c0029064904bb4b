/-
# Proofs.Frames -- what is wrapped in a frame is unwrapped again

`wrap` cuts its content into blocks and says in front of each how long it is and
whether it is the last.  Three bytes are enough for that (`littleEndian_header`),
so `unwrap` finds the same blocks (`unwrapBlocks_blocks`), and nothing behind the
frame.
-/
import SymbolHistory.Bundle.Frame

set_option autoImplicit false

namespace SymbolHistory

namespace Bundle

namespace Frame

/-- The front of a text is taken off. -/
theorem takeExactly_append {n : Nat} {u : Bytes} (length : u.length = n) (v : Bytes) :
    takeExactly n (u ++ v) = .ok (u, v) := by
  subst length
  simp [takeExactly]

/-- Three bytes hold the size of a block and whether it is the last. -/
theorem littleEndian_header (last : Bool) {size : Nat} (small : size ≤ blockSize) :
    littleEndian (blockHeader last size) = size * 8 + (if last then 1 else 0) := by
  have bound : size * 8 + (if last then 1 else 0) < 16777216 := by
    have : size ≤ 131072 := small
    cases last <;> simp <;> omega
  simp only [blockHeader]
  generalize size * 8 + (if last then 1 else 0) = n at bound ⊢
  simp only [littleEndian, List.foldr_cons, List.foldr_nil, Nat.toUInt8, UInt8.toNat_ofNat']
  omega

/-- One block is read, and then the blocks behind it unless it is the last. -/
theorem unwrapBlocks_cons (fuel : Nat) (last : Bool) {block : Bytes} (small : block.length ≤ blockSize)
    (rest : Bytes) (done : List Bytes) :
    unwrapBlocks false (fuel + 1) (blockHeader last block.length ++ block ++ rest) done =
      if last then (block :: done, .ok rest) else unwrapBlocks false fuel rest (block :: done) := by
  have head : takeExactly 3 (blockHeader last block.length ++ (block ++ rest)) =
      .ok (blockHeader last block.length, block ++ rest) := takeExactly_append (by rfl) _
  have value := littleEndian_header last small
  have size : littleEndian (blockHeader last block.length) / 8 = block.length := by
    rw [value]
    cases last <;> simp <;> omega
  have kind : littleEndian (blockHeader last block.length) / 2 % 4 = 0 := by
    rw [value]
    cases last <;> simp <;> omega
  have mark : (littleEndian (blockHeader last block.length) % 2 == 0) = !last := by
    rw [value]
    cases last <;> simp <;> omega
  rw [List.append_assoc, unwrapBlocks, head]
  simp only [size, kind, takeExactly_append rfl, mark]
  cases last <;> rfl

/-- All blocks of a content are read, and nothing behind them. -/
theorem unwrapBlocks_blocks (rest : Bytes) (fuel : Nat) :
    ∀ (data : Bytes) (steps : Nat) (done : List Bytes), data.length ≤ fuel * blockSize →
      (blocks fuel data).flatten.length < steps →
      ∃ read, unwrapBlocks false steps ((blocks fuel data).flatten ++ rest) done = (read, .ok rest) ∧
        read.reverse.flatten = done.reverse.flatten ++ data := by
  induction fuel with
  | zero =>
      intro data steps done short more
      obtain rfl : data = [] := List.length_eq_zero_iff.mp (by omega)
      obtain ⟨steps, rfl⟩ : ∃ n, steps = n + 1 := ⟨steps - 1, by omega⟩
      refine ⟨[] :: done, ?_, by simp⟩
      have empty : ([] : Bytes).length ≤ blockSize := Nat.zero_le _
      have one := unwrapBlocks_cons steps true empty rest done
      simpa [blocks] using one
  | succ fuel ih =>
      intro data steps done short more
      obtain ⟨steps, rfl⟩ : ∃ n, steps = n + 1 := ⟨steps - 1, by omega⟩
      rw [blocks] at more ⊢
      split at more
      · rename_i small
        rw [if_pos small]
        refine ⟨data :: done, ?_, by simp⟩
        have one := unwrapBlocks_cons steps true small rest done
        simpa using one
      · rename_i large
        rw [if_neg large]
        have front : (data.take blockSize).length = blockSize := by
          rw [List.length_take]
          omega
        have one := unwrapBlocks_cons steps false (Nat.le_of_eq front)
          ((blocks fuel (data.drop blockSize)).flatten ++ rest) done
        have behind : (data.drop blockSize).length ≤ fuel * blockSize := by
          rw [List.length_drop]
          have : (fuel + 1) * blockSize = fuel * blockSize + blockSize := Nat.succ_mul _ _
          omega
        have fewer : (blocks fuel (data.drop blockSize)).flatten.length < steps := by
          simp only [List.flatten_cons, List.length_append] at more
          have : 0 < (blockHeader false blockSize).length := by decide
          omega
        obtain ⟨read, ended, whole⟩ :=
          ih (data.drop blockSize) steps (data.take blockSize :: done) behind fewer
        refine ⟨read, ?_, ?_⟩
        · rw [front] at one
          simp only [List.flatten_cons, List.append_assoc] at one ⊢
          rw [one]
          exact ended
        · rw [whole]
          simp

/-- A frame is read as its blocks are. -/
theorem unwrapFrames_frame (fuel : Nat) {body : Bytes} {read : List Bytes}
    (ended : unwrapBlocks false (body.length + 1) body [] = (read, .ok [])) :
    unwrapFrames (fuel + 1) (magic ++ header ++ body) [] = (read, none) := by
  have start : takeExactly 4 (magic ++ (header ++ body)) = .ok (magic, header ++ body) :=
    takeExactly_append (by rfl) _
  have window : takeExactly 1 ([0x38] ++ body) = .ok ([0x38], body) := takeExactly_append (by rfl) body
  rw [List.singleton_append] at window
  have length : headerLength (0x00 : UInt8).toNat = 1 := rfl
  have unchecked : ((0x00 : UInt8).toNat / 4 % 2 == 1) = false := rfl
  rw [List.append_assoc, unwrapFrames, start]
  simp only [header, List.cons_append, List.nil_append, length, window, unchecked, ended]
  cases fuel <;> rfl

/-- What is wrapped is unwrapped again. -/
theorem unwrap_wrap (data : Bytes) : unwrap ⟨wrap data, none⟩ = ⟨data, none⟩ := by
  have short : data.length ≤ (data.length / blockSize + 1) * blockSize := by
    have positive : 0 < blockSize := by decide
    have := Nat.lt_div_mul_add positive (a := data.length)
    rw [Nat.succ_mul]
    omega
  obtain ⟨read, ended, whole⟩ := unwrapBlocks_blocks [] _ data _ [] short (Nat.lt_succ_self _)
  rw [List.append_nil] at ended
  simp only [unwrap, wrap]
  rw [unwrapFrames_frame _ ended]
  simpa using whole

end Frame

end Bundle

end SymbolHistory
