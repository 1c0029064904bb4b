/-
# Proofs.RepairedTexts -- a text is repaired in parts

Repairing a text changes the runs of bytes that belong to no character.  A byte
below 128 is a character by itself, whatever stands beside it, and it ends every
such run, so what stands before it and what stands behind it are repaired by
themselves (`repair_append`).

In particular a text can be cut at its newlines before or after it is repaired
(`splitOn_repair`), and a line can lose its carriage return before or after
(`withoutReturn_repair`).
-/
import SymbolHistory.Proofs.Characters
import SymbolHistory.Proofs.RecordLines

set_option autoImplicit false

namespace SymbolHistory

/-! ## The last separator -/

namespace Bytes

/-- A text with a separator is a text up to the last of them and a rest without any. -/
theorem exists_last {sep : UInt8} {s : Bytes} (member : sep ∈ s) :
    ∃ front last, s = front ++ sep :: last ∧ sep ∉ last := by
  obtain ⟨back, rest, whole, absent⟩ := List.eq_append_cons_of_mem (List.mem_reverse.mpr member)
  refine ⟨rest.reverse, back.reverse, ?_, fun inside => absent (List.mem_reverse.mp inside)⟩
  rw [← List.reverse_reverse s, whole]
  simp

theorem getLast?_ne_of_not_mem {sep : UInt8} {front last : Bytes} (nonempty : last ≠ [])
    (absent : sep ∉ last) : (front ++ sep :: last).getLast? ≠ some sep := by
  intro isLast
  obtain ⟨b, rest, rfl⟩ := List.exists_cons_of_ne_nil nonempty
  rw [List.getLast?_append, List.getLast?_cons_cons, List.getLast?_cons] at isLast
  refine absent (List.mem_of_getLast? ?_)
  rw [List.getLast?_cons]
  simpa using isLast

/-- A text is put together of a last piece and of pieces that end in a separator. -/
@[elab_as_elim]
theorem last_piece_induction (sep : UInt8) {motive : Bytes → Prop}
    (last : ∀ s, sep ∉ s → motive s)
    (piece : ∀ s t, motive s → sep ∉ t → motive (s ++ sep :: t)) (s : Bytes) : motive s := by
  induction h : s.length using Nat.strongRecOn generalizing s with
  | _ n ih =>
      by_cases member : sep ∈ s
      · obtain ⟨front, rest, rfl, absent⟩ := exists_last member
        refine piece front rest (ih front.length ?_ front rfl) absent
        rw [← h, List.length_append, List.length_cons]
        omega
      · exact last s member

end Bytes

/-! ## Repairing a text in parts -/

namespace Utf8

/-- The repaired pieces, where `broken` says whether a broken byte stands before them. -/
def repairedFrom (broken : Bool) : List Piece → Bytes
  | [] => []
  | .char _ bytes :: rest => bytes ++ repairedFrom false rest
  | .broken _ :: rest => (if broken then [] else replacementBytes) ++ repairedFrom true rest

section

variable {b : UInt8}

/-- A byte below 128 continues no character. -/
theorem first_append (ascii : b < 128) (a : UInt8) (s t : Bytes) :
    first a (s ++ b :: t) = first a s := by
  have noTail : isTail b = false :=
    Bool.eq_false_iff.mpr fun isTail => UInt8.not_le.mpr ascii (high_of_isTail isTail)
  have noSecond : secondOk a b = false :=
    Bool.eq_false_iff.mpr fun ok => UInt8.not_le.mpr ascii (high_of_secondOk ok)
  -- at most three bytes ahead are looked at
  rcases s with _ | ⟨x, _ | ⟨y, _ | ⟨z, s⟩⟩⟩ <;> rcases t with _ | ⟨u, _ | ⟨v, t⟩⟩ <;>
    simp [first, noTail, noSecond]

theorem pieces_append_cons (ascii : b < 128) (s t : Bytes) :
    pieces (s ++ b :: t) = pieces s ++ .char b.toNat [b] :: pieces t := by
  induction s using Utf8.pieces_induction with
  | nil =>
      have alone : first b t = .char b.toNat [b] := if_pos ascii
      rw [List.nil_append, pieces_cons, alone]
      rfl
  | cons a s rest whole parts ih =>
      obtain ⟨tail, rest', own, rfl⟩ := first_front a s
      rw [own, List.cons_append] at whole
      obtain rfl : rest' = rest := List.append_cancel_left (List.cons.inj whole).2
      rw [parts, List.cons_append, pieces_cons, first_append ascii, own, List.length_cons,
        Nat.add_sub_cancel, List.append_assoc, List.drop_left, ih, List.cons_append]

/-- A fold that adds the characters, and a replacement for the first of broken bytes in a row, adds
the repaired pieces. -/
theorem foldl_repairedFrom {step : Bytes × Bool → Piece → Bytes × Bool}
    (char : ∀ s code bytes, step s (.char code bytes) = (bytes.reverse ++ s.1, false))
    (broken : ∀ s byte,
      step s (.broken byte) = if s.2 then s else (replacementBytes.reverse ++ s.1, true))
    (ps : List Piece) : ∀ (out : Bytes) (after : Bool),
      (ps.foldl step (out, after)).1.reverse = out.reverse ++ repairedFrom after ps := by
  induction ps with
  | nil => exact fun out _ => (List.append_nil out.reverse).symm
  | cons p ps ih =>
      intro out after
      rw [List.foldl_cons]
      cases p with
      | char code bytes => rw [char, ih, repairedFrom, List.reverse_append, List.reverse_reverse,
          List.append_assoc]
      | broken byte =>
          rw [broken, repairedFrom]
          cases after with
          | false => rw [if_neg Bool.false_ne_true, if_neg Bool.false_ne_true, ih,
              List.reverse_append, List.reverse_reverse, List.append_assoc]
          | true => rw [if_pos rfl, if_pos rfl, ih, List.nil_append]

theorem repair_eq (s : Bytes) : repair s = repairedFrom false (pieces s) :=
  foldl_repairedFrom (fun _ _ _ => rfl) (fun _ _ => rfl) (pieces s) [] false

theorem repairedFrom_append (code : Nat) (bytes : Bytes) (ps qs : List Piece) : ∀ broken,
    repairedFrom broken (ps ++ .char code bytes :: qs) =
      repairedFrom broken ps ++ (bytes ++ repairedFrom false qs) := by
  induction ps with
  | nil => exact fun _ => rfl
  | cons p ps ih =>
      intro broken
      cases p <;> rw [List.cons_append, repairedFrom, repairedFrom, ih, List.append_assoc]

/-- What stands before a byte below 128 and what stands behind it are repaired by themselves. -/
theorem repair_append (ascii : b < 128) (s t : Bytes) :
    repair (s ++ b :: t) = repair s ++ b :: repair t := by
  rw [repair_eq, repair_eq, repair_eq, pieces_append_cons ascii, repairedFrom_append]
  rfl

theorem repair_ne_nil {s : Bytes} (nonempty : s ≠ []) : repair s ≠ [] := by
  obtain ⟨a, s, rfl⟩ := List.exists_cons_of_ne_nil nonempty
  obtain ⟨tail, rest, own, -⟩ := first_front a s
  rw [repair_eq, pieces_cons]
  cases reads : first a s with
  | char code bytes =>
      rw [reads, Piece.bytes] at own
      simp [repairedFrom, own]
  | broken byte => simp [repairedFrom, replacementBytes]

theorem mem_repairedFrom (ps : List Piece) : ∀ broken, b ∈ repairedFrom broken ps →
    b ∈ replacementBytes ∨ b ∈ ps.flatMap Piece.bytes := by
  induction ps with
  | nil => exact fun _ member => by cases member
  | cons p ps ih =>
      intro broken member
      rw [List.flatMap_cons, List.mem_append]
      cases p with
      | char code bytes =>
          rw [repairedFrom, List.mem_append] at member
          rcases member with here | later
          · exact .inr (.inl here)
          · exact (ih false later).imp_right .inr
      | broken byte =>
          rw [repairedFrom, List.mem_append] at member
          rcases member with here | later
          · split at here
            · cases here
            · exact .inl here
          · exact (ih true later).imp_right .inr

/-- Repairing adds no byte below 128. -/
theorem mem_of_mem_repair (ascii : b < 128) {s : Bytes} (member : b ∈ repair s) : b ∈ s := by
  rw [repair_eq] at member
  rcases mem_repairedFrom (pieces s) false member with added | inside
  · have high : ∀ c ∈ replacementBytes, 128 ≤ c := by simp [replacementBytes]
    exact absurd (high b added) (UInt8.not_le.mpr ascii)
  · rwa [flatMap_pieces] at inside

/-- A byte below 128 ends the repaired text exactly if it ends the text. -/
theorem getLast?_repair (ascii : b < 128) (s : Bytes) :
    (repair s).getLast? = some b ↔ s.getLast? = some b := by
  by_cases member : b ∈ s
  · obtain ⟨front, last, rfl, absent⟩ := Bytes.exists_last member
    rw [repair_append ascii]
    cases last with
    | nil =>
        have nothing : repair [] = [] := rfl
        rw [nothing, List.getLast?_concat, List.getLast?_concat]
    | cons c last =>
        have nonempty : c :: last ≠ [] := List.cons_ne_nil c last
        have absent' : b ∉ repair (c :: last) := fun inside => absent (mem_of_mem_repair ascii inside)
        exact iff_of_false (Bytes.getLast?_ne_of_not_mem (repair_ne_nil nonempty) absent')
          (Bytes.getLast?_ne_of_not_mem nonempty absent)
  · exact iff_of_false
      (fun isLast => member (mem_of_mem_repair ascii (List.mem_of_getLast? isLast)))
      fun isLast => member (List.mem_of_getLast? isLast)

/-- The pieces between separators are repaired one by one. -/
theorem splitOn_repair (ascii : b < 128) (s : Bytes) :
    Bytes.splitOn b (repair s) = (Bytes.splitOn b s).map repair := by
  have alone : ∀ {s : Bytes}, b ∉ s → Bytes.splitOn b (repair s) = [repair s] := fun absent =>
    Bytes.splitOn_of_not_mem fun inside => absent (mem_of_mem_repair ascii inside)
  induction s using Bytes.last_piece_induction b with
  | last s absent => rw [alone absent, Bytes.splitOn_of_not_mem absent, List.map_singleton]
  | piece s t ih absent =>
      rw [repair_append ascii, Bytes.splitOn_append_sep, ih, alone absent, Bytes.splitOn_append_sep,
        Bytes.splitOn_of_not_mem absent, List.map_append, List.map_singleton]

/-- It makes no difference whether a line loses its carriage return before or after. -/
theorem withoutReturn_repair (s : Bytes) :
    Bytes.withoutReturn (repair s) = repair (Bytes.withoutReturn s) := by
  have ascii : (13 : UInt8) < 128 := by decide
  by_cases ending : s.getLast? = some 13
  · obtain ⟨front, rfl⟩ := List.getLast?_eq_some_iff.mp ending
    have nothing : repair [] = [] := rfl
    rw [repair_append ascii, nothing, Bytes.withoutReturn_return, Bytes.withoutReturn_return]
  · rw [Bytes.withoutReturn_of_getLast? ending,
      Bytes.withoutReturn_of_getLast? (mt (getLast?_repair ascii s).mp ending)]

end

end Utf8

end SymbolHistory
