/-
# Proofs.Words -- the identifiers of a text, and what cutting does to them

A word of a text is a longest stretch of bytes that identifiers are made of.  Where
a text is cut between two bytes that do not both belong to identifiers, its words
are those of the two parts (`isWord_append`).  Trimming a text makes no new words
(`isWord_trim`), for white space is no part of one.  Taking a keyword out makes a
new word only where the keyword stands inside a longer one (`isWord_replace`).
-/
import Mathlib.Data.List.DropRight
import Mathlib.Data.List.Infix
import SymbolHistory.Proofs.Characters
import SymbolHistory.Proofs.SymbolLines

set_option autoImplicit false

namespace SymbolHistory

namespace Signature

variable {u v w s : Bytes}

/-- A word of a text: a longest stretch of bytes that identifiers are made of. -/
structure IsWord (w s : Bytes) : Prop where
  nonempty : w ≠ []
  bytes : ∀ b ∈ w, isNameByte b = true
  delimited : ∃ p q, s = p ++ w ++ q ∧ p.getLast?.any isNameByte = false ∧ q.head?.any isNameByte = false

/-- No word goes on from one text to the other. -/
def Apart (u v : Bytes) : Prop := u.getLast?.any isNameByte = false ∨ v.head?.any isNameByte = false

instance (u v : Bytes) : Decidable (Apart u v) := inferInstanceAs (Decidable (_ ∨ _))

theorem any_getLast?_append (u v : Bytes) (f : UInt8 → Bool) :
    (u ++ v).getLast?.any f = if v = [] then u.getLast?.any f else v.getLast?.any f := by
  cases v using List.reverseRecOn with
  | nil => simp
  | append_singleton v b => simp [← List.append_assoc]

theorem any_head?_append (u v : Bytes) (f : UInt8 → Bool) :
    (u ++ v).head?.any f = if u = [] then v.head?.any f else u.head?.any f := by
  cases u <;> simp

theorem any_getLast?_of_bytes (nonempty : w ≠ []) (bytes : ∀ b ∈ w, isNameByte b = true) :
    w.getLast?.any isNameByte = true := by
  rw [List.getLast?_eq_some_getLast nonempty]
  exact bytes _ (List.getLast_mem nonempty)

theorem any_head?_of_bytes (nonempty : w ≠ []) (bytes : ∀ b ∈ w, isNameByte b = true) :
    w.head?.any isNameByte = true := by
  rw [List.head?_eq_some_head nonempty]
  exact bytes _ (List.head_mem nonempty)

theorem Apart.head {p : Bytes} (apart : Apart (p ++ w) v) (nonempty : w ≠ [])
    (bytes : ∀ b ∈ w, isNameByte b = true) : v.head?.any isNameByte = false := by
  refine apart.resolve_left ?_
  rw [any_getLast?_append, if_neg nonempty, any_getLast?_of_bytes nonempty bytes]
  exact Bool.noConfusion

theorem Apart.last {q : Bytes} (apart : Apart u (w ++ q)) (nonempty : w ≠ [])
    (bytes : ∀ b ∈ w, isNameByte b = true) : u.getLast?.any isNameByte = false := by
  refine apart.resolve_right ?_
  rw [any_head?_append, if_neg nonempty, any_head?_of_bytes nonempty bytes]
  exact Bool.noConfusion

/-- A word of two texts together is a word of one of them, for the cut goes through no word. -/
theorem isWord_of_append (apart : Apart u v) (isWord : IsWord w (u ++ v)) : IsWord w u ∨ IsWord w v := by
  obtain ⟨nonempty, bytes, p, q, parts, left, right⟩ := isWord
  rcases List.append_eq_append_iff.mp parts with ⟨a, front, rfl⟩ | ⟨a, rfl, rfl⟩
  · rcases List.append_eq_append_iff.mp front with ⟨b, rfl, rfl⟩ | ⟨b, rfl, rfl⟩
    · -- the word is `b ++ a`, and the cut between the two
      by_cases before : b = []
      · subst before
        exact .inr ⟨nonempty, bytes, [], q, by simp, rfl, right⟩
      · have goesOn := apart.head before fun c member => bytes c (List.mem_append_left _ member)
        by_cases behind : a = []
        · subst behind
          rw [List.append_nil] at nonempty bytes ⊢
          exact .inl ⟨nonempty, bytes, p, [], by simp, left, rfl⟩
        · rw [any_head?_append, if_neg behind, any_head?_of_bytes behind fun c member =>
            bytes c (List.mem_append_right _ member)] at goesOn
          cases goesOn
    · refine .inr ⟨nonempty, bytes, b, q, rfl, ?_, right⟩
      rw [any_getLast?_append] at left
      split at left
      · simp [*]
      · exact left
  · refine .inl ⟨nonempty, bytes, p, a, rfl, left, ?_⟩
    rw [any_head?_append] at right
    split at right
    · simp [*]
    · exact right

/-- The words of two texts that are apart are the words of both together. -/
theorem isWord_append (apart : Apart u v) : IsWord w (u ++ v) ↔ IsWord w u ∨ IsWord w v := by
  refine ⟨isWord_of_append apart, ?_⟩
  rintro (⟨nonempty, bytes, p, q, rfl, left, right⟩ | ⟨nonempty, bytes, p, q, rfl, left, right⟩)
  · refine ⟨nonempty, bytes, p, q ++ v, by simp, left, ?_⟩
    rw [any_head?_append]
    split
    · rename_i atEnd
      rw [atEnd, List.append_nil] at apart
      exact apart.head nonempty bytes
    · exact right
  · refine ⟨nonempty, bytes, u ++ p, q, by simp, ?_, right⟩
    rw [any_getLast?_append]
    split
    · rename_i atStart
      rw [atStart, List.nil_append] at apart
      exact apart.last nonempty bytes
    · exact left

theorem head?_dropWhile (s : Bytes) : (s.dropWhile isNameByte).head?.any isNameByte = false := by
  have stops := List.head?_dropWhile_not isNameByte s
  cases begins : (s.dropWhile isNameByte).head? with
  | none => rfl
  | some b => simpa [begins] using stops

theorem getLast?_rdropWhile (s : Bytes) : (s.rdropWhile isNameByte).getLast?.any isNameByte = false := by
  rw [List.rdropWhile, List.getLast?_reverse]
  exact head?_dropWhile s.reverse

/-- Every stretch of identifier bytes stands in a word. -/
theorem isWord_around {p m q : Bytes} (nonempty : m ≠ []) (bytes : ∀ b ∈ m, isNameByte b = true) :
    IsWord (p.rtakeWhile isNameByte ++ m ++ q.takeWhile isNameByte) (p ++ m ++ q) where
  nonempty := by simp [nonempty]
  bytes b member := by
    rcases List.mem_append.mp member with front | back
    · rcases List.mem_append.mp front with before | inside
      · exact List.mem_rtakeWhile_imp before
      · exact bytes b inside
    · exact List.mem_takeWhile_imp back
  delimited := by
    refine ⟨p.rdropWhile isNameByte, q.dropWhile isNameByte, ?_, ?_, ?_⟩
    · simp only [List.append_assoc, List.takeWhile_append_dropWhile]
      rw [← List.append_assoc (p.rdropWhile _), List.rdropWhile_append_rtakeWhile]
    · exact getLast?_rdropWhile p
    · exact head?_dropWhile q

/-- The words of a text, one for each position where an identifier byte follows another byte. -/
def words (s : Bytes) : List Bytes :=
  ((List.range s.length).filter fun i =>
    s[i]?.any isNameByte && !(s.take i).getLast?.any isNameByte).map fun i => (s.drop i).takeWhile isNameByte

theorem mem_words : w ∈ words s ↔ IsWord w s := by
  simp only [words, List.mem_map, List.mem_filter, List.mem_range, Bool.and_eq_true, Bool.not_eq_true']
  constructor
  · rintro ⟨i, ⟨inside, own, left⟩, rfl⟩
    rw [List.getElem?_eq_getElem inside, Option.any_some] at own
    refine ⟨?_, fun b => List.mem_takeWhile_imp, s.take i, (s.drop i).dropWhile isNameByte, ?_, left,
      head?_dropWhile _⟩
    · rw [List.drop_eq_getElem_cons inside, List.takeWhile_cons_of_pos own]
      exact List.cons_ne_nil _ _
    · rw [List.append_assoc, List.takeWhile_append_dropWhile, List.take_append_drop]
  · rintro ⟨nonempty, bytes, p, q, rfl, left, right⟩
    have long := List.length_pos_iff.mpr nonempty
    refine ⟨p.length, ⟨by simp; omega, ?_, by simpa using left⟩, ?_⟩
    · rw [← List.head?_drop, List.append_assoc, List.drop_left, any_head?_append, if_neg nonempty]
      exact any_head?_of_bytes nonempty bytes
    · rw [List.append_assoc, List.drop_left, List.takeWhile_append_of_pos bytes]
      cases q with
      | nil => simp
      | cons b q => rw [List.takeWhile_cons_of_neg (by simpa using right), List.append_nil]

instance (w s : Bytes) : Decidable (IsWord w s) := decidable_of_iff _ mem_words

/-! ## Trimming -/

theorem apart_of_left (other : ∀ b ∈ u, isNameByte b = false) : Apart u v := by
  cases u using List.reverseRecOn with
  | nil => exact .inl rfl
  | append_singleton u b => exact .inl (by simpa using other b (by simp))

theorem apart_of_right (other : ∀ b ∈ v, isNameByte b = false) : Apart u v := by
  cases v with
  | nil => exact .inr rfl
  | cons b v => exact .inr (other b List.mem_cons_self)

theorem range_of_isNameByte {b : UInt8} (isName : isNameByte b = true) : 32 < b ∧ b < 128 := by
  simp only [isNameByte, isWordByte, Bytes.isDigit] at isName
  grind

theorem range_of_isSpace {n : Nat} (space : Utf8.isSpace n = true) : n ≤ 32 ∨ 128 ≤ n := by
  simp only [Utf8.isSpace, Bool.or_eq_true, Bool.and_eq_true, decide_eq_true_eq, beq_iff_eq] at space
  omega

/-- White space is no part of a word. -/
theorem isNameByte_eq_false_of_isSpacePiece {a b : UInt8} (space : Utf8.isSpacePiece (Utf8.first a s) = true)
    (member : b ∈ (Utf8.first a s).bytes) : isNameByte b = false := by
  by_contra isName
  obtain ⟨printed, ascii⟩ := range_of_isNameByte (Bool.not_eq_false _ ▸ isName)
  cases reads : Utf8.first a s with
  | broken c =>
      rw [reads] at space
      cases space
  | char code c =>
      rw [reads] at space member
      obtain ⟨isCharacter, rest, parts⟩ := Utf8.isCharacter_of_first reads
      rcases isCharacter.plain with ⟨d, rfl, -⟩ | high
      · obtain rfl := List.mem_singleton.mp member
        obtain ⟨rfl, rfl⟩ := List.cons.inj parts
        have own : Utf8.first a s = .char a.toNat [a] := if_pos ascii
        rw [own] at reads
        cases reads
        have range := range_of_isSpace space
        rw [UInt8.lt_iff_toNat_lt] at printed ascii
        simp at printed ascii
        omega
      · exact absurd ascii (UInt8.not_lt.mpr (high b member))

theorem isNameByte_eq_false_of_mem_pieces (s : Bytes) : ∀ p ∈ Utf8.pieces s, Utf8.isSpacePiece p = true →
    ∀ b ∈ p.bytes, isNameByte b = false := by
  induction s using Utf8.pieces_induction with
  | nil => exact fun p member => by cases member
  | cons a s rest whole parts ih =>
      rw [parts]
      intro p member
      rcases List.mem_cons.mp member with rfl | later
      · exact fun space b => isNameByte_eq_false_of_isSpacePiece space
      · exact ih p later

/-- What trimming takes off is no part of a word. -/
theorem trim_parts (s : Bytes) : ∃ before behind, s = before ++ (Utf8.trim s ++ behind) ∧
    (∀ b ∈ before, isNameByte b = false) ∧ ∀ b ∈ behind, isNameByte b = false := by
  let rest := (Utf8.pieces s).dropWhile Utf8.isSpacePiece
  have front : (Utf8.pieces s).takeWhile Utf8.isSpacePiece ++ rest = Utf8.pieces s :=
    List.takeWhile_append_dropWhile
  have back : rest.rdropWhile Utf8.isSpacePiece ++ rest.rtakeWhile Utf8.isSpacePiece = rest :=
    List.rdropWhile_append_rtakeWhile
  have blank : ∀ ps ⊆ Utf8.pieces s, (∀ p ∈ ps, Utf8.isSpacePiece p = true) →
      ∀ b ∈ ps.flatMap Piece.bytes, isNameByte b = false := by
    intro ps inside spaces b member
    obtain ⟨p, isPiece, isByte⟩ := List.mem_flatMap.mp member
    exact isNameByte_eq_false_of_mem_pieces s p (inside isPiece) (spaces p isPiece) b isByte
  refine ⟨((Utf8.pieces s).takeWhile Utf8.isSpacePiece).flatMap Piece.bytes,
    (rest.rtakeWhile Utf8.isSpacePiece).flatMap Piece.bytes, ?_, ?_, ?_⟩
  · calc s = (Utf8.pieces s).flatMap Piece.bytes := (Utf8.flatMap_pieces s).symm
      _ = ((Utf8.pieces s).takeWhile Utf8.isSpacePiece ++ (rest.rdropWhile Utf8.isSpacePiece ++
            rest.rtakeWhile Utf8.isSpacePiece)).flatMap Piece.bytes := by rw [back, front]
      _ = _ := by
        rw [List.flatMap_append, List.flatMap_append]
        rfl
  · exact blank _ (List.takeWhile_subset _) fun p => List.mem_takeWhile_imp
  · refine blank _ (fun p member => ?_) fun p => List.mem_rtakeWhile_imp
    exact List.dropWhile_subset _ ((List.rtakeWhile_suffix _ _).mem member)

/-- The words of a trimmed text are words of the text. -/
theorem isWord_trim (isWord : IsWord w (Utf8.trim s)) : IsWord w s := by
  obtain ⟨before, behind, whole, left, right⟩ := trim_parts s
  rw [whole]
  exact (isWord_append (apart_of_left left)).mpr (.inr ((isWord_append (apart_of_right right)).mpr (.inl isWord)))

/-! ## Taking a keyword out -/

/-- The keyword stands in no longer word. -/
def Spares (old s : Bytes) : Prop := ∀ w, IsWord w s → old <:+: w → w = old

instance (old s : Bytes) : Decidable (Spares old s) :=
  decidable_of_iff (∀ w ∈ words s, old <:+: w → w = old) (by simp only [Spares, mem_words])

/-- Where the keyword stands, no word goes on before it or behind it. -/
theorem Spares.apart {old p q : Bytes} (spares : Spares old (p ++ old ++ q)) (nonempty : old ≠ [])
    (bytes : ∀ b ∈ old, isNameByte b = true) :
    p.getLast?.any isNameByte = false ∧ q.head?.any isNameByte = false := by
  have alone := congrArg List.length (spares _ (isWord_around nonempty bytes) ⟨_, _, rfl⟩)
  simp only [List.length_append] at alone
  have before : p.rtakeWhile isNameByte = [] := List.length_eq_zero_iff.mp (by omega)
  have behind : q.takeWhile isNameByte = [] := List.length_eq_zero_iff.mp (by omega)
  have front : p.rdropWhile isNameByte = p := by
    have parts := List.rdropWhile_append_rtakeWhile (p := isNameByte) (l := p)
    rwa [before, List.append_nil] at parts
  have back : q.dropWhile isNameByte = q := by
    have parts := List.takeWhile_append_dropWhile (p := isNameByte) (l := q)
    rwa [behind, List.nil_append] at parts
  have left := getLast?_rdropWhile p
  have right := head?_dropWhile q
  rw [front] at left
  rw [back] at right
  exact ⟨left, right⟩

theorem isWord_replaceFrom {old : Bytes} (nonempty : old ≠ []) (bytes : ∀ b ∈ old, isNameByte b = true)
    (fuel : Nat) : ∀ out s, Spares old s → ∃ kept, Bytes.replaceFrom old [] fuel out s = out.reverse ++ kept ∧
      ∀ w, IsWord w kept → IsWord w s := by
  induction fuel with
  | zero => exact fun out s _ => ⟨s, by rw [Bytes.replaceFrom], fun _ isWord => isWord⟩
  | succ fuel ih =>
      intro out s spares
      rw [Bytes.replaceFrom]
      cases found : Bytes.cut old s with
      | none => exact ⟨s, rfl, fun _ isWord => isWord⟩
      | some parts =>
          obtain ⟨front, rest⟩ := parts
          obtain rfl := Bytes.eq_of_cut found
          obtain ⟨before, behind⟩ := spares.apart nonempty bytes
          -- the front, the keyword and the rest are apart from each other
          have inRest : ∀ w, IsWord w rest → IsWord w (front ++ old ++ rest) := fun w isWord =>
            (isWord_append (.inr behind)).mpr (.inr isWord)
          have inFront : ∀ w, IsWord w front → IsWord w (front ++ old ++ rest) := fun w isWord =>
            (isWord_append (.inr behind)).mpr (.inl ((isWord_append (.inl before)).mpr (.inl isWord)))
          obtain ⟨kept, same, words⟩ := ih ([].reverse ++ (front.reverse ++ out)) rest
            fun w isWord => spares w (inRest w isWord)
          refine ⟨front ++ kept, ?_, fun w isWord => ?_⟩
          · dsimp only
            rw [same, List.reverse_nil, List.nil_append, List.reverse_append, List.reverse_reverse,
              List.append_assoc]
          · rcases (isWord_append (.inl before)).mp isWord with inside | later
            · exact inFront w inside
            · exact inRest w (words w later)

/-- Taking a keyword out makes no new words where it is a word itself. -/
theorem isWord_replace {old : Bytes} (nonempty : old ≠ []) (bytes : ∀ b ∈ old, isNameByte b = true)
    (spares : Spares old s) (isWord : IsWord w (Bytes.replace old [] s)) : IsWord w s := by
  obtain ⟨kept, same, words⟩ := isWord_replaceFrom nonempty bytes s.length [] s spares
  rw [Bytes.replace, same] at isWord
  exact words w isWord

end Signature

end SymbolHistory
