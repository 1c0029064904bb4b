/-
# Proofs.TidyBlanks -- where blanks stand in a signature

Blanks are tidied in three passes: every run becomes one space, then spaces
behind an opening parenthesis go, then those before a closing one.  A later pass
could undo an earlier one, because every space that goes makes new neighbours.
It does not: what each pass makes sure of any two neighbours (`Spaced`,
`Opened`, `Fits`) holds of the neighbours that the next one makes.

So the text that comes out is `Tidy`, and tidying it again changes nothing
(`Tidy.fixWhitespace_eq`).  The other bytes stay where they are, and two of them
are parted by a space exactly if they were parted before and no parenthesis
forbids it (`fixWhitespace_between`).
-/
import Mathlib.Data.List.Chain
import SymbolHistory.Proofs.SymbolLines
import SymbolHistory.Proofs.TextsAhead

set_option autoImplicit false

namespace SymbolHistory

namespace Signature

variable {b c d : UInt8} {s t gap : Bytes}

/-! ## Neighbours -/

/-- No space behind a space. -/
def Spaced (a b : UInt8) : Prop := b = 32 → a ≠ 32

/-- No space behind a space or an opening parenthesis. -/
def Opened (a b : UInt8) : Prop := b = 32 → a ≠ 32 ∧ a ≠ 40

/-- No space behind a space or an opening parenthesis, and none before a closing one. -/
def Fits (a b : UInt8) : Prop := (b = 32 → a ≠ 32 ∧ a ≠ 40) ∧ (b = 41 → a ≠ 32)

/-- Blanks are single spaces, and there are none inside the ends of parentheses. -/
structure Tidy (s : Bytes) : Prop where
  noTab : 9 ∉ s
  fits : s.IsChain Fits

theorem isBlank_iff : isBlank b = true ↔ b = 32 ∨ b = 9 := by simp [isBlank]

theorem eq_space_of_isBlank (blank : isBlank b = true) (other : b ≠ 9) : b = 32 :=
  (isBlank_iff.mp blank).resolve_right other

theorem Tidy.tail (tidy : Tidy (c :: s)) : Tidy s :=
  ⟨fun isTab => tidy.noTab (List.mem_cons_of_mem c isTab), tidy.fits.tail⟩

theorem Tidy.eq_space (tidy : Tidy (c :: s)) (blank : isBlank c = true) : c = 32 :=
  eq_space_of_isBlank blank fun isTab => tidy.noTab (isTab ▸ List.mem_cons_self)

/-! ## One pass after the other -/

theorem tab_not_mem_squeeze (s : Bytes) : 9 ∉ squeeze s := by
  induction s with
  | nil => exact List.not_mem_nil
  | cons c s ih =>
      rw [squeeze_cons]
      split
      · split
        · exact ih
        · simpa using ih
      · rename_i letter
        have other : 9 ≠ c := by
          rintro rfl
          exact letter rfl
        simpa [other] using ih

theorem squeeze_spaced (s : Bytes) : (squeeze s).IsChain Spaced := by
  induction s with
  | nil => exact .nil
  | cons c s ih =>
      rw [squeeze_cons]
      split
      · split
        · exact ih
        · rename_i noSpace
          refine List.isChain_cons.mpr ⟨fun b isHead isSpace => ?_, ih⟩
          rw [Option.mem_def.mp isHead, isSpace] at noSpace
          exact absurd rfl noSpace
      · rename_i letter
        refine List.isChain_cons.mpr ⟨fun b _ _ => ?_, ih⟩
        rintro rfl
        exact letter rfl

/-- The space that goes behind an opening parenthesis has no space behind it. -/
theorem closeUpOpen_opened (noTab : 9 ∉ s) (spaced : s.IsChain Spaced) :
    (closeUpOpen s).IsChain Opened := by
  induction s with
  | nil => exact .nil
  | cons c s ih =>
      obtain ⟨apart, spaced⟩ := List.isChain_cons.mp spaced
      have clean : 9 ∉ s := fun isTab => noTab (List.mem_cons_of_mem c isTab)
      have later := ih clean spaced
      rw [closeUpOpen_cons]
      cases s with
      | nil => split <;> exact .singleton c
      | cons e s =>
          -- the first byte behind `c` is still the same
          obtain ⟨rest, after⟩ := closeUpOpen_head e s
          rw [after] at later ⊢
          have apart := apart e rfl
          split
          · rename_i opens
            obtain rfl : c = 40 := by simpa using opens
            dsimp only
            split
            · rename_i blank
              obtain rfl := eq_space_of_isBlank blank fun isTab => clean (isTab ▸ List.mem_cons_self)
              obtain ⟨behind, later⟩ := List.isChain_cons.mp later
              exact List.isChain_cons.mpr
                ⟨fun b isHead isSpace => absurd rfl (behind b isHead isSpace).1, later⟩
            · rename_i letter
              refine List.isChain_cons_cons.mpr ⟨fun isSpace => ?_, later⟩
              exact absurd (isBlank_iff.mpr (.inl isSpace)) letter
          · rename_i other
            refine List.isChain_cons_cons.mpr ⟨fun isSpace => ⟨apart isSpace, ?_⟩, later⟩
            simpa using other

/-- A text without its blank before a parenthesis starts as it did, or that blank stood first. -/
theorem closeUpClose_head (s : Bytes) :
    (closeUpClose s).head? = s.head? ∨
      (∃ b ∈ s.head?, isBlank b = true) ∧ (closeUpClose s).head? = some 41 := by
  cases s with
  | nil => exact .inl rfl
  | cons c s =>
      rw [closeUpClose_cons]
      split
      · rename_i before
        obtain ⟨blank, closes⟩ := Bool.and_eq_true_iff.mp before
        obtain ⟨t, rfl⟩ := List.head?_eq_some_iff.mp (eq_of_beq closes)
        exact .inr ⟨⟨c, rfl, blank⟩, rfl⟩
      · exact .inl rfl

/-- The space that goes before a closing parenthesis has no space before it. -/
theorem closeUpClose_fits (noTab : 9 ∉ s) (opened : s.IsChain Opened) :
    (closeUpClose s).IsChain Fits := by
  induction s with
  | nil => exact .nil
  | cons c s ih =>
      obtain ⟨behind, opened⟩ := List.isChain_cons.mp opened
      have clean : 9 ∉ s := fun isTab => noTab (List.mem_cons_of_mem c isTab)
      have later := ih clean opened
      rw [closeUpClose_cons]
      split
      · exact later
      · rename_i stays
        refine List.isChain_cons.mpr ⟨fun b isHead => ⟨fun isSpace => ?_, fun closes => ?_⟩, later⟩
        · rcases closeUpClose_head s with same | ⟨-, closing⟩
          · exact behind b (same ▸ isHead) isSpace
          · rw [Option.mem_def.mp isHead, isSpace] at closing
            cases closing
        · rintro rfl
          rcases closeUpClose_head s with same | ⟨⟨d, first, blank⟩, -⟩
          · rw [← same, Option.mem_def.mp isHead, closes] at stays
            exact stays rfl
          · -- two spaces never stand together here
            obtain rfl := eq_space_of_isBlank blank fun isTab =>
              clean (isTab ▸ List.mem_of_mem_head? first)
            exact (behind 32 first rfl).1 rfl

/-- What comes out is tidy. -/
theorem tidy_fixWhitespace (s : Bytes) : Tidy (fixWhitespace s) where
  noTab isTab := tab_not_mem_squeeze s (closeUpOpen_subset _ (closeUpClose_subset _ isTab))
  fits := closeUpClose_fits (fun isTab => tab_not_mem_squeeze s (closeUpOpen_subset _ isTab))
    (closeUpOpen_opened (tab_not_mem_squeeze s) (squeeze_spaced s))

/-! ## Tidy text -/

theorem Tidy.squeeze_eq (tidy : Tidy s) : squeeze s = s := by
  induction s with
  | nil => rfl
  | cons c s ih =>
      rw [squeeze_cons, ih tidy.tail]
      split
      · rename_i blank
        obtain rfl := tidy.eq_space blank
        split
        · rename_i doubled
          have second : 32 ∈ s.head? := by simpa using doubled
          exact absurd rfl (((List.isChain_cons.mp tidy.fits).1 32 second).1 rfl).1
        · rfl
      · rfl

theorem Tidy.closeUpOpen_eq (tidy : Tidy s) : closeUpOpen s = s := by
  induction s with
  | nil => rfl
  | cons c s ih =>
      rw [closeUpOpen_cons, ih tidy.tail]
      split
      · rename_i opens
        obtain rfl : c = 40 := by simpa using opens
        cases s with
        | nil => rfl
        | cons d s =>
            have letter : isBlank d = false := by
              rw [Bool.eq_false_iff]
              intro blank
              obtain rfl := tidy.tail.eq_space blank
              exact absurd rfl (((List.isChain_cons_cons.mp tidy.fits).1).1 rfl).2
            simp only [letter, Bool.false_eq_true, if_false]
      · rfl

theorem Tidy.closeUpClose_eq (tidy : Tidy s) : closeUpClose s = s := by
  induction s with
  | nil => rfl
  | cons c s ih =>
      rw [closeUpClose_cons, ih tidy.tail]
      split
      · rename_i before
        obtain ⟨blank, closes⟩ := Bool.and_eq_true_iff.mp before
        obtain rfl := tidy.eq_space blank
        have next : 41 ∈ s.head? := by simpa using closes
        exact absurd rfl (((List.isChain_cons.mp tidy.fits).1 41 next).2 rfl)
      · rfl

/-- Tidy text stays as it is. -/
theorem Tidy.fixWhitespace_eq (tidy : Tidy s) : fixWhitespace s = s := by
  rw [fixWhitespace, tidy.squeeze_eq, tidy.closeUpOpen_eq, tidy.closeUpClose_eq]

/-! ## Between two bytes -/

section

variable (plain : isBlank d = false)

include plain

/-- Blanks before another byte become one space. -/
theorem squeeze_gap (blank : ∀ b ∈ gap, isBlank b = true) (t : Bytes) :
    squeeze (gap ++ d :: t) = (if gap = [] then [] else [32]) ++ d :: squeeze t := by
  have other : ¬(some d == some 32) = true := by
    intro same
    obtain rfl : d = 32 := by simpa using same
    cases plain
  induction gap with
  | nil => exact squeeze_plain plain t
  | cons b gap ih =>
      rw [List.cons_append, squeeze_cons, if_pos (blank b List.mem_cons_self),
        ih fun c member => blank c (List.mem_cons_of_mem b member), if_neg (List.cons_ne_nil b gap)]
      by_cases last : gap = []
      · rw [if_pos last, List.nil_append, List.head?_cons, if_neg other]
        rfl
      · rw [if_neg last]
        rfl

/-- A space goes behind an opening parenthesis. -/
theorem closeUpOpen_gap (c : UInt8) (spaces : gap = [] ∨ gap = [32]) (t : Bytes) :
    closeUpOpen (c :: (gap ++ d :: t)) =
      c :: ((if c = 40 then [] else gap) ++ closeUpOpen (d :: t)) := by
  obtain ⟨rest, begins⟩ := closeUpOpen_head d t
  have after : closeUpOpen (gap ++ d :: t) = gap ++ d :: rest := by
    rcases spaces with rfl | rfl
    · exact begins
    · rw [List.singleton_append, closeUpOpen_cons, begins]
      rfl
  rw [closeUpOpen_cons, after, begins]
  by_cases opens : c = 40
  · rw [if_pos (by simpa using opens), if_pos opens]
    rcases spaces with rfl | rfl
    · simp only [List.nil_append, plain, Bool.false_eq_true, if_false]
    · rfl
  · rw [if_neg (by simpa using opens), if_neg opens]

/-- A space goes before a closing parenthesis. -/
theorem closeUpClose_gap (spaces : gap = [] ∨ gap = [32]) (t : Bytes) :
    closeUpClose (gap ++ d :: t) = (if d = 41 then [] else gap) ++ closeUpClose (d :: t) := by
  rcases spaces with rfl | rfl
  · rw [ite_self, List.nil_append, List.nil_append]
  · rw [List.singleton_append, closeUpClose_cons, List.head?_cons]
    by_cases closes : d = 41
    · subst closes
      rfl
    · rw [if_neg (by simpa using fun _ => closes), if_neg closes]
      rfl

theorem closeUpClose_concat (s : Bytes) : ∃ s', closeUpClose (s ++ [d]) = s' ++ [d] := by
  induction s with
  | nil => exact ⟨[], closeUpClose_plain plain []⟩
  | cons b s ih =>
      obtain ⟨s', later⟩ := ih
      rw [List.cons_append, closeUpClose_cons, later]
      split
      · exact ⟨s', rfl⟩
      · exact ⟨b :: s', rfl⟩

/-- What stands behind a byte that is no blank does not reach the text before it. -/
theorem closeUpClose_concat_append (s t : Bytes) :
    closeUpClose (s ++ d :: t) = closeUpClose (s ++ [d]) ++ closeUpClose t := by
  induction s with
  | nil => rw [List.nil_append, List.nil_append, closeUpClose_plain plain, closeUpClose_plain plain]; rfl
  | cons b s ih =>
      have sameHead : (s ++ d :: t).head? = (s ++ [d]).head? := by
        cases s <;> rfl
      rw [List.cons_append, closeUpClose_cons, ih, List.cons_append, closeUpClose_cons, sameHead]
      split <;> rfl

end

theorem fixWhitespace_concat_eq (plain : isBlank c = false) (s : Bytes) :
    fixWhitespace (s ++ [c]) = closeUpClose (closeUpOpen (squeeze s) ++ [c]) := by
  have alone : closeUpOpen (c :: squeeze []) = [c] := by
    rw [closeUpOpen_cons]
    exact ite_self [c]
  rw [fixWhitespace, squeeze_append plain, squeeze_plain plain, closeUpOpen_append plain, alone]

/-- Two bytes that are no blanks are parted by one space if blanks parted them, unless the first
opens or the second closes a parenthesis.  The text up to the first and the text from the second on
are tidied by themselves. -/
theorem fixWhitespace_between (plain : isBlank c = false) (plain' : isBlank d = false)
    (blank : ∀ b ∈ gap, isBlank b = true) (s t : Bytes) :
    fixWhitespace (s ++ c :: (gap ++ d :: t)) =
      fixWhitespace (s ++ [c]) ++ ((if gap ≠ [] ∧ c ≠ 40 ∧ d ≠ 41 then [32] else []) ++
        fixWhitespace (d :: t)) := by
  have back : fixWhitespace (d :: t) = closeUpClose (closeUpOpen (d :: squeeze t)) := by
    rw [fixWhitespace, squeeze_plain plain']
  obtain ⟨rest, begins⟩ := closeUpOpen_head d (squeeze t)
  -- what is left of the blanks after the first and after the second pass
  obtain ⟨one, isOne⟩ : ∃ one : Bytes, one = if gap = [] then [] else [32] := ⟨_, rfl⟩
  obtain ⟨two, isTwo⟩ : ∃ two : Bytes, two = if c = 40 then [] else one := ⟨_, rfl⟩
  have oneSpaces : one = [] ∨ one = [32] := by
    rw [isOne]
    split <;> simp
  have twoSpaces : two = [] ∨ two = [32] := by
    rw [isTwo]
    split
    · exact .inl rfl
    · exact oneSpaces
  have left : (if d = 41 then [] else two) = if gap ≠ [] ∧ c ≠ 40 ∧ d ≠ 41 then [32] else [] := by
    by_cases closes : d = 41 <;> by_cases opens : c = 40 <;> by_cases joined : gap = [] <;>
      simp [isTwo, isOne, closes, opens, joined]
  rw [fixWhitespace_concat_eq plain, back, fixWhitespace, squeeze_append plain, squeeze_plain plain,
    squeeze_gap plain' blank, ← isOne, closeUpOpen_append plain, closeUpOpen_gap plain' c oneSpaces,
    ← isTwo, closeUpClose_concat_append plain, begins, closeUpClose_gap plain' twoSpaces, left]

/-- Tidying keeps the byte at the end of a text that does not end in a blank. -/
theorem fixWhitespace_concat (plain : isBlank c = false) (s : Bytes) :
    ∃ s', fixWhitespace (s ++ [c]) = s' ++ [c] ∧ dense s' = dense s := by
  obtain ⟨s', ends⟩ := closeUpClose_concat plain (closeUpOpen (squeeze s))
  have same := dense_fixWhitespace (s ++ [c])
  rw [fixWhitespace_concat_eq plain, ends] at same ⊢
  rw [dense, List.filter_append, dense, List.filter_append] at same
  exact ⟨s', rfl, List.append_cancel_right same⟩

/-- Tidying keeps the byte at the start of a text that does not start with a blank. -/
theorem fixWhitespace_plain (plain : isBlank d = false) (t : Bytes) :
    ∃ t', fixWhitespace (d :: t) = d :: t' ∧ dense t' = dense t := by
  obtain ⟨rest, begins⟩ := closeUpOpen_head d (squeeze t)
  have same := dense_fixWhitespace (d :: t)
  rw [fixWhitespace, squeeze_plain plain, begins, closeUpClose_plain plain] at same ⊢
  rw [dense_cons_of_plain plain, dense_cons_of_plain plain] at same
  exact ⟨_, rfl, (List.cons.inj same).2⟩

/-- Tidying leaves no tab, no two spaces together, no space behind an opening and none before a closing
parenthesis.  All other bytes stay, in order, and two of them that stand together, or with blanks only
between them, are parted by one space exactly if there were blanks and no parenthesis forbids it.
Tidied again, the text stays as it is. -/
theorem fixWhitespace_normal (s : Bytes) :
    (9 ∉ fixWhitespace s ∧ ¬[32, 32] <:+: fixWhitespace s ∧ ¬[40, 32] <:+: fixWhitespace s ∧
      ¬[32, 41] <:+: fixWhitespace s) ∧
    (fixWhitespace s).filter (fun b => !isBlank b) = s.filter (fun b => !isBlank b) ∧
    (∀ (front : Bytes) (c : UInt8) (gap : Bytes) (d : UInt8) (back : Bytes),
      s = front ++ c :: (gap ++ d :: back) → isBlank c = false → isBlank d = false →
      (∀ b ∈ gap, isBlank b = true) →
      ∃ front' back', dense front' = dense front ∧ dense back' = dense back ∧
        fixWhitespace s = front' ++ c ::
          ((if gap ≠ [] ∧ c ≠ 40 ∧ d ≠ 41 then [32] else []) ++ d :: back')) ∧
    fixWhitespace (fixWhitespace s) = fixWhitespace s := by
  have tidy := tidy_fixWhitespace s
  have together : ∀ {a b : UInt8}, [a, b] <:+: fixWhitespace s → Fits a b := by
    rintro a b ⟨front, back, whole⟩
    have fits := tidy.fits
    rw [← whole] at fits
    exact List.isChain_pair.mp fits.left_of_append.right_of_append
  refine ⟨⟨tidy.noTab, fun inside => ((together inside).1 rfl).1 rfl,
    fun inside => ((together inside).1 rfl).2 rfl, fun inside => (together inside).2 rfl rfl⟩,
    dense_fixWhitespace s, ?_, tidy.fixWhitespace_eq⟩
  rintro front c gap d back rfl plain plain' blank
  obtain ⟨front', isFront, sameFront⟩ := fixWhitespace_concat plain front
  obtain ⟨back', isBack, sameBack⟩ := fixWhitespace_plain plain' back
  refine ⟨front', back', sameFront, sameBack, ?_⟩
  rw [fixWhitespace_between plain plain' blank, isFront, isBack, List.append_assoc, List.singleton_append]

/-- Blanks at both ends, in and around nested parentheses, and in a text of blanks only. -/
example : fixWhitespace (lit "\t ( (a\t, b ) )  ( ) ") = lit " ((a , b)) () " ∧
    fixWhitespace (lit " \t ") = lit " " := by decide +kernel

end Signature

end SymbolHistory
