/-
# Proofs.EscapedTexts -- which backslashes of an address are dropped

The text of a line in an address has its slashes and backslashes escaped.  A
backslash escapes the byte after it unless it is escaped itself, so which
backslashes are dropped is settled from the start of the text on: `isDropped`
says it for a place by the place before.  In a run of backslashes every second
one is dropped (`isDropped_iff_even`), whatever stands before the run.

`unescape` drops exactly these bytes (`unescape_drops`), for texts that nobody
escaped as well: a backslash at the end and one before another byte stay.
-/
import Mathlib.Algebra.Group.Nat.Even
import Mathlib.Data.List.DropRight
import SymbolHistory.Proofs.PatternLines

set_option autoImplicit false

namespace SymbolHistory

namespace TagTable

variable {b c : UInt8} {s : Bytes} {i : Nat}

/-- A backslash with a slash or backslash after it. -/
def opensPair (s : Bytes) (i : Nat) : Bool :=
  s[i]? == some 92 && (s[i + 1]? == some 47 || s[i + 1]? == some 92)

/-- The backslash at a place escapes the byte after it: it opens a pair, and is not the second byte
of one that the backslash before it opened. -/
def isDropped (s : Bytes) : Nat → Bool
  | 0 => opensPair s 0
  | i + 1 => opensPair s (i + 1) && !isDropped s i

/-- The bytes of a text at the places that are not dropped. -/
def kept (s : Bytes) : Bytes := (s.zipIdx.filter fun x => !isDropped s x.2).map Prod.fst

/-- How many backslashes stand together directly before a place. -/
def backslashesBefore (s : Bytes) (i : Nat) : Nat := ((s.take i).rtakeWhile (· == 92)).length

theorem opensPair_iff : opensPair s i = true ↔
    s[i]? = some 92 ∧ (s[i + 1]? = some 47 ∨ s[i + 1]? = some 92) := by
  simp [opensPair]

theorem isDropped_succ (s : Bytes) (i : Nat) :
    isDropped s (i + 1) = (opensPair s (i + 1) && !isDropped s i) := rfl

theorem isDropped_iff : isDropped s i = true ↔
    s[i]? = some 92 ∧ (s[i + 1]? = some 47 ∨ s[i + 1]? = some 92) ∧
      ∀ j, j + 1 = i → isDropped s j = false := by
  cases i with
  | zero => simp [isDropped, opensPair_iff]
  | succ i => simp [isDropped, opensPair_iff, and_assoc]

/-! ## Runs of backslashes -/

theorem backslashesBefore_succ (inside : s[i]? = some b) :
    backslashesBefore s (i + 1) = if b = 92 then backslashesBefore s i + 1 else 0 := by
  rw [backslashesBefore, List.take_add_one, inside, Option.toList_some, List.rtakeWhile_concat]
  by_cases isBackslash : b = 92
  · simp [isBackslash, backslashesBefore]
  · simp [isBackslash]

/-- A backslash with a slash or backslash after it is dropped exactly if the backslashes directly
before it are used up in pairs. -/
theorem isDropped_iff_even : ∀ i, isDropped s i = true ↔
    opensPair s i = true ∧ Even (backslashesBefore s i) := by
  intro i
  induction i with
  | zero => simp [isDropped, backslashesBefore]
  | succ i ih =>
      rw [isDropped_succ, Bool.and_eq_true, Bool.not_eq_true', ← Bool.not_eq_true, ih]
      refine and_congr_right fun opens => ?_
      have here : s[i + 1]? = some 92 := (opensPair_iff.mp opens).1
      obtain ⟨before, inside⟩ : ∃ before, s[i]? = some before :=
        ⟨_, List.getElem?_eq_getElem (by have := (List.getElem?_eq_some_iff.mp here).1; omega)⟩
      rw [backslashesBefore_succ inside]
      by_cases isBackslash : before = 92
      · have opensBefore : opensPair s i = true :=
          opensPair_iff.mpr ⟨isBackslash ▸ inside, .inr here⟩
        rw [if_pos isBackslash, Nat.even_add_one]
        exact not_congr (and_iff_right opensBefore)
      · have closed : opensPair s i ≠ true := fun opensBefore =>
          isBackslash (Option.some.inj (inside.symm.trans (opensPair_iff.mp opensBefore).1))
        simp [isBackslash, closed]

/-! ## One byte after the other -/

theorem opensPair_cons (b : UInt8) (s : Bytes) (i : Nat) : opensPair (b :: s) (i + 1) = opensPair s i := by
  simp [opensPair]

/-- Behind a byte that stays, places are judged as if the text began there. -/
theorem isDropped_cons (stays : isDropped (b :: s) 0 = false) : ∀ i,
    isDropped (b :: s) (i + 1) = isDropped s i := by
  intro i
  induction i with
  | zero =>
      rw [isDropped_succ, stays, opensPair_cons, Bool.not_false, Bool.and_true]
      rfl
  | succ i ih => rw [isDropped_succ, ih, opensPair_cons, isDropped_succ]

/-- Behind a pair, places are judged as if the text began there. -/
theorem isDropped_pair (opens : isDropped (b :: c :: s) 0 = true) :
    isDropped (b :: c :: s) 1 = false ∧ ∀ i, isDropped (b :: c :: s) (i + 2) = isDropped s i := by
  have second : isDropped (b :: c :: s) 1 = false := by
    rw [isDropped_succ, opens, Bool.not_true, Bool.and_false]
  refine ⟨second, fun i => ?_⟩
  induction i with
  | zero =>
      rw [isDropped_succ, second, opensPair_cons, opensPair_cons, Bool.not_false, Bool.and_true]
      rfl
  | succ i ih => rw [isDropped_succ, ih, opensPair_cons, opensPair_cons, isDropped_succ]

/-- The bytes that stay behind a place, when the text from there on is judged by itself. -/
theorem kept_from {t : Bytes} (n : Nat) (judged : ∀ i, isDropped t (i + n) = isDropped s i) :
    ((s.zipIdx n).filter fun x => !isDropped t x.2).map Prod.fst = kept s := by
  have shift : s.zipIdx n = s.zipIdx.map (Prod.map id (· + n)) := by
    rw [List.map_snd_add_zipIdx_eq_zipIdx, Nat.add_zero]
  rw [shift, List.filter_map, List.map_map, kept]
  refine congrArg₂ List.map ?_ (List.filter_congr fun x _ => ?_)
  · rfl
  · simp [judged]

theorem kept_cons (stays : isDropped (b :: s) 0 = false) : kept (b :: s) = b :: kept s := by
  rw [kept, List.zipIdx_cons, List.filter_cons_of_pos (by simp [stays]), List.map_cons,
    kept_from 1 (isDropped_cons stays)]

theorem kept_pair (opens : isDropped (b :: c :: s) 0 = true) : kept (b :: c :: s) = c :: kept s := by
  obtain ⟨second, judged⟩ := isDropped_pair opens
  rw [kept, List.zipIdx_cons, List.filter_cons_of_neg (by simp [opens]), List.zipIdx_cons,
    List.filter_cons_of_pos (by simp [second]), List.map_cons, kept_from 2 judged]

theorem unescapeOnto_eq (out s : Bytes) : unescapeOnto out s = out.reverse ++ kept s := by
  fun_induction unescapeOnto out s with
  | case1 out rest ih | case2 out rest ih =>
      rw [ih, kept_pair rfl, List.reverse_cons, List.append_assoc, List.singleton_append]
  | case3 out b rest noSlash noBackslash ih =>
      have stays : isDropped (b :: rest) 0 = false := by
        rw [Bool.eq_false_iff]
        intro dropped
        obtain ⟨first, second, -⟩ := isDropped_iff.mp dropped
        obtain rfl : b = 92 := Option.some.inj first
        cases rest with
        | nil => simp at second
        | cons c rest =>
            rcases second with isSlash | isBackslash
            · exact noSlash rest rfl (by rw [Option.some.inj isSlash])
            · exact noBackslash rest rfl (by rw [Option.some.inj isBackslash])
      rw [ih, kept_cons stays, List.reverse_cons, List.append_assoc, List.singleton_append]
  | case4 out => rw [kept, List.zipIdx_nil, List.filter_nil, List.map_nil, List.append_nil]

/-- Escaping is undone, and what is undone in any text is what its places say: a byte goes exactly
if it is a backslash before a slash or backslash and not the second of such a pair, which means that
the backslashes directly before it are even in number.  So a backslash at the end stays, and so does
one before another byte; a text without backslashes stays as it is. -/
theorem unescape_drops (s p : Bytes) :
    unescape (escape s) = s ∧
    unescape p = (p.zipIdx.filter fun x => !isDropped p x.2).map Prod.fst ∧
    (∀ i, isDropped p i = true ↔ p[i]? = some 92 ∧ (p[i + 1]? = some 47 ∨ p[i + 1]? = some 92) ∧
      ∀ j, j + 1 = i → isDropped p j = false) ∧
    (∀ i, isDropped p i = true ↔ p[i]? = some 92 ∧ (p[i + 1]? = some 47 ∨ p[i + 1]? = some 92) ∧
      Even (backslashesBefore p i)) ∧
    (∀ i, p[i]? = some 92 → p[i + 1]? ≠ some 47 → p[i + 1]? ≠ some 92 → isDropped p i = false) ∧
    (92 ∉ p → unescape p = p) := by
  have drops : unescape p = kept p := unescapeOnto_eq [] p
  have noBackslash : 92 ∉ p → ∀ i, isDropped p i = false := fun absent i =>
    Bool.eq_false_iff.mpr fun dropped =>
      absent (List.mem_of_getElem? (isDropped_iff.mp dropped).1)
  refine ⟨unescape_escape s, drops, fun i => isDropped_iff, fun i => ?_, fun i _ noSlash other => ?_,
    fun absent => ?_⟩
  · rw [isDropped_iff_even, opensPair_iff, and_assoc]
  · rw [Bool.eq_false_iff]
    intro dropped
    exact (isDropped_iff.mp dropped).2.1.elim noSlash other
  · rw [drops, kept, List.filter_eq_self.mpr fun x _ => by rw [noBackslash absent, Bool.not_false],
      List.zipIdx_map_fst]

/-- Runs of three and four backslashes before a slash, one before a letter, and one at the end. -/
example : unescape (lit "\\\\\\/\\\\\\\\/\\n\\") = lit "\\/\\\\/\\n\\" := by decide

end TagTable

end SymbolHistory
