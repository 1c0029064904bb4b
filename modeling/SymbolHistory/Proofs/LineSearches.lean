/-
# Proofs.LineSearches -- searching a file forward comes to a search in a circle

A cursor reads forward and goes back to the start of the file at most once in a
search, so where it has stopped reading depends on all searches before.  What it
finds does not: `search` looks at the lines in a circle, beginning after a
position, and `find_spec` says that a cursor that `Stands` at a position finds
what `search` finds.  A line that is found is the next position; a search that
fails leaves the position as it was, wherever the reading has stopped.
-/
import SymbolHistory.TagTable.Cursor

set_option autoImplicit false

namespace SymbolHistory

namespace Cursor

/-- The numbers of `n` lines in a circle that begins after the position `p`. -/
def circle (p n : Nat) : List Nat := List.range' (p + 1) (n - p) ++ List.range' 1 (min p n)

/-- The line with a number, counted from 1, matches. -/
def hits (lines : List Bytes) (text : Bytes) (i : Nat) : Bool :=
  (lines[i - 1]?).any (isMatch text)

/-- The number of the first line in the circle after `p` that matches, 0 if none does. -/
def search (lines : List Bytes) (text : Bytes) (p : Nat) : Nat :=
  ((circle p lines.length).find? (hits lines text)).getD 0

theorem mem_circle {p n i : Nat} : i ∈ circle p n ↔ 0 < i ∧ i ≤ n := by
  simp only [circle, List.mem_append, List.mem_range'_1]
  omega

/-- A circle that begins after the last line begins at the first. -/
theorem circle_end (n : Nat) : circle n n = circle 0 n := by
  simp [circle]

/-- Nothing is found exactly if no line of the whole file matches. -/
theorem search_eq_zero_iff {lines : List Bytes} {text : Bytes} {p : Nat} :
    search lines text p = 0 ↔ ∀ l ∈ lines, isMatch text l = false := by
  have noZero : (circle p lines.length).find? (hits lines text) ≠ some 0 := fun found => by
    have := (mem_circle.mp (List.mem_of_find?_eq_some found)).1
    omega
  have nothing : search lines text p = 0 ↔
      (circle p lines.length).find? (hits lines text) = none := by
    rw [search]
    cases found : (circle p lines.length).find? (hits lines text) with
    | none => simp
    | some i =>
        simp only [Option.getD_some, reduceCtorEq, iff_false]
        rintro rfl
        exact noZero found
  rw [nothing, List.find?_eq_none]
  constructor
  · intro none l member
    obtain ⟨i, inside, rfl⟩ := List.getElem_of_mem member
    have missed := none (i + 1) (mem_circle.mpr ⟨by omega, by omega⟩)
    simpa [hits, inside] using missed
  · intro none i inCircle
    obtain ⟨positive, inside⟩ := mem_circle.mp inCircle
    have there : i - 1 < lines.length := by omega
    simpa [hits, there] using none lines[i - 1] (List.getElem_mem there)

/-- What is found is a line of the file. -/
theorem search_le (lines : List Bytes) (text : Bytes) (p : Nat) :
    search lines text p ≤ lines.length := by
  rw [search]
  cases found : (circle p lines.length).find? (hits lines text) with
  | none => exact Nat.zero_le _
  | some i => exact (mem_circle.mp (List.mem_of_find?_eq_some found)).2

/-- What a search finds is the number of a line that matches. -/
theorem search_hits {lines : List Bytes} {text : Bytes} {p : Nat} (found : search lines text p ≠ 0) :
    ∃ line, lines[search lines text p - 1]? = some line ∧ isMatch text line = true := by
  rw [search] at found ⊢
  cases first : (circle p lines.length).find? (hits lines text) with
  | none => exact absurd (by rw [first]; rfl) found
  | some i =>
      have matched := List.find?_some first
      rwa [hits, Option.any_eq_true] at matched

/-! ## Reading forward -/

theorem scanLines_kept (text : Bytes) (limit : Option Nat) (rest : List Bytes) : ∀ c : Cursor,
    (scanLines text limit c rest).2.path = c.path ∧
      (scanLines text limit c rest).2.lines = c.lines := by
  induction rest with
  | nil => exact fun _ => ⟨rfl, rfl⟩
  | cons line rest ih =>
      intro c
      rw [scanLines]
      split
      · exact ⟨rfl, rfl⟩
      · dsimp only
        split
        · exact ⟨rfl, rfl⟩
        · exact ih _

/-- A search reads the same file on. -/
theorem find_kept (c : Cursor) (text : Bytes) :
    (c.find text).2.path = c.path ∧ (c.find text).2.lines = c.lines := by
  obtain ⟨path, lines⟩ := scanLines_kept text none c.ahead c
  rw [find]
  split
  · rename_i d ended
    rw [scan] at ended
    rw [ended] at path lines
    split
    · exact ⟨path, lines⟩
    · obtain ⟨path', lines'⟩ := scanLines_kept text (some c.passed) d.rewind.ahead d.rewind
      exact ⟨path'.trans path, lines'.trans lines⟩
  · exact ⟨path, lines⟩

/-- The lines ahead are those after the lines that have been read. -/
structure Aligned (c : Cursor) : Prop where
  inside : c.passed ≤ c.lines.length
  ahead : c.ahead = c.lines.drop c.passed

theorem start_aligned (path : Bytes) (content : Option Bytes) : (start path content).Aligned :=
  ⟨Nat.zero_le _, rfl⟩

/-- The first line after `p` that matches, of those up to the line `stop`. -/
def between (lines : List Bytes) (text : Bytes) (p stop : Nat) : Nat :=
  ((List.range' (p + 1) (stop - p)).find? (hits lines text)).getD 0

theorem between_none {p stop : Nat} (lines : List Bytes) (text : Bytes) (past : stop ≤ p) :
    between lines text p stop = 0 := by
  have empty : stop - p = 0 := by omega
  rw [between, empty]
  rfl

theorem between_step {lines : List Bytes} {line : Bytes} {p stop : Nat} (text : Bytes)
    (here : lines[p]? = some line) (before : p < stop) :
    between lines text p stop =
      if isMatch text line then p + 1 else between lines text (p + 1) stop := by
  have more : stop - p = (stop - (p + 1)) + 1 := by omega
  have asked : hits lines text (p + 1) = isMatch text line := by simp [hits, here]
  rw [between, more, List.range'_succ, List.find?_cons, asked]
  cases isMatch text line <;> rfl

/-- A search goes from its position to the end of the file, and then from the start of the file to
its position. -/
theorem search_eq_between (lines : List Bytes) (text : Bytes) (p : Nat) :
    search lines text p =
      if between lines text p lines.length = 0 then between lines text 0 (min p lines.length)
      else between lines text p lines.length := by
  rw [search, circle, List.find?_append, between, between]
  cases found : (List.range' (p + 1) (lines.length - p)).find? (hits lines text) with
  | none => rfl
  | some i =>
      have positive : i ≠ 0 := by
        have := List.mem_range'_1.mp (List.mem_of_find?_eq_some found)
        omega
      rw [Option.getD_some, if_neg positive]
      rfl

/-- Where a scan that found `n`, or nothing up to the line `stop`, has come to. -/
structure Scanned (stop n : Nat) (d : Cursor) : Prop extends Aligned d where
  passed : d.passed = if n = 0 then stop else n

/-- A scan finds the first line that matches before its end, and stops there. -/
theorem scanLines_spec (text : Bytes) (limit : Option Nat) {stop : Nat} (rest : List Bytes) :
    ∀ c : Cursor, c.passed ≤ c.lines.length → rest = c.lines.drop c.passed →
      stop = min (limit.getD c.lines.length) c.lines.length →
      (scanLines text limit c rest).1 = between c.lines text c.passed stop ∧
        Scanned (max c.passed stop) (between c.lines text c.passed stop)
          (scanLines text limit c rest).2 := by
  induction rest with
  | nil =>
      intro c inside isRest isStop
      have atEnd : c.lines.length ≤ c.passed := List.drop_eq_nil_iff.mp isRest.symm
      have past : stop ≤ c.passed := by omega
      rw [between_none c.lines text past, Nat.max_eq_left past, scanLines]
      exact ⟨rfl, ⟨inside, isRest⟩, rfl⟩
  | cons line rest ih =>
      intro c inside isRest isStop
      have here : c.lines[c.passed]? = some line := by
        rw [← List.head?_drop, ← isRest, List.head?_cons]
      have more : c.passed < c.lines.length := (List.getElem?_eq_some_iff.mp here).1
      have next : rest = c.lines.drop (c.passed + 1) := by
        rw [← List.tail_drop, ← isRest, List.tail_cons]
      rw [scanLines]
      by_cases past : stop ≤ c.passed
      · -- The limit has been reached: nothing more is read.
        have reached : limit.any (· ≤ c.passed) = true := by
          cases limit with
          | none => simp only [Option.getD_none] at isStop; omega
          | some m => simp only [Option.getD_some] at isStop; simp; omega
        rw [if_pos reached, between_none c.lines text past, Nat.max_eq_left past]
        exact ⟨rfl, ⟨inside, isRest⟩, rfl⟩
      · have within : limit.any (· ≤ c.passed) = false := by
          cases limit with
          | none => rfl
          | some m => simp only [Option.getD_some] at isStop; simp; omega
        rw [if_neg (by rw [within]; exact Bool.false_ne_true),
          between_step text here (Nat.lt_of_not_le past)]
        cases matched : isMatch text line with
        | true => exact ⟨rfl, ⟨more, next⟩, rfl⟩
        | false =>
            obtain ⟨found, scanned⟩ :=
              ih { c with ahead := rest, passed := c.passed + 1 } more next isStop
            have furthest : max (c.passed + 1) stop = max c.passed stop := by omega
            refine ⟨found, scanned.toAligned, ?_⟩
            rw [if_neg Bool.false_ne_true, ← furthest]
            exact scanned.passed

/-- Searches go on after the line `p`.  The reading has come to that line, or to the end of the file
when nothing has been found yet. -/
structure Stands (c : Cursor) (p : Nat) : Prop extends Aligned c where
  passed : c.passed = p ∨ p = 0 ∧ c.passed = c.lines.length

theorem start_stands (path : Bytes) (content : Option Bytes) : (start path content).Stands 0 :=
  ⟨start_aligned path content, .inl rfl⟩

/-- Searches have brought the cursor where it is. -/
def Searched (c : Cursor) : Prop := ∃ p, c.Stands p

theorem Stands.search_passed {c : Cursor} {p : Nat} (stands : c.Stands p) (text : Bytes) :
    search c.lines text c.passed = search c.lines text p := by
  obtain same | ⟨rfl, atEnd⟩ := stands.passed
  · rw [same]
  · rw [search, search, atEnd, circle_end]

/-- The position of the searches after one that found the line `n`, or nothing. -/
def after (p n : Nat) : Nat := if n = 0 then p else n

/-- Reading forward with one return to the start finds the first line of the circle that matches. -/
theorem find_spec {c : Cursor} {p : Nat} (stands : c.Stands p) (text : Bytes) :
    (c.find text).1 = search c.lines text p ∧
      (c.find text).2.Stands (after p (search c.lines text p)) := by
  have inside := stands.inside
  obtain ⟨first, scanned⟩ := scanLines_spec text none c.ahead c inside stands.ahead
    (Nat.min_self c.lines.length).symm
  obtain ⟨-, lines⟩ := scanLines_kept text none c.ahead c
  rw [← stands.search_passed text, search_eq_between, Nat.min_eq_left inside, find, scan]
  generalize scanLines text none c c.ahead = call at first scanned lines
  obtain ⟨n, d⟩ := call
  obtain rfl : n = between c.lines text c.passed c.lines.length := first
  cases found : between c.lines text c.passed c.lines.length with
  | succ n =>
      rw [found] at scanned
      rw [if_neg (Nat.succ_ne_zero n)]
      exact ⟨rfl, scanned.toAligned, .inl scanned.passed⟩
  | zero =>
      rw [found] at scanned
      have atEnd : d.passed = d.lines.length :=
        scanned.passed.trans (by rw [if_pos rfl, Nat.max_eq_right inside, lines])
      rw [if_pos rfl]
      -- The scan came to the end of the file without a match.
      show (if c.passed = 0 then (0, d) else d.rewind.scan text (some c.passed)).1 = _ ∧
        (if c.passed = 0 then (0, d) else d.rewind.scan text (some c.passed)).2.Stands _
      by_cases atStart : c.passed = 0
      · have isZero : p = 0 := stands.passed.elim (fun same => same ▸ atStart) And.left
        rw [if_pos atStart, atStart, between_none _ _ (Nat.le_refl 0)]
        exact ⟨rfl, scanned.toAligned, .inr ⟨isZero, atEnd⟩⟩
      · obtain ⟨second, rescanned⟩ := scanLines_spec text (some c.passed) d.rewind.ahead d.rewind
          (Nat.zero_le _) rfl (Nat.min_eq_left (lines ▸ inside : c.passed ≤ d.lines.length)).symm
        obtain ⟨-, relines⟩ := scanLines_kept text (some c.passed) d.rewind.ahead d.rewind
        have same : d.rewind.lines = c.lines := lines
        have fromStart : d.rewind.passed = 0 := rfl
        rw [same, fromStart] at second rescanned
        rw [if_neg atStart, scan]
        refine ⟨second, rescanned.toAligned, ?_⟩
        rw [rescanned.passed, relines, same, after, Nat.zero_max]
        by_cases missed : between c.lines text 0 c.passed = 0
        · rw [if_pos missed, if_pos missed]
          exact stands.passed
        · rw [if_neg missed, if_neg missed]
          exact .inl rfl

end Cursor

end SymbolHistory
