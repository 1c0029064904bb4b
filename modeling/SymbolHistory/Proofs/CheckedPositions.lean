/-
# Proofs.CheckedPositions -- positions in a source text stay inside it

What a source text says about a symbol is read at positions that are computed
from a line number, and line numbers come from outside.  Here the same reading is
written out with every position computed in 64 bits and every access checked:
`slice?` and `at?` give nothing outside a list, and one such access makes all of
`extraText?` nothing.  For no line number does that happen, and what is read is
what `extraText` says (`extraText?_eq`).

The one thing that does fail is a function's name that is not valid UTF-8, on a
line that the text has (`extraText_eq_error_iff`).
-/
import Mathlib.Algebra.Group.Int.Defs
import Mathlib.Algebra.Group.Nat.Defs
import Mathlib.Data.List.TakeDrop
import Mathlib.Data.List.TakeWhile
import SymbolHistory.Signature

set_option autoImplicit false

namespace SymbolHistory

namespace Signature

variable {α σ : Type}

/-! ## Checked access -/

/-- A result in 64 signed bits. -/
def wrap (n : Int) : Int := n.bmod (2 ^ 64)

/-- A number that has 64 signed bits. -/
def Wide (n : Int) : Prop := -2 ^ 63 ≤ n ∧ n < 2 ^ 63

theorem wrap_of_wide {n : Int} (wide : Wide n) : wrap n = n :=
  Int.bmod_eq_of_le (by have := wide.1; omega) (by have := wide.2; omega)

/-- What stands from one position up to another, if these are in range. -/
def slice? (s : List α) (i j : Int) : Option (List α) :=
  if 0 ≤ i ∧ i ≤ j ∧ j ≤ s.length then some ((s.take j.toNat).drop i.toNat) else none

/-- What stands at a position, if it is in range. -/
def at? (s : List α) (i : Int) : Option α := if 0 ≤ i then s[i.toNat]? else none

theorem at?_of_get {s : List α} {i : Nat} {a : α} (found : s[i]? = some a) : at? s i = some a := by
  rw [at?, if_pos (Int.natCast_nonneg i), Int.toNat_natCast, found]

theorem slice?_end (front tail : List α) :
    slice? (front ++ tail) front.length (front ++ tail).length = some tail := by
  have range : (0 : Int) ≤ front.length ∧ (front.length : Int) ≤ (front ++ tail).length ∧
      ((front ++ tail).length : Int) ≤ (front ++ tail).length := by
    rw [List.length_append]
    omega
  rw [slice?, if_pos range, Int.toNat_natCast, Int.toNat_natCast, List.take_length, List.drop_left]

/-- As many lines as memory can hold. -/
def Addressable (src : SourceText) : Prop := src.length < 2 ^ 60

/-- `SourceText.window` at checked positions. -/
def window? (src : SourceText) (line n : Int) : Option (List Bytes) :=
  let start := wrap (line - 1)
  if start < 0 ∨ src.length ≤ start then some []
  else slice? src start (min (wrap (start + n)) src.length)

theorem window?_eq {src : SourceText} (held : Addressable src) {line : Int} (wide : Wide line) {n : Nat}
    (short : n < 2 ^ 60) : window? src line n = some (src.window line n) := by
  obtain ⟨low, high⟩ := wide
  unfold Addressable at held
  by_cases positive : 1 ≤ line
  · obtain ⟨k, rfl⟩ : ∃ k : Nat, line = k + 1 := ⟨(line - 1).toNat, by omega⟩
    have start : wrap ((k : Int) + 1 - 1) = k := by
      rw [Int.add_sub_cancel]
      exact wrap_of_wide ⟨by omega, by omega⟩
    have window : src.window ((k : Int) + 1) n = (src.drop k).take n := rfl
    rw [window?, start, window]
    by_cases inside : k < src.length
    · have stop : wrap ((k : Int) + n) = k + n := wrap_of_wide ⟨by omega, by omega⟩
      have range : 0 ≤ (k : Int) ∧ (k : Int) ≤ min ((k : Int) + n) src.length ∧
          min ((k : Int) + n) src.length ≤ src.length := by omega
      have last : (min ((k : Int) + n) src.length).toNat = min (k + n) src.length := by omega
      rw [if_neg (by omega), stop, slice?, if_pos range, last, Int.toNat_natCast, List.take_drop,
        ← List.take_eq_take_min]
    · rw [if_pos (by omega), List.drop_eq_nil_of_le (by omega), List.take_nil]
  · have empty : src.window line n = [] := by
      cases line with
      | ofNat k =>
          obtain rfl : k = 0 := Nat.eq_zero_of_not_pos fun more => positive (Int.ofNat_le.mpr more)
          rfl
      | negSucc k => rfl
    rw [window?, empty]
    by_cases least : line = -2 ^ 63
    · have start : wrap (line - 1) = 2 ^ 63 - 1 := by
        rw [least]
        decide
      rw [start, if_pos (by omega)]
    · rw [wrap_of_wide ⟨by omega, by omega⟩, if_pos (by omega)]

/-! ## Scanning lines -/

/-- Go on from a position of a line, byte by byte, until a step says that it was the last. -/
def scan? (step : σ → UInt8 → σ × Bool) (l : Bytes) (i : Nat) (s : σ) : Option (σ × Bool) :=
  if i < l.length then do
    let c ← at? l i
    match step s c with
    | (s, true) => some (s, true)
    | (s, false) => scan? step l (i + 1) s
  else some (s, false)
termination_by l.length - i

/-- Go through lines in the same way. -/
def scanLines? (step : σ → UInt8 → σ × Bool) : List Bytes → σ → Option (σ × Bool)
  | [], s => some (s, false)
  | l :: rest, s => do
    match ← scan? step l 0 s with
    | (s, true) => some (s, true)
    | (s, false) => scanLines? step rest s

/-- The steps over some bytes. -/
def run (step : σ → UInt8 → σ × Bool) (s : σ) : Bytes → σ × Bool
  | [] => (s, false)
  | c :: rest =>
    match step s c with
    | (s, true) => (s, true)
    | (s, false) => run step s rest

theorem scan?_eq (step : σ → UInt8 → σ × Bool) (before rest : Bytes) (s : σ) :
    scan? step (before ++ rest) before.length s = some (run step s rest) := by
  induction rest generalizing before s with
  | nil =>
      rw [scan?, List.append_nil, if_neg (Nat.lt_irrefl _)]
      rfl
  | cons c rest ih =>
      have here : at? (before ++ c :: rest) before.length = some c := at?_of_get (by simp)
      rw [scan?, if_pos (by simp), here, run]
      simp only [Option.bind_eq_bind, Option.bind_some]
      have next := ih (before ++ [c])
      rw [List.append_assoc, List.singleton_append, List.length_append] at next
      rcases step s c with ⟨s, _ | _⟩
      · exact next s
      · rfl

theorem run_append (step : σ → UInt8 → σ × Bool) (u v : Bytes) (s : σ) :
    run step s (u ++ v) =
      match run step s u with
      | (s, true) => (s, true)
      | (s, false) => run step s v := by
  induction u generalizing s with
  | nil => rfl
  | cons c u ih =>
      rw [List.cons_append, run, run]
      rcases step s c with ⟨s, _ | _⟩
      · exact ih s
      · rfl

theorem scanLines?_eq (step : σ → UInt8 → σ × Bool) (lines : List Bytes) (s : σ) :
    scanLines? step lines s = some (run step s lines.flatten) := by
  induction lines generalizing s with
  | nil => rfl
  | cons l rest ih =>
      have first := scan?_eq step [] l s
      rw [List.nil_append, List.length_nil] at first
      rw [scanLines?, first, List.flatten_cons, run_append]
      simp only [Option.bind_eq_bind, Option.bind_some]
      rcases run step s l with ⟨s, _ | _⟩
      · exact ih s
      · rfl

/-! ## Parameter lists and values -/

/-- One byte of a parameter list: the depth of parentheses, and the text so far, last byte first. -/
def argumentStep (s : Int × Bytes) (c : UInt8) : (Int × Bytes) × Bool :=
  let depth := if c == 40 then s.1 + 1 else if c == 41 then s.1 - 1 else s.1
  if c == 41 && depth == 0 then ((depth, c :: s.2), true)
  else ((depth, if depth == 0 then s.2 else c :: s.2), false)

/-- `arguments` at checked positions. -/
def arguments? (src : SourceText) (line : Int) : Option Bytes :=
  if line ≤ 0 then some (lit "(???)")
  else do
    let lines ← window? src line bodyLines
    let ((_, out), closed) ← scanLines? argumentStep lines (0, [])
    some (fixWhitespace (out.reverse ++ if closed then [] else lit ", ???)"))

theorem run_argumentStep (depth : Int) (out s : Bytes) :
    ((run argumentStep (depth, out) s).1.2, (run argumentStep (depth, out) s).2) =
      collectArguments depth out s := by
  induction s generalizing depth out with
  | nil => rfl
  | cons c rest ih =>
      rw [run, collectArguments, argumentStep]
      by_cases opens : c = 40
      · subst opens
        simpa using ih _ _
      · by_cases closes : c = 41
        · subst closes
          by_cases last : depth - 1 = 0
          · simp [last]
          · simpa [last] using ih _ _
        · simpa [opens, closes] using ih _ _

theorem arguments?_eq {src : SourceText} (held : Addressable src) {line : Int} (wide : Wide line) :
    arguments? src line = some (arguments src line) := by
  rw [arguments?, arguments]
  split
  · rfl
  · rw [window?_eq held wide (by decide)]
    simp only [Option.bind_eq_bind, Option.bind_some, scanLines?_eq, ← run_argumentStep]

/-- One byte of a value: how deep it is, and the text so far, last byte first. -/
def valueStep (s : Int × Bytes) (c : UInt8) : (Int × Bytes) × Bool :=
  let depth := if c == 61 then 1 else if c == 59 then s.1 - 1 else s.1
  if c == 59 && decide (depth ≤ 0) then ((depth, s.2), true)
  else ((depth, if depth == 0 then s.2 else c :: s.2), false)

/-- `initializer` at checked positions. -/
def initializer? (src : SourceText) (line : Int) : Option Bytes :=
  if line ≤ 0 then some (lit "= ???")
  else do
    let lines ← window? src line bodyLines
    let ((_, out), ended) ← scanLines? valueStep lines (0, [])
    some (32 :: fixWhitespace (Utf8.trim (out.reverse ++ if ended then [] else lit " ???")))

/-- The depth is 1 once an equals sign was passed, and a semicolon always ends the value. -/
theorem run_valueStep (started : Bool) (out s : Bytes) :
    let depth : Int := if started then 1 else 0
    ((run valueStep (depth, out) s).1.2, (run valueStep (depth, out) s).2) = collectValue started out s := by
  induction s generalizing started out with
  | nil => rfl
  | cons c rest ih =>
      dsimp only
      rw [run, collectValue, valueStep]
      by_cases equals : c = 61
      · subst equals
        simpa using ih true _
      · by_cases semicolon : c = 59
        · subst semicolon
          cases started <;> simp
        · cases started
          · simpa [equals, semicolon] using ih false _
          · simpa [equals, semicolon] using ih true _

theorem initializer?_eq {src : SourceText} (held : Addressable src) {line : Int} (wide : Wide line) :
    initializer? src line = some (initializer src line) := by
  rw [initializer?, initializer]
  split
  · rfl
  · have value := run_valueStep false []
    rw [window?_eq held wide (by decide)]
    simp only [Option.bind_eq_bind, Option.bind_some, scanLines?_eq, ← value, Bool.false_eq_true, if_false]

/-! ## Return types -/

/-- Where a byte stands last. -/
def lastIndex? (b : UInt8) : Bytes → Option Nat
  | [] => none
  | c :: rest =>
    match lastIndex? b rest with
    | some i => some (i + 1)
    | none => if c = b then some 0 else none

theorem lastIndex?_eq_none {b : UInt8} {l : Bytes} (absent : b ∉ l) : lastIndex? b l = none := by
  induction l with
  | nil => rfl
  | cons c rest ih =>
      rw [List.mem_cons, not_or] at absent
      rw [lastIndex?, ih absent.2]
      exact if_neg (Ne.symm absent.1)

theorem lastIndex?_append {b : UInt8} (front : Bytes) {tail : Bytes} (absent : b ∉ tail) :
    lastIndex? b (front ++ b :: tail) = some front.length := by
  induction front with
  | nil => rw [List.nil_append, lastIndex?, lastIndex?_eq_none absent, if_pos rfl, List.length_nil]
  | cons c front ih => rw [List.cons_append, lastIndex?, ih, List.length_cons]

/-- `lookBack` at checked positions: through the first lines, from the last of them on. -/
def lookBack? (lines : List Bytes) : Nat → Option Bytes
  | 0 => some (lit "int")
  | k + 1 => do
    let l ← at? lines k
    match lastIndex? 125 l with
    | some e =>
      let tail ← slice? l e l.length
      some ((lineType tail).getD (lit "int"))
    | none =>
      match lineType l with
      | some t => some t
      | none => lookBack? lines k

/-- `returnType` at checked positions. -/
def returnType? (name : Bytes) (src : SourceText) (line : Int) : Option (Except Fault Bytes) :=
  if line ≤ 0 then some (.ok (lit "int"))
  else if line > src.length then some (.ok (lit "unknown_t"))
  else do
    let lines ← slice? src (max (wrap (line - returnTypeLines)) 0) line
    if !Utf8.valid name then some (.error (badName name))
    else
      let own ← at? lines (wrap (lines.length - 1))
      match beforeCall name [] none own with
      | none => some (.ok (lit "unknown_t"))
      | some before =>
        match lineType (Utf8.trim before.reverse) with
        | some t => some (.ok t)
        | none => (lookBack? lines (lines.length - 1)).map .ok

/-- The last closing brace of a line, and what stands behind it. -/
theorem span_brace (l : Bytes) :
    (125 ∉ l ∧ (l.reverse.span (· != 125)).2 = []) ∨
      ∃ front tail, l = front ++ 125 :: tail ∧ 125 ∉ tail ∧
        l.reverse.span (· != 125) = (tail.reverse, 125 :: front.reverse) := by
  by_cases braced : 125 ∈ l
  · obtain ⟨u, v, whole, before⟩ := List.eq_append_cons_of_mem (List.mem_reverse.mpr braced)
    have other : ∀ b ∈ u, (b != 125) = true := fun b member => bne_iff_ne.mpr fun same => before (same ▸ member)
    refine .inr ⟨v.reverse, u.reverse, ?_, by simpa using before, ?_⟩
    · rw [← List.reverse_reverse l, whole]
      simp
    · rw [whole, List.span_eq_takeWhile_dropWhile, List.takeWhile_append_of_pos other,
        List.dropWhile_append_of_pos other]
      simp
  · refine .inl ⟨braced, ?_⟩
    rw [List.span_eq_takeWhile_dropWhile, List.dropWhile_eq_nil_iff]
    exact fun b member => bne_iff_ne.mpr fun same => braced (List.mem_reverse.mp (same ▸ member))

theorem lookBack?_eq (lines : List Bytes) : ∀ k ≤ lines.length,
    lookBack? lines k = some (lookBack (lines.take k).reverse) := by
  intro k
  induction k with
  | zero => exact fun _ => rfl
  | succ k ih =>
      intro inside
      obtain ⟨l, found⟩ : ∃ l, lines[k]? = some l := ⟨_, List.getElem?_eq_getElem (by omega)⟩
      have parts : (lines.take (k + 1)).reverse = l :: (lines.take k).reverse := by
        rw [List.take_add_one, found]
        simp
      rw [lookBack?, at?_of_get found, parts, lookBack]
      simp only [Option.bind_eq_bind, Option.bind_some]
      rcases span_brace l with ⟨absent, none⟩ | ⟨front, tail, rfl, absent, spanned⟩
      · rw [lastIndex?_eq_none absent, none]
        simp only [List.isEmpty_nil, if_true]
        cases lineType l with
        | some t => rfl
        | none => exact ih (by omega)
      · rw [lastIndex?_append front absent, spanned]
        simp only [slice?_end, Option.bind_some, List.isEmpty_cons, Bool.false_eq_true, if_false,
          List.reverse_reverse]

/-- The lines that are looked at: a function's own line, and before it those that are looked back
through. -/
theorem slice?_lines {src : SourceText} {k : Nat} (inside : k < src.length) (held : Addressable src) :
    ∃ before own, slice? src (max (wrap ((k + 1 : Nat) - returnTypeLines)) 0) (k + 1 : Nat) = some (before ++ [own]) ∧
      (src.take (k + 1)).reverse = own :: (src.take k).reverse ∧
      before.reverse = (src.take k).reverse.take (returnTypeLines - 1) := by
  unfold Addressable at held
  obtain ⟨own, found⟩ : ∃ own, src[k]? = some own := ⟨_, List.getElem?_eq_getElem inside⟩
  have length : (src.take k).length = k := List.length_take_of_le (Nat.le_of_lt inside)
  have upTo : src.take (k + 1) = src.take k ++ [own] := by rw [List.take_add_one, found, Option.toList_some]
  have first : max (wrap ((k + 1 : Nat) - returnTypeLines)) 0 = (k + 1 - returnTypeLines : Nat) := by
    rw [returnTypeLines, wrap_of_wide ⟨by omega, by omega⟩]
    omega
  have few : k + 1 - returnTypeLines ≤ (src.take k).length := by
    rw [length, returnTypeLines]
    omega
  refine ⟨(src.take k).drop (k + 1 - returnTypeLines), own, ?_, by rw [upTo, List.reverse_concat], ?_⟩
  · rw [first, slice?, if_pos ⟨by omega, by omega, by omega⟩, Int.toNat_natCast, Int.toNat_natCast, upTo,
      List.drop_append_of_le_length few]
  · have whole : ∀ m, k ≤ m → (src.take k).reverse.take m = (src.take k).reverse := fun m enough =>
      List.take_of_length_le (by rw [List.length_reverse, length]; exact enough)
    rw [List.reverse_drop, length, returnTypeLines]
    by_cases long : 9 ≤ k
    · rw [show k - (k + 1 - 10) = 9 by omega]
    · rw [whole _ (by omega), whole _ (by omega)]

theorem returnType?_eq (name : Bytes) {src : SourceText} (held : Addressable src) {line : Int}
    (wide : Wide line) : returnType? name src line = some (returnType name src line) := by
  rw [returnType?, returnType]
  by_cases positive : line ≤ 0
  · rw [if_pos positive, if_pos positive]
  rw [if_neg positive, if_neg positive]
  by_cases beyond : line > src.length
  · rw [if_pos beyond, if_pos beyond]
  rw [if_neg beyond, if_neg beyond]
  obtain ⟨k, rfl⟩ : ∃ k : Nat, line = (k + 1 : Nat) := ⟨(line - 1).toNat, by omega⟩
  obtain ⟨before, own, sliced, upTo, earlier⟩ := slice?_lines (k := k) (by omega) held
  rw [sliced]
  simp only [Option.bind_eq_bind, Option.bind_some]
  by_cases valid : Utf8.valid name = true
  · have few : before.length ≤ 9 := by
      rw [← List.length_reverse, earlier]
      exact List.length_take_le _ _
    have last : wrap ((before ++ [own]).length - 1) = before.length := by
      rw [List.length_append, List.length_singleton, Int.natCast_add, Int.natCast_one, Int.add_sub_cancel]
      exact wrap_of_wide ⟨by omega, by omega⟩
    have back := lookBack?_eq (before ++ [own]) before.length (by simp)
    rw [List.take_left, earlier] at back
    rw [last, at?_of_get (List.getElem?_concat_length ..), Int.toNat_natCast, upTo]
    simp only [valid, Bool.not_true, Bool.false_eq_true, if_false, Option.bind_some]
    cases beforeCall name [] none own with
    | none => rfl
    | some start =>
        dsimp only
        cases lineType (Utf8.trim start.reverse) with
        | some t => rfl
        | none =>
            dsimp only
            rw [List.length_append, List.length_singleton, Nat.add_sub_cancel, back]
            rfl
  · simp [valid]

/-- `extraText` at checked positions. -/
def extraText? (kind : SymbolKind) (name : Bytes) (src : SourceText) (line : Int) :
    Option (Except Fault Bytes) :=
  match kind with
  | .function => do
    match ← returnType? name src line with
    | .error f => some (.error f)
    | .ok t =>
      let list ← arguments? src line
      some (.ok (t ++ lit " \x7bname\x7d" ++ list))
  | .variable => (initializer? src line).map .ok
  | _ => some (.ok [])

/-- No position is out of range, whatever the line number. -/
theorem extraText?_eq (kind : SymbolKind) (name : Bytes) {src : SourceText} (held : Addressable src)
    {line : Int} (wide : Wide line) : extraText? kind name src line = some (extraText kind name src line) := by
  cases kind with
  | function =>
      rw [extraText?, extraText, returnType?_eq name held wide, arguments?_eq held wide]
      cases returnType name src line <;> rfl
  | «variable» =>
      rw [extraText?, extraText, initializer?_eq held wide]
      rfl
  | _ => rfl

/-! ## Names -/

/-- A function's name that no pattern can be made of, on a line that there is. -/
structure Spoils (kind : SymbolKind) (name : Bytes) (src : SourceText) (line : Int) : Prop where
  function : kind = .function
  broken : Utf8.valid name = false
  inside : 0 < line ∧ line ≤ src.length

theorem returnType_eq_error_iff {name : Bytes} {src : SourceText} {line : Int} {f : Fault} :
    returnType name src line = .error f ↔
      (0 < line ∧ line ≤ src.length) ∧ Utf8.valid name = false ∧ f = badName name := by
  rw [returnType]
  by_cases positive : line ≤ 0
  · simp only [positive, if_true, reduceCtorEq, false_iff]
    omega
  by_cases beyond : line > src.length
  · simp only [positive, beyond, if_true, if_false, reduceCtorEq, false_iff]
    omega
  cases valid : Utf8.valid name with
  | false =>
      simp only [positive, beyond, if_false, Bool.not_false, if_true, Except.error.injEq, true_and]
      exact ⟨fun same => ⟨by omega, same.symm⟩, fun spoils => spoils.2.symm⟩
  | true =>
      simp only [positive, beyond, if_false, Bool.not_true, Bool.false_eq_true, reduceCtorEq, false_and,
        and_false, iff_false]
      repeat' split
      all_goals exact nofun

/-- A name that is not valid UTF-8 is what goes wrong, and it goes wrong badly. -/
theorem extraText_eq_error_iff {kind : SymbolKind} {name : Bytes} {src : SourceText} {line : Int} {f : Fault} :
    extraText kind name src line = .error f ↔ Spoils kind name src line ∧ f = badName name := by
  cases kind with
  | function =>
      have failing : extraText .function name src line = .error f ↔ returnType name src line = .error f := by
        rw [extraText]
        cases returnType name src line with
        | error e => exact Iff.rfl
        | ok t => exact ⟨nofun, nofun⟩
      rw [failing, returnType_eq_error_iff]
      exact ⟨fun ⟨inside, broken, same⟩ => ⟨⟨rfl, broken, inside⟩, same⟩,
        fun ⟨spoils, same⟩ => ⟨spoils.inside, spoils.broken, same⟩⟩
  | _ => exact ⟨nofun, fun spoils => absurd spoils.1.function (by decide)⟩

end Signature

end SymbolHistory
