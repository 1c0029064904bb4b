/-
# Proofs.PatternLines -- table lines that quote a line of the source

A symbol's place can be given by the text of its line, escaped between `/^` and
`$/`.  `patternLine` writes such a table line for any text.  Reading it back gives
the symbol's name and file in every case, but the address ends for the reader at
the first `;"`, and a text may have one itself: a statement that ends a string
does.  `pattern_line_read` says that the text is looked up exactly when it has
none; otherwise nothing is looked up, and the kind is read from the middle of the
text.
-/
import SymbolHistory.Proofs.TableReading

set_option autoImplicit false

namespace SymbolHistory

namespace Bytes

/-! ## Cutting texts -/

theorem cutFrom_eq (mark : Bytes) (s : Bytes) : ∀ passed,
    cutFrom mark passed s = (cut mark s).map fun p => (passed.reverse ++ p.1, p.2) := by
  induction s with
  | nil =>
      intro passed
      rw [cut, cutFrom, cutFrom]
      cases after? mark [] <;> simp
  | cons b s ih =>
      intro passed
      rw [cut, cutFrom, cutFrom]
      cases after? mark (b :: s) with
      | some rest => simp
      | none =>
          dsimp only
          rw [ih, ih [b], Option.map_map]
          congr 1
          funext p
          simp

/-- A text begins with the mark, or it is cut where its rest is. -/
theorem cut_cons (mark : Bytes) (b : UInt8) (s : Bytes) :
    cut mark (b :: s) =
      match after? mark (b :: s) with
      | some rest => some ([], rest)
      | none => (cut mark s).map fun p => (b :: p.1, p.2) := by
  rw [cut, cutFrom]
  cases after? mark (b :: s) with
  | some rest => rfl
  | none => exact cutFrom_eq mark s [b]

section

variable {a b : UInt8}

theorem after?_pair (x : UInt8) (s : Bytes) :
    after? [a, b] (x :: s) = if x = a ∧ s.head? = some b then some s.tail else none := by
  cases s with
  | nil => simp [after?]
  | cons y s =>
      by_cases first : x = a
      · by_cases second : y = b
        · simp [after?, first, second]
        · simp [after?, first, Ne.symm second, second]
      · simp [after?, first, Ne.symm first]

theorem cut_pair_cons_of_ne {x : UInt8} (s : Bytes) (other : ¬(x = a ∧ s.head? = some b)) :
    cut [a, b] (x :: s) = (cut [a, b] s).map fun p => (x :: p.1, p.2) := by
  rw [cut_cons, after?_pair, if_neg other]

/-- A text without the pair does not begin with it. -/
theorem not_pair_of_cut {x : UInt8} {s : Bytes} (uncut : cut [a, b] (x :: s) = none) :
    ¬(x = a ∧ s.head? = some b) ∧ cut [a, b] s = none := by
  rw [cut_cons, after?_pair] at uncut
  split at uncut
  · rename_i rest found
    cases uncut
  · rename_i missing
    refine ⟨fun pair => ?_, Option.map_eq_none_iff.mp uncut⟩
    rw [if_pos pair] at missing
    cases missing

/-- A pair of different bytes after a text without it is where the whole is cut. -/
theorem cut_pair_append (different : a ≠ b) (v : Bytes) :
    ∀ {u : Bytes}, cut [a, b] u = none → cut [a, b] (u ++ a :: b :: v) = some (u, v) := by
  intro u
  induction u with
  | nil =>
      intro _
      rw [List.nil_append, cut_cons, after?_pair, if_pos ⟨rfl, rfl⟩]
      rfl
  | cons x u ih =>
      intro uncut
      obtain ⟨notHere, later⟩ := not_pair_of_cut uncut
      have other : ¬(x = a ∧ (u ++ a :: b :: v).head? = some b) := by
        cases u with
        | nil => exact fun pair => different (Option.some.inj pair.2)
        | cons y u => exact notHere
      rw [List.cons_append, cut_pair_cons_of_ne _ other, ih later]
      rfl

/-- Where a text is cut, the pair stands for the first time. -/
theorem eq_of_cut_pair {p q : Bytes} :
    ∀ {s : Bytes}, cut [a, b] s = some (p, q) → s = p ++ a :: b :: q ∧ cut [a, b] p = none := by
  intro s
  induction s generalizing p with
  | nil => intro found; cases found
  | cons x s ih =>
      intro found
      by_cases here : x = a ∧ s.head? = some b
      · rw [cut_cons, after?_pair, if_pos here] at found
        obtain ⟨rfl, rfl⟩ := Prod.mk.inj (Option.some.inj found)
        obtain ⟨rfl, second⟩ := here
        cases s with
        | nil => cases second
        | cons y s =>
            cases Option.some.inj second
            exact ⟨rfl, rfl⟩
      · rw [cut_pair_cons_of_ne _ here] at found
        obtain ⟨⟨p', q'⟩, later, same⟩ := Option.map_eq_some_iff.mp found
        obtain ⟨rfl, rfl⟩ := Prod.mk.inj same
        obtain ⟨rfl, uncut⟩ := ih later
        refine ⟨rfl, ?_⟩
        have other : ¬(x = a ∧ p'.head? = some b) := by
          rintro ⟨first, second⟩
          cases p' with
          | nil => cases second
          | cons y p' => exact here ⟨first, second⟩
        rw [cut_pair_cons_of_ne _ other, uncut]
        rfl

end

/-! ## Lines -/

theorem withoutReturn_concat {b : UInt8} (other : b ≠ 13) (s : Bytes) :
    withoutReturn (s ++ [b]) = s ++ [b] := by
  rw [withoutReturn, withoutTail, endsWith]
  simp [Ne.symm other]

theorem lines_single {u : Bytes} (oneLine : 10 ∉ u) (nonempty : u ≠ []) :
    lines u = [⟨u, false⟩] := by
  rw [lines, splitOn_of_not_mem oneLine]
  cases u with
  | nil => exact absurd rfl nonempty
  | cons b u => rfl

end Bytes

namespace TagTable

open Bytes (cut includes)

/-! ## Escaped texts -/

theorem escape_cons (b : UInt8) (s : Bytes) :
    escape (b :: s) = (if b = 47 ∨ b = 92 then [92, b] else [b]) ++ escape s := by
  rw [escape, List.flatMap_cons, ← escape]
  congr 1
  by_cases escaped : b = 47 ∨ b = 92 <;> simp [escaped]

theorem escape_append (s t : Bytes) : escape (s ++ t) = escape s ++ escape t :=
  List.flatMap_append

theorem unescapeOnto_cons {b : UInt8} (other : b ≠ 92) (out s : Bytes) :
    unescapeOnto out (b :: s) = unescapeOnto (b :: out) s := by
  rw [unescapeOnto]
  · rintro rest rfl -
    exact other rfl
  · rintro rest rfl -
    exact other rfl

theorem unescapeOnto_escape (s : Bytes) :
    ∀ out, unescapeOnto out (escape s) = out.reverse ++ s := by
  induction s with
  | nil => intro out; simp [escape, unescapeOnto]
  | cons b s ih =>
      intro out
      have onward : unescapeOnto (b :: out) (escape s) = out.reverse ++ b :: s := by
        rw [ih, List.reverse_cons, List.append_assoc, List.singleton_append]
      rw [escape_cons]
      by_cases slash : b = 47
      · subst slash
        exact onward
      · by_cases back : b = 92
        · subst back
          exact onward
        · rw [if_neg (by simp [slash, back]), List.singleton_append, unescapeOnto_cons back]
          exact onward

/-- Escaping is undone. -/
theorem unescape_escape (s : Bytes) : unescape (escape s) = s := unescapeOnto_escape s []

/-- Escaping makes no new `;"`. -/
theorem cut_escape_append {w : Bytes} (apart : w.head? ≠ some 34)
    (uncut : cut [59, 34] w = none) :
    ∀ {s : Bytes}, cut [59, 34] s = none → cut [59, 34] (escape s ++ w) = none := by
  intro s
  induction s with
  | nil => exact fun _ => uncut
  | cons b s ih =>
      intro own
      obtain ⟨notHere, later⟩ := Bytes.not_pair_of_cut own
      rw [escape_cons, List.append_assoc]
      by_cases escaped : b = 47 ∨ b = 92
      · have other : b ≠ 59 := by
          rintro rfl
          simp at escaped
        rw [if_pos escaped, List.cons_append, List.cons_append, List.nil_append,
          Bytes.cut_pair_cons_of_ne _ (by simp), Bytes.cut_pair_cons_of_ne _ (by simp [other]),
          ih later]
        rfl
      · have next : ¬(b = 59 ∧ (escape s ++ w).head? = some 34) := by
          rintro ⟨rfl, second⟩
          cases s with
          | nil => exact apart second
          | cons c s =>
              rw [escape_cons] at second
              split at second
              · cases second
              · exact notHere ⟨rfl, second⟩
        rw [if_neg escaped, List.singleton_append, Bytes.cut_pair_cons_of_ne _ next, ih later]
        rfl

/-! ## Addresses -/

def pattern (text : Bytes) : Bytes := lit "/^" ++ escape text ++ lit "$/"

theorem ofExpression_quoted (text : Bytes) :
    Address.ofExpression (lit "/^" ++ text ++ lit "$/") = .text (unescape text) := by
  have length : (lit "/^" ++ text ++ lit "$/").length = text.length + 4 := by
    rw [List.length_append, List.length_append]
    change 2 + _ + 2 = _
    omega
  have inner : ((lit "/^" ++ text ++ lit "$/").drop 2).take
      ((lit "/^" ++ text ++ lit "$/").length - 4) = text := by
    rw [length, Nat.add_sub_cancel]
    change (text ++ lit "$/").take _ = _
    exact List.take_left
  have begins : Bytes.startsWith [47, 94] (lit "/^" ++ text ++ lit "$/") = true := rfl
  have ends : Bytes.endsWith [36, 47] (lit "/^" ++ text ++ lit "$/") = true := by
    rw [Bytes.endsWith, List.reverse_append]
    rfl
  rw [Address.ofExpression, if_pos, inner]
  rw [begins, ends, length]
  simp

theorem ofExpression_pattern (text : Bytes) :
    Address.ofExpression (pattern text) = .text text := by
  rw [pattern, ofExpression_quoted, unescape_escape]

/-- Escaped, a slash has a backslash before it. -/
theorem endsWith_escape (p : Bytes) :
    Bytes.endsWith [36, 47] (lit "/^" ++ escape p) = false := by
  rw [Bytes.endsWith, List.reverse_append]
  rcases List.eq_nil_or_concat p with rfl | ⟨p, b, rfl⟩
  · rfl
  · rw [List.concat_eq_append, escape_append, escape_cons, List.reverse_append]
    by_cases escaped : b = 47 ∨ b = 92
    · rw [if_pos escaped]
      change List.isPrefixOf [47, 36] (b :: 92 :: _) = false
      simp [List.isPrefixOf]
    · rw [if_neg escaped]
      change List.isPrefixOf [47, 36] (b :: _) = false
      simp [List.isPrefixOf, Ne.symm (not_or.mp escaped).1]

/-- A pattern that is cut is no address. -/
theorem ofExpression_cut (p : Bytes) :
    Address.ofExpression (lit "/^" ++ escape p) = .other := by
  rw [Address.ofExpression, endsWith_escape, Bool.and_false]
  rfl

/-! ## Cutting the address from the fields after it -/

theorem cut_opened {s : Bytes} (uncut : cut [59, 34] s = none) :
    cut [59, 34] (lit "/^" ++ s) = none := by
  change cut [59, 34] (47 :: 94 :: s) = none
  rw [Bytes.cut_pair_cons_of_ne _ (by simp), Bytes.cut_pair_cons_of_ne _ (by simp), uncut]
  rfl

/-- A text without `;"` is whole in the address. -/
theorem cut_pattern {text : Bytes} (uncut : cut [59, 34] text = none) (fields : Bytes) :
    cut [59, 34] (pattern text ++ 59 :: 34 :: fields) = some (pattern text, fields) := by
  apply Bytes.cut_pair_append (by decide)
  rw [pattern, List.append_assoc]
  exact cut_opened (cut_escape_append (by decide) (by decide) uncut)

/-- A text with `;"` ends the address at the first of them. -/
theorem cut_pattern_early {text head rest : Bytes} (found : cut [59, 34] text = some (head, rest))
    (fields : Bytes) :
    cut [59, 34] (pattern text ++ fields) =
      some (lit "/^" ++ escape head, escape rest ++ (lit "$/" ++ fields)) := by
  obtain ⟨rfl, uncut⟩ := Bytes.eq_of_cut_pair found
  have opened : cut [59, 34] (lit "/^" ++ escape head) = none := by
    rw [← List.append_nil (escape head)]
    exact cut_opened (cut_escape_append (by decide) (by decide) uncut)
  have parts : pattern (head ++ 59 :: 34 :: rest) ++ fields =
      (lit "/^" ++ escape head) ++ 59 :: 34 :: (escape rest ++ (lit "$/" ++ fields)) := by
    rw [pattern, escape_append, escape_cons, escape_cons]
    simp
  rw [parts]
  exact Bytes.cut_pair_append (by decide) _ opened

/-! ## One line -/

/-- The table line of a symbol whose place is given by the text of its line. -/
def patternLine (name file text : Bytes) (kind : SymbolKind) : Bytes :=
  name ++ Symbol.tab :: (file ++ Symbol.tab :: (pattern text ++ 59 :: 34 :: Symbol.tab :: kind.code))

/-- What can stand in one line: a name and a file in their fields, and the text of a line. -/
structure InOneLine (name file text : Bytes) : Prop where
  nameField : Symbol.tab ∉ name ∧ 10 ∉ name
  fileField : Symbol.tab ∉ file ∧ 10 ∉ file
  unmarked : name.head? ≠ some headerMark
  textLine : 10 ∉ text

section

variable {name file text : Bytes} {kind : SymbolKind}

theorem decode_patternLine (fits : InOneLine name file text) :
    Entry.decode (patternLine name file text kind) =
      (cut [59, 34] (pattern text ++ 59 :: 34 :: Symbol.tab :: kind.code)).map fun p =>
        let fields := Bytes.splitOn Symbol.tab (Bytes.trimBytes (· == Symbol.tab) p.2)
        ⟨name, file, p.1, 0, SymbolKind.ofField (fields.headD []), fields.tail⟩ := by
  rw [Entry.decode, patternLine, Bytes.splitAtMost, Bytes.cutByte_append fits.nameField.1]
  dsimp only
  rw [Bytes.splitAtMost, Bytes.cutByte_append fits.fileField.1]
  dsimp only [Bytes.splitAtMost]
  have mark : lit ";\"" = [59, 34] := rfl
  rw [mark]
  cases cut [59, 34] (pattern text ++ 59 :: 34 :: Symbol.tab :: kind.code) with
  | none => rfl
  | some p =>
      obtain ⟨expression, fields⟩ := p
      dsimp only [Option.map_some]
      cases pieces : Bytes.splitOn Symbol.tab (Bytes.trimBytes (· == Symbol.tab) fields) with
      | nil => exact absurd pieces (Bytes.splitOn_ne_nil _ _)
      | cons first others => rfl

/-- Without `;"` in the text the line says what was written into it. -/
theorem decode_whole (fits : InOneLine name file text) (known : kind ≠ .unknown)
    (uncut : cut [59, 34] text = none) :
    Entry.decode (patternLine name file text kind) = some ⟨name, file, pattern text, 0, kind, []⟩ := by
  rw [decode_patternLine fits, cut_pattern uncut]
  cases kind with
  | unknown => exact absurd rfl known
  | function => rfl
  | define => rfl
  | «variable» => rfl

/-- With `;"` in the text the address is what stands before it. -/
theorem decode_early (fits : InOneLine name file text) (kind : SymbolKind) {head rest : Bytes}
    (found : cut [59, 34] text = some (head, rest)) :
    ∃ kind' extra, Entry.decode (patternLine name file text kind) =
      some ⟨name, file, lit "/^" ++ escape head, 0, kind', extra⟩ := by
  rw [decode_patternLine fits, cut_pattern_early found]
  exact ⟨_, _, rfl⟩

theorem not_mem_patternLine (fits : InOneLine name file text) : 10 ∉ patternLine name file text kind := by
  have own : 10 ∉ escape text := by
    intro member
    obtain ⟨b, inside, among⟩ := List.mem_flatMap.mp member
    split at among
    · rename_i escaped
      rcases List.mem_cons.mp among with same | rest
      · cases same
      · obtain rfl := List.mem_singleton.mp rest
        cases escaped
    · obtain rfl := List.mem_singleton.mp among
      exact fits.textLine inside
  have code : 10 ∉ kind.code := by cases kind <;> decide
  have frame : 10 ∉ lit "/^" ∧ 10 ∉ lit "$/" := by decide
  simp [patternLine, pattern, Symbol.tab, fits.nameField.2, fits.fileField.2, own, code, frame]

/-- The line is no line about the table and has no carriage return to lose. -/
theorem lineText_patternLine (ended : Bool) :
    Reader.lineText ⟨patternLine name file text kind, ended⟩ = patternLine name file text kind := by
  obtain ⟨start, last, split, other⟩ : ∃ start last,
      patternLine name file text kind = start ++ [last] ∧ last ≠ 13 := by
    rw [patternLine]
    obtain ⟨c, code, other⟩ : ∃ c, kind.code = [c] ∧ c ≠ 13 := by
      cases kind <;> exact ⟨_, rfl, by decide⟩
    refine ⟨name ++ Symbol.tab :: (file ++ Symbol.tab :: (pattern text ++ [59, 34, Symbol.tab])), c,
      ?_, other⟩
    simp [code]
  rw [Reader.lineText, split]
  exact Bytes.withoutReturn_concat other start

theorem head_patternLine (fits : InOneLine name file text) :
    ((patternLine name file text kind).head? == some headerMark) = false := by
  rw [beq_eq_false_iff_ne, patternLine]
  cases name with
  | nil => exact fun same => absurd (Option.some.inj same) (by decide)
  | cons b name => exact fits.unmarked

end

namespace Reader

variable {r : Reader} {name file text tail : Bytes} {kind : SymbolKind}

/-- The reader stands before a line of the text `line`, which a newline or the end of an input
that did not fail ends. -/
structure Before (r : Reader) (line rest : Bytes) : Prop where
  going : r.stop = none
  ahead : r.ahead = Bytes.lines (line ++ rest)
  ends : rest = [] ∧ r.failure = none ∨ ∃ more, rest = 10 :: more

/-- The reader with one more line behind it. -/
def past (r : Reader) (rest : Bytes) : Reader :=
  { r with ahead := Bytes.lines rest, passed := r.passed + 1 }

theorem next_patternLine (fits : InOneLine name file text)
    (before : r.Before (patternLine name file text kind) tail) {e : Entry}
    (decoded : Entry.decode (patternLine name file text kind) = some e) :
    r.next = (some ((r.past tail.tail).resolve e).1, ((r.past tail.tail).resolve e).2) := by
  have onward : r.next = r.advance r.ahead := by rw [next, before.going]
  have step (ended : Bool) (safe : (!ended && r.failure.isSome) = false) :
      r.advance (⟨patternLine name file text kind, ended⟩ :: Bytes.lines tail.tail) =
        (some ((r.past tail.tail).resolve e).1, ((r.past tail.tail).resolve e).2) := by
    rw [advance, safe, lineText_patternLine]
    simp only [head_patternLine fits, decoded]
    rfl
  rw [onward, before.ahead]
  rcases before.ends with ⟨rfl, unfailing⟩ | ⟨more, rfl⟩
  · have nonempty : patternLine name file text kind ≠ [] := by simp [patternLine]
    rw [List.append_nil, Bytes.lines_single (not_mem_patternLine fits) nonempty]
    exact step false (by rw [unfailing]; rfl)
  · rw [Bytes.lines_cons (not_mem_patternLine fits)]
    exact step true rfl

/-- A text is looked up in the cursor for its file. -/
theorem resolve_text {sources : Sources} (based : r.sources = some sources) (e : Entry)
    (address : Address.ofExpression e.expression = .text text) :
    r.resolve e =
      ({ e with line := Int.ofNat ((r.cursorFor sources (sources.path e.file)).find text).1 },
        { r with cursor := some ((r.cursorFor sources (sources.path e.file)).find text).2 }) := by
  rw [resolve, address, based]

theorem resolve_other {e : Entry} (address : Address.ofExpression e.expression = .other) :
    r.resolve e = (e, r) := by
  rw [resolve, address]

end Reader

/-! ## Reading the line back -/

/-- A line that quotes the text of a source line is read as an entry with its name and file, and
the reader goes on with the next line.  The entry has the line's kind and looks up the line's text
exactly when the text has no `;"`: the search in the file's cursor is then for this text.  Otherwise
there is nothing to look up. -/
theorem pattern_line_read {r : Reader} {sources : Sources} {name file text tail : Bytes}
    {kind : SymbolKind} (based : r.sources = some sources) (known : kind ≠ .unknown)
    (fits : InOneLine name file text)
    (before : r.Before (patternLine name file text kind) tail) :
    ∃ e r', r.next = (some e, r') ∧ e.name = name ∧ e.file = file ∧
      r'.ahead = Bytes.lines tail.tail ∧ r'.stop = none ∧
      ((e.kind = kind ∧ Address.ofExpression e.expression = .text text) ↔
        includes (lit ";\"") text = false) ∧
      (includes (lit ";\"") text = false →
        let found := (r.cursorFor sources (sources.path file)).find text
        e.line = found.1 ∧ r'.cursor = some found.2) ∧
      (includes (lit ";\"") text = true →
        Address.ofExpression e.expression = .other ∧ e.line = 0 ∧ r'.cursor = r.cursor) := by
  change ∃ e r', _ ∧ _ ∧ _ ∧ _ ∧ _ ∧ (_ ↔ (cut [59, 34] text).isSome = false) ∧
    ((cut [59, 34] text).isSome = false → _) ∧ ((cut [59, 34] text).isSome = true → _)
  cases found : cut [59, 34] text with
  | none =>
      have read := Reader.next_patternLine fits before (decode_whole fits known found)
      have place := Reader.resolve_text (r := r.past tail.tail) based
        ⟨name, file, pattern text, 0, kind, []⟩ (ofExpression_pattern text)
      rw [place] at read
      refine ⟨_, _, read, rfl, rfl, rfl, before.going, ?_, ?_, ?_⟩
      · exact iff_of_true ⟨rfl, ofExpression_pattern text⟩ rfl
      · exact fun _ => ⟨rfl, rfl⟩
      · intro found
        cases found
  | some p =>
      obtain ⟨head, rest⟩ := p
      obtain ⟨kind', extra, decoded⟩ := decode_early fits kind found
      have read := Reader.next_patternLine fits before decoded
      rw [Reader.resolve_other (ofExpression_cut head)] at read
      refine ⟨_, _, read, rfl, rfl, rfl, before.going, ?_, ?_, ?_⟩
      · refine iff_of_false ?_ (by simp)
        rintro ⟨-, address⟩
        rw [ofExpression_cut] at address
        cases address
      · intro uncut
        cases uncut
      · exact fun _ => ⟨ofExpression_cut head, rfl, rfl⟩

/-- A source file with a tab, slashes, backslashes, a dollar sign and a semicolon in one line. -/
def quotedSources : Sources :=
  ⟨lit "src", fun _ => some (lit "int x;\n\tchar *p = \"\\/$/\"\\; // \\\\\nint y;\n")⟩

/-- The reader before the line that quotes the second line of the file. -/
def quotedReader : Reader :=
  .ofInput ⟨patternLine (lit "p") (lit "a.c") (lit "\tchar *p = \"\\/$/\"\\; // \\\\") .variable ++
    lit "\nq\ta.c\t3;\"\tv\n", none⟩ (some quotedSources)

/-- The second line of the file is found, and the reader goes on with the line after it. -/
theorem pattern_line_read_quoted :
    InOneLine (lit "p") (lit "a.c") (lit "\tchar *p = \"\\/$/\"\\; // \\\\") ∧
      ∃ e r', quotedReader.next = (some e, r') ∧ e.name = lit "p" ∧ e.kind = .variable ∧
        Address.ofExpression e.expression = .text (lit "\tchar *p = \"\\/$/\"\\; // \\\\") ∧
        e.line = 2 ∧ r'.ahead = Bytes.lines (lit "q\ta.c\t3;\"\tv\n") := by
  have fits : InOneLine (lit "p") (lit "a.c") (lit "\tchar *p = \"\\/$/\"\\; // \\\\") :=
    ⟨by decide, by decide, by decide, by decide⟩
  have before : quotedReader.Before
      (patternLine (lit "p") (lit "a.c") (lit "\tchar *p = \"\\/$/\"\\; // \\\\") .variable)
      (lit "\nq\ta.c\t3;\"\tv\n") := ⟨rfl, rfl, .inr ⟨lit "q\ta.c\t3;\"\tv\n", by decide⟩⟩
  have based : quotedReader.sources = some quotedSources := rfl
  obtain ⟨e, r', read, isName, -, ahead, -, whole, place, -⟩ :=
    pattern_line_read based (by decide) fits before
  obtain ⟨isKind, address⟩ := whole.mpr (by decide)
  refine ⟨fits, e, r', read, isName, isKind, address, ?_, ahead⟩
  rw [(place (by decide)).1]
  decide +kernel

/-- A statement that ends a string is not looked up: the entry is of an unknown kind. -/
theorem pattern_line_cut_string :
    let sources : Sources := ⟨lit "src", fun _ => some (lit "char *p = \"a;\";\n")⟩
    let table := patternLine (lit "p") (lit "a.c") (lit "char *p = \"a;\";") .variable
    InOneLine (lit "p") (lit "a.c") (lit "char *p = \"a;\";") ∧
      ∃ e r', (Reader.ofInput ⟨table, none⟩ (some sources)).next = (some e, r') ∧
        e.kind = .unknown ∧ Address.ofExpression e.expression = .other ∧ e.line = 0 := by
  refine ⟨⟨by decide, by decide, by decide, by decide⟩, _, _, rfl, ?_⟩
  decide +kernel

end TagTable

end SymbolHistory
