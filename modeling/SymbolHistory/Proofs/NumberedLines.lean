/-
# Proofs.NumberedLines -- one numbering of a content's lines

A content is cut into lines twice.  A cursor reads it line by line to find the
text that an entry of a table quotes; what the source says about a symbol is read
from the whole text, which is repaired first and then cut at its newlines.  Both
number the lines alike (`ofContent_eq`), so an entry's symbol is described by the
line at which the entry was found (`ofContent_numbers_lines`).
-/
import SymbolHistory.Proofs.LineLookups
import SymbolHistory.Proofs.Plans
import SymbolHistory.Proofs.RepairedTexts
import SymbolHistory.Proofs.TextsAhead
import SymbolHistory.Proofs.TruncatedTables

set_option autoImplicit false

namespace SymbolHistory

/-! ## Lines without their newlines -/

namespace Bytes

theorem text_lines_ended (s : Bytes) : (lines (s ++ [10])).map Line.text = splitOn 10 s := by
  rw [lines, splitOn_append_sep, splitOn_nil, List.dropLast_concat, List.getLast?_concat]
  simp [Function.comp_def]

/-- The lines of a text that does not end in a newline are the pieces between its newlines. -/
theorem text_lines {s : Bytes} (nonempty : s ≠ []) (ending : s.getLast? ≠ some 10) :
    (lines s).map Line.text = splitOn 10 s := by
  have parts : ∃ front last, last ≠ [] ∧ splitOn 10 s = front ++ [last] := by
    by_cases member : 10 ∈ s
    · obtain ⟨front, last, rfl, oneLine⟩ := exists_last member
      refine ⟨splitOn 10 front, last, ?_, by rw [splitOn_append_sep, splitOn_of_not_mem oneLine]⟩
      rintro rfl
      exact ending List.getLast?_concat
    · exact ⟨[], s, nonempty, splitOn_of_not_mem member⟩
  obtain ⟨front, last, lastNonempty, split⟩ := parts
  obtain ⟨b, rest, rfl⟩ := List.exists_cons_of_ne_nil lastNonempty
  rw [lines, split, List.dropLast_concat, List.getLast?_concat]
  simp [Function.comp_def]

end Bytes

/-! ## Lines by their numbers -/

namespace SourceText

open TagTable (Entry Reader Sources)

/-- A line of a text by its number: what is read from there on begins with it, and what is read up to
there ends with it. -/
structure IsLine (src : SourceText) (number : Int) (line : Bytes) : Prop where
  positive : 1 ≤ number
  there : src[number.toNat - 1]? = some line
  ahead : ∀ n, (src.window number (n + 1)).head? = some line
  back : (src.take number.toNat).getLast? = some line

theorem IsLine.of_getElem? {src : SourceText} {i : Nat} {line : Bytes} (positive : i ≠ 0)
    (there : src[i - 1]? = some line) : src.IsLine (Int.ofNat i) line := by
  have first : (1 : Int) ≤ Int.ofNat i := Int.ofNat_le.mpr (Nat.pos_of_ne_zero positive)
  have same : (Int.ofNat i - 1).toNat = i - 1 := by
    rw [Int.ofNat_eq_natCast]
    omega
  refine ⟨first, there, fun n => ?_, ?_⟩
  · rw [src.window_of_pos first, List.head?_take, if_neg (Nat.succ_ne_zero n), List.head?_drop, same,
      there]
  · show (src.take i).getLast? = some line
    rw [List.getLast?_take, if_neg positive, there, Option.some_or]

/-- The lines of a repaired text are the repaired lines.  A newline alone is the one content that has
a line for a cursor and none as a text. -/
theorem ofContent_eq {data : Bytes} (other : data ≠ [10]) :
    ofContent data = (Bytes.lines data).map fun l => Utf8.repair (Bytes.withoutReturn l.text) := by
  have ascii : (10 : UInt8) < 128 := by decide
  -- the text without the newline that may end it has the same pieces as the lines
  have cut : ∀ {text : Bytes}, text ≠ [] →
      Bytes.withoutTail [10] (Utf8.repair data) = Utf8.repair text →
      (Bytes.lines data).map Bytes.Line.text = Bytes.splitOn 10 text →
      ofContent data = (Bytes.lines data).map fun l => Utf8.repair (Bytes.withoutReturn l.text) := by
    intro text nonempty whole pieces
    have notEmpty : (Utf8.repair text).isEmpty = false := by simpa using Utf8.repair_ne_nil nonempty
    rw [ofContent, whole, notEmpty, Utf8.splitOn_repair ascii, ← pieces]
    simp [Function.comp_def, Utf8.withoutReturn_repair]
  by_cases ending : data.getLast? = some 10
  · obtain ⟨front, rfl⟩ := List.getLast?_eq_some_iff.mp ending
    have nonempty : front ≠ [] := by
      rintro rfl
      exact other rfl
    refine cut nonempty ?_ (Bytes.text_lines_ended front)
    rw [Utf8.repair_append ascii]
    exact Bytes.withoutTail_append [10] _
  · by_cases empty : data = []
    · subst empty
      rfl
    · exact cut empty (Bytes.withoutTail_of_getLast? (mt (Utf8.getLast?_repair ascii data).mp ending))
        (Bytes.text_lines empty ending)

/-- A cursor that has read a content to its end has counted as many lines as the content has as a
text, and each line of the text is the line of that number, repaired, without its carriage return.
So wherever a table's entry quotes a line of the content, it is placed at a number under which the
text has the line that was found; and what an organizer looks up for a stored content is looked up in
the bytes that it reads for it. -/
theorem ofContent_numbers_lines {data : Bytes} (other : data ≠ [10]) (path : Bytes) :
    let src := ofContent data
    let cursor := Cursor.start path (some data)
    src.length = cursor.lines.length ∧
    (∀ text, (cursor.scan text none).1 = 0 → (cursor.scan text none).2.passed = src.length) ∧
    (∀ i : Nat, src[i]? = cursor.lines[i]?.map fun line => Utf8.repair (Bytes.withoutReturn line)) ∧
    (∀ (table : Input) (s : Sources) (e : Entry) (pattern : Bytes),
      e ∈ (Reader.ofInput table (some s)).readAll.1 →
      e.expression = lit "/^" ++ pattern ++ lit "$/" →
      s.content (s.path e.file) = some data → e.line ≠ 0 →
      ∃ line, cursor.lines[e.line.toNat - 1]? = some line ∧
        Cursor.isMatch (TagTable.unescape pattern) line = true ∧
        src.IsLine e.line (Utf8.repair (Bytes.withoutReturn line))) ∧
    ∀ (o : Organizer) (h : Host) (id : Bytes), o.layout.Tidy →
      ((o.layout.objectStore.read id).on h).1 = .ok data →
      (o.sources h).content ((o.sources h).path (Layout.objectRef id)) = some data := by
  intro src cursor
  have repaired : src = cursor.lines.map fun line => Utf8.repair (Bytes.withoutReturn line) := by
    have texts : cursor.lines = (Bytes.lines data).map Bytes.Line.text := rfl
    rw [texts, List.map_map]
    exact ofContent_eq other
  have count : src.length = cursor.lines.length := by rw [repaired, List.length_map]
  have each : ∀ i : Nat,
      src[i]? = cursor.lines[i]?.map fun line => Utf8.repair (Bytes.withoutReturn line) := by
    intro i
    rw [repaired, List.getElem?_map]
  refine ⟨count, fun text missed => ?_, each, fun table s e pattern member quotes there placed => ?_,
    fun o h id tidy read => ?_⟩
  · obtain ⟨found, scanned⟩ := Cursor.scanLines_spec text none cursor.ahead cursor (Nat.zero_le _) rfl
      (Nat.min_self cursor.lines.length).symm
    have nothing : Cursor.between cursor.lines text cursor.passed cursor.lines.length = 0 :=
      found.symm.trans missed
    rw [Cursor.scan, scanned.passed, if_pos nothing, count]
    exact Nat.max_eq_right (Nat.zero_le _)
  · have address : TagTable.Address.ofExpression e.expression = .text (TagTable.unescape pattern) := by
      rw [quotes, TagTable.ofExpression_quoted]
    rw [Reader.readAll_place _ (r := Reader.ofInput table (some s)) rfl rfl] at member
    obtain ⟨p, isLine⟩ := TagTable.line_of_mem_placeAll address _ (.begin s) member
    have own : s.lines (s.path e.file) = cursor.lines := by
      rw [Sources.lines, there]
      rfl
    rw [own] at isLine
    have found : Cursor.search cursor.lines (TagTable.unescape pattern) p ≠ 0 := fun nothing =>
      placed (by rw [isLine, nothing]; rfl)
    obtain ⟨line, inside, matched⟩ := Cursor.search_hits found
    rw [isLine]
    refine ⟨line, inside, matched, .of_getElem? found ?_⟩
    rw [each, inside, Option.map_some]
  · obtain ⟨-, success, -⟩ := (o.layout.objectStore.read_ends id h).holds
    obtain ⟨valid, stored⟩ := success data read
    have place : (o.sources h).path (Layout.objectRef id) = o.layout.objectStore.path id :=
      Layout.join_objectRef tidy valid
    rw [place]
    exact stored

/-- A content whose lines end in different ways, with bytes that belong to no character beside its
newlines and at its end. -/
def raggedText : Bytes := lit "int a;\r\n" ++ [255, 254, 10, 10] ++ lit "int b;\r\n" ++ [226, 130]

def raggedHost : Host :=
  { Organizer.sampleHost with
    tree := Organizer.sampleHost.tree.set [lit "db", lit "objects", Organizer.sampleId]
      (.file raggedText false) }

def raggedTable : Bytes :=
  lit "b\t" ++ Layout.objectRef Organizer.sampleId ++ lit "\t/^int b;$/;\"\tv\n"

theorem ofContent_numbers_lines_ragged :
    raggedText ≠ [10] ∧ (ofContent raggedText).length = 5 ∧
    ((Organizer.sampleOrganizer.layout.objectStore.read Organizer.sampleId).on raggedHost).1 =
      .ok raggedText ∧
    ∃ e ∈ (Organizer.sampleOrganizer.reading raggedHost ⟨raggedTable, none⟩).1,
      e.expression = lit "/^" ++ lit "int b;" ++ lit "$/" ∧ e.line = 4 ∧
      (ofContent raggedText).IsLine 4 (lit "int b;") := by
  have other : raggedText ≠ [10] := by decide
  have read : ((Organizer.sampleOrganizer.layout.objectStore.read Organizer.sampleId).on raggedHost).1 =
      .ok raggedText := by decide +kernel
  have tidy : Organizer.sampleOrganizer.layout.Tidy := by decide +kernel
  have entries : (Organizer.sampleOrganizer.reading raggedHost ⟨raggedTable, none⟩).1 =
      [⟨lit "b", Layout.objectRef Organizer.sampleId, lit "/^int b;$/", 4, .variable, []⟩] := by
    decide +kernel
  obtain ⟨count, -, -, lookups, sources⟩ := ofContent_numbers_lines other []
  have member := entries ▸ List.mem_cons_self
  obtain ⟨line, there, -, isLine⟩ := lookups ⟨raggedTable, none⟩ _ _ (lit "int b;") member
    (by decide) (sources _ _ _ tidy read) (by decide)
  have text : (Cursor.start [] (some raggedText)).lines[3]? = some (lit "int b;\r") := by decide
  obtain rfl : lit "int b;\r" = line := Option.some.inj (text.symm.trans there)
  exact ⟨other, count.trans (by decide), read, _, member, by decide, rfl, isLine⟩

/-- The one content that is numbered in two ways. -/
example : ofContent [10] = [] ∧ (Cursor.start [] (some [10])).lines = [[]] := by decide

end SourceText

end SymbolHistory
