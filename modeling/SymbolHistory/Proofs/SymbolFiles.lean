/-
# Proofs.SymbolFiles -- a symbol file gives back the symbols it was written from

A symbol file has no escapes, so the texts of its symbols have to do without tabs
and newlines on their own.  Names come from a field of a table line and have
neither; line numbers are counted or read within 64 bits (`Reader.Counts`); the
extra text may have tabs, since it comes last, but no newline.  Function names
have to be valid UTF-8 for a return type to be looked for at all.

So whatever the content and the table, `writeTagFile` can only fail to store the
file, and the file is read back as one symbol per entry
(`writeTagFile_reads_back`).
-/
import Mathlib.Algebra.Group.Int.Defs
import Mathlib.Algebra.Group.Nat.Defs
import SymbolHistory.Proofs.FieldLines
import SymbolHistory.Proofs.TruncatedTables
import SymbolHistory.Proofs.WholeTables

set_option autoImplicit false

namespace SymbolHistory

open SymbolHistory.Path FileTree Run Host

/-! ## Lines of symbols -/

namespace Symbol

/-- The symbol is read back from its line. -/
structure Plain (s : Symbol) : Prop where
  name : 9 ∉ s.name ∧ 10 ∉ s.name
  extra : 10 ∉ s.extra
  line : -2 ^ 63 ≤ s.line ∧ s.line < 2 ^ 63

theorem parse_format {s : Symbol} (plain : s.Plain) : parse s.format = .ok s := by
  have clean : ∀ f ∈ [s.name, s.kind.name, Decimal.ofInt s.line], tab ∉ f := by
    simp only [List.forall_mem_cons, List.not_mem_nil, false_implies, implies_true, and_true]
    exact ⟨plain.name.1, SymbolKind.not_mem_name (by decide) _,
      Decimal.not_mem_ofInt_of_control (by decide) _⟩
  have split : Bytes.splitAtMost tab 3 s.format =
      [s.name, s.kind.name, Decimal.ofInt s.line, s.extra] :=
    Bytes.splitAtMost_join s.extra clean
  have number : Decimal.signed (Decimal.ofInt s.line) = .ok s.line :=
    Decimal.signed_ofInt plain.line.1 plain.line.2
  rw [parse, split]
  simp only [number, SymbolKind.ofName_name]
  rfl

theorem readLines_formats (symbols : List Symbol) : ∀ done, (∀ s ∈ symbols, s.Plain) →
    readLines done (symbols.map format) = ⟨done.reverse ++ symbols, none⟩ := by
  induction symbols with
  | nil =>
      intro done _
      simp [readLines]
  | cons s symbols ih =>
      intro done plain
      have visible : ¬s.format.isEmpty = true := by simp [format, Bytes.join]
      rw [List.map_cons, readLines, if_neg visible, parse_format (plain s List.mem_cons_self)]
      dsimp only
      rw [ih (s :: done) fun t member => plain t (List.mem_cons_of_mem _ member)]
      simp

/-- A symbol file of plain symbols gives them back. -/
theorem readAll_writeAll {symbols : List Symbol} (plain : ∀ s ∈ symbols, s.Plain) :
    readAll ⟨writeAll symbols, none⟩ = ⟨symbols, none⟩ := by
  have oneLine : ∀ s ∈ symbols, 10 ∉ s.format := fun s member =>
    newline_not_mem_format (plain s member).name.2 (plain s member).extra
  have texts : (Bytes.lines (writeAll symbols)).map Bytes.Line.text = symbols.map format := by
    rw [lines_writeAll oneLine, List.map_map]
    rfl
  simp only [readAll, texts, readLines_formats symbols [] plain]
  rfl

end Symbol

/-! ## Entries -/

namespace Bytes

/-- A text has no more lines than bytes. -/
theorem length_lines_le (s : Bytes) : (lines s).length ≤ s.length := by
  by_cases broken : 10 ∈ s
  · obtain ⟨u, v, rfl, oneLine⟩ := List.eq_append_cons_of_mem broken
    have later := length_lines_le v
    rw [lines_cons oneLine, List.length_cons, List.length_append, List.length_cons]
    omega
  · cases s with
    | nil => exact Nat.le_refl 0
    | cons b s =>
        rw [lines_single broken (List.cons_ne_nil b s), List.length_singleton, List.length_cons]
        omega
  termination_by s.length
  decreasing_by
    simp only [*, List.length_append, List.length_cons]
    omega

end Bytes

namespace TagTable

/-- Files have fewer bytes than 63 bits can count. -/
def Sources.Counts (s : Sources) : Prop :=
  ∀ p content, s.content p = some content → content.length < 2 ^ 63

namespace Reader

/-- The files a reader looks lines up in have fewer lines than 63 bits can count. -/
structure Counts (r : Reader) : Prop where
  sources : ∀ s, r.sources = some s → s.Counts
  cursor : ∀ c, r.cursor = some c → c.Searched ∧ c.lines.length < 2 ^ 63

/-- The line number of an entry is one of 64 signed bits. -/
def Counted (e : Entry) : Prop := -2 ^ 63 ≤ e.line ∧ e.line < 2 ^ 63

theorem counted_of_decode {line : Bytes} {e : Entry} (decoded : Entry.decode line = some e) :
    Counted e := by
  have isZero : e.line = 0 := (congrArg Entry.line (decode_unplaced decoded)).symm
  rw [Counted, isZero]
  decide

theorem cursorFor_counts {r : Reader} {s : Sources} (counts : r.Counts) (own : r.sources = some s)
    (path : Bytes) :
    (r.cursorFor s path).Searched ∧ (r.cursorFor s path).lines.length < 2 ^ 63 := by
  have new : (Cursor.start path (s.content path)).Searched ∧
      (Cursor.start path (s.content path)).lines.length < 2 ^ 63 := by
    refine ⟨⟨0, Cursor.start_stands path _⟩, ?_⟩
    rw [Cursor.start, List.length_map]
    refine Nat.lt_of_le_of_lt (Bytes.length_lines_le _) ?_
    cases found : s.content path with
    | none => decide
    | some content => exact counts.sources s own path content found
  unfold cursorFor
  split
  · rename_i c isCursor
    split
    · exact counts.cursor c isCursor
    · exact new
  · exact new

theorem number_bounds {expression : Bytes} {n : Int}
    (isNumber : Address.ofExpression expression = .number n) : -2 ^ 63 ≤ n ∧ n < 2 ^ 63 := by
  unfold Address.ofExpression at isNumber
  split at isNumber
  · cases isNumber
  · split at isNumber
    · split at isNumber
      · rename_i m read
        cases isNumber
        exact Decimal.signed_bounds read
      · cases isNumber
    · cases isNumber

theorem resolve_counts {r : Reader} {e : Entry} (counts : r.Counts) (counted : Counted e) :
    (r.resolve e).2.Counts ∧ Counted (r.resolve e).1 := by
  unfold resolve
  split
  · rename_i text s _ own
    obtain ⟨⟨p, stands⟩, few⟩ := cursorFor_counts counts own (s.path e.file)
    obtain ⟨found, after⟩ := Cursor.find_spec stands text
    have same := ((r.cursorFor s (s.path e.file)).find_kept text).2
    refine ⟨⟨counts.sources, fun c isCursor => ?_⟩, ?_⟩
    · rw [← Option.some.inj isCursor, same]
      exact ⟨⟨_, after⟩, few⟩
    · have inside := Cursor.search_le (r.cursorFor s (s.path e.file)).lines text p
      rw [Counted]
      dsimp only
      rw [Int.ofNat_eq_natCast, found]
      omega
  · rename_i n _ isNumber
    exact ⟨counts, number_bounds isNumber⟩
  · exact ⟨counts, counted⟩

/-- One call delivers an entry with its line number counted, and goes on counting. -/
theorem advance_counts (lines : List Bytes.Line) : ∀ r : Reader, r.Counts →
    (advance r lines).2.Counts ∧ ∀ e, (advance r lines).1 = some e → Counted e := by
  induction lines with
  | nil =>
      intro r counts
      refine ⟨?_, fun e delivered => by cases delivered⟩
      rw [advance, finish]
      cases r.failure <;> exact ⟨counts.sources, counts.cursor⟩
  | cons l rest ih =>
      intro r counts
      have further : Counts { r with ahead := rest, passed := r.passed + 1 } :=
        ⟨counts.sources, counts.cursor⟩
      rw [advance]
      split
      · refine ⟨?_, fun e delivered => by cases delivered⟩
        rw [finish]
        cases r.failure <;> exact ⟨counts.sources, counts.cursor⟩
      · split
        · exact ih _ further
        · cases decoded : Entry.decode (lineText l) with
          | none => exact ⟨⟨counts.sources, counts.cursor⟩, fun e delivered => by cases delivered⟩
          | some e =>
              obtain ⟨later, counted⟩ := resolve_counts further (counted_of_decode decoded)
              exact ⟨later, fun e' delivered => Option.some.inj delivered ▸ counted⟩

theorem next_counts {r : Reader} (counts : r.Counts) :
    r.next.2.Counts ∧ ∀ e, r.next.1 = some e → Counted e := by
  unfold next
  split
  · exact ⟨counts, fun e delivered => by cases delivered⟩
  · exact advance_counts r.ahead r counts

theorem readAllFrom_counts (fuel : Nat) : ∀ (done : List Entry) (r : Reader), r.Counts →
    (∀ e ∈ done, Counted e) → ∀ e ∈ (readAllFrom fuel done r).1, Counted e := by
  induction fuel with
  | zero =>
      intro done r _ before e member
      exact before e (List.mem_reverse.mp member)
  | succ fuel ih =>
      intro done r counts before
      obtain ⟨later, counted⟩ := next_counts counts
      rw [readAllFrom]
      cases call : r.next with
      | mk delivered r' =>
          rw [call] at later counted
          cases delivered with
          | none => exact fun e member => before e (List.mem_reverse.mp member)
          | some e =>
              refine ih (e :: done) r' later fun e' member => ?_
              rcases List.mem_cons.mp member with rfl | old
              · exact counted _ rfl
              · exact before e' old

end Reader

/-- The name of an entry is a field of its line. -/
theorem tab_not_mem_name_of_decode {line : Bytes} {e : Entry}
    (decoded : Entry.decode line = some e) : 9 ∉ e.name := by
  obtain ⟨-, clean⟩ := Bytes.splitAtMost_spec Symbol.tab 2 line
  unfold Entry.decode at decoded
  split at decoded
  · rename_i name file rest parts
    rw [parts] at clean
    have first : 9 ∉ name := clean name (by simp)
    split at decoded
    · cases decoded
    · split at decoded
      · cases decoded
        exact first
      · cases decoded
        exact first
  · cases decoded

theorem counted_of_mem_readAll {input : Input} {sources : Option Sources} {e : Entry}
    (counts : ∀ s, sources = some s → s.Counts)
    (member : e ∈ (Reader.ofInput input sources).readAll.1) : Reader.Counted e := by
  refine Reader.readAllFrom_counts _ [] _ ⟨counts, ?_⟩ (by simp) e member
  intro c isCursor
  cases isCursor

end TagTable

/-! ## Symbols of entries -/

namespace Signature

/-- Only a function name that is not valid UTF-8 has no extra text. -/
theorem exists_extraText {kind : SymbolKind} {name : Bytes} (src : SourceText) (line : Int)
    (utf8 : kind = .function → Utf8.valid name = true) :
    ∃ extra, extraText kind name src line = .ok extra := by
  cases kind with
  | unknown => exact ⟨_, rfl⟩
  | define => exact ⟨_, rfl⟩
  | «variable» => exact ⟨_, rfl⟩
  | function =>
      have typed : ∃ t, returnType name src line = .ok t := by
        unfold returnType
        split
        · exact ⟨_, rfl⟩
        split
        · exact ⟨_, rfl⟩
        split
        · rename_i invalid
          rw [utf8 rfl] at invalid
          cases invalid
        · dsimp only
          split
          · exact ⟨_, rfl⟩
          · split
            · exact ⟨_, rfl⟩
            · split <;> exact ⟨_, rfl⟩
      obtain ⟨t, typed⟩ := typed
      rw [extraText, typed]
      exact ⟨_, rfl⟩

end Signature

namespace Organizer

open TagTable (Entry Reader Sources)

theorem exists_mapM {α β ε : Type} {f : α → Except ε β} {xs : List α}
    (each : ∀ x ∈ xs, ∃ y, f x = .ok y) : ∃ ys, xs.mapM f = .ok ys := by
  induction xs with
  | nil => exact ⟨[], rfl⟩
  | cons x xs ih =>
      obtain ⟨y, first⟩ := each x List.mem_cons_self
      obtain ⟨ys, rest⟩ := ih fun z member => each z (List.mem_cons_of_mem _ member)
      exact ⟨y :: ys, by rw [List.mapM_cons, first, rest]; rfl⟩

theorem exists_symbolOf {e : Entry} (src : SourceText)
    (utf8 : e.kind = .function → Utf8.valid e.name = true) : ∃ s, symbolOf src e = .ok s := by
  obtain ⟨extra, found⟩ := Signature.exists_extraText src e.line utf8
  exact ⟨_, by rw [symbolOf, found]; rfl⟩

/-- Entries of a table become plain symbols, whatever the content. -/
theorem exists_symbols {input : Input} {sources : Option Sources} {entries : List Entry}
    (counts : ∀ s, sources = some s → s.Counts)
    (parsed : ∀ e ∈ entries, e ∈ (Reader.ofInput input sources).readAll.1)
    (utf8 : ∀ e ∈ entries, e.kind = .function → Utf8.valid e.name = true) (data : Bytes) :
    ∃ symbols, entries.mapM (symbolOf (SourceText.ofContent data)) = .ok symbols ∧
      List.Forall₂ (Describes data) entries symbols ∧ ∀ s ∈ symbols, s.Plain := by
  have understood : ∀ e ∈ entries, ∃ s, symbolOf (SourceText.ofContent data) e = .ok s :=
    fun e member => exists_symbolOf _ (utf8 e member)
  obtain ⟨symbols, mapped⟩ := exists_mapM understood
  have each := (forall₂_of_mapM mapped).imp fun _ _ => symbolOf_eq_ok
  refine ⟨symbols, mapped, each, ?_⟩
  clear mapped understood
  induction each with
  | nil => simp
  | cons first rest ih =>
      rename_i e s entries symbols
      obtain ⟨line, oneLine, decoded⟩ :=
        TagTable.exists_decode_of_mem_readAll (parsed e List.mem_cons_self)
      obtain ⟨extra, found, rfl⟩ := first
      have clean := Signature.newline_not_mem_extraText (fun l => SourceText.newline_not_mem) found
      refine List.forall_mem_cons.mpr ⟨⟨⟨?_, ?_⟩, clean, ?_⟩, ?_⟩
      · have noTab : 9 ∉ e.unplaced.name := TagTable.tab_not_mem_name_of_decode decoded
        exact noTab
      · have noNewline : 10 ∉ e.unplaced.name :=
          TagTable.newline_not_mem_name_of_decode decoded oneLine
        exact noNewline
      · exact TagTable.counted_of_mem_readAll counts (parsed e List.mem_cons_self)
      · exact ih (fun e member => parsed e (List.mem_cons_of_mem _ member))
          fun e member => utf8 e (List.mem_cons_of_mem _ member)

/-! ## The file of a content -/

/-- The file of a content can always be written as far as its text goes, and gives back one symbol
per entry: nothing in a name, a source line or a guessed signature disturbs another symbol. -/
theorem writeTagFile_reads_back {o : Organizer} {h : Host} {id data : Bytes} {input : Input}
    {sources : Option Sources} {entries : List Entry} (sound : h.Sound)
    (valid : ObjectId.isValid id = true)
    (stored : h.contentAt? (o.layout.objectStore.path id) = some data) (lacks : o.Lacks h id)
    (counts : ∀ s, sources = some s → s.Counts)
    (parsed : ∀ e ∈ entries, e ∈ (Reader.ofInput input sources).readAll.1)
    (utf8 : ∀ e ∈ entries, e.kind = .function → Utf8.valid e.name = true) :
    ∃ symbols, List.Forall₂ (Describes data) entries symbols ∧
      Symbol.readAll ⟨Symbol.writeAll symbols, none⟩ = ⟨symbols, none⟩ ∧
      ((o.writeTagFile id entries).on h).1 =
        ((o.layout.tagStore.write id (Symbol.writeAll symbols)).on h).1.map (fun _ => ()) ∧
      (o.writeTagFile id entries).Yields h
        (fun _ g => g.look (o.layout.tagStore.path id) = .ok (.file (Symbol.writeAll symbols) false))
        (fun g => o.Lacks g id) := by
  obtain ⟨symbols, mapped, each, plain⟩ := exists_symbols counts parsed utf8 data
  refine ⟨symbols, each, Symbol.readAll_writeAll plain, ?_, ?_⟩
  · rw [writeTagFile, on_bind, ObjectStore.on_read valid stored]
    dsimp only
    rw [on_bind, mapped, on_ofExcept]
    dsimp only
    rw [on_bind, on_discard]
    generalize (o.layout.tagStore.write id (Symbol.writeAll symbols)).on h = written
    obtain ⟨outcome, g⟩ := written
    cases outcome <;> rfl
  · let group : Group := ⟨Layout.objectRef id, entries⟩
    have isId : group.id = id := Layout.base_objectRef valid
    have text : o.textOf? h group = some (Symbol.writeAll symbols) := by
      simp only [textOf?, isId, stored, mapped, group, Option.bind_some, Except.toOption,
        Option.map_some]
    have valid' : ObjectId.isValid group.id = true := isId.symm ▸ valid
    have lacks' : o.Lacks h group.id := isId.symm ▸ lacks
    have written := writeTagFile_yields sound (Wrote.refl o sound) valid' lacks' (by simp)
    rw [isId] at written
    refine written.mono ?_ fun g wrote => ?_
    · rintro _ g ⟨text', isText, wrote⟩
      rw [text] at isText
      obtain rfl := Option.some.inj isText
      exact wrote.look_of_mem (List.mem_singleton_self _)
    · exact (wrote.lacks_iff sound valid).mpr ⟨lacks, by simp⟩

/-- A table that names a line of the sample by its text and another one by a number. -/
def placedTable : Bytes :=
  lit "alpha\t" ++ Layout.objectRef sampleId ++ lit "\t/^int alpha(void) \x7b$/;\"\tf\n" ++
    lit "beta\t" ++ Layout.objectRef sampleId ++ lit "\t9;\"\tv\n"

/-- The one file that lines are looked up in. -/
def placedSources : Sources := ⟨lit "/db", fun _ => some (lit "int alpha(void) \x7b\n\x7d\n")⟩

def placedEntries : List Entry := (Reader.ofInput ⟨placedTable, none⟩ (some placedSources)).readAll.1

def placedText : Bytes := lit "alpha\tFunction\t1\tint \x7bname\x7d(void)\nbeta\tVariable\t9\t ???\n"

theorem writeTagFile_reads_back_placed :
    ∃ symbols, List.Forall₂ (Describes (lit "int alpha(void) \x7b\n\x7d\n")) placedEntries symbols ∧
      Symbol.readAll ⟨placedText, none⟩ = ⟨symbols, none⟩ ∧
      (sampleOrganizer.writeTagFile sampleId placedEntries).Ends sampleHost fun r g =>
        r = .ok () ∧ g.look (sampleOrganizer.layout.tagStore.path sampleId) =
          .ok (.file placedText false) := by
  have success : (sampleOrganizer.writeTagFile sampleId placedEntries).Ends sampleHost fun r g =>
      r = .ok () ∧ g.look (sampleOrganizer.layout.tagStore.path sampleId) =
        .ok (.file placedText false) := by decide +kernel
  have counts : ∀ s, some placedSources = some s → s.Counts := by
    rintro s isSource p content found
    obtain rfl := Option.some.inj isSource
    obtain rfl := Option.some.inj found
    decide +kernel
  have stored : sampleHost.contentAt? (sampleOrganizer.layout.objectStore.path sampleId) =
      some (lit "int alpha(void) \x7b\n\x7d\n") := by decide +kernel
  have lacks : sampleOrganizer.Lacks sampleHost sampleId := by decide +kernel
  have utf8 : ∀ e ∈ placedEntries, e.kind = .function → Utf8.valid e.name = true := by decide +kernel
  obtain ⟨symbols, each, read, -, written⟩ := writeTagFile_reads_back sampleHost_sound
    (by decide +kernel) stored lacks counts (fun e member => member) utf8
  refine ⟨symbols, each, ?_, success⟩
  obtain ⟨⟨done, found⟩, ended⟩ := (success.and written).holds
  rw [done] at ended
  have same : Node.file placedText false = .file (Symbol.writeAll symbols) false :=
    Except.ok.inj (found.symm.trans ended)
  rw [← (Node.file.inj same).1] at read
  exact read

end Organizer

end SymbolHistory
