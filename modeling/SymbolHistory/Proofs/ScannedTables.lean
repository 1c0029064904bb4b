/-
# Proofs.ScannedTables -- the scanner's tables, read back

The built-in scanner writes tables that the reader of tables has never seen: all
that the two share is how a line looks.  A name that is an identifier of C neither
ends a field nor makes the line one about the table, and a line number is an
address that needs no looking up (`Reader.next_tableLine`).  The rest is an
induction over the symbols of all files, of which a file may have none: the reader
comes to the end of the table and has found them all, in order (`readAll_tableOf`).

Nothing of it depends on where sources are looked up, and of the grammar nothing
is used but that it takes identifiers for names.
-/
import SymbolHistory.Generator
import SymbolHistory.Proofs.Decimals
import SymbolHistory.Proofs.Files
import SymbolHistory.Proofs.Organizing
import SymbolHistory.Proofs.PatternLines

set_option autoImplicit false

namespace SymbolHistory

open SymbolHistory.Path FileTree Run Host

open TagTable (Entry Reader Address Sources headerMark)

/-- A pair is not in a text without the first of its bytes. -/
theorem Bytes.cut_pair_of_not_mem {a b : UInt8} {u : Bytes} (absent : a ∉ u) : cut [a, b] u = none := by
  induction u with
  | nil => rfl
  | cons x u ih =>
      have other : ¬(x = a ∧ u.head? = some b) := fun pair => absent (by simp [pair.1])
      rw [cut_pair_cons_of_ne _ other, ih fun member => absent (List.mem_cons_of_mem _ member)]
      rfl

namespace CSource

/-! ## Symbols -/

/-- What identifiers of C are made of: letters, digits, `_`, `$` and letters of other scripts, and the
backslash of a character that is given by its number. -/
structure IsIdentifier (s : Bytes) : Prop where
  nonempty : s ≠ []
  bytes : ∀ b ∈ s, isWordByte b = true ∨ b = 92

theorem isIdentifier_iff {s : Bytes} :
    (s ≠ [] ∧ s.all (fun b => isWordByte b || b == 92) = true) ↔ IsIdentifier s := by
  simp only [List.all_eq_true, Bool.or_eq_true, beq_iff_eq]
  exact ⟨fun ⟨nonempty, bytes⟩ => ⟨nonempty, bytes⟩, fun ⟨nonempty, bytes⟩ => ⟨nonempty, bytes⟩⟩

instance (s : Bytes) : Decidable (IsIdentifier s) := decidable_of_iff _ isIdentifier_iff

theorem IsIdentifier.not_mem {s : Bytes} (isIdentifier : IsIdentifier s) {b : UInt8}
    (other : isWordByte b = false) (noBackslash : b ≠ 92) : b ∉ s := by
  intro member
  rcases isIdentifier.bytes b member with isByte | isBackslash
  · rw [other] at isByte
    cases isByte
  · exact noBackslash isBackslash

/-- A symbol that can stand in a table. -/
structure Tag.Listable (t : Tag) : Prop where
  name : IsIdentifier t.name
  small : t.line < Decimal.signedLimit
  known : t.kind ≠ .unknown

namespace Node

variable {isName : Bytes → Bool} {t : Tag}

theorem exists_variable {n : Node} (member : t ∈ n.scanDeclaration isName) :
    ∃ m : Node, t = m.tag .variable := by
  unfold scanDeclaration at member
  split at member
  · cases member
  · obtain ⟨d, -, defined⟩ := List.mem_filterMap.mp member
    unfold variableOf? at defined
    split at defined
    · cases defined
    · obtain ⟨m, -, isTag⟩ := Option.map_eq_some_iff.mp defined
      exact ⟨m, isTag.symm⟩

mutual

/-- A symbol is a node with a kind that is known. -/
theorem exists_of_mem_scanItem : ∀ n : Node, t ∈ n.scanItem isName →
    ∃ (m : Node) (kind : SymbolKind), t = m.tag kind ∧ kind ≠ .unknown
  | ⟨type, text, row, children⟩ => by
      intro member
      unfold scanItem at member
      split at member
      · obtain ⟨m, -, rfl⟩ := List.mem_map.mp member
        exact ⟨m, .function, rfl, by decide⟩
      · split at member
        · obtain ⟨m, -, rfl⟩ := List.mem_map.mp member
          exact ⟨m, .define, rfl, by decide⟩
        · split at member
          · obtain ⟨m, isTag⟩ := exists_variable member
            exact ⟨m, .variable, isTag, by decide⟩
          · split at member
            · exact exists_of_mem_scanScope children member
            · cases member

theorem exists_of_mem_scanScope : ∀ items : List Node, t ∈ scanScope isName items →
    ∃ (m : Node) (kind : SymbolKind), t = m.tag kind ∧ kind ≠ .unknown
  | [] => by
      intro member
      cases member
  | item :: rest => by
      intro member
      rcases List.mem_append.mp member with own | other
      · exact exists_of_mem_scanItem item own
      · exact exists_of_mem_scanScope rest other

end

end Node

theorem scan_eq_found {g : Grammar} {source : Bytes} (parsed : (g.scan source).isOk = true) :
    g.scan source = .ok (g.found source) := by
  rw [Grammar.found]
  cases scanned : g.scan source with
  | ok tags => rfl
  | error f =>
      rw [scanned] at parsed
      cases parsed

/-- What is found in a file is a node with a kind that is known. -/
theorem exists_of_mem_found {g : Grammar} {source : Bytes} {t : Tag} (member : t ∈ g.found source) :
    ∃ (m : Node) (kind : SymbolKind), t = m.tag kind ∧ kind ≠ .unknown := by
  unfold Grammar.found Grammar.scan at member
  split at member
  · rename_i tags scanned
    split at scanned
    · cases scanned
      cases member
    · split at scanned
      · cases scanned
        exact Node.exists_of_mem_scanScope _ member
      · cases scanned
  · cases member

/-- It can stand in a table if its name is an identifier. -/
theorem listable_of_mem_found {g : Grammar} {source : Bytes} {t : Tag} (member : t ∈ g.found source)
    (name : IsIdentifier t.name) : t.Listable := by
  obtain ⟨m, kind, rfl, known⟩ := exists_of_mem_found member
  have small : m.row.toNat < 2 ^ 32 := m.row.toNat_lt
  refine ⟨name, ?_, known⟩
  simp only [Node.tag, Node.line, Decimal.signedLimit]
  omega

/-! ## One line -/

namespace Tag

/-- What a reader is to make of the line of a symbol. -/
def entry (path : Bytes) (t : Tag) : Entry :=
  ⟨t.name, path, Decimal.ofNat t.line, Int.ofNat t.line, t.kind, []⟩

theorem tableLine_eq (path : Bytes) (t : Tag) :
    t.tableLine path = t.name ++ Symbol.tab :: (path ++ Symbol.tab ::
      (Decimal.ofNat t.line ++ 59 :: 34 :: Symbol.tab :: t.kind.code)) := by
  have mark : lit ";\"" = [59, 34] := rfl
  simp [tableLine, Bytes.join, mark]

end Tag

/-- A path that can be a field of a line. -/
structure IsField (path : Bytes) : Prop where
  noTab : Symbol.tab ∉ path
  noNewline : 10 ∉ path

section

variable {path : Bytes} {t : Tag}

theorem newline_not_mem_tableLine (isField : IsField path) (listable : t.Listable) :
    10 ∉ t.tableLine path := by
  have name : 10 ∉ t.name := listable.name.not_mem (by decide) (by decide)
  have number : 10 ∉ Decimal.ofNat t.line := fun member =>
    absurd (Decimal.isDigit_of_mem_ofNat member) (by decide)
  have code : 10 ∉ t.kind.code := by cases t.kind <;> decide
  simp [Tag.tableLine_eq, Symbol.tab, name, isField.noNewline, number, code]

/-- The line has no carriage return to lose. -/
theorem lineText_tableLine (path : Bytes) (t : Tag) (ended : Bool) :
    Reader.lineText ⟨t.tableLine path, ended⟩ = t.tableLine path := by
  obtain ⟨c, code, other⟩ : ∃ c, t.kind.code = [c] ∧ c ≠ 13 := by
    cases t.kind <;> exact ⟨_, rfl, by decide⟩
  have split : t.tableLine path = t.name ++ Symbol.tab :: (path ++ Symbol.tab ::
      (Decimal.ofNat t.line ++ [59, 34, Symbol.tab])) ++ [c] := by
    simp [Tag.tableLine_eq, code]
  rw [Reader.lineText, split]
  exact Bytes.withoutReturn_concat other _

/-- Identifiers do not begin like lines about the table. -/
theorem head_tableLine (listable : t.Listable) :
    ((t.tableLine path).head? == some headerMark) = false := by
  obtain ⟨b, rest, isName⟩ := List.exists_cons_of_ne_nil listable.name.nonempty
  rw [beq_eq_false_iff_ne, Tag.tableLine_eq, isName]
  intro same
  cases Option.some.inj same
  exact listable.name.not_mem (by decide) (by decide) (isName ▸ List.mem_cons_self)

theorem decode_tableLine (isField : IsField path) (listable : t.Listable) :
    Entry.decode (t.tableLine path) = some (t.entry path).unplaced := by
  have number : Bytes.cut [59, 34] (Decimal.ofNat t.line) = none :=
    Bytes.cut_pair_of_not_mem fun member => absurd (Decimal.isDigit_of_mem_ofNat member) (by decide)
  rw [Entry.decode, Tag.tableLine_eq, Bytes.splitAtMost,
    Bytes.cutByte_append (listable.name.not_mem (by decide) (by decide))]
  dsimp only
  rw [Bytes.splitAtMost, Bytes.cutByte_append isField.noTab]
  dsimp only [Bytes.splitAtMost]
  rw [show lit ";\"" = [59, 34] from rfl, Bytes.cut_pair_append (by decide) _ number]
  obtain ⟨-, -, known⟩ := listable
  unfold Tag.entry Entry.unplaced
  cases kind : t.kind with
  | unknown => exact absurd kind known
  | function => rfl
  | define => rfl
  | «variable» => rfl

/-- A line number is an address by itself. -/
theorem ofExpression_ofNat {n : Nat} (small : n < Decimal.signedLimit) :
    Address.ofExpression (Decimal.ofNat n) = .number (Int.ofNat n) := by
  obtain ⟨-, nonempty, digits⟩ := Decimal.ofNat_spec n
  have read : Decimal.signed (Decimal.ofNat n) = .ok (Int.ofNat n) :=
    Decimal.signed_ofInt (n := Int.ofNat n) (by
      show -(Decimal.signedLimit : Int) ≤ (n : Int)
      omega) (Int.ofNat_lt.mpr small)
  have notText : Bytes.startsWith [47, 94] (Decimal.ofNat n) = false := by
    obtain ⟨b, rest, isNumber⟩ := List.exists_cons_of_ne_nil nonempty
    have isDigit : Bytes.isDigit b = true := digits b (by simp [isNumber])
    have other : ¬47 = b := by
      rintro rfl
      exact absurd isDigit (by decide)
    simp [Bytes.startsWith, isNumber, List.isPrefixOf, other]
  rw [Address.ofExpression, if_neg (by simp [notText]), if_pos (by simp [nonempty]; exact digits), read]

/-- A line with its newline is an entry, wherever sources are looked up. -/
theorem next_tableLine (isField : IsField path) (listable : t.Listable) {r : Reader}
    {rest : List Bytes.Line} (going : r.stop = none) (ahead : r.ahead = ⟨t.tableLine path, true⟩ :: rest) :
    r.next = (some (t.entry path), { r with ahead := rest, passed := r.passed + 1 }) := by
  have onward : r.next = Reader.advance r r.ahead := by rw [Reader.next, going]
  have address : Address.ofExpression (t.entry path).unplaced.expression = .number (Int.ofNat t.line) :=
    ofExpression_ofNat listable.small
  rw [onward, ahead, Reader.advance, if_neg (by simp), lineText_tableLine, head_tableLine listable,
    decode_tableLine isField listable]
  dsimp only
  rw [if_neg Bool.false_ne_true, Reader.resolve, address]
  rfl

end

/-! ## Whole tables -/

/-- Every name in some files is an identifier. -/
def Named (g : Grammar) (files : List (Bytes × Bytes)) : Prop :=
  ∀ f ∈ files, ∀ t ∈ g.found f.2, IsIdentifier t.name

/-- The table of some files, each with its path and its content. -/
def tableOf (g : Grammar) (files : List (Bytes × Bytes)) : Bytes :=
  files.flatMap fun f => (g.found f.2).flatMap fun t => t.tableLine f.1 ++ [10]

/-- The symbols of some files, each with the path of its file. -/
def symbolsOf (g : Grammar) (files : List (Bytes × Bytes)) : List (Bytes × Tag) :=
  files.flatMap fun f => (g.found f.2).map fun t => (f.1, t)

theorem tableOf_eq (g : Grammar) (files : List (Bytes × Bytes)) :
    tableOf g files = (symbolsOf g files).flatMap fun e => e.2.tableLine e.1 ++ [10] := by
  rw [tableOf, symbolsOf, List.flatMap_assoc]
  simp only [List.flatMap_map]

section

variable {es : List (Bytes × Tag)}

theorem lines_tableLines (each : ∀ e ∈ es, IsField e.1 ∧ e.2.Listable) :
    Bytes.lines (es.flatMap fun e => e.2.tableLine e.1 ++ [10]) =
      es.map fun e => ⟨e.2.tableLine e.1, true⟩ := by
  induction es with
  | nil => rfl
  | cons e es ih =>
      obtain ⟨isField, listable⟩ := each e List.mem_cons_self
      rw [List.flatMap_cons, List.append_assoc, List.singleton_append,
        Bytes.lines_cons (newline_not_mem_tableLine isField listable),
        ih fun e' member => each e' (List.mem_cons_of_mem _ member), List.map_cons]

/-- A reader before such lines delivers all their entries and comes to the end. -/
theorem readAllFrom_tableLines (each : ∀ e ∈ es, IsField e.1 ∧ e.2.Listable) :
    ∀ (n : Nat) (done : List Entry) (r : Reader), es.length < n → r.stop = none → r.failure = none →
      r.ahead = es.map (fun e => ⟨e.2.tableLine e.1, true⟩) →
      ∃ r', Reader.readAllFrom n done r = (done.reverse ++ es.map fun e => e.2.entry e.1, r') ∧
        r'.stop = some .finished := by
  induction es with
  | nil =>
      intro n done r enough going intact ahead
      obtain ⟨m, rfl⟩ : ∃ m, n = m + 1 := ⟨n - 1, by simp at enough; omega⟩
      have ended : r.next = (none, r.finish) := by
        rw [Reader.next, going, ahead]
        rfl
      refine ⟨r.finish, ?_, ?_⟩
      · rw [Reader.readAllFrom, ended]
        simp
      · rw [Reader.finish, intact]
  | cons e es ih =>
      intro n done r enough going intact ahead
      obtain ⟨m, rfl⟩ : ∃ m, n = m + 1 := ⟨n - 1, by omega⟩
      obtain ⟨isField, listable⟩ := each e List.mem_cons_self
      rw [Reader.readAllFrom, next_tableLine isField listable going ahead]
      dsimp only
      obtain ⟨r', read, finished⟩ := ih (fun e' member => each e' (List.mem_cons_of_mem _ member)) m
        (e.2.entry e.1 :: done) { r with ahead := _, passed := r.passed + 1 }
        (by simp at enough; omega) going intact rfl
      refine ⟨r', ?_, finished⟩
      rw [read]
      simp

end

/-- A table of the scanner is read to its end, without an error, and gives every symbol of every file
in the order of the files. -/
theorem readAll_tableOf {g : Grammar} {files : List (Bytes × Bytes)} (fields : ∀ f ∈ files, IsField f.1)
    (named : Named g files) (sources : Option Sources) :
    ∃ r, (Reader.ofInput ⟨tableOf g files, none⟩ sources).readAll =
        (files.flatMap fun f => (g.found f.2).map (Tag.entry f.1), r) ∧ r.stop = some .finished := by
  have each : ∀ e ∈ symbolsOf g files, IsField e.1 ∧ e.2.Listable := by
    intro e member
    obtain ⟨f, isFile, inside⟩ := List.mem_flatMap.mp member
    obtain ⟨t, found, rfl⟩ := List.mem_map.mp inside
    exact ⟨fields f isFile, listable_of_mem_found found (named f isFile t found)⟩
  have ahead : (Reader.ofInput ⟨tableOf g files, none⟩ sources).ahead =
      (symbolsOf g files).map fun e => ⟨e.2.tableLine e.1, true⟩ := by
    show Bytes.lines (tableOf g files) = _
    rw [tableOf_eq, lines_tableLines each]
  obtain ⟨r, read, finished⟩ := readAllFrom_tableLines each
    ((Reader.ofInput ⟨tableOf g files, none⟩ sources).ahead.length + 1) [] _
    (by rw [ahead, List.length_map]; omega) rfl rfl ahead
  refine ⟨r, ?_, finished⟩
  rw [Reader.readAll, read]
  simp [symbolsOf, List.map_flatMap, Function.comp_def]

end CSource

/-! ## Making a table -/

namespace Generator

theorem Buffer.text_write (b : Buffer) (text : Bytes) : (b.write text).text = b.text ++ text := by
  unfold Buffer.write Buffer.text
  dsimp only
  split
  · rw [List.append_assoc]
  · split
    · rename_i none
      simp [List.isEmpty_iff.mp none]
    · split <;> simp

theorem Buffer.text_foldl (texts : List Bytes) :
    ∀ b : Buffer, (texts.foldl Buffer.write b).text = b.text ++ texts.flatten := by
  induction texts with
  | nil => simp
  | cons text rest ih =>
      intro b
      rw [List.foldl_cons, ih, text_write, List.flatten_cons, List.append_assoc]

section

variable {c : CSource.Grammar} {timeout : Duration} {folder : Bytes} {h : Host}
  {files : List (Bytes × Bytes)}

/-- A scan of a file that gets to its end gives a line for each symbol in it. -/
theorem scanFile_yields {path source : Bytes} (stored : h.contentAt? (join [folder, path]) = some source) :
    (scanFile c timeout folder path).Yields h
      (fun lines g => Quiet h g ∧ lines = (c.found source).map fun t => t.tableLine path ++ [10])
      fun _ => True := by
  have begun := pause_keeps timeout quiet_lasting checkpoint_quiet
  refine (begun.yields h).anyway.bind fun _ g same => ?_
  have there : g.contentAt? (join [folder, path]) = some source := by
    rwa [contentAt?, look_of_sameFiles same.toSameFiles]
  refine ((readFile_yields there).during _).bind ?_
  rintro _ _ ⟨rfl, rfl⟩
  cases scanned : c.scan _ with
  | error f => exact yields_of_on (fun _ _ same => by cases same) fun _ _ _ => trivial
  | ok tags => exact (yields_pure _ _ _ _).mpr ⟨same, by rw [CSource.Grammar.found, scanned]⟩

/-- A scan that is not cut short writes the lines of all files behind what was written before. -/
theorem scanFiles_yields : ∀ {h : Host} (b : Buffer),
    (∀ f ∈ files, h.contentAt? (join [folder, f.1]) = some f.2) →
    (scanFiles c timeout folder b (files.map Prod.fst)).Yields h
      (fun ended _ => ended.2 = none → ended.1.text = b.text ++ CSource.tableOf c files)
      fun _ => False := by
  induction files with
  | nil =>
      intro h b _
      exact (yields_pure _ _ _ _).mpr fun _ => (List.append_nil _).symm
  | cons f files ih =>
      intro h b stored
      rw [List.map_cons, scanFiles]
      refine (yields_attempt (scanFile_yields (stored f List.mem_cons_self))).bind ?_
      intro outcome g ended
      cases outcome with
      | error e => exact (yields_pure _ _ _ _).mpr nofun
      | ok lines =>
          obtain ⟨same, rfl⟩ := ended
          have kept : ∀ f' ∈ files, g.contentAt? (join [folder, f'.1]) = some f'.2 := by
            intro f' member
            rw [contentAt?, look_of_sameFiles same.toSameFiles]
            exact stored f' (List.mem_cons_of_mem _ member)
          refine (ih _ kept).mono (fun ended _ whole finished => ?_) fun _ => id
          rw [whole finished, Buffer.text_foldl, List.append_assoc, ← List.flatMap_def]
          rfl

/-- The scanner writes the whole table of the files, or says why it did not. -/
theorem ofGrammar_yields (stored : ∀ f ∈ files, h.contentAt? (join [folder, f.1]) = some f.2) :
    (ofGrammar c timeout folder (files.map Prod.fst)).Yields h
      (fun out _ => out.failure = none → out.text = CSource.tableOf c files) fun _ => False := by
  rw [ofGrammar]
  refine (scanFiles_yields {} stored).bind fun ended g whole => ?_
  obtain ⟨b, failure⟩ := ended
  cases failure with
  | none => exact (yields_pure _ _ _ _).mpr fun _ => whole rfl
  | some f => exact (yields_pure _ _ _ _).mpr nofun

/-- The only table that the scanner writes is the one of the files. -/
theorem table_of_ofGrammar {table : Bytes} {g : Host}
    (stored : ∀ f ∈ files, h.contentAt? (join [folder, f.1]) = some f.2)
    (written : (ofGrammar c timeout folder (files.map Prod.fst)).on h = (.ok ⟨table, none⟩, g)) :
    table = CSource.tableOf c files :=
  (ofGrammar_yields stored).of_ok written rfl

/-- The scanner writes the table of the files, and changes nothing. -/
theorem on_ofGrammar (slow : isTooShort timeout = false) (running : h.interrupt = none)
    (stored : ∀ f ∈ files, h.contentAt? (join [folder, f.1]) = some f.2)
    (parsed : ∀ f ∈ files, (c.scan f.2).isOk = true) :
    (ofGrammar c timeout folder (files.map Prod.fst)).on h =
      (.ok ⟨CSource.tableOf c files, none⟩, h) := by
  have each : ∀ f ∈ files, (scanFile c timeout folder f.1).on h =
      (.ok ((c.found f.2).map fun t => t.tableLine f.1 ++ [10]), h) := by
    intro f member
    have begun : (Run.during (lit "treesitter") (Run.checkpoint >>= fun _ =>
        if isTooShort timeout then throw .deadline else pure ())).on h = (.ok (), h) := by
      rw [on_during, on_bind, on_checkpoint running, slow]
      rfl
    rw [scanFile, on_bind, begun]
    dsimp only
    rw [on_bind, on_during, on_readFile (stored f member)]
    dsimp only [Except.mapError]
    rw [CSource.scan_eq_found (parsed f member)]
    rfl
  have all : ∀ b, ∃ b', (scanFiles c timeout folder b (files.map Prod.fst)).on h = (.ok (b', none), h) := by
    clear parsed stored
    induction files with
    | nil => exact fun b => ⟨b, rfl⟩
    | cons f files ih =>
        intro b
        rw [List.map_cons, scanFiles, on_bind, on_attempt, each f List.mem_cons_self]
        exact ih (fun f' member => each f' (List.mem_cons_of_mem _ member)) _
  obtain ⟨b, ended⟩ := all {}
  have whole := (scanFiles_yields {} stored).of_ok ended rfl
  rw [ofGrammar, on_bind, ended]
  dsimp only
  rw [whole]
  rfl

end

end Generator

end SymbolHistory
