/-
# Proofs.ScannedSymbols -- what the scanner finds is in the symbol files

Between the scanner and the symbol files stands a table.  The scanner's half is that
the table has the symbols of all contents in order (`ScannedTables`); the organizer's
half is that each content gets the first run of its entries (`WholeTables`).  They
meet in `entriesOf`: the run of a content is all that was found in it, because every
content is scanned once (`firstRun_entriesOf`).

So however the work is cut short and shared, symbol files that come out say what was
found (`Scanned.of_organizes`), and they do come out where nothing is in the way and
names can be searched for (`run_scans`).
-/
import Mathlib.Data.List.Infix
import SymbolHistory.Proofs.BlockTables
import SymbolHistory.Proofs.ScannedTables
import SymbolHistory.Proofs.SureOrganizing
import SymbolHistory.Proofs.SymbolFiles

set_option autoImplicit false

namespace SymbolHistory

open SymbolHistory.Path FileTree Run Host

open TagTable (Entry Reader Sources)

open CSource (Grammar tableOf IsField)

/-! ## Few groups -/

namespace Organizer

theorem length_groups_append_le (xs ys : List Entry) :
    (groups (xs ++ ys)).length ≤ (groups xs).length + (groups ys).length := by
  rcases groups_append xs ys with apart | ⟨front, last, first, rest, isFront, isBack, -, joined⟩
  · rw [apart, List.length_append]
  · rw [joined, isFront, isBack]
    simp only [List.length_append, List.length_cons, List.length_nil]
    omega

/-- Entries of one file make one group at most. -/
theorem length_groups_le_one {file : Bytes} {run : List Entry} (own : ∀ e ∈ run, e.file = file) :
    (groups run).length ≤ 1 := by
  have one : ∀ known : List Entry, (∀ e ∈ known, e.file = file) →
      known.foldr push [] = [] ∨ ∃ g, known.foldr push [] = [g] ∧ g.file = file := by
    intro known
    induction known with
    | nil => exact fun _ => .inl rfl
    | cons e known ih =>
        intro own
        have isOwn := own e List.mem_cons_self
        rw [List.foldr_cons]
        rcases ih fun e' member => own e' (List.mem_cons_of_mem _ member) with none | ⟨g, single, isFile⟩
        · rw [none]
          exact .inr ⟨_, rfl, isOwn⟩
        · rw [single, push, if_pos (by rw [isFile, isOwn, beq_self_eq_true])]
          exact .inr ⟨_, rfl, isOwn⟩
  rw [groups_eq]
  rcases one _ fun e member => own e (List.mem_of_mem_filter member) with none | ⟨g, single, -⟩
  · rw [none]
    exact Nat.zero_le _
  · rw [single]
    exact Nat.le_refl _

end Organizer

namespace CSource

/-! ## Contents that are scanned -/

/-- Contents that are stored, each listed once. -/
structure Stored (c : Grammar) (l : Layout) (source : Bytes → Bytes) (ids : List Bytes) (h : Host) : Prop where
  nodup : ids.Nodup
  valid : ∀ id ∈ ids, ObjectId.isValid id = true
  there : ∀ id ∈ ids, h.contentAt? (l.objectStore.path id) = some (source id)
  named : ∀ id ∈ ids, ∀ t ∈ c.found (source id), IsIdentifier t.name

/-- The files of some contents, by the paths that tables name them. -/
def filesOf (source : Bytes → Bytes) (ids : List Bytes) : List (Bytes × Bytes) :=
  ids.map fun id => (Layout.objectRef id, source id)

/-- The entries of some contents: what is found in each, in order. -/
def entriesOf (c : Grammar) (source : Bytes → Bytes) (ids : List Bytes) : List Entry :=
  ids.flatMap fun id => (c.found (source id)).map (Tag.entry (Layout.objectRef id))

theorem flatMap_filesOf (c : Grammar) (source : Bytes → Bytes) (ids : List Bytes) :
    ((filesOf source ids).flatMap fun f => (c.found f.2).map (Tag.entry f.1)) = entriesOf c source ids := by
  rw [filesOf, entriesOf, List.flatMap_map]

section

variable {c : Grammar} {l : Layout} {source : Bytes → Bytes} {ids : List Bytes} {h g : Host}
  {id : Bytes}

theorem isField_objectRef (valid : ObjectId.isValid id = true) : IsField (Layout.objectRef id) := by
  have absent : ∀ b : UInt8, ObjectId.isHexDigit b = false → b ∉ Layout.objectsName ++ [slash] →
      b ∉ Layout.objectRef id := by
    intro b other notFront member
    rcases List.mem_append.mp member with front | own
    · exact notFront front
    · rw [ObjectId.isHexDigit_of_mem valid own] at other
      cases other
  exact ⟨absent Symbol.tab (by decide) (by decide), absent 10 (by decide) (by decide)⟩

theorem exists_of_mem_entriesOf {e : Entry} (member : e ∈ entriesOf c source ids) :
    ∃ id ∈ ids, ∃ t ∈ c.found (source id), e = t.entry (Layout.objectRef id) := by
  obtain ⟨id, isOne, inside⟩ := List.mem_flatMap.mp member
  obtain ⟨t, found, rfl⟩ := List.mem_map.mp inside
  exact ⟨id, isOne, t, found, rfl⟩

/-- Every entry is in the run of its own content. -/
theorem found_of_mem_entriesOf {e : Entry} (member : e ∈ entriesOf c source ids)
    (isFile : e.file = Layout.objectRef id) :
    id ∈ ids ∧ ∃ t ∈ c.found (source id), e = t.entry (Layout.objectRef id) := by
  obtain ⟨id', isOne, t, found, rfl⟩ := exists_of_mem_entriesOf member
  obtain rfl : id' = id := Plan.objectRef_injective isFile
  exact ⟨isOne, t, found, rfl⟩

/-- Only kinds that are known are found. -/
theorem known_entriesOf (c : Grammar) (source : Bytes → Bytes) (ids : List Bytes) :
    Organizer.known (entriesOf c source ids) = entriesOf c source ids := by
  refine List.filter_eq_self.mpr fun e member => ?_
  obtain ⟨id, -, t, found, rfl⟩ := exists_of_mem_entriesOf member
  obtain ⟨m, kind, rfl, known⟩ := exists_of_mem_found found
  simpa [Tag.entry, Node.tag] using known

theorem faithful_entriesOf (c : Grammar) (source : Bytes → Bytes) (valid : ∀ id ∈ ids, ObjectId.isValid id = true) :
    Organizer.Faithful (entriesOf c source ids) := by
  intro e member _
  obtain ⟨id, isOne, t, -, rfl⟩ := exists_of_mem_entriesOf (List.mem_of_mem_filter member)
  show Layout.objectRef id = Layout.objectRef (base (Layout.objectRef id))
  rw [Layout.base_objectRef (valid id isOne)]

/-- The run of a content is all that was found in it. -/
theorem firstRun_entriesOf (nodup : ids.Nodup) (member : id ∈ ids) :
    Organizer.firstRun (Layout.objectRef id) (entriesOf c source ids) =
      (c.found (source id)).map (Tag.entry (Layout.objectRef id)) := by
  obtain ⟨before, after, rfl⟩ := List.append_of_mem member
  rw [List.nodup_middle, List.nodup_cons] at nodup
  have others : ∀ some : List Bytes, some ⊆ before ++ after →
      ∀ e ∈ entriesOf c source some, e.file ≠ Layout.objectRef id := by
    intro some subset e inside isFile
    exact nodup.1 (subset (found_of_mem_entriesOf inside isFile).1)
  have split : entriesOf c source (before ++ id :: after) = entriesOf c source before ++
      (c.found (source id)).map (Tag.entry (Layout.objectRef id)) ++ entriesOf c source after := by
    simp [entriesOf]
  have front := others before (List.subset_append_left _ _)
  have back := others after (List.subset_append_right _ _)
  rw [split]
  by_cases none : c.found (source id) = []
  · rw [none, List.map_nil, List.append_nil]
    refine Organizer.firstRun_eq_nil fun e inside => ?_
    rcases List.mem_append.mp inside with early | late
    · exact front e early
    · exact back e late
  · refine Organizer.firstRun_eq front ?_ (by simpa using none)
      fun e isNext => back e (List.mem_of_mem_head? isNext)
    intro e inside
    obtain ⟨t, -, rfl⟩ := List.mem_map.mp inside
    rfl

theorem length_groups_entriesOf (c : Grammar) (source : Bytes → Bytes) (ids : List Bytes) :
    (Organizer.groups (entriesOf c source ids)).length ≤ ids.length := by
  induction ids with
  | nil => exact Nat.le_refl 0
  | cons id ids ih =>
      have own : ∀ e ∈ (c.found (source id)).map (Tag.entry (Layout.objectRef id)),
          e.file = Layout.objectRef id := by
        intro e inside
        obtain ⟨t, -, rfl⟩ := List.mem_map.mp inside
        rfl
      have first := Organizer.length_groups_le_one own
      have both := Organizer.length_groups_append_le
        ((c.found (source id)).map (Tag.entry (Layout.objectRef id))) (entriesOf c source ids)
      rw [entriesOf, List.flatMap_cons, ← entriesOf, List.length_cons]
      omega

namespace Stored

theorem isField (stored : Stored c l source ids h) : ∀ f ∈ filesOf source ids, IsField f.1 := by
  intro f member
  obtain ⟨id, isOne, rfl⟩ := List.mem_map.mp member
  exact isField_objectRef (stored.valid id isOne)

theorem named_filesOf (stored : Stored c l source ids h) : Named c (filesOf source ids) := by
  intro f member
  obtain ⟨id, isOne, rfl⟩ := List.mem_map.mp member
  exact stored.named id isOne

/-- The scanner finds the contents where the store has them. -/
theorem readable (stored : Stored c l source ids h) (tidy : l.Tidy) :
    ∀ f ∈ filesOf source ids, h.contentAt? (join [l.root, f.1]) = some f.2 := by
  intro f member
  obtain ⟨id, isOne, rfl⟩ := List.mem_map.mp member
  rw [Layout.join_objectRef tidy (stored.valid id isOne)]
  exact stored.there id isOne

theorem of_spares (stored : Stored c l source ids h) (sound : h.Sound) {apart : List Bytes}
    (spares : l.Spares apart h g) (isApart : Layout.objectsName ∈ apart) : Stored c l source ids g := by
  refine ⟨stored.nodup, stored.valid, fun id member => ?_, stored.named⟩
  rw [contentAt?_congr sound spares.sound spares.folder
    (spares.get?_eq (l.locate_object h (stored.valid id member)) isApart)]
  exact stored.there id member

/-- Wherever it is read, the table of the contents has what was found in them. -/
theorem reading_eq (stored : Stored c l source ids h) (o : Organizer) (k : Host) :
    ∃ r, o.reading k ⟨tableOf c (filesOf source ids), none⟩ = (entriesOf c source ids, r) ∧
      r.badLine = 0 ∧ r.fault = none := by
  obtain ⟨r, read, finished⟩ := readAll_tableOf stored.isField stored.named_filesOf (some (o.sources k))
  refine ⟨r, ?_, ?_, ?_⟩
  · rw [Organizer.reading, read, flatMap_filesOf]
  · rw [Reader.badLine, finished]
  · rw [Reader.fault, finished]

end Stored

/-! ## Symbols that were found -/

/-- A symbol is one that was found, with what the content says about it. -/
structure Tells (data : Bytes) (t : Tag) (s : Symbol) : Prop where
  name : s.name = t.name
  kind : s.kind = t.kind
  line : s.line = t.line
  extra : Signature.extraText t.kind t.name (SourceText.ofContent data) t.line = .ok s.extra

variable {data : Bytes}

theorem Tells.of_describes {path : Bytes} {t : Tag} {s : Symbol}
    (describes : Organizer.Describes data (t.entry path) s) : Tells data t s := by
  obtain ⟨extra, found, rfl⟩ := describes
  exact ⟨rfl, rfl, rfl, found⟩

/-- What was found can be written down and read back. -/
theorem Tells.plain {t : Tag} {s : Symbol} (tells : Tells data t s) (listable : t.Listable) : s.Plain := by
  have small : t.line < 2 ^ 63 := listable.small
  refine ⟨?_, ?_, ?_⟩
  · rw [tells.name]
    exact ⟨listable.name.not_mem (by decide) (by decide), listable.name.not_mem (by decide) (by decide)⟩
  · exact Signature.newline_not_mem_extraText (fun l => SourceText.newline_not_mem) tells.extra
  · rw [tells.line]
    omega

theorem readAll_of_tells {tags : List Tag} {symbols : List Symbol}
    (each : List.Forall₂ (Tells data) tags symbols) (listable : ∀ t ∈ tags, t.Listable) :
    Symbol.readAll ⟨Symbol.writeAll symbols, none⟩ = ⟨symbols, none⟩ := by
  refine Symbol.readAll_writeAll ?_
  induction each with
  | nil => exact fun s none => absurd none List.not_mem_nil
  | cons first _ ih =>
      refine List.forall_mem_cons.mpr ⟨first.plain (listable _ List.mem_cons_self), ?_⟩
      exact ih fun t member => listable t (List.mem_cons_of_mem _ member)

end

end CSource

namespace Organizer

open CSource (Tells entriesOf filesOf)

/-- An organizer that has its tables made by the scanner. -/
def scanning (c : Grammar) (l : Layout) (timeout : Duration) : Organizer :=
  ⟨l, Generator.ofGrammar c timeout⟩

/-- What contents that were organized starting on `h` have on `g`, when what they are was scanned. -/
structure Scanned (o : Organizer) (c : Grammar) (source : Bytes → Bytes) (ids : List Bytes)
    (h g : Host) : Prop where
  /-- Every content has a symbol file. -/
  listed : ∀ id ∈ ids, ¬o.Lacks g id
  /-- What was there is as it was. -/
  kept : ∀ rest node, h.tree.get? (h.locate o.layout.tags ++ rest) = some node →
    g.tree.get? (h.locate o.layout.tags ++ rest) = some node
  /-- A new symbol file gives back what was found in its content, in order. -/
  told : ∀ id ∈ ids, o.Lacks h id → ∃ symbols,
    List.Forall₂ (Tells (source id)) (c.found (source id)) symbols ∧
    g.look (o.layout.tagStore.path id) = .ok (.file (Symbol.writeAll symbols) false) ∧
    Symbol.readAll ⟨Symbol.writeAll symbols, none⟩ = ⟨symbols, none⟩
  /-- No other content gets one. -/
  others : ∀ id ∉ ids, ObjectId.isValid id = true → o.Lacks h id → o.Lacks g id

section

variable {c : Grammar} {l : Layout} {timeout : Duration} {source : Bytes → Bytes} {ids : List Bytes} {h g k : Host}

theorem tellsAll_of_describes {data path : Bytes} {tags : List CSource.Tag} : ∀ {symbols : List Symbol},
    List.Forall₂ (Describes data) (tags.map (CSource.Tag.entry path)) symbols →
      List.Forall₂ (Tells data) tags symbols := by
  intro symbols each
  rw [List.forall₂_map_left_iff] at each
  exact each.imp fun _ _ => Tells.of_describes

/-- The scanner is asked for the files of the contents. -/
theorem map_objectRef (source : Bytes → Bytes) (ids : List Bytes) :
    ids.map Layout.objectRef = (filesOf source ids).map Prod.fst := by
  rw [filesOf, List.map_map]
  rfl

/-- The only table that the scanner makes is the one of the contents. -/
theorem table_of_generates (sound : h.Sound) (tidy : l.Tidy) (stored : CSource.Stored c l source ids h)
    {table : Bytes} (generates : (scanning c l timeout).Generates h ids table) :
    table = tableOf c (filesOf source ids) := by
  obtain ⟨batch, k, isReady, made⟩ := generates
  obtain ⟨isBatch, m, draft⟩ := (ready_yields sound tidy ids).of_ok isReady
  have stored := stored.of_spares sound (spares_of_draft isBatch (by decide) draft)
    (by decide : Layout.objectsName ∈ Layout.stores)
  obtain ⟨k', done⟩ := exists_on_of_ok made
  rw [map_objectRef source] at done
  exact Generator.table_of_ofGrammar (stored.readable tidy) done

/-- Symbol files with the first runs of the table say what was found. -/
theorem Organized.scanned {o : Organizer} (stored : CSource.Stored c o.layout source ids h)
    (organized : o.Organized ids h (entriesOf c source ids) g) : o.Scanned c source ids h g where
  listed id member := organized.listed id member (stored.valid id member)
  kept := organized.kept
  told id member lacks := by
    have valid := stored.valid id member
    have listable := fun t (found : t ∈ c.found (source id)) =>
      CSource.listable_of_mem_found found (stored.named id member t found)
    cases found : c.found (source id) with
    | nil =>
        have unnamed := organized.unnamed id valid lacks fun e inside isFile => ?_
        · rw [if_pos member] at unnamed
          exact ⟨[], .nil, unnamed, rfl⟩
        · obtain ⟨-, t, isTag, -⟩ := CSource.found_of_mem_entriesOf inside isFile
          rw [found] at isTag
          cases isTag
    | cons t tags =>
        have names : t.entry (Layout.objectRef id) ∈ entriesOf c source ids :=
          List.mem_flatMap.mpr ⟨id, member, List.mem_map_of_mem (by simp [found])⟩
        obtain ⟨data, symbols, content, each, -, written⟩ :=
          organized.named id valid lacks ⟨_, names, rfl⟩
        obtain rfl : data = source id := Option.some.inj (content.symm.trans (stored.there id member))
        rw [CSource.firstRun_entriesOf stored.nodup member] at each
        have each := tellsAll_of_describes each
        exact ⟨symbols, found ▸ each, written, CSource.readAll_of_tells each listable⟩
  others id notOne valid lacks := by
    have unnamed := organized.unnamed id valid lacks fun e inside isFile =>
      notOne (CSource.found_of_mem_entriesOf inside isFile).1
    rwa [if_neg notOne] at unnamed

/-- However the workers take turns, the symbol files that come out say what was found. -/
theorem Scanned.of_organizes (sound : h.Sound) (tidy : l.Tidy) (stored : CSource.Stored c l source ids h)
    {workers : Nat} (organizes : (scanning c l timeout).Organizes workers ids h g) :
    (scanning c l timeout).Scanned c source ids h g := by
  have still := Generator.ofGrammar_quiet c timeout l.root (ids.map Layout.objectRef)
  have whole := organizes
  cases organizes with
  | nothing none =>
      subst none
      exact ⟨by simp, fun _ _ there => there, by simp, fun _ _ _ lacks => lacks⟩
  | shared nonempty tabled =>
      obtain ⟨generates, -, -⟩ := (tabled_yields sound tidy still).of_ok tabled
      obtain ⟨r, read, atEnd, -⟩ := stored.reading_eq (scanning c l timeout) h
      rw [← table_of_generates sound tidy stored generates] at read
      have faithful := CSource.faithful_entriesOf c source stored.valid
      have organized := organized_of_organizes sound tidy still nonempty generates
        (by rw [read]; exact atEnd) (by rw [read]; exact faithful) whole
      rw [read, CSource.known_entriesOf] at organized
      exact organized.scanned stored

/-- All that the scanner finds can be understood when names can be searched for. -/
theorem legible_entriesOf (stored : CSource.Stored c l source ids k)
    (utf8 : ∀ id ∈ ids, ∀ t ∈ c.found (source id), t.kind = .function → Utf8.valid t.name = true) :
    ∀ group ∈ groups (entriesOf c source ids), (scanning c l timeout).Legible k group := by
  intro group member
  obtain ⟨first, inside⟩ :=
    List.exists_mem_of_ne_nil _ ((partition_groups _).nonempty group member)
  obtain ⟨isEntry, isFile⟩ := mem_of_mem_groups member inside
  obtain ⟨id, isOne, t, -, rfl⟩ := CSource.exists_of_mem_entriesOf isEntry
  have isId : group.id = id := by
    rw [Group.id, ← isFile]
    exact Layout.base_objectRef (stored.valid id isOne)
  have understood : ∀ e ∈ group.entries,
      ∃ s, symbolOf (SourceText.ofContent (source id)) e = .ok s := by
    intro e inside
    obtain ⟨id', isOne', t', found, rfl⟩ :=
      CSource.exists_of_mem_entriesOf (mem_of_mem_groups member inside).1
    exact exists_symbolOf _ (utf8 id' isOne' t' found)
  obtain ⟨symbols, mapped⟩ := exists_mapM understood
  exact ⟨source id, symbols, isId ▸ stored.there id isOne, mapped⟩

/-- Contents are organized with the scanner where nothing is in the way. -/
theorem run_scans (tidy : l.Tidy) (stored : CSource.Stored c l source ids h)
    (isOpen : (scanning c l timeout).Open (2 * ids.length) h)
    (slow : Generator.isTooShort timeout = false)
    (parsed : ∀ id ∈ ids, (c.scan (source id)).isOk = true)
    (utf8 : ∀ id ∈ ids, ∀ t ∈ c.found (source id), t.kind = .function → Utf8.valid t.name = true) :
    ∃ g, ((scanning c l timeout).run ids).on h = (.ok (), g) := by
  rcases List.eq_nil_or_concat ids with rfl | ⟨_, _, isMore⟩
  · exact ⟨h, rfl⟩
  have nonempty : ids ≠ [] := by simp [isMore]
  have still := Generator.ofGrammar_quiet c timeout l.root (ids.map Layout.objectRef)
  have writes : ∀ k, k.Untroubled → l.Spares Layout.stores h k → ∃ table,
      (Generator.ofGrammar c timeout l.root (ids.map Layout.objectRef)).on k = (.ok ⟨table, none⟩, k) := by
    intro k free spares
    have stored := stored.of_spares isOpen.sound spares (by decide)
    rw [map_objectRef source]
    refine ⟨_, Generator.on_ofGrammar slow free.running (stored.readable tidy) fun f member => ?_⟩
    obtain ⟨id, isOne, rfl⟩ := List.mem_map.mp member
    exact parsed id isOne
  obtain ⟨batch, table, k, tabled, clear⟩ := tabled_makes tidy isOpen still writes
  obtain ⟨generates, -, spares⟩ := (tabled_yields isOpen.sound tidy still).of_ok tabled
  obtain rfl := table_of_generates isOpen.sound tidy stored generates
  have stored := stored.of_spares isOpen.sound spares (by decide)
  obtain ⟨r, read, whole, faultless⟩ := stored.reading_eq (scanning c l timeout) k
  have few := CSource.length_groups_entriesOf c source ids
  obtain ⟨m, settled⟩ : ∃ m,
      ((scanning c l timeout).settle ids (tableOf c (filesOf source ids))).on k = (.ok (), m) := by
    apply settle_makes stored.valid
    all_goals rw [read]
    · exact clear.fewer (by dsimp only; omega)
    · exact fun group member _ => legible_entriesOf stored utf8 group member
    · exact whole
    · exact faultless
  exact run_makes nonempty tabled settled

/-- Doing all in one go is one of the ways. -/
theorem organizes_of_scanning (sound : h.Sound) (tidy : l.Tidy) (stored : CSource.Stored c l source ids h)
    {workers : Nat} (one : 0 < workers) (done : ((scanning c l timeout).run ids).on h = (.ok (), g)) :
    (scanning c l timeout).Organizes workers ids h g := by
  rcases List.eq_nil_or_concat ids with rfl | ⟨_, _, isMore⟩
  · cases done
    exact .nothing rfl
  have nonempty : ids ≠ [] := by simp [isMore]
  have still := Generator.ofGrammar_quiet c timeout l.root (ids.map Layout.objectRef)
  obtain ⟨batch, table, k, m, tabled, -, -⟩ := run_ok nonempty done
  obtain ⟨generates, -, -⟩ := (tabled_yields sound tidy still).of_ok tabled
  obtain rfl := table_of_generates sound tidy stored generates
  obtain ⟨r, read, -, -⟩ := stored.reading_eq (scanning c l timeout) h
  have faithful := CSource.faithful_entriesOf c source stored.valid
  exact organizes_of_run sound tidy still nonempty generates (by rw [read]; exact faithful) one done

end

/-- Whatever the grammar, the scanner's table of some files is read to its end and gives every symbol of
every file, in the order of the files, if their names are identifiers.  So contents that are organized
with the scanner have symbol files that give back what was found in them: with any number of workers,
however they take turns, and when all is done in one go.  That goes through where nothing is in the
way, the files can be parsed and the names of functions are valid UTF-8. -/
theorem scanner_gives_symbols (c : Grammar) (timeout : Duration) (h : Host) :
    (∀ (folder : Bytes) (files : List (Bytes × Bytes)), (∀ f ∈ files, IsField f.1) →
      CSource.Named c files →
      (∀ f ∈ files, h.contentAt? (join [folder, f.1]) = some f.2) →
      (∀ table g, (Generator.ofGrammar c timeout folder (files.map Prod.fst)).on h =
          (.ok ⟨table, none⟩, g) → ∀ sources, ∃ r, (Reader.ofInput ⟨table, none⟩ sources).readAll =
        (files.flatMap fun f => (c.found f.2).map (CSource.Tag.entry f.1), r) ∧
          r.stop = some .finished) ∧
      (Generator.isTooShort timeout = false → h.interrupt = none →
        (∀ f ∈ files, (c.scan f.2).isOk = true) → ∃ table,
          (Generator.ofGrammar c timeout folder (files.map Prod.fst)).on h = (.ok ⟨table, none⟩, h))) ∧
    (∀ (l : Layout) (source : Bytes → Bytes) (ids : List Bytes), h.Sound → l.Tidy →
      CSource.Stored c l source ids h →
      (∀ workers g, (scanning c l timeout).Organizes workers ids h g →
        (scanning c l timeout).Scanned c source ids h g) ∧
      (∀ g, ((scanning c l timeout).run ids).on h = (.ok (), g) →
        (scanning c l timeout).Scanned c source ids h g) ∧
      ((scanning c l timeout).Open (2 * ids.length) h → Generator.isTooShort timeout = false →
        (∀ id ∈ ids, (c.scan (source id)).isOk = true) →
        (∀ id ∈ ids, ∀ t ∈ c.found (source id), t.kind = .function → Utf8.valid t.name = true) →
        ∃ g, ((scanning c l timeout).run ids).on h = (.ok (), g))) := by
  constructor
  · intro folder files fields named stored
    refine ⟨fun table g written sources => ?_, fun slow running parsed => ?_⟩
    · rw [Generator.table_of_ofGrammar stored written]
      exact CSource.readAll_tableOf fields named sources
    · exact ⟨_, Generator.on_ofGrammar slow running stored parsed⟩
  · intro l source ids sound tidy stored
    refine ⟨fun workers g organizes => ?_, fun g done => ?_, fun isOpen slow parsed utf8 => ?_⟩
    · exact .of_organizes sound tidy stored organizes
    · exact .of_organizes sound tidy stored (organizes_of_scanning sound tidy stored Nat.one_pos done)
    · exact run_scans tidy stored isOpen slow parsed utf8

/-- A project with four stored contents: one has a symbol file, and in one that has none there is
nothing to find. -/
def scannedHost : Host :=
  { mixedHost with
    tree := mixedHost.tree.set [lit "db", lit "objects", mixedId 100]
      (.file (lit "int epsilon(int);\n") false) }

/-- What is stored there. -/
def scannedSource (id : Bytes) : Bytes :=
  (scannedHost.contentAt? (Layout.objectStore ⟨lit "/db"⟩ |>.path id)).getD []

theorem stored_scannedHost : CSource.Stored .plain ⟨lit "/db"⟩ scannedSource mixedIds scannedHost where
  nodup := by decide +kernel
  valid := by decide +kernel
  there := by decide +kernel
  named := by decide +kernel

theorem open_scannedHost : (scanning .plain ⟨lit "/db"⟩ ⟨0⟩).Open (2 * mixedIds.length) scannedHost where
  sound := by decide +kernel
  free := ⟨rfl, rfl⟩
  noZero := by decide
  within := by decide +kernel
  home := by decide +kernel
  short := by decide +kernel
  way k way := by
    have each : ∀ k ∈ (scannedHost.locate (Layout.tags ⟨lit "/db"⟩)).inits,
        scannedHost.tree.get? k = some .folder := by decide +kernel
    exact .inr (each k ((List.mem_inits _ _).mpr way))
  unused i _ := by
    have visible : ∀ p ∈ scannedHost.tree.nodes, (p.1.getLast?.bind List.head?) ≠ some 46 := by
      decide +kernel
    rw [get?, if_neg (by simp), Option.map_eq_none_iff, List.find?_eq_none]
    intro p member same
    refine visible p member ?_
    rw [beq_iff_eq.mp same, List.getLast?_concat]
    rfl
  few := by decide +kernel
  fresh := by decide +kernel
  combined := by decide +kernel

theorem scanner_gives_symbols_scannedHost :
    (∃ table, (Generator.ofGrammar .plain ⟨0⟩ (lit "/db") (mixedIds.map Layout.objectRef)).on scannedHost =
        (.ok ⟨table, none⟩, scannedHost) ∧
      ∀ sources, (Reader.ofInput ⟨table, none⟩ sources).readAll.1 = entriesOf .plain scannedSource mixedIds) ∧
    ∃ g, ((scanning .plain ⟨lit "/db"⟩ ⟨0⟩).run mixedIds).on scannedHost = (.ok (), g) ∧
      (scanning .plain ⟨lit "/db"⟩ ⟨0⟩).Organizes 2 mixedIds scannedHost g ∧
      (scanning .plain ⟨lit "/db"⟩ ⟨0⟩).Scanned .plain scannedSource mixedIds scannedHost g ∧
      g.look (lit "/db/tags/" ++ mixedId 97) = .ok (.file
        (lit "alpha\tFunction\t1\tint \x7bname\x7d(void)\nbeta\tVariable\t3\t = 3\n") false) ∧
      g.look (lit "/db/tags/" ++ mixedId 100) = .ok (.file [] false) := by
  have tidy : Layout.Tidy ⟨lit "/db"⟩ := by decide +kernel
  have stored := stored_scannedHost
  have sound := open_scannedHost.sound
  obtain ⟨tables, files⟩ := scanner_gives_symbols .plain ⟨0⟩ scannedHost
  constructor
  · obtain ⟨read, writes⟩ := tables (lit "/db") (filesOf scannedSource mixedIds) stored.isField
      stored.named_filesOf (stored.readable tidy)
    obtain ⟨table, written⟩ := writes (by decide +kernel) rfl (by decide +kernel)
    refine ⟨table, map_objectRef scannedSource mixedIds ▸ written, fun sources => ?_⟩
    obtain ⟨r, all, -⟩ := read table _ written sources
    rw [all, CSource.flatMap_filesOf]
  · obtain ⟨-, scanned, done⟩ := files ⟨lit "/db"⟩ scannedSource mixedIds sound tidy stored
    obtain ⟨g, done⟩ := done open_scannedHost (by decide +kernel) (by decide +kernel) (by decide +kernel)
    have texts : ∀ e ∈ [(mixedId 97,
          lit "alpha\tFunction\t1\tint \x7bname\x7d(void)\nbeta\tVariable\t3\t = 3\n"),
        (mixedId 100, [])],
        (((scanning .plain ⟨lit "/db"⟩ ⟨0⟩).run mixedIds).on scannedHost).2.look (lit "/db/tags/" ++ e.1) =
          .ok (.file e.2 false) := by
      decide +kernel
    rw [done] at texts
    exact ⟨g, done, organizes_of_scanning sound tidy stored (by decide) done, scanned g done,
      texts _ List.mem_cons_self, texts _ (List.mem_cons_of_mem _ List.mem_cons_self)⟩

/-- The same project after another generator found the function of a content, but not its variable. -/
def functionsHost : Host :=
  { scannedHost with
    tree := scannedHost.tree.set [lit "db", lit "tags", mixedId 97]
      (.file (lit "alpha\tFunction\t1\tint \x7bname\x7d(void)\n") false) }

/-- A symbol file that is there stays, even if there is more to find now. -/
theorem scanner_keeps_symbols :
    CSource.Stored .plain ⟨lit "/db"⟩ scannedSource [mixedId 97] functionsHost ∧
    ((scanning .plain ⟨lit "/db"⟩ ⟨0⟩).run [mixedId 97]).Ends functionsHost fun r g => r = .ok () ∧
      ¬∃ symbols,
        List.Forall₂ (Tells (scannedSource (mixedId 97))) (Grammar.plain.found (scannedSource (mixedId 97))) symbols ∧
        g.look (lit "/db/tags/" ++ mixedId 97) = .ok (.file (Symbol.writeAll symbols) false) := by
  have stored : CSource.Stored .plain ⟨lit "/db"⟩ scannedSource [mixedId 97] functionsHost :=
    ⟨by decide +kernel, by decide +kernel, by decide +kernel, by decide +kernel⟩
  have ended : ((scanning .plain ⟨lit "/db"⟩ ⟨0⟩).run [mixedId 97]).Ends functionsHost fun r g =>
      r = .ok () ∧ g.look (lit "/db/tags/" ++ mixedId 97) =
        .ok (.file (lit "alpha\tFunction\t1\tint \x7bname\x7d(void)\n") false) :=
    ⟨by decide +kernel⟩
  refine ⟨stored, ended.mono ?_⟩
  rintro r g ⟨done, kept⟩
  refine ⟨done, ?_⟩
  rintro ⟨symbols, each, written⟩
  have isText : Symbol.writeAll symbols = lit "alpha\tFunction\t1\tint \x7bname\x7d(void)\n" := by
    have same := written.symm.trans kept
    simpa using same
  have read := CSource.readAll_of_tells each fun t found =>
    CSource.listable_of_mem_found found (stored.named _ List.mem_cons_self t found)
  rw [isText] at read
  have one : symbols.length = 1 := by
    rw [← congrArg (fun output => output.items.length) read]
    decide +kernel
  have two : (Grammar.plain.found (scannedSource (mixedId 97))).length = 2 := by decide +kernel
  rw [each.length_eq, one] at two
  cases two

end Organizer

end SymbolHistory
