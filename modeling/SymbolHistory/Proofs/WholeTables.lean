/-
# Proofs.WholeTables -- organizing contents with a table that is read to its end

`Organizes` says how some workers organize contents: a table is made, they share
it, what is left without a symbol file gets an empty one, and the table's own file
is removed.  `Organized` says what comes out.  A content that the table names has
a symbol file with one line per entry of its first run; one that it does not name
has an empty one; symbol files that were there are as they were.

However the workers take turns, that is what they come to, and doing all of it in
one go is one of the ways (`run_writes_first_runs`).  Without a table nothing in
the project changes.
-/
import Mathlib.Data.List.Forall2
import SymbolHistory.Proofs.SerialCrews
import SymbolHistory.Proofs.SymbolLines

set_option autoImplicit false

namespace SymbolHistory

open SymbolHistory.Path FileTree Run Host

namespace Organizer

open TagTable (Entry Reader)

/-! ## What comes out -/

/-- A symbol is what an entry says, and what the content says in the entry's place. -/
def Describes (data : Bytes) (e : Entry) (s : Symbol) : Prop :=
  ∃ extra, Signature.extraText e.kind e.name (SourceText.ofContent data) e.line = .ok extra ∧
    s = { name := e.name, kind := e.kind, line := e.line, extra := extra }

/-- What contents that were organized starting on `h` have on `g`, when `entries` are those of known
kinds in the table. -/
structure Organized (o : Organizer) (ids : List Bytes) (h : Host) (entries : List Entry) (g : Host) :
    Prop where
  /-- Every content has a symbol file. -/
  listed : ∀ id ∈ ids, ObjectId.isValid id = true → ¬o.Lacks g id
  /-- What was there is as it was. -/
  kept : ∀ rest node, h.tree.get? (h.locate o.layout.tags ++ rest) = some node →
    g.tree.get? (h.locate o.layout.tags ++ rest) = some node
  /-- A new symbol file of a content that is named has the first run of its entries, a line each. -/
  named : ∀ id, ObjectId.isValid id = true → o.Lacks h id →
    (∃ e ∈ entries, e.file = Layout.objectRef id) →
    ∃ data symbols, h.contentAt? (o.layout.objectStore.path id) = some data ∧
      List.Forall₂ (Describes data) (firstRun (Layout.objectRef id) entries) symbols ∧
      Bytes.lines (Symbol.writeAll symbols) = symbols.map (fun s => ⟨s.format, true⟩) ∧
      g.look (o.layout.tagStore.path id) = .ok (.file (Symbol.writeAll symbols) false)
  /-- A new symbol file of a content that is not named is empty; others get none. -/
  unnamed : ∀ id, ObjectId.isValid id = true → o.Lacks h id →
    (∀ e ∈ entries, e.file ≠ Layout.objectRef id) →
    if id ∈ ids then g.look (o.layout.tagStore.path id) = .ok (.file [] false) else o.Lacks g id

section

variable {o : Organizer} {h k n g : Host} {ids : List Bytes} {entries : List Entry}

theorem forall₂_of_mapM {α β ε : Type} {f : α → Except ε β} {xs : List α} :
    ∀ {ys : List β}, xs.mapM f = .ok ys → List.Forall₂ (fun x y => f x = .ok y) xs ys := by
  induction xs with
  | nil =>
      intro ys mapped
      cases mapped
      exact .nil
  | cons x xs ih =>
      intro ys mapped
      rw [List.mapM_cons] at mapped
      cases first : f x with
      | error e =>
          rw [first] at mapped
          cases mapped
      | ok y =>
          cases rest : xs.mapM f with
          | error e =>
              rw [first, rest] at mapped
              cases mapped
          | ok zs =>
              rw [first, rest] at mapped
              cases mapped
              exact .cons first (ih rest)

theorem newline_not_mem_symbols {data : Bytes} {symbols : List Symbol}
    (each : List.Forall₂ (fun e s => symbolOf (SourceText.ofContent data) e = .ok s) entries symbols)
    (oneLine : ∀ e ∈ entries, 10 ∉ e.name) : ∀ s ∈ symbols, 10 ∉ s.format := by
  induction each with
  | nil => simp
  | cons understood _ ih =>
      intro s member
      rcases List.mem_cons.mp member with rfl | later
      · exact newline_not_mem_symbolOf (oneLine _ List.mem_cons_self) understood
      · exact ih (fun e inside => oneLine e (List.mem_cons_of_mem _ inside)) s later

theorem firstRun_subset (file : Bytes) (entries : List Entry) : firstRun file entries ⊆ entries :=
  ((List.takeWhile_sublist _).trans (List.dropWhile_sublist _)).subset

/-- The text of a group has one line per entry. -/
theorem textOf?_eq_some {group : Group} {text : Bytes} (oneLine : ∀ e ∈ group.entries, 10 ∉ e.name)
    (isText : o.textOf? h group = some text) :
    ∃ data symbols, h.contentAt? (o.layout.objectStore.path group.id) = some data ∧
      List.Forall₂ (Describes data) group.entries symbols ∧
      Bytes.lines (Symbol.writeAll symbols) = symbols.map (fun s => ⟨s.format, true⟩) ∧
      text = Symbol.writeAll symbols := by
  obtain ⟨data, content, rest⟩ := Option.bind_eq_some_iff.mp isText
  obtain ⟨symbols, understood, rfl⟩ := Option.map_eq_some_iff.mp rest
  cases mapped : group.entries.mapM (symbolOf (SourceText.ofContent data)) with
  | error f =>
      rw [mapped] at understood
      cases understood
  | ok symbols' =>
      rw [mapped] at understood
      obtain rfl : symbols' = symbols := Option.some.inj understood
      have each := forall₂_of_mapM mapped
      exact ⟨data, symbols', content, each.imp fun _ _ => symbolOf_eq_ok,
        Symbol.lines_writeAll (newline_not_mem_symbols each oneLine), rfl⟩

/-- Symbol files of the first runs of a table, and empty ones. -/
structure Marked (o : Organizer) (ids : List Bytes) (h : Host) (entries : List Entry)
    (made : List (Bytes × Bytes)) (empty : List Bytes) (g : Host) : Prop where
  wrote : o.Wrote h (made ++ empty.map (·, [])) g
  stems : ∀ e ∈ made, o.Made h entries e.1 e.2
  met : ∀ e ∈ entries, o.Settled h made (base e.file)
  subset : empty ⊆ ids
  listed : ∀ id ∈ ids, o.Settled h (made ++ empty.map (·, [])) id

/-- What comes out of marking what is left. -/
theorem Marked.organized (sound : h.Sound) {made : List (Bytes × Bytes)} {empty : List Bytes}
    (oneLine : ∀ e ∈ entries, 10 ∉ e.name) (marked : o.Marked ids h entries made empty g) :
    o.Organized ids h entries g where
  listed id member valid := by
    rw [marked.wrote.lacks_iff sound valid]
    exact fun lacks => lacks.2 (marked.listed id member valid lacks.1)
  kept rest node there := marked.wrote.tree.get?_some there
  named id valid lacks names := by
    obtain ⟨e, member, isFile⟩ := names
    have settled := marked.met e member
    rw [isFile, Layout.base_objectRef valid] at settled
    obtain ⟨⟨id', text⟩, isMade, rfl⟩ := List.mem_map.mp (settled valid lacks)
    have run := firstRun_subset (Layout.objectRef id') entries
    obtain ⟨data, symbols, content, each, lines, rfl⟩ :=
      textOf?_eq_some (fun e inside => oneLine e (run inside)) (marked.stems _ isMade).text
    rw [Group.id, Layout.base_objectRef valid] at content
    exact ⟨data, symbols, content, each, lines,
      marked.wrote.look_of_mem (List.mem_append_left _ isMade)⟩
  unnamed id valid lacks others := by
    have notMade : id ∉ made.map Prod.fst := by
      intro isMade
      obtain ⟨e, member, rfl⟩ := List.mem_map.mp isMade
      exact (marked.stems e member).nonempty (firstRun_eq_nil others)
    split
    · rename_i listed
      have settled := marked.listed id listed valid lacks
      rw [List.map_append, List.mem_append] at settled
      have isEmpty : id ∈ empty := by simpa using settled.resolve_left notMade
      exact marked.wrote.look_of_mem (List.mem_append_right _ (List.mem_map_of_mem isEmpty))
    · rename_i unlisted
      have notEmpty : id ∉ empty := fun isEmpty => unlisted (marked.subset isEmpty)
      rw [marked.wrote.lacks_iff sound valid, List.map_append, List.mem_append, not_or]
      exact ⟨lacks, notMade, by simpa using notEmpty⟩

theorem lacks_of_spares (sound : h.Sound) (spares : o.layout.Spares Layout.stores h g) {id : Bytes}
    (valid : ObjectId.isValid id = true) : o.Lacks g id ↔ o.Lacks h id := by
  rw [Lacks, isOk_look_congr sound spares.sound spares.folder
    (spares.get?_eq (o.layout.locate_symbolFile h valid) (by decide)), Lacks]

/-- Work before and after that spares the stores does not matter. -/
theorem Organized.of_spares (sound : h.Sound) (before : o.layout.Spares Layout.stores h k)
    (organized : o.Organized ids k entries n) (same : n.folder = k.folder) (sound' : n.Sound)
    (after : o.layout.Spares Layout.stores n g) : o.Organized ids h entries g where
  listed id member valid := by
    rw [lacks_of_spares sound' after valid]
    exact organized.listed id member valid
  kept rest node there := by
    have kept := organized.kept rest node
    have first := before.get?_under (by decide : Layout.tagsName ∈ Layout.stores) rest
    have last := after.get?_under (by decide : Layout.tagsName ∈ Layout.stores) rest
    rw [locate_of_folder same] at last
    rw [locate_of_folder before.folder] at last kept
    rw [o.layout.locate_tags, List.append_assoc, List.singleton_append] at there kept ⊢
    rw [last]
    exact kept (first.trans there)
  named id valid lacks names := by
    obtain ⟨data, symbols, content, each, lines, found⟩ :=
      organized.named id valid ((lacks_of_spares sound before valid).mpr lacks) names
    refine ⟨data, symbols, ?_, each, lines, ?_⟩
    · rw [← content]
      exact (contentAt?_congr sound before.sound before.folder
        (before.get?_eq (o.layout.locate_object h valid) (by decide))).symm
    · exact (look_congr sound' after.sound after.folder
        (after.get?_eq (o.layout.locate_symbolFile n valid) (by decide))).mpr found
  unnamed id valid lacks others := by
    have unnamed := organized.unnamed id valid ((lacks_of_spares sound before valid).mpr lacks) others
    split
    · rename_i listed
      rw [if_pos listed] at unnamed
      exact (look_congr sound' after.sound after.folder
        (after.get?_eq (o.layout.locate_symbolFile n valid) (by decide))).mpr unnamed
    · rename_i unlisted
      rw [if_neg unlisted] at unnamed
      exact (lacks_of_spares sound' after valid).mpr unnamed

/-! ## Ways to get there -/

/-- Some workers organize contents, starting on `h`, without a failure. -/
inductive Organizes (o : Organizer) (workers : Nat) (ids : List Bytes) (h : Host) : Host → Prop
  /-- Without contents nothing is done. -/
  | nothing (none : ids = []) : Organizes o workers ids h h
  /-- A table is made and shared.  If it was read to its end, what is left is marked. -/
  | shared {batch table : Bytes} {reader : Reader} {k m n g : Host} (nonempty : ids ≠ [])
      (tabled : (o.tabled ids).on h = (.ok (batch, table), k))
      (shares : o.Shares workers ⟨table, none⟩ k m reader) (faultless : reader.fault = none)
      (marked : if reader.badLine = 0 then (o.markEmpty ids).on m = (.ok (), n) else Quiet m n)
      (removed : (Host.removeFile batch).on n = (.ok (), g)) : Organizes o workers ids h g

theorem Generates.unique {table table' : Bytes} (first : o.Generates h ids table)
    (second : o.Generates h ids table') : table' = table := by
  obtain ⟨batch, k, isReady, made⟩ := first
  obtain ⟨batch', k', isReady', made'⟩ := second
  rw [isReady] at isReady'
  cases isReady'
  rw [made] at made'
  cases made'
  rfl

/-- However many workers there are and however they take turns, the same comes out. -/
theorem organized_of_organizes (sound : h.Sound) (tidy : o.layout.Tidy)
    (still : (o.generator o.layout.root (ids.map Layout.objectRef)).Keeps Quiet) (nonempty : ids ≠ [])
    {table : Bytes} (generates : o.Generates h ids table)
    (whole : (o.reading h ⟨table, none⟩).2.badLine = 0)
    (faithful : Faithful (o.reading h ⟨table, none⟩).1) {workers : Nat}
    (organizes : o.Organizes workers ids h g) :
    o.Organized ids h (known (o.reading h ⟨table, none⟩).1) g := by
  cases organizes with
  | nothing none => exact absurd none nonempty
  | @shared batch table' reader k m n _ _ tabled shares _ marked removed =>
      have ended := (tabled_yields sound tidy still).holds
      rw [tabled] at ended
      obtain ⟨generates', isBatch, spares⟩ := ended
      obtain rfl : table' = table := generates.unique generates'
      obtain ⟨⟨made, wrote, stems, met⟩, stop⟩ :=
        made_of_shares spares.sound (agree_of_spares sound (by decide) spares) faithful shares
      have atEnd : reader.badLine = 0 := by
        rw [Reader.badLine, stop]
        exact whole
      rw [if_pos atEnd] at marked
      have ended := (markEmpty_yields spares.sound ids wrote).holds
      rw [marked] at ended
      obtain ⟨empty, subset, wrote, listed⟩ := ended
      have changes := (removeFile_changes wrote.sound batch).holds
      rw [removed] at changes
      have organized := Marked.organized spares.sound
        (fun e member => TagTable.newline_not_mem_entry_name (List.mem_of_mem_filter member))
        ⟨wrote, stems, met, subset, listed⟩
      exact organized.of_spares sound spares wrote.folder wrote.sound
        ((isBatch.of_folder wrote.folder).spares (by decide) changes)

theorem Faithful.of_unplaced {entries entries' : List Entry}
    (same : entries'.map Entry.unplaced = entries.map Entry.unplaced) (faithful : Faithful entries) :
    Faithful entries' := by
  intro e member valid
  rw [known, List.mem_filter] at member
  have isEntry : e.unplaced ∈ entries.map Entry.unplaced := same ▸ List.mem_map_of_mem member.1
  obtain ⟨e₀, inside, equal⟩ := List.mem_map.mp isEntry
  have isFile : e₀.file = e.file := (congrArg Entry.file equal :)
  have isKind : e₀.kind = e.kind := (congrArg Entry.kind equal :)
  rw [← isFile] at valid ⊢
  exact faithful e₀ (List.mem_filter.mpr ⟨inside, isKind ▸ member.2⟩) valid

/-- Whether a table names contents as they were given out does not depend on where it is read. -/
theorem faithful_of_spares (sound : h.Sound) (spares : o.layout.Spares Layout.stores h k)
    {table : Input} (faithful : Faithful (o.reading h table).1) : Faithful (o.reading k table).1 :=
  faithful.of_unplaced (Reader.readAll_unplaced (agree_of_spares sound (by decide) spares) _ rfl
    ((Reader.Matches.refl _ _).lookingIn _) rfl rfl)

/-- Organizing in one go is one of the ways. -/
theorem organizes_of_run (sound : h.Sound) (tidy : o.layout.Tidy)
    (still : (o.generator o.layout.root (ids.map Layout.objectRef)).Keeps Quiet) (nonempty : ids ≠ [])
    {table : Bytes} (generates : o.Generates h ids table)
    (faithful : Faithful (o.reading h ⟨table, none⟩).1) {workers : Nat} (one : 0 < workers)
    (done : (o.run ids).on h = (.ok (), g)) : o.Organizes workers ids h g := by
  obtain ⟨batch, table', k, m, tabled, settled, removed⟩ := run_ok nonempty done
  have ended := (tabled_yields sound tidy still).holds
  rw [tabled] at ended
  obtain ⟨generates', -, spares⟩ := ended
  obtain rfl : table' = table := generates.unique generates'
  have faithful := faithful_of_spares sound spares faithful
  obtain ⟨complete, n, split, marked⟩ := settle_ok settled
  obtain ⟨⟨reader, shares⟩, rfl, faultless⟩ := shares_of_splitTable spares.sound one faithful split
  obtain ⟨-, stop⟩ := made_of_shares spares.sound ⟨rfl, fun _ _ => rfl⟩ faithful shares
  have atEnd : reader.badLine = (o.reading k ⟨table', none⟩).2.badLine := by
    rw [Reader.badLine, stop]
    rfl
  refine .shared nonempty tabled shares ?_ ?_ removed
  · rw [Reader.fault, stop]
    exact faultless
  · rw [atEnd]
    simpa only [beq_iff_eq] using marked

/-- Without a table organizing fails, and nothing in the project has changed. -/
theorem run_of_no_table (sound : h.Sound) (tidy : o.layout.Tidy)
    (still : (o.generator o.layout.root (ids.map Layout.objectRef)).Keeps Quiet) (nonempty : ids ≠ [])
    (none : ∀ table, ¬o.Generates h ids table) :
    ∃ f g, (o.run ids).on h = (.error f, g) ∧ ∀ name rest,
      g.tree.get? (h.locate o.layout.root ++ name :: rest) =
        h.tree.get? (h.locate o.layout.root ++ name :: rest) := by
  have ended := (generate_drafts sound tidy still).holds
  rw [run_eq o nonempty, on_bind]
  cases generated : (o.generate ids).on h with
  | mk outcome g =>
      rw [generated] at ended
      cases outcome with
      | ok batch =>
          obtain ⟨-, m, table, -, generates⟩ := ended
          exact absurd generates (none table)
      | error f =>
          refine ⟨f, g, rfl, fun name rest => ended.tree.get?_off fun deeper => ?_⟩
          have := deeper.length_le
          rw [List.length_append, List.length_cons] at this
          omega

end

/-- A table that is read to its end and names contents as they were given out gives every content
on the list a symbol file: new ones have the first run of its entries, and those that were there
are as they were.  It does so with any number of workers, however they take turns, and when all is
done in one go.  Without a table the project stays as it was. -/
theorem run_writes_first_runs {o : Organizer} {h : Host} {ids : List Bytes} (sound : h.Sound)
    (tidy : o.layout.Tidy)
    (still : (o.generator o.layout.root (ids.map Layout.objectRef)).Keeps Quiet) :
    (ids = [] → (o.run ids).on h = (.ok (), h) ∧
      ∀ workers g, o.Organizes workers ids h g → g = h) ∧
    (ids ≠ [] → ∀ table, o.Generates h ids table → (o.reading h ⟨table, none⟩).2.badLine = 0 →
      Faithful (o.reading h ⟨table, none⟩).1 → ∀ workers g,
        (o.Organizes workers ids h g →
          o.Organized ids h (known (o.reading h ⟨table, none⟩).1) g) ∧
        (0 < workers → (o.run ids).on h = (.ok (), g) → o.Organizes workers ids h g)) ∧
    (ids ≠ [] → (∀ table, ¬o.Generates h ids table) →
      ∃ f g, (o.run ids).on h = (.error f, g) ∧ ∀ name rest,
        g.tree.get? (h.locate o.layout.root ++ name :: rest) =
          h.tree.get? (h.locate o.layout.root ++ name :: rest)) := by
  refine ⟨?_, ?_, run_of_no_table sound tidy still⟩
  · rintro rfl
    refine ⟨rfl, fun workers g organizes => ?_⟩
    cases organizes with
    | nothing => rfl
    | shared nonempty => exact absurd rfl nonempty
  · intro nonempty table generates whole faithful workers g
    exact ⟨organized_of_organizes sound tidy still nonempty generates whole faithful,
      organizes_of_run sound tidy still nonempty generates faithful⟩

def mixedId (b : UInt8) : Bytes := List.replicate 40 b

def mixedIds : List Bytes := [mixedId 97, mixedId 99, mixedId 98, mixedId 100]

/-- A project with three stored contents, one of which has a symbol file. -/
def mixedHost : Host where
  tree := ⟨[
    ([lit "db", lit "objects", mixedId 97],
      .file (lit "int alpha(void) \x7b\n\x7d\nint beta = 3;\n") false),
    ([lit "db", lit "objects", mixedId 98], .file (lit "#define GAMMA 1\n") false),
    ([lit "db", lit "objects", mixedId 99], .file (lit "int delta(int);\n") false),
    ([lit "db", lit "objects"], .folder),
    ([lit "db", lit "tags", mixedId 99], .file (lit "old\tFunction\t9\t\n") false),
    ([lit "db", lit "tags"], .folder),
    ([lit "db"], .folder)]⟩

/-- A table in which entries of an unknown kind stand within a run, one content comes back later and
one file is no content. -/
def mixedTable : Bytes :=
  lit "alpha\t" ++ Layout.objectRef (mixedId 97) ++ lit "\t/^int alpha(void) \x7b$/;\"\tf\n" ++
    lit "s\t" ++ Layout.objectRef (mixedId 98) ++ lit "\t1;\"\ts\n" ++
    lit "beta\t" ++ Layout.objectRef (mixedId 97) ++ lit "\t3;\"\tv\n" ++
    lit "GAMMA\t" ++ Layout.objectRef (mixedId 98) ++ lit "\t1;\"\td\n" ++
    lit "late\t" ++ Layout.objectRef (mixedId 97) ++ lit "\t1;\"\tf\n" ++
    lit "delta\t" ++ Layout.objectRef (mixedId 99) ++ lit "\t1;\"\tf\n" ++
    lit "main\tmain.c\t4;\"\tf\n"

/-- An organizer whose generator writes this table and may fail then. -/
def mixedOrganizer (failure : Option Fault) : Organizer where
  layout := ⟨lit "/db"⟩
  generator := fun _ _ => pure ⟨mixedTable, failure⟩

theorem mixedHost_sound : mixedHost.Sound := by decide +kernel

theorem run_writes_first_runs_mixed :
    (∃ g, ((mixedOrganizer none).run mixedIds).on mixedHost = (.ok (), g) ∧
      (mixedOrganizer none).Organizes 2 mixedIds mixedHost g ∧
      (mixedOrganizer none).Organized mixedIds mixedHost
        (known ((mixedOrganizer none).reading mixedHost ⟨mixedTable, none⟩).1) g ∧
      g.look (lit "/db/tags/" ++ mixedId 97) = .ok (.file
        (lit "alpha\tFunction\t1\tint {name}(void)\nbeta\tVariable\t3\t = 3\n") false)) ∧
    ∃ f g, ((mixedOrganizer (some .canceled)).run mixedIds).on mixedHost = (.error f, g) ∧
      ∀ name rest, g.tree.get? (mixedHost.locate (lit "/db") ++ name :: rest) =
        mixedHost.tree.get? (mixedHost.locate (lit "/db") ++ name :: rest) := by
  have tidy : ∀ failure, (mixedOrganizer failure).layout.Tidy := by
    intro failure
    change clean (lit "/db") = lit "/db"
    decide +kernel
  have still : ∀ failure, ((mixedOrganizer failure).generator (mixedOrganizer failure).layout.root
      (mixedIds.map Layout.objectRef)).Keeps Quiet := fun _ => Keeps.pure quiet_lasting _
  constructor
  · -- one evaluation of the run, and one of what is read of the table
    have ended : (((mixedOrganizer none).run mixedIds).on mixedHost).1 = .ok () ∧
        (((mixedOrganizer none).run mixedIds).on mixedHost).2.look (lit "/db/tags/" ++ mixedId 97) =
          .ok (.file (lit "alpha\tFunction\t1\tint {name}(void)\nbeta\tVariable\t3\t = 3\n") false) := by
      decide +kernel
    have read : Faithful ((mixedOrganizer none).reading mixedHost ⟨mixedTable, none⟩).1 ∧
        ((mixedOrganizer none).reading mixedHost ⟨mixedTable, none⟩).2.badLine = 0 := by
      decide +kernel
    obtain ⟨k, isReady⟩ : ∃ k, ((mixedOrganizer none).ready mixedIds).on mixedHost =
        (.ok (lit "/db/.ctags-1"), k) := exists_on_of_ok (by decide +kernel)
    obtain ⟨done, text⟩ := ended
    obtain ⟨g, done⟩ := exists_on_of_ok done
    rw [done] at text
    obtain ⟨-, settled, -⟩ := run_writes_first_runs mixedHost_sound (tidy none) (still none)
    obtain ⟨organized, organizes⟩ := settled (by decide) mixedTable ⟨_, k, isReady, rfl⟩
      read.2 read.1 2 g
    have shared := organizes (by decide) done
    exact ⟨g, done, shared, organized shared, text⟩
  · obtain ⟨-, -, failed⟩ := run_writes_first_runs mixedHost_sound (tidy _) (still (some .canceled))
    refine failed (by decide) fun table generates => ?_
    obtain ⟨batch, k, -, made⟩ := generates
    cases made

end Organizer

end SymbolHistory
