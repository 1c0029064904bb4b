/-
# Proofs.CombinedTables -- what can be made again from the combined table

Splitting the combined table goes by the first group of a content in all of it.  So
a symbol file that was lost comes back as it was if that group says what the file
said.  It does when all tables that mention the content say the same and the first
of them is not followed by more of it (`Settles`); otherwise two groups run into
one (`splitCombined_doubles`).
-/
import SymbolHistory.Proofs.AddedTables

set_option autoImplicit false

namespace SymbolHistory

open SymbolHistory.Path FileTree Run Host

namespace Organizer

open TagTable (Entry Reader Sources Whole entriesOf)

variable {o : Organizer} {h g : Host} {tables : List Bytes}

def combinedGroups (o : Organizer) (h : Host) : List Group :=
  groups (o.reading h ⟨o.combinedText h, none⟩).1

/-- The combined table is split like any other; without one there is nothing to split. -/
theorem splitCombined_yields (sound : h.Sound) :
    o.splitCombined.Yields h
      (fun _ g => o.Parted h (o.combinedGroups h) g ∧
        ∀ group ∈ o.combinedGroups h, ObjectId.isValid group.id = true → ¬o.Lacks g group.id)
      (o.Parted h (o.combinedGroups h)) := by
  have split : ∀ table : Input, groups (o.reading h table).1 = o.combinedGroups h →
      (o.split table).Yields h
        (fun _ g => o.Parted h (o.combinedGroups h) g ∧
          ∀ group ∈ o.combinedGroups h, ObjectId.isValid group.id = true → ¬o.Lacks g group.id)
        (o.Parted h (o.combinedGroups h)) := by
    intro table same
    have ended := splitTable_yields (o := o) sound table
    rw [same] at ended
    refine ended.discard.mono ?_ fun _ parted => parted
    rintro _ g ⟨_, parted, -, all⟩
    exact ⟨parted, all⟩
  have nothing : o.combinedText h = [] → o.combinedGroups h = [] := by
    intro empty
    rw [combinedGroups, empty]
    rfl
  have untouched : o.combinedText h = [] → o.Parted h (o.combinedGroups h) h := by
    intro empty
    rw [nothing empty]
    exact ⟨⟨[], Wrote.refl o sound, by simp [Stems]⟩, by simp⟩
  rw [splitCombined, yields_get_bind]
  cases found : h.look o.layout.combined with
  | ok node =>
      cases node with
      | folder =>
          have empty : o.combinedText h = [] := by rw [combinedText, contentAt?, found]; rfl
          exact split _ (by rw [nothing empty]; rfl)
      | file content x =>
          have whole : o.combinedText h = content := by rw [combinedText, contentAt?, found]; rfl
          exact split _ (by rw [combinedGroups, whole])
  | error e =>
      have empty : o.combinedText h = [] := by rw [combinedText, contentAt?, found]; rfl
      cases e with
      | noEntry =>
          refine ⟨untouched empty, ?_⟩
          rw [nothing empty]
          simp
      | _ => exact ⟨untouched empty⟩

/-- A content gets a symbol file exactly when the groups up to its first one can be written, and
then it is what that group says. -/
theorem Parted.look_iff {gs : List Group} (sound : h.Sound) (parted : o.Parted h gs g) {id : Bytes}
    (valid : ObjectId.isValid id = true) (lacks : o.Lacks h id) (text : Bytes) :
    g.look (o.layout.tagStore.path id) = .ok (.file text false) ↔
      o.Reaches (begun h) gs id ∧
        ∃ group, gs.find? (·.id == id) = some group ∧ o.textOf? h group = some text := by
  obtain ⟨new, wrote, stems⟩ := parted.made
  have named : ∀ {group}, gs.find? (·.id == id) = some group → ∃ group ∈ gs, group.id = id :=
    fun {group} found => ⟨group, List.mem_of_find?_eq_some found, by simpa using List.find?_some found⟩
  constructor
  · intro there
    have made : id ∈ new.map Prod.fst := by
      by_contra notMade
      have missing := (wrote.lacks_iff sound valid).mpr ⟨lacks, notMade⟩
      rw [Lacks, there] at missing
      cases missing
    obtain ⟨⟨id', text'⟩, member, rfl⟩ := List.mem_map.mp made
    obtain ⟨-, -, -, group, found, isText⟩ := stems _ member
    have written : g.look (o.layout.tagStore.path id') = .ok (.file text' false) :=
      wrote.look_of_mem member
    rw [written] at there
    cases there
    refine ⟨?_, group, found, isText⟩
    by_contra unreached
    have missing := (parted.lacks_iff valid lacks (named found)).mpr unreached
    rw [Lacks, written] at missing
    cases missing
  · rintro ⟨reached, group, found, isText⟩
    have made : id ∈ new.map Prod.fst := by
      by_contra notMade
      exact (parted.lacks_iff valid lacks (named found)).mp
        ((wrote.lacks_iff sound valid).mpr ⟨lacks, notMade⟩) reached
    obtain ⟨⟨id', text'⟩, member, rfl⟩ := List.mem_map.mp made
    obtain ⟨-, -, -, group', found', isText'⟩ := stems _ member
    rw [found] at found'
    cases found'
    rw [isText] at isText'
    cases isText'
    exact wrote.look_of_mem member

/-- Tables give a content one symbol file: those that mention it agree on it, only the last may lack
its newline, and where the content comes up first the next table does not go on with it. -/
structure Settles (o : Organizer) (h : Host) (tables : List Bytes) (id : Bytes) : Prop where
  sensible : ∀ u ∈ tables, Sensible u
  ended : ∀ u ∈ tables.dropLast, u.Ended
  alike : ∀ u ∈ tables, ∀ v ∈ tables, o.Mentions id u → o.Mentions id v →
    o.tells h u id = o.tells h v id
  apart : ∀ e ∈ (known ((tables.dropWhile (¬o.Mentions id ·)).tail.flatMap fun u =>
    entriesOf (Bytes.lines u))).head?, e.file ≠ Layout.objectRef id

/-- A table that gives a content a symbol file with symbols has entries of it. -/
theorem firstRun_of_tells {table id text : Bytes} (told : o.tells h table id = some text)
    (nonempty : text ≠ []) :
    firstRun (Layout.objectRef id) (known (o.reading h ⟨table, none⟩).1) ≠ [] := by
  intro none
  rw [tells, none] at told
  obtain ⟨data, -, isText⟩ := Option.bind_eq_some_iff.mp told
  cases isText
  exact nonempty rfl

theorem mentions_of_tells {table id text : Bytes} (whole : Whole table)
    (told : o.tells h table id = some text) (nonempty : text ≠ []) : o.Mentions id table := by
  obtain ⟨e, inRun⟩ := List.exists_mem_of_ne_nil _ (firstRun_of_tells told nonempty)
  have isFile : e.file = Layout.objectRef id := by
    simpa using List.mem_takeWhile_imp inRun
  have isRead := List.mem_of_mem_filter (firstRun_subset _ _ inRun)
  rw [reading, TagTable.readAll_eq whole] at isRead
  have unplaced := List.mem_map_of_mem (f := Entry.unplaced) isRead
  rw [TagTable.placeAll_unplaced] at unplaced
  obtain ⟨f, member, same⟩ := List.mem_map.mp unplaced
  have sameFile : f.file = e.file := (congrArg Entry.file same :)
  exact ⟨f, member, by rw [sameFile, isFile]⟩

/-- All of the tables together give a content what each of them does. -/
theorem Settles.tells {id table text : Bytes} (settles : o.Settles h tables id)
    (member : table ∈ tables) (told : o.tells h table id = some text) (nonempty : text ≠ []) :
    o.tells h tables.flatten id = some text := by
  let silent := fun u => decide (¬o.Mentions id u)
  have mentions := mentions_of_tells (settles.sensible table member).1 told nonempty
  obtain ⟨part, after, split⟩ : ∃ part after, tables.dropWhile silent = part :: after := by
    refine List.exists_cons_of_ne_nil fun none => ?_
    have all := List.dropWhile_eq_nil_iff.mp none table member
    exact of_decide_eq_true all mentions
  have whole : tables = tables.takeWhile silent ++ part :: after := by
    rw [← split, List.takeWhile_append_dropWhile]
  have first : o.Mentions id part := by
    have speaks := List.head_dropWhile_not (p := silent) (l := tables) (by rw [split]; simp)
    simp only [split, List.head_cons] at speaks
    simpa [silent] using speaks
  have isTable : part ∈ tables := by rw [whole]; simp
  have told : o.tells h part id = some text :=
    (settles.alike part isTable table member first mentions).trans told
  have next := settles.apart
  rw [split, List.tail_cons] at next
  have run : firstRun (Layout.objectRef id) (known (o.reading h
        ⟨(tables.takeWhile silent ++ part :: after).flatten, none⟩).1) =
      firstRun (Layout.objectRef id) (known (o.reading h ⟨part, none⟩).1) := by
    refine firstRun_of_parts ⟨rfl, fun _ _ => rfl⟩ ?_ ?_ ?_ (firstRun_of_tells told nonempty) next
    · rw [← whole]
      exact settles.ended
    · rw [← whole]
      exact fun u inside => (settles.sensible u inside).1
    · intro u inside e isEntry samePlace
      have isSilent : silent u = true := List.mem_takeWhile_imp inside
      exact of_decide_eq_true isSilent ⟨e, isEntry, samePlace⟩
  rw [← whole] at run
  rw [Organizer.tells, run]
  exact told

/-- What is read of sensible tables that stand one after another names contents as they were given
out. -/
theorem Settles.faithful {id : Bytes} (settles : o.Settles h tables id) :
    Faithful (o.reading h ⟨tables.flatten, none⟩).1 := by
  refine faithful_reading ?_ ?_ h
  · intro l member
    rw [Bytes.lines_flatten settles.ended] at member
    obtain ⟨u, isTable, inside⟩ := List.mem_flatMap.mp member
    exact (settles.sensible u isTable).1 l inside
  · intro e member
    rw [Bytes.lines_flatten settles.ended, TagTable.entriesOf_flatMap, known, List.mem_filter] at member
    obtain ⟨u, isTable, inside⟩ := List.mem_flatMap.mp member.1
    exact (settles.sensible u isTable).2 e (List.mem_filter.mpr ⟨inside, member.2⟩)

/-- Without a folder for them there are no symbol files. -/
theorem lacks_of_no_folder (sound : h.Sound)
    (none : h.tree.get? (h.locate o.layout.tags) ≠ some .folder) {id : Bytes}
    (valid : ObjectId.isValid id = true) : o.Lacks h id := by
  rw [Lacks]
  cases found : h.look (o.layout.tagStore.path id) with
  | error e => rfl
  | ok n =>
      have there := ((look_eq_ok_iff sound).mp found).2.1
      have parent := sound.tree.get?_dropLast (Option.isSome_of_eq_some there)
      rw [ObjectStore.path, h.locate_join _ (ObjectId.isName_of_isValid valid), List.dropLast_concat]
        at parent
      exact absurd parent none

/-- A project with two stored contents that were never organized. -/
def pairHost : Host where
  tree := ⟨[
    ([lit "db", lit "objects", mixedId 97], .file (lit "int alpha(void) \x7b\n\x7d\n") false),
    ([lit "db", lit "objects", mixedId 98], .file (lit "#define GAMMA 1\n") false),
    ([lit "db", lit "objects"], .folder),
    ([lit "db"], .folder)]⟩

def pairTable (b : UInt8) : Bytes :=
  if b = 97 then
    lit "alpha\t" ++ Layout.objectRef (mixedId b) ++ lit "\t/^int alpha(void) \x7b$/;\"\tf\n"
  else lit "GAMMA\t" ++ Layout.objectRef (mixedId b) ++ lit "\t1;\"\td\n"

/-- An organizer whose tables have one entry for each content. -/
def pairOrganizer : Organizer where
  layout := ⟨lit "/db"⟩
  generator := fun _ paths => pure {
    text := paths.flatMap fun p =>
      pairTable (if p = Layout.objectRef (mixedId 97) then 97 else 98) }

def pairText : Bytes := lit "alpha\tFunction\t1\tint {name}(void)\n"

theorem pairHost_sound : pairHost.Sound := by decide +kernel

theorem pairOrganizer_tidy : pairOrganizer.layout.Tidy := by decide +kernel

theorem pairHost_history : pairOrganizer.History [] pairHost :=
  .fresh pairHost_sound (by decide +kernel) fun _ => lacks_of_no_folder pairHost_sound (by decide +kernel)

/-- The first content is organized again after its symbol file was lost. -/
def organizedAgain (h : Host) : Host :=
  ((pairOrganizer.run [mixedId 97]).on ((pairOrganizer.lose [mixedId 97]).on h).2).2

theorem organizedAgain_history {tables : List Bytes} {h : Host}
    (history : pairOrganizer.History tables h)
    (added : pairOrganizer.added [mixedId 97] ((pairOrganizer.lose [mixedId 97]).on h).2 = [pairTable 97]) :
    pairOrganizer.History (tables ++ [pairTable 97]) (organizedAgain h) := by
  have valid : ∀ id ∈ [mixedId 97], ObjectId.isValid id = true := by decide +kernel
  have again := (history.lost valid).organized [mixedId 97]
  rwa [added] at again

end Organizer

end SymbolHistory
