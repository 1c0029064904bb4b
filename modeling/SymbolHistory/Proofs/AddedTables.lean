/-
# Proofs.AddedTables -- the tables that have been added to a project

Every call that organizes contents adds its table to the combined one, whatever
becomes of it then.  `History` says which tables have been added to a project, and
`Recorded` what that leaves: the combined table is the tables one after another,
and a symbol file that is not empty is what one of them gives its content
(`tells`).  Each step of a history keeps that (`History.recorded`), also when
symbol files are lost.
-/
import SymbolHistory.Proofs.TableParts
import SymbolHistory.Proofs.WholeTables

set_option autoImplicit false

namespace SymbolHistory

open SymbolHistory.Path FileTree Run Host

namespace Organizer

open TagTable (Entry Reader Sources Whole entriesOf)

variable {o : Organizer} {h g k : Host} {ids tables : List Bytes}

/-! ## The combined table -/

def combinedText (o : Organizer) (h : Host) : Bytes := (h.contentAt? o.layout.combined).getD []

theorem combinedText_of_spares (sound : h.Sound) {apart : List Bytes} (isApart : lit "ctags" ∈ apart)
    (spares : o.layout.Spares apart h g) : o.combinedText g = o.combinedText h := by
  rw [combinedText, combinedText, contentAt?_congr sound spares.sound spares.folder
    (spares.get?_eq (locate_combined o.layout h) isApart)]

/-- A table that is added stands at the end of the combined one. -/
theorem appendCombined_content (sound : h.Sound) {batch table : Bytes}
    (there : h.contentAt? batch = some table) :
    (o.appendCombined batch).Yields h (fun _ g => o.combinedText g = o.combinedText h ++ table)
      (fun g => o.combinedText g = o.combinedText h) := by
  rw [appendCombined, yields_during]
  refine (readFile_yields there).bind ?_
  rintro _ g ⟨rfl, rfl⟩
  have opened := (openAtEnd_changes sound o.layout.combined).and (openAtEnd_content sound _)
  refine Ends.bind opened ?_ ?_
  · rintro _ k ⟨changes, content⟩
    refine (append_content changes.sound content _).mono ?_ ?_
    · intro _ m content'
      rw [combinedText, content']
      rfl
    · rintro _ rfl
      rw [combinedText, content]
      rfl
  · rintro e k ⟨-, same⟩
    exact congrArg o.combinedText same

/-- A table that was made is the last part of the combined one; a call that failed to make one
added nothing. -/
theorem tabled_content (sound : h.Sound) (tidy : o.layout.Tidy)
    (still : (o.generator o.layout.root (ids.map Layout.objectRef)).Keeps Quiet) :
    (o.tabled ids).Yields h (fun a g => o.combinedText g = o.combinedText h ++ a.2)
      (fun g => o.combinedText g = o.combinedText h) := by
  have visible : ∀ name ∈ [lit "ctags"], name.head? ≠ some 46 := by decide
  rw [tabled]
  have before : ∀ {g}, o.layout.Spares [lit "ctags"] h g → o.combinedText g = o.combinedText h :=
    fun spares => combinedText_of_spares sound List.mem_cons_self spares
  refine ((generate_drafts sound tidy still).mono (fun _ _ made => made) fun _ grown =>
    before (.of_grows grown)).bind ?_
  rintro batch g ⟨isBatch, m, table, draft, -⟩
  have same := before (spares_of_draft isBatch visible draft)
  have there : g.contentAt? batch = some table := by rw [contentAt?, draft.look]
  have isBatch := isBatch.of_folder (draft.setting.folder.trans draft.base.folder)
  refine Ends.bind ((appendCombined_changes draft.sound batch).and
    (appendCombined_content (o := o) draft.sound there)) ?_ ?_
  · rintro _ k ⟨changes, content⟩
    rw [same] at content
    rw [← content_of_batch draft.sound isBatch changes] at there
    refine ((readFile_yields there).during _).bind ?_
    rintro _ _ ⟨rfl, rfl⟩
    rw [yields_pure]
    exact content
  · rintro e k ⟨-, unchanged⟩
    exact unchanged.trans same

/-! ## What a table says -/

/-- The symbol file that a table gives a content. -/
def tells (o : Organizer) (h : Host) (table id : Bytes) : Option Bytes :=
  o.textOf? h ⟨Layout.objectRef id,
    firstRun (Layout.objectRef id) (known (o.reading h ⟨table, none⟩).1)⟩

/-- Where the lines of a table's file are looked up. -/
def placeOf (o : Organizer) (file : Bytes) : Bytes := Sources.path ⟨o.layout.root, fun _ => none⟩ file

/-- A table has an entry that is looked up in a content. -/
def Mentions (o : Organizer) (id table : Bytes) : Prop :=
  ∃ e ∈ entriesOf (Bytes.lines table), o.placeOf e.file = o.placeOf (Layout.objectRef id)

instance (o : Organizer) (id table : Bytes) : Decidable (o.Mentions id table) :=
  inferInstanceAs (Decidable (∃ e ∈ _, _))

theorem placeOf_objectRef (o : Organizer) (id : Bytes) :
    o.placeOf (Layout.objectRef id) = join [o.layout.root, Layout.objectRef id] := by
  have relative : isAbsolute (Layout.objectRef id) = false := rfl
  rw [placeOf, Sources.path, relative]
  rfl

/-- What a table gives a content that is stored it gives it for as long as the content is there. -/
theorem tells_of_kept {table id text : Bytes} (sound : h.Sound) (sound' : g.Sound)
    (folder : g.folder = h.folder) (valid : ObjectId.isValid id = true) (whole : Whole table)
    (kept : ∀ n, h.tree.get? (h.locate o.layout.root ++ [Layout.objectsName, id]) = some n →
      g.tree.get? (h.locate o.layout.root ++ [Layout.objectsName, id]) = some n)
    (told : o.tells h table id = some text) : o.tells g table id = some text := by
  obtain ⟨data, content, -⟩ := Option.bind_eq_some_iff.mp told
  rw [Group.id, Layout.base_objectRef valid] at content
  obtain ⟨x, found⟩ := exists_look_of_contentAt? content
  obtain ⟨-, there, -⟩ := (look_eq_ok_iff sound).mp found
  rw [o.layout.locate_object h valid] at there
  have same := (kept _ there).trans there.symm
  have agree : (o.sources h).Agree (· = (o.sources h).path (Layout.objectRef id)) (o.sources g) := by
    refine ⟨rfl, ?_⟩
    rintro _ rfl
    have place : (o.sources h).path (Layout.objectRef id) =
        join [o.layout.root, Layout.objectRef id] := o.placeOf_objectRef id
    rw [place]
    exact contentAt?_congr sound sound' folder (by rwa [o.layout.locate_objectRef h valid])
  have sameObject : g.contentAt? (o.layout.objectStore.path id) =
      h.contentAt? (o.layout.objectStore.path id) :=
    contentAt?_congr sound sound' folder (by rwa [o.layout.locate_object h valid])
  rw [tells, textOf?, Group.id, Layout.base_objectRef valid, sameObject, reading,
    ← firstRun_agree agree whole]
  rwa [tells, textOf?, Group.id, Layout.base_objectRef valid] at told

/-! ## First groups -/

/-- The first group of a content holds the first run of its entries. -/
theorem Partition.find?_eq_some_iff {id : Bytes} (valid : ObjectId.isValid id = true)
    {group : Group} {groups : List Group} :
    ∀ {entries : List Entry}, Partition groups entries →
      (∀ e ∈ entries, ObjectId.isValid (base e.file) = true →
        e.file = Layout.objectRef (base e.file)) →
      (groups.find? (·.id == id) = some group ↔
        group = ⟨Layout.objectRef id, firstRun (Layout.objectRef id) entries⟩ ∧ group.entries ≠ []) := by
  induction groups with
  | nil =>
      intro entries parts _
      obtain rfl : entries = [] := parts.whole.symm
      constructor
      · rintro ⟨⟩
      · rintro ⟨rfl, nonempty⟩
        exact absurd rfl nonempty
  | cons first rest ih =>
      intro entries parts faithful
      have whole : entries = first.entries ++ rest.flatMap Group.entries := parts.whole.symm
      have own := parts.own first List.mem_cons_self
      have nonempty := parts.nonempty first List.mem_cons_self
      by_cases isId : first.id = id
      · obtain ⟨e, inside⟩ := List.exists_mem_of_ne_nil _ nonempty
        have isFile : first.file = Layout.objectRef id := by
          have named := faithful e (whole ▸ List.mem_append_left _ inside)
          rw [own e inside] at named
          have isBase : base first.file = id := isId
          rw [isBase] at named
          exact named valid
        have run : firstRun (Layout.objectRef id) entries = first.entries := by
          rw [whole, ← List.nil_append first.entries]
          refine firstRun_eq (by simp) (fun e inside => (own e inside).trans isFile) nonempty ?_
          rw [← isFile]
          exact parts.turns
        rw [List.find?_cons_of_pos (by simpa using isId), run, ← isFile]
        constructor
        · rintro ⟨⟩
          exact ⟨rfl, nonempty⟩
        · rintro ⟨rfl, -⟩
          rfl
      · have others : ∀ e ∈ first.entries, e.file ≠ Layout.objectRef id := by
          intro e inside isFile
          rw [own e inside] at isFile
          exact isId ((congrArg base isFile).trans (Layout.base_objectRef valid))
        have later := ih parts.tail fun e member =>
          faithful e (whole ▸ List.mem_append_right _ member)
        rw [List.find?_cons_of_neg (by simpa using isId), later, whole, firstRun, firstRun,
          List.dropWhile_append_of_pos (by simpa using others)]

theorem find?_groups {entries : List Entry} (faithful : Faithful entries) {id : Bytes}
    (valid : ObjectId.isValid id = true) {group : Group} :
    (groups entries).find? (·.id == id) = some group ↔
      group = ⟨Layout.objectRef id, firstRun (Layout.objectRef id) (known entries)⟩ ∧
        group.entries ≠ [] :=
  (partition_groups entries).find?_eq_some_iff valid faithful

/-- A symbol file that is made of a table and is not empty is what the table gives the content. -/
theorem Stems.told {table : Bytes} {new : List (Bytes × Bytes)}
    (stems : o.Stems h [] new (groups (o.reading h ⟨table, none⟩).1))
    (faithful : Faithful (o.reading h ⟨table, none⟩).1) {e : Bytes × Bytes} (member : e ∈ new) :
    o.tells h table e.1 = some e.2 := by
  obtain ⟨-, valid, -, group, found, isText⟩ := stems e member
  obtain ⟨rfl, -⟩ := (find?_groups faithful valid).mp found
  exact isText

/-- The entries that are read of a table are those of its lines. -/
theorem faithful_reading {table : Bytes} (whole : Whole table)
    (faithful : Faithful (entriesOf (Bytes.lines table))) (h : Host) :
    Faithful (o.reading h ⟨table, none⟩).1 := by
  refine faithful.of_unplaced ?_
  rw [reading, TagTable.readAll_eq whole, TagTable.placeAll_unplaced]

/-! ## Losing symbol files -/

/-- Remove the symbol files of some contents. -/
def lose (o : Organizer) (lost : List Bytes) : Run Unit :=
  lost.forM fun id => Host.removeFile (o.layout.tagStore.path id)

/-- On `g` some symbol files of `h` are gone. -/
structure Lost (o : Organizer) (lost : List Bytes) (h g : Host) : Prop extends SameSetting h g where
  cache : g.tally.cache = h.tally.cache
  sound : g.Sound
  tree : ∀ l, g.tree.get? l = h.tree.get? l ∨
    g.tree.get? l = none ∧ ∃ id ∈ lost, l = h.locate o.layout.root ++ [Layout.tagsName, id]
  gone : ∀ id ∈ lost, g.contentAt? (o.layout.tagStore.path id) = none

namespace Lost

variable {lost : List Bytes}

theorem get?_some (gone : o.Lost lost h g) {l : Location} {n : Node} (there : g.tree.get? l = some n) :
    h.tree.get? l = some n := by
  rcases gone.tree l with same | ⟨missing, -⟩
  · exact same.symm.trans there
  · rw [missing] at there
    cases there

/-- A path leads to what it led to, or to nothing. -/
theorem look_of_ok (gone : o.Lost lost h g) (sound : h.Sound) {p : Bytes} {n : Node}
    (found : g.look p = .ok n) : h.look p = .ok n := by
  rw [look_eq_ok_iff gone.sound, locate_of_folder gone.folder] at found
  exact (look_eq_ok_iff sound).mpr ⟨found.1, gone.get?_some found.2.1, found.2.2⟩

theorem contentAt?_some (gone : o.Lost lost h g) (sound : h.Sound) {p text : Bytes}
    (there : g.contentAt? p = some text) : h.contentAt? p = some text := by
  obtain ⟨x, found⟩ := exists_look_of_contentAt? there
  rw [contentAt?, gone.look_of_ok sound found]

theorem spares (gone : o.Lost lost h g) : o.layout.Spares [Layout.objectsName, lit "ctags"] h g := by
  refine ⟨gone.toSameSetting, gone.cache, gone.sound, fun l => ?_⟩
  rcases gone.tree l with same | ⟨-, id, -, rfl⟩
  · exact .inl same
  · exact .inr (.inl ⟨Layout.tagsName, by decide, ⟨[id], by simp⟩⟩)

/-- A symbol file that was there and was removed is not there. -/
theorem lacks (gone : o.Lost lost h g) (sound : h.Sound) {id text : Bytes} (isLost : id ∈ lost)
    (there : h.contentAt? (o.layout.tagStore.path id) = some text) : o.Lacks g id := by
  have missing := gone.gone id isLost
  rw [Lacks]
  cases found : g.look (o.layout.tagStore.path id) with
  | error e => rfl
  | ok n =>
      have before := gone.look_of_ok sound found
      rw [contentAt?, before] at there
      rw [contentAt?, found, there] at missing
      cases missing

theorem trans {more : List Bytes} (first : o.Lost lost h g) (second : o.Lost more g k) :
    o.Lost (lost ++ more) h k := by
  refine ⟨sameSetting_lasting.trans first.toSameSetting second.toSameSetting,
    second.cache.trans first.cache, second.sound, fun l => ?_, fun id member => ?_⟩
  · rcases second.tree l with same | ⟨missing, id, isLost, rfl⟩
    · rw [same]
      rcases first.tree l with same | ⟨missing, id, isLost, rfl⟩
      · exact .inl same
      · exact .inr ⟨missing, id, List.mem_append_left _ isLost, rfl⟩
    · rw [locate_of_folder first.folder] at missing ⊢
      exact .inr ⟨missing, id, List.mem_append_right _ isLost, rfl⟩
  · rcases List.mem_append.mp member with before | after
    · cases there : k.contentAt? (o.layout.tagStore.path id) with
      | none => rfl
      | some text =>
          rw [← there, ← first.gone id before]
          rw [second.contentAt?_some first.sound there, there]
    · exact second.gone id after

end Lost

/-- One symbol file is gone. -/
theorem removeFile_lost (sound : h.Sound) {id : Bytes} (valid : ObjectId.isValid id = true) :
    (Host.removeFile (o.layout.tagStore.path id)).Yields h (fun _ g => o.Lost [id] h g)
      (fun _ => False) := by
  have place := o.layout.locate_symbolFile h valid
  cases found : h.look (o.layout.tagStore.path id) with
  | error e =>
      rw [Host.removeFile, yields_modify, found]
      refine ⟨⟨rfl, rfl, rfl⟩, rfl, sound, fun _ => .inl rfl, fun _ member => ?_⟩
      rw [List.mem_singleton.mp member, contentAt?, found]
  | ok node =>
      cases node with
      | folder =>
          rw [Host.removeFile, yields_modify, found]
          refine ⟨⟨rfl, rfl, rfl⟩, rfl, sound, fun _ => .inl rfl, fun _ member => ?_⟩
          rw [List.mem_singleton.mp member, contentAt?, found]
      | file content x =>
          have there := ((look_eq_ok_iff sound).mp found).2.1
          have leaf : h.tree.get? (h.locate (o.layout.tagStore.path id)) ≠ some .folder := by simp [there]
          have changes := changes_of_erase sound leaf
          have erased := get?_erase h.tree (h.locate (o.layout.tagStore.path id))
            (h.locate (o.layout.tagStore.path id)) (ne_nil_of_not_folder leaf)
          rw [if_pos rfl] at erased
          rw [Yields, ends_iff, on_removeFile found]
          refine ⟨changes.toSameSetting, changes.cache, changes.sound, fun l => ?_, fun _ member => ?_⟩
          · by_cases here : l = h.locate (o.layout.tagStore.path id)
            · subst here
              exact .inr ⟨erased, id, List.mem_cons_self, place⟩
            · exact .inl (changes.tree l here)
          · rw [List.mem_singleton.mp member]
            exact contentAt?_of_get? changes.sound erased

theorem lose_yields {lost : List Bytes} (valid : ∀ id ∈ lost, ObjectId.isValid id = true) :
    ∀ {h : Host}, h.Sound → (o.lose lost).Yields h (fun _ g => o.Lost lost h g) (fun _ => False) := by
  induction lost with
  | nil =>
      intro h sound
      rw [lose]
      exact ⟨⟨⟨rfl, rfl, rfl⟩, rfl, sound, fun _ => .inl rfl, by simp⟩⟩
  | cons id lost ih =>
      intro h sound
      refine (removeFile_lost sound (valid id List.mem_cons_self)).bind fun _ g first => ?_
      have rest := ih (fun other member => valid other (List.mem_cons_of_mem _ member)) first.sound
      exact rest.mono (fun _ _ second => first.trans second) fun _ never => never

/-! ## What has been added -/

/-- The table that a call adds to the combined one, whatever becomes of the call then. -/
def added (o : Organizer) (ids : List Bytes) (h : Host) : List Bytes :=
  if ids.isEmpty then []
  else
    match ((o.tabled ids).on h).1 with
    | .ok a => [a.2]
    | .error _ => []

/-- What others may do to a project between two calls: they store contents. -/
structure Undisturbed (o : Organizer) (h g : Host) : Prop where
  sound : g.Sound
  folder : g.folder = h.folder
  combined : g.tree.get? (h.locate o.layout.combined) = h.tree.get? (h.locate o.layout.combined)
  tags : ∀ id, ObjectId.isValid id = true →
    g.tree.get? (h.locate o.layout.root ++ [Layout.tagsName, id]) =
      h.tree.get? (h.locate o.layout.root ++ [Layout.tagsName, id])
  objects : ∀ id n, ObjectId.isValid id = true →
    h.tree.get? (h.locate o.layout.root ++ [Layout.objectsName, id]) = some n →
    g.tree.get? (h.locate o.layout.root ++ [Layout.objectsName, id]) = some n

/-- The tables that have been added to a project, from its beginning. -/
inductive History (o : Organizer) : List Bytes → Host → Prop
  /-- A project without a table and without symbol files. -/
  | fresh {h : Host} (sound : h.Sound) (none : h.contentAt? o.layout.combined = none)
      (lacks : ∀ id, ObjectId.isValid id = true → o.Lacks h id) : History o [] h
  /-- Some contents were organized, or it was tried. -/
  | organized {tables : List Bytes} {h : Host} (history : History o tables h) (ids : List Bytes) :
      History o (tables ++ o.added ids h) ((o.run ids).on h).2
  /-- A call that came no further than adding its table. -/
  | stopped {tables ids : List Bytes} {batch table : Bytes} {h g : Host} (history : History o tables h)
      (nonempty : ids ≠ []) (tabled : (o.tabled ids).on h = (.ok (batch, table), g)) : History o (tables ++ [table]) g
  /-- Some symbol files were lost. -/
  | lost {tables lost : List Bytes} {h : Host} (history : History o tables h)
      (valid : ∀ id ∈ lost, ObjectId.isValid id = true) : History o tables ((o.lose lost).on h).2
  /-- Something else happened. -/
  | later {tables : List Bytes} {h g : Host} (history : History o tables h)
      (undisturbed : o.Undisturbed h g) : History o tables g

/-- A table can be read to its end, and names contents as they were given out. -/
def Sensible (table : Bytes) : Prop := Whole table ∧ Faithful (entriesOf (Bytes.lines table))

instance (table : Bytes) : Decidable (Sensible table) := inferInstanceAs (Decidable (_ ∧ _))

/-- The combined table is the tables one after another, and a symbol file that is not empty is what
one of them gives its content. -/
structure Recorded (o : Organizer) (tables : List Bytes) (h : Host) : Prop where
  sound : h.Sound
  combined : o.combinedText h = tables.flatten
  told : (∀ u ∈ tables, Sensible u) → ∀ id text, ObjectId.isValid id = true → text ≠ [] →
    h.contentAt? (o.layout.tagStore.path id) = some text → ∃ u ∈ tables, o.tells h u id = some text

namespace Recorded

/-- What a host has kept of the contents and of the symbol files stays recorded. -/
theorem of_kept (recorded : o.Recorded tables h) (sound : g.Sound) (folder : g.folder = h.folder)
    (objects : ∀ id n, ObjectId.isValid id = true →
      h.tree.get? (h.locate o.layout.root ++ [Layout.objectsName, id]) = some n →
      g.tree.get? (h.locate o.layout.root ++ [Layout.objectsName, id]) = some n)
    (combined : o.combinedText g = o.combinedText h)
    (tags : ∀ id text, ObjectId.isValid id = true →
      g.contentAt? (o.layout.tagStore.path id) = some text →
      h.contentAt? (o.layout.tagStore.path id) = some text) : o.Recorded tables g where
  sound := sound
  combined := combined.trans recorded.combined
  told sensible id text valid nonempty there := by
    obtain ⟨u, member, told⟩ := recorded.told sensible id text valid nonempty (tags id text valid there)
    exact ⟨u, member, tells_of_kept recorded.sound sound folder valid (sensible u member).1
      (objects id · valid) told⟩

theorem of_spares (recorded : o.Recorded tables h)
    (spares : o.layout.Spares [Layout.objectsName, Layout.tagsName, lit "ctags"] h g) :
    o.Recorded tables g := by
  refine recorded.of_kept spares.sound spares.folder (fun id n valid there => ?_)
    (combinedText_of_spares recorded.sound (by decide) spares) fun id text valid there => ?_
  · rwa [spares.get?_under (by decide) [id]]
  · rwa [contentAt?_congr recorded.sound spares.sound spares.folder
      (spares.get?_eq (o.layout.locate_symbolFile h valid) (by decide))] at there

theorem of_lost {lost : List Bytes} (recorded : o.Recorded tables h) (gone : o.Lost lost h g) :
    o.Recorded tables g := by
  refine recorded.of_kept gone.sound gone.folder (fun id n valid there => ?_)
    (combinedText_of_spares recorded.sound (by decide) gone.spares) fun id text valid there =>
      gone.contentAt?_some recorded.sound there
  rwa [gone.spares.get?_under (by decide) [id]]

theorem of_undisturbed (recorded : o.Recorded tables h) (undisturbed : o.Undisturbed h g) :
    o.Recorded tables g := by
  refine recorded.of_kept undisturbed.sound undisturbed.folder undisturbed.objects ?_
    fun id text valid there => ?_
  · rw [combinedText, combinedText, contentAt?_congr recorded.sound undisturbed.sound undisturbed.folder
      undisturbed.combined]
  · rwa [contentAt?_congr recorded.sound undisturbed.sound undisturbed.folder
      (by rw [o.layout.locate_symbolFile h valid]; exact undisturbed.tags id valid)] at there

/-- A table has been added, and nothing was made of it yet. -/
theorem of_tabled (recorded : o.Recorded tables h) (tidy : o.layout.Tidy)
    (still : (o.generator o.layout.root (ids.map Layout.objectRef)).Keeps Quiet) :
    (o.tabled ids).Yields h (fun a g => o.Recorded (tables ++ [a.2]) g) (o.Recorded tables) := by
  have kept : ∀ {g}, o.layout.Spares Layout.stores h g → ∀ more, o.combinedText g =
      (tables ++ more).flatten → o.Recorded (tables ++ more) g := by
    intro g spares more combined
    refine ⟨spares.sound, combined, fun sensible id text valid nonempty there => ?_⟩
    rw [contentAt?_congr recorded.sound spares.sound spares.folder
      (spares.get?_eq (o.layout.locate_symbolFile h valid) (by decide))] at there
    obtain ⟨u, member, told⟩ := recorded.told
      (fun u member => sensible u (List.mem_append_left _ member)) id text valid nonempty there
    refine ⟨u, List.mem_append_left _ member, tells_of_kept recorded.sound spares.sound spares.folder
      valid (sensible u (List.mem_append_left _ member)).1 (fun n there => ?_) told⟩
    rwa [spares.get?_under (by decide) [id]]
  have content := tabled_content recorded.sound tidy still
  have changed := tabled_yields recorded.sound tidy still
  refine (changed.and content).yields ?_ ?_
  · rintro a g ⟨⟨-, -, spares⟩, added⟩
    refine kept spares [a.2] ?_
    rw [added, recorded.combined]
    simp
  · rintro e g ⟨spares, same⟩
    rw [← List.append_nil tables]
    refine kept spares [] ?_
    rw [same, recorded.combined, List.append_nil]

/-- What is made of the last table is recorded. -/
theorem of_settle {table : Bytes} (recorded : o.Recorded (tables ++ [table]) h) (ids : List Bytes) :
    (o.settle ids table).Ends h fun _ g => o.Recorded (tables ++ [table]) g := by
  refine (settle_stems (o := o) recorded.sound ids table).mono ?_
  rintro _ g ⟨new, empty, wrote, stems⟩
  have spares := wrote.beside (by decide : Layout.tagsName ∉ [Layout.objectsName, lit "ctags"])
  have objects : ∀ id n, h.tree.get? (h.locate o.layout.root ++ [Layout.objectsName, id]) = some n →
      g.tree.get? (h.locate o.layout.root ++ [Layout.objectsName, id]) = some n := by
    intro id n there
    rwa [spares.get?_under (by decide) [id]]
  refine ⟨wrote.sound, (combinedText_of_spares recorded.sound (by decide) spares).trans
    recorded.combined, fun sensible id text valid nonempty there => ?_⟩
  have still : ∀ {u}, u ∈ tables ++ [table] → o.tells h u id = some text → ∃ u ∈ tables ++ [table],
      o.tells g u id = some text := fun {u} member told => ⟨u, member, tells_of_kept recorded.sound
        wrote.sound wrote.folder valid (sensible u member).1 (objects id) told⟩
  by_cases isMade : id ∈ (new ++ empty.map (·, [])).map Prod.fst
  · obtain ⟨⟨id', text'⟩, member, rfl⟩ := List.mem_map.mp isMade
    have found : g.look (o.layout.tagStore.path id') = .ok (.file text' false) :=
      wrote.look_of_mem member
    rw [contentAt?, found] at there
    obtain rfl : text' = text := Option.some.inj there
    rcases List.mem_append.mp member with isNew | isEmpty
    · have last : table ∈ tables ++ [table] := by simp
      obtain ⟨whole, faithful⟩ := sensible table last
      exact still last (stems.told (faithful_reading whole faithful h) isNew)
    · obtain ⟨_, -, same⟩ := List.mem_map.mp isEmpty
      exact absurd (congrArg Prod.snd same).symm nonempty
  · have before : h.contentAt? (o.layout.tagStore.path id) = some text := by
      rwa [← contentAt?_congr recorded.sound wrote.sound wrote.folder]
      rw [o.layout.locate_symbolFile h valid]
      have same := wrote.get?_of_not_made isMade
      rwa [o.layout.locate_tags, List.append_assoc, List.singleton_append] at same
    obtain ⟨u, member, told⟩ := recorded.told sensible id text valid nonempty before
    exact still member told

/-- A call adds its table and makes symbol files of it, or fails on the way. -/
theorem of_run (recorded : o.Recorded tables h) (tidy : o.layout.Tidy)
    (still : ∀ folder paths, (o.generator folder paths).Keeps Quiet) (ids : List Bytes) :
    (o.run ids).Ends h fun _ g => o.Recorded (tables ++ o.added ids h) g := by
  by_cases nonempty : ids = []
  · subst nonempty
    have none : o.added [] h = [] := rfl
    rw [none, List.append_nil]
    exact ⟨recorded⟩
  · have visible : ∀ name ∈ [Layout.objectsName, Layout.tagsName, lit "ctags"],
        name.head? ≠ some 46 := by decide
    have isEmpty : ids.isEmpty = false := by simpa using nonempty
    have tabled := (recorded.of_tabled tidy (still o.layout.root (ids.map Layout.objectRef))).holds
    rw [added, isEmpty, if_neg Bool.false_ne_true]
    refine (run_tabled recorded.sound tidy still nonempty visible).mono fun r g ended => ?_
    generalize (o.tabled ids).on h = outcome at tabled ended ⊢
    obtain ⟨outcome, k⟩ := outcome
    cases outcome with
    | error e =>
        dsimp only
        rw [List.append_nil]
        exact tabled.of_spares ended.2
    | ok a => exact (tabled.of_settle ids).holds.of_spares ended.2

end Recorded

/-- Whatever has happened to a project, what is recorded of it is right. -/
theorem History.recorded (history : o.History tables h) (tidy : o.layout.Tidy)
    (still : ∀ folder paths, (o.generator folder paths).Keeps Quiet) : o.Recorded tables h := by
  induction history with
  | fresh sound none lacks =>
      refine ⟨sound, by rw [combinedText, none]; rfl, fun _ id text valid _ there => ?_⟩
      obtain ⟨x, found⟩ := exists_look_of_contentAt? there
      have missing := lacks id valid
      rw [Lacks, found] at missing
      cases missing
  | organized history ids ih => exact (ih.of_run tidy still ids).holds
  | @stopped tables ids batch table h g history _ tabled ih =>
      have ended := (ih.of_tabled tidy (still _ (ids.map Layout.objectRef))).holds
      rw [tabled] at ended
      exact ended
  | @lost tables lost h history valid ih =>
      have ended := (lose_yields (o := o) valid ih.sound).holds
      generalize (o.lose lost).on h = outcome at ended ⊢
      obtain ⟨outcome, k⟩ := outcome
      cases outcome with
      | error e => exact ended.elim
      | ok _ => exact ih.of_lost ended
  | later history undisturbed ih => exact ih.of_undisturbed undisturbed

end Organizer

end SymbolHistory
