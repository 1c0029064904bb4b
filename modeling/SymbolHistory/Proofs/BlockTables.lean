/-
# Proofs.BlockTables -- tables with one block per content

A block is a part of a table that speaks of one content.  When a table is made of
one block per content, what it gives a content does not depend on the other
contents it was made for (`Plan.firstRun_table`).  So it does not matter in which
batches contents are organized: the symbol files are those that are planned, also
when organizing them is cut short (`Plan.run_abides`).
-/
import SymbolHistory.Proofs.Plans

set_option autoImplicit false

namespace SymbolHistory

open SymbolHistory.Path FileTree Run Host

open TagTable (Entry Reader Sources Whole entriesOf)

namespace TagTable

/-- Every line can be read and has its newline, and all entries are of one file. -/
structure IsBlock (file block : Bytes) : Prop where
  whole : Whole block
  ended : block.Ended
  own : ∀ e ∈ entriesOf (Bytes.lines block), e.file = file

instance (file block : Bytes) : Decidable (IsBlock file block) :=
  decidable_of_iff (Whole block ∧ block.Ended ∧ ∀ e ∈ entriesOf (Bytes.lines block), e.file = file)
    ⟨fun ⟨whole, ended, own⟩ => ⟨whole, ended, own⟩, fun ⟨whole, ended, own⟩ => ⟨whole, ended, own⟩⟩

/-- A content may have nothing to say of it. -/
theorem isBlock_nil (file : Bytes) : IsBlock file [] := ⟨nofun, .inl rfl, nofun⟩

/-- What is read of a table has the files of its lines' entries. -/
theorem files_readAll {table : Bytes} (whole : Whole table) (s : Sources) :
    (Organizer.known (Reader.ofInput ⟨table, none⟩ (some s)).readAll.1).map Entry.file =
      (Organizer.known (entriesOf (Bytes.lines table))).map Entry.file := by
  refine Organizer.files_of_unplaced ?_
  rw [readAll_eq whole, placeAll_unplaced]

end TagTable

namespace Plan

/-- Every content has a block. -/
def Blocks (plan : Plan) : Prop :=
  ∀ id, ObjectId.isValid id = true → TagTable.IsBlock (Layout.objectRef id) (plan.block id)

def table (plan : Plan) (ids : List Bytes) : Bytes := (ids.map plan.block).flatten

/-- Contents that are stored. -/
structure Batch (plan : Plan) (h : Host) (ids : List Bytes) : Prop where
  nodup : ids.Nodup
  valid : ∀ id ∈ ids, ObjectId.isValid id = true
  stored : ∀ id ∈ ids, h.contentAt? (plan.layout.objectStore.path id) = some (plan.blob id)

/-- What organizes the contents of the project. -/
abbrev organizer (plan : Plan) (generator : Generator) : Organizer := ⟨plan.layout, generator⟩

section

variable {plan : Plan} {generator : Generator} {h g k : Host} {ids : List Bytes} {id : Bytes}

/-! ## What a table gives a content -/

theorem objectRef_injective {id id' : Bytes} (same : Layout.objectRef id = Layout.objectRef id') :
    id = id' := List.append_cancel_left same

theorem ended_table (blocks : plan.Blocks) (valid : ∀ id ∈ ids, ObjectId.isValid id = true) :
    ∀ u ∈ ids.map plan.block, u.Ended := by
  intro u member
  obtain ⟨id, isOne, rfl⟩ := List.mem_map.mp member
  exact (blocks id (valid id isOne)).ended

theorem whole_blocks (blocks : plan.Blocks) (valid : ∀ id ∈ ids, ObjectId.isValid id = true) :
    ∀ u ∈ ids.map plan.block, Whole u := by
  intro u member
  obtain ⟨id, isOne, rfl⟩ := List.mem_map.mp member
  exact (blocks id (valid id isOne)).whole

theorem lines_table (blocks : plan.Blocks) (valid : ∀ id ∈ ids, ObjectId.isValid id = true) :
    Bytes.lines (plan.table ids) = (ids.map plan.block).flatMap Bytes.lines :=
  Bytes.lines_flatten fun u member => ended_table blocks valid u (List.dropLast_subset _ member)

theorem whole_table (blocks : plan.Blocks) (valid : ∀ id ∈ ids, ObjectId.isValid id = true) :
    Whole (plan.table ids) := by
  intro l member
  rw [lines_table blocks valid] at member
  obtain ⟨u, isBlock, inside⟩ := List.mem_flatMap.mp member
  exact whole_blocks blocks valid u isBlock l inside

/-- An entry of a table is in the block of its content. -/
theorem exists_of_mem_table (blocks : plan.Blocks) (valid : ∀ id ∈ ids, ObjectId.isValid id = true)
    {e : Entry} (member : e ∈ entriesOf (Bytes.lines (plan.table ids))) :
    ∃ id ∈ ids, e ∈ entriesOf (Bytes.lines (plan.block id)) ∧ e.file = Layout.objectRef id := by
  rw [lines_table blocks valid, TagTable.entriesOf_flatMap, List.flatMap_map] at member
  obtain ⟨id, isOne, inside⟩ := List.mem_flatMap.mp member
  exact ⟨id, isOne, inside, (blocks id (valid id isOne)).own e inside⟩

theorem faithful_table (blocks : plan.Blocks) (valid : ∀ id ∈ ids, ObjectId.isValid id = true) :
    Organizer.Faithful (entriesOf (Bytes.lines (plan.table ids))) := by
  intro e member _
  obtain ⟨id, isOne, -, isFile⟩ := exists_of_mem_table blocks valid (List.mem_of_mem_filter member)
  rw [isFile, Layout.base_objectRef (valid id isOne)]

/-- A content without planned entries has none in a table either. -/
theorem firstRun_table_of_none (blocks : plan.Blocks)
    (valid : ∀ id ∈ ids, ObjectId.isValid id = true) (member : id ∈ ids)
    (none : plan.entries id = []) :
    Organizer.firstRun (Layout.objectRef id)
      (Organizer.known ((plan.organizer generator).reading h ⟨plan.table ids, Option.none⟩).1) = [] := by
  have block := blocks id (valid id member)
  have ofBlock := TagTable.files_readAll block.whole (plan.sources id)
  have unnamed : Organizer.known (entriesOf (Bytes.lines (plan.block id))) = [] := by
    rw [← List.map_eq_nil_iff, ← ofBlock, List.map_eq_nil_iff]
    by_contra nonempty
    obtain ⟨e, rest, isFirst⟩ := List.exists_cons_of_ne_nil nonempty
    have isFile : e.file = Layout.objectRef id := by
      have named := List.mem_map_of_mem (f := Entry.file) (isFirst ▸ List.mem_cons_self : e ∈ _)
      rw [ofBlock] at named
      obtain ⟨f, inside, same⟩ := List.mem_map.mp named
      exact same ▸ block.own f (List.mem_of_mem_filter inside)
    rw [entries, isFirst, Organizer.firstRun, List.dropWhile_cons_of_neg (by simp [isFile]),
      List.takeWhile_cons_of_pos (by simp [isFile])] at none
    cases none
  refine Organizer.firstRun_eq_nil fun e inside isFile => ?_
  have named := List.mem_map_of_mem (f := Entry.file) inside
  rw [Organizer.reading, TagTable.files_readAll (whole_table blocks valid)] at named
  obtain ⟨f, isEntry, same⟩ := List.mem_map.mp named
  obtain ⟨id', isOne, inBlock, isFile'⟩ :=
    exists_of_mem_table blocks valid (List.mem_of_mem_filter isEntry)
  obtain rfl : id' = id := objectRef_injective (isFile'.symm.trans (same.trans isFile))
  have isKnown : f ∈ Organizer.known (entriesOf (Bytes.lines (plan.block id'))) :=
    List.mem_filter.mpr ⟨inBlock, (List.mem_filter.mp isEntry).2⟩
  rw [unnamed] at isKnown
  cases isKnown

/-- What a table gives a content is what its block gives it, whatever else is in the table. -/
theorem firstRun_table (tidy : plan.layout.Tidy) (blocks : plan.Blocks) (batch : plan.Batch h ids)
    (member : id ∈ ids) :
    Organizer.firstRun (Layout.objectRef id)
      (Organizer.known ((plan.organizer generator).reading h ⟨plan.table ids, none⟩).1) =
        plan.entries id := by
  by_cases none : plan.entries id = []
  · rw [none, firstRun_table_of_none blocks batch.valid member none]
  · obtain ⟨before, after, split⟩ := List.append_of_mem member
    have parts : ids.map plan.block =
        before.map plan.block ++ plan.block id :: after.map plan.block := by
      rw [split, List.map_append, List.map_cons]
    have apart : ∀ other ∈ before ++ after, other ≠ id := by
      have nodup := batch.nodup
      rw [split, List.nodup_middle, List.nodup_cons] at nodup
      exact fun other inside same => nodup.1 (same ▸ inside)
    have path : ∀ other ∈ ids, ((plan.organizer generator).sources h).path (Layout.objectRef other) =
        plan.layout.objectStore.path other := fun other isOne =>
      ((plan.organizer generator).placeOf_objectRef other).trans
        (Layout.join_objectRef tidy (batch.valid other isOne))
    have agree : ((plan.organizer generator).sources h).Agree
        (· = ((plan.organizer generator).sources h).path (Layout.objectRef id)) (plan.sources id) := by
      refine ⟨rfl, ?_⟩
      rintro _ rfl
      rw [path id member]
      exact (batch.stored id member).symm
    have others : ∀ other ∈ before ++ after, other ∈ ids := by
      intro other inside
      rw [split]
      simp only [List.mem_append, List.mem_cons] at inside ⊢
      exact inside.imp_right .inr
    rw [Organizer.reading, table, parts]
    refine Organizer.firstRun_of_parts agree ?_ ?_ ?_ none ?_
    · rw [← parts]
      exact fun u inside => ended_table blocks batch.valid u (List.dropLast_subset _ inside)
    · rw [← parts]
      exact whole_blocks blocks batch.valid
    · intro u isBlock e inside samePath
      obtain ⟨other, isBefore, rfl⟩ := List.mem_map.mp isBlock
      have inBoth : other ∈ before ++ after := List.mem_append_left _ isBefore
      have isOne := others other inBoth
      rw [(blocks other (batch.valid other isOne)).own e inside, path other isOne, path id member] at samePath
      have samePlace := congrArg h.locate samePath
      rw [plan.layout.locate_object h (batch.valid other isOne),
        plan.layout.locate_object h (batch.valid id member)] at samePlace
      exact apart other inBoth (by simpa using samePlace)
    · intro e isNext isFile
      have inside := List.mem_of_mem_filter (List.mem_of_mem_head? isNext)
      rw [List.flatMap_map] at inside
      obtain ⟨other, isAfter, inBlock⟩ := List.mem_flatMap.mp inside
      have inBoth : other ∈ before ++ after := List.mem_append_right _ isAfter
      rw [(blocks other (batch.valid other (others other inBoth))).own e inBlock] at isFile
      exact apart other inBoth (objectRef_injective isFile)

/-- A symbol file that is made of a table is the one that is planned. -/
theorem symbolText_of_stems (tidy : plan.layout.Tidy) (blocks : plan.Blocks)
    (batch : plan.Batch h ids) {new : List (Bytes × Bytes)}
    (stems : (plan.organizer generator).Stems h [] new
      (Organizer.groups ((plan.organizer generator).reading h ⟨plan.table ids, none⟩).1)) :
    ∀ e ∈ new, e.2 = plan.symbolText e.1 := by
  intro e member
  have whole := whole_table blocks batch.valid
  have faithful := Organizer.faithful_reading (o := plan.organizer generator) whole
    (faithful_table blocks batch.valid) h
  obtain ⟨-, valid, -, group, found, isText⟩ := stems e member
  obtain ⟨rfl, nonempty⟩ := (Organizer.find?_groups faithful valid).mp found
  -- only contents the table was made for have entries in it
  have isOne : e.1 ∈ ids := by
    obtain ⟨f, inside⟩ := List.exists_mem_of_ne_nil _ nonempty
    have isFile : f.file = Layout.objectRef e.1 := by
      simpa using List.mem_takeWhile_imp inside
    have named := List.mem_map_of_mem (f := Entry.file) (Organizer.firstRun_subset _ _ inside)
    rw [Organizer.reading, TagTable.files_readAll whole] at named
    obtain ⟨f', isEntry, same⟩ := List.mem_map.mp named
    obtain ⟨id, isOne, -, isFile'⟩ :=
      exists_of_mem_table blocks batch.valid (List.mem_of_mem_filter isEntry)
    obtain rfl : e.1 = id := objectRef_injective (isFile.symm.trans (same.symm.trans isFile'))
    exact isOne
  obtain ⟨data, content, understood⟩ := Option.bind_eq_some_iff.mp isText
  rw [Organizer.Group.id, Layout.base_objectRef valid, batch.stored e.1 isOne] at content
  obtain rfl := Option.some.inj content
  rw [firstRun_table tidy blocks batch isOne] at understood
  obtain ⟨symbols, isList, isText⟩ := Option.map_eq_some_iff.mp understood
  rw [symbolText, isList, Option.getD_some, isText]

/-! ## Organizing in batches -/

/-- Symbol files that were made are those that are planned. -/
def Right (plan : Plan) (made : List (Bytes × Bytes)) : Prop := ∀ e ∈ made, e.2 = plan.symbolText e.1

theorem Agrees.of_wrote (agrees : plan.Agrees h) {made : List (Bytes × Bytes)} (right : plan.Right made)
    (wrote : (plan.organizer generator).Wrote h made g) : plan.Agrees g := by
  refine agrees.of_adds wrote.toAdds (plan.layout.locate_tags h) fun e member text wants => ?_
  rw [right e member, ← wants.eq_symbolText]
  exact wants

/-- A table of blocks makes planned symbol files, and none is left out if it succeeds. -/
theorem settle_right (sound : h.Sound) (tidy : plan.layout.Tidy) (blocks : plan.Blocks)
    (batch : plan.Batch h ids) :
    ((plan.organizer generator).settle ids (plan.table ids)).Yields h
      (fun _ g => (∃ made, (plan.organizer generator).Wrote h made g ∧ plan.Right made) ∧
        ∀ id ∈ ids, ¬(plan.organizer generator).Lacks g id)
      (fun g => ∃ made, (plan.organizer generator).Wrote h made g ∧ plan.Right made) := by
  have parted : ∀ {g}, (plan.organizer generator).Parted h
      (Organizer.groups ((plan.organizer generator).reading h ⟨plan.table ids, none⟩).1) g →
        ∃ made, (plan.organizer generator).Wrote h made g ∧ plan.Right made := by
    rintro g ⟨⟨new, wrote, stems⟩, -⟩
    exact ⟨new, wrote, symbolText_of_stems tidy blocks batch stems⟩
  have whole := whole_table blocks batch.valid
  rw [Organizer.settle]
  refine ((Organizer.splitTable_yields sound ⟨plan.table ids, none⟩).mono (fun _ _ split => split)
    fun _ split => parted split).bind ?_
  rintro complete g ⟨split, rfl, all⟩
  obtain ⟨made, wrote, right⟩ := parted split
  -- contents that are left have no entries, so their planned symbol files are empty
  have empty : ∀ id ∈ ids, (plan.organizer generator).Lacks g id → plan.symbolText id = [] := by
    intro id member lacks
    have faithful := Organizer.faithful_reading (o := plan.organizer generator) whole
      (faithful_table blocks batch.valid) h
    have none : plan.entries id = [] := by
      by_contra named
      have planned : Organizer.firstRun (Layout.objectRef id)
          (Organizer.known ((plan.organizer generator).reading h ⟨plan.table ids, none⟩).1) =
            plan.entries id := firstRun_table tidy blocks batch member
      rw [← planned] at named
      have found := (Organizer.find?_groups faithful (batch.valid id member)).mpr ⟨rfl, named⟩
      have isId := Layout.base_objectRef (batch.valid id member)
      refine all _ (List.mem_of_find?_eq_some found) ?_ ?_
      · rw [Organizer.Group.id, isId]
        exact batch.valid id member
      · rw [Organizer.Group.id, isId]
        exact lacks
    rw [symbolText, none]
    rfl
  have more : ∀ {left : List Bytes} {k}, left ⊆ ids →
      (plan.organizer generator).Wrote g ([] ++ left.map (·, [])) k →
        ∃ made, (plan.organizer generator).Wrote h made k ∧ plan.Right made := by
    intro left k subset marked
    rw [List.nil_append] at marked
    refine ⟨made ++ left.map (·, []), ⟨wrote.toAdds.trans marked.toAdds, marked.cache.trans wrote.cache⟩,
      fun e member => ?_⟩
    rcases List.mem_append.mp member with before | isEmpty
    · exact right e before
    · obtain ⟨id, isLeft, rfl⟩ := List.mem_map.mp isEmpty
      refine (empty id (subset isLeft) ?_).symm
      have missing := marked.missing wrote.sound isEmpty
      rw [Organizer.Lacks, ObjectStore.path]
      exact missing
  have complete : (((plan.organizer generator).reading h ⟨plan.table ids, none⟩).2.badLine == 0) = true := by
    rw [beq_iff_eq]
    exact (Reader.badLine_eq_zero_iff _ _).mpr whole
  rw [complete, if_pos rfl]
  refine (Organizer.markEmpty_yields wrote.sound ids (.refl _ wrote.sound)).mono ?_ ?_
  · rintro _ k ⟨left, subset, marked, settled⟩
    refine ⟨more subset marked, fun id member => ?_⟩
    rw [marked.lacks_iff wrote.sound (batch.valid id member)]
    exact fun lacks => lacks.2 (settled id member (batch.valid id member) lacks.1)
  · rintro k ⟨left, subset, marked⟩
    exact more subset marked

/-- A table that is made of some stored contents has one block for each, and making it changes no
file. -/
structure Makes (plan : Plan) (usual : Host → Prop) (generator : Generator) : Prop where
  still : ∀ folder paths, (generator folder paths).Keeps Quiet
  table : ∀ {h ids text}, usual h → plan.Batch h ids →
    ((generator plan.layout.root (ids.map Layout.objectRef)).on h).1 = .ok ⟨text, none⟩ →
      text = plan.table ids

theorem Makes.mono {usual usual' : Host → Prop} (makes : plan.Makes usual generator)
    (implies : ∀ {h}, usual' h → usual h) : plan.Makes usual' generator :=
  ⟨makes.still, fun isUsual batch made => makes.table (implies isUsual) batch made⟩

/-- The names below the root that planned files, and what a pass came to, are under. -/
def parts : List Bytes := folders ++ [Layout.metaName]

/-- The names that organizing leaves alone. -/
def besideTags : List Bytes := [Layout.objectsName, Layout.diffsName, Layout.metaName]

theorem Batch.of_spares (batch : plan.Batch h ids) (sound : h.Sound) {apart : List Bytes}
    (spares : plan.layout.Spares apart h g) (isApart : Layout.objectsName ∈ apart) :
    plan.Batch g ids := by
  refine ⟨batch.nodup, batch.valid, fun id member => ?_⟩
  rw [contentAt?_congr sound spares.sound spares.folder
    (spares.get?_eq (plan.layout.locate_object h (batch.valid id member)) isApart)]
  exact batch.stored id member

/-- A table that the generator makes for stored contents is the one that is planned. -/
theorem eq_table_of_generates (sound : h.Sound) (tidy : plan.layout.Tidy) (batch : plan.Batch h ids)
    {usual : Host → Prop} (within : ∀ {g}, plan.layout.Usual h g → usual g)
    (makes : plan.Makes usual generator) {table : Bytes}
    (generates : (plan.organizer generator).Generates h ids table) : table = plan.table ids := by
  obtain ⟨path, k, ready, made⟩ := generates
  have readied := (Organizer.ready_yields (o := plan.organizer generator) sound tidy ids).holds
  rw [ready] at readied
  obtain ⟨isBatch, m, draft⟩ := readied
  have spares : plan.layout.Spares parts h k :=
    Organizer.spares_of_draft isBatch (by decide) draft
  exact makes.table (within spares.usual) (batch.of_spares sound spares (by decide)) made

/-- Organizing stored contents keeps to the plan however it ends, and if it succeeds none of them is
without its symbol file. -/
theorem run_abides (sound : h.Sound) (tidy : plan.layout.Tidy) (blocks : plan.Blocks)
    (agrees : plan.Agrees h) (batch : plan.Batch h ids) (nonempty : ids ≠ []) {usual : Host → Prop}
    (within : ∀ {g}, plan.layout.Usual h g → usual g) (makes : plan.Makes usual generator) :
    ((plan.organizer generator).run ids).Yields h
      (fun _ g => plan.Abides besideTags h g ∧ plan.layout.tagStore.Holds g ids)
      (plan.Abides besideTags h) := by
  have start : plan.Abides besideTags h h := ⟨agrees, .refl sound⟩
  have tabled := (Organizer.tabled_spares (o := plan.organizer generator) sound tidy
    (makes.still plan.layout.root (ids.map Layout.objectRef))
    (by decide : ∀ name ∈ parts, name.head? ≠ some 46) (by decide)).holds
  refine Ends.mono (Organizer.run_tabled (o := plan.organizer generator) sound tidy makes.still nonempty
    (by decide : ∀ name ∈ parts, name.head? ≠ some 46)) fun r g ended => ?_
  generalize ((plan.organizer generator).tabled ids).on h = outcome at tabled ended
  obtain ⟨outcome, k⟩ := outcome
  cases outcome with
  | error e =>
      obtain ⟨rfl, removed⟩ := ended
      exact start.spared (Layout.Spares.trans tabled removed) (by decide) (by decide)
  | ok answer =>
      obtain ⟨path, table⟩ := answer
      obtain ⟨generates, -, spares⟩ := tabled
      obtain rfl := eq_table_of_generates sound tidy batch within makes generates
      have batch := batch.of_spares sound spares (by decide)
      have ready := start.spared spares (by decide) (by decide)
      have settled : ((plan.organizer generator).settle ids (plan.table ids)).Yields k _ _ :=
        settle_right spares.sound tidy blocks batch
      have settled := settled.holds
      obtain ⟨rfl, removed⟩ := ended
      generalize ((plan.organizer generator).settle ids (plan.table ids)).on k = outcome
        at settled removed ⊢
      obtain ⟨outcome, m⟩ := outcome
      -- what was settled is still so when the table's own file is removed
      have after : ∀ {made}, (plan.organizer generator).Wrote k made m → plan.Right made →
          plan.Abides besideTags h g := by
        intro made wrote right
        have written : plan.Abides besideTags k m :=
          ⟨ready.agrees.of_wrote right wrote, wrote.beside (by decide)⟩
        exact (ready.trans written).spared removed (by decide) (by decide)
      cases outcome with
      | error e =>
          obtain ⟨made, wrote, right⟩ := settled
          exact after wrote right
      | ok _ =>
          obtain ⟨⟨made, wrote, right⟩, none⟩ := settled
          refine ⟨after wrote right, removed.symbolFiles wrote.sound (by decide) batch.valid ?_⟩
          exact fun id member => Bool.not_eq_false _ ▸ none id member

end

end Plan

end SymbolHistory
