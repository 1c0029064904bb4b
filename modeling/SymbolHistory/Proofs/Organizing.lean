/-
# Proofs.Organizing -- what organizing contents changes

A table is made in a file of its own beside the stores of a project; a generator
that fails leaves nothing of it (`generate_drafts`).  The table is added to the
combined one and read back as it was made, and nothing in the stores changes until
then (`tabled_yields`).  Then symbol files are added: from the groups of the table,
and, if it was read to its end, empty ones (`settle_ends`).
-/
import SymbolHistory.Proofs.Splitting

set_option autoImplicit false

namespace SymbolHistory

open SymbolHistory.Path FileTree Run Host

namespace Layout

/-- The names of what the stages of an index make. -/
def stores : List Bytes := [objectsName, tagsName, diffsName, namesName]

/-- The root of a project is a path without detours. -/
def Tidy (l : Layout) : Prop := clean l.root = l.root

instance (l : Layout) : Decidable l.Tidy := inferInstanceAs (Decidable (_ = _))

end Layout

namespace Generator

variable {R : Host → Host → Prop} (g : CSource.Grammar) (timeout : Duration)

/-- Before a file is scanned, only whether the work is called off is looked at. -/
theorem pause_keeps (lasting : Lasting R) (paused : Run.checkpoint.Keeps R) :
    (Run.during (lit "treesitter") (Run.checkpoint >>= fun _ =>
      if isTooShort timeout then throw .deadline else pure ())).Keeps R := by
  refine Keeps.during (Keeps.bind lasting paused fun _ => ?_) _
  split
  · exact Keeps.throw lasting _
  · exact Keeps.pure lasting _

theorem scanFile_keeps (lasting : Lasting R) (paused : Run.checkpoint.Keeps R)
    (read : ∀ path, (Host.readFile path).Keeps R) (folder path : Bytes) :
    (scanFile g timeout folder path).Keeps R := by
  refine Keeps.bind lasting (pause_keeps timeout lasting paused) fun _ => ?_
  refine Keeps.bind lasting ((read _).during _) fun source => ?_
  refine Keeps.bind lasting ((Keeps.ofExcept lasting _).during _) fun tags => ?_
  exact Keeps.pure lasting _

theorem ofGrammar_keeps (lasting : Lasting R) (paused : Run.checkpoint.Keeps R)
    (read : ∀ path, (Host.readFile path).Keeps R) (folder : Bytes) (paths : List Bytes) :
    (ofGrammar g timeout folder paths).Keeps R := by
  have each : ∀ b, (scanFiles g timeout folder b paths).Keeps R := by
    induction paths with
    | nil => exact fun b => Keeps.pure lasting _
    | cons path rest ih =>
        intro b
        have scanned := scanFile_keeps g timeout lasting paused read folder path
        refine Keeps.bind lasting scanned.attempt fun outcome => ?_
        cases outcome with
        | ok lines => exact ih _
        | error f => exact Keeps.pure lasting _
  refine Keeps.bind lasting (each {}) fun ended => ?_
  obtain ⟨b, failure⟩ := ended
  cases failure with
  | none => exact Keeps.pure lasting _
  | some f => exact Keeps.pure lasting _

/-- The built-in scanner changes no file. -/
theorem ofGrammar_quiet (folder : Bytes) (paths : List Bytes) :
    (ofGrammar g timeout folder paths).Keeps Quiet :=
  ofGrammar_keeps g timeout quiet_lasting checkpoint_quiet readFile_quiet folder paths

end Generator

namespace Organizer

variable {o : Organizer} {h g k : Host}

theorem head?_batch (n : Nat) : (batchStem ++ Decimal.ofNat n).head? = some 46 := rfl

/-- A table of its own has none of the names that are given out. -/
theorem batch_not_mem {apart : List Bytes} (visible : ∀ name ∈ apart, name.head? ≠ some 46) (n : Nat) :
    batchStem ++ Decimal.ofNat n ∉ apart := fun member => visible _ member (head?_batch n)

theorem locate_combined (l : Layout) (h : Host) :
    h.locate l.combined = h.locate l.root ++ [lit "ctags"] :=
  h.locate_join l.root ⟨⟨by decide, by decide, by decide⟩, by decide⟩

/-! ## Making a table -/

/-- A path leads to a table that is not part of the combined one yet. -/
def IsBatch (o : Organizer) (h : Host) (batch : Bytes) : Prop :=
  ∃ n, h.locate batch = h.locate o.layout.root ++ [batchStem ++ Decimal.ofNat n]

theorem IsBatch.of_folder {batch : Bytes} (isBatch : o.IsBatch h batch) (same : g.folder = h.folder) :
    o.IsBatch g batch := by
  rw [IsBatch, locate_of_folder same, locate_of_folder same]
  exact isBatch

theorem IsBatch.spares {batch : Bytes} (isBatch : o.IsBatch h batch) {apart : List Bytes}
    (visible : ∀ name ∈ apart, name.head? ≠ some 46)
    (changes : Changes (Only (h.locate batch)) h g) : o.layout.Spares apart h g := by
  obtain ⟨n, place⟩ := isBatch
  exact Layout.Spares.of_only changes place (batch_not_mem visible n)

/-- Make ready for a table: the file that it is to be in. -/
def ready (o : Organizer) (ids : List Bytes) : Run Bytes := do
  let batch ← Run.during (lit "generate") do
    Host.makeFolders o.layout.root
    Host.createTemporary o.layout.root batchStem
  Host.report .info "generating tag table" [("objects", .number ids.length)]
  pure batch

/-- The generator that is asked for a table of some contents makes one. -/
def Generates (o : Organizer) (h : Host) (ids : List Bytes) (table : Bytes) : Prop :=
  ∃ batch k, (o.ready ids).on h = (.ok batch, k) ∧
    ((o.generator o.layout.root (ids.map Layout.objectRef)).on k).1 = .ok ⟨table, none⟩

/-- Have a table made in a file. -/
def fill (o : Organizer) (ids : List Bytes) (batch : Bytes) : Run Unit := do
  let out ← o.generator o.layout.root (ids.map Layout.objectRef)
  match out.failure with
  | some f => throw f
  | none => Host.append batch out.text

theorem generate_eq (o : Organizer) (ids : List Bytes) :
    o.generate ids = o.ready ids >>= fun batch =>
      Run.attempt (o.fill ids batch) >>= fun made =>
        (match made with
        | .ok _ => pure batch
        | .error f => Host.removeFile batch >>= fun _ => throw (f.within (lit "generate tag table"))
          : Run Bytes) := by
  rw [ready, bind_assoc]
  simp only [bind_assoc, pure_bind]
  rfl

/-- An empty file is made for the table. -/
theorem ready_yields (sound : h.Sound) (tidy : o.layout.Tidy) (ids : List Bytes) :
    (o.ready ids).Yields h
      (fun batch g => o.IsBatch h batch ∧ ∃ m, Draft h m g (h.locate o.layout.root) batch [])
      (Changes (Grows (h.locate o.layout.root)) h) := by
  have nonempty : o.layout.root ≠ [] := by
    rw [← tidy]
    exact clean_ne_nil _
  have folders := makeFolders_ends sound o.layout.root
  rw [tidy] at folders
  have batch : (Host.makeFolders o.layout.root >>= fun _ =>
      Host.createTemporary o.layout.root batchStem).Yields h
        (fun batch g => o.IsBatch h batch ∧ ∃ m, Draft h m g (h.locate o.layout.root) batch [])
        (Changes (Grows (h.locate o.layout.root)) h) := by
    refine (folders.yields (fun _ _ grown => grown) fun _ grown => grown).bind fun _ m grown => ?_
    refine (createTemporary_yields grown.sound nonempty (by decide : slash ∉ batchStem)
      (by decide)).mono ?_ fun k written => ?_
    · rintro batch g ⟨n, place, created⟩
      have draft : Draft h m g (h.locate o.layout.root) batch [] :=
        .of_temporary grown rfl ⟨n, place, created⟩
      rw [locate_of_folder grown.folder, locate_of_folder grown.folder] at place
      exact ⟨⟨n, place⟩, m, draft⟩
    · rw [written]
      exact ⟨⟨grown.folder, grown.repositories, grown.environment⟩, grown.cache,
        ⟨grown.sound.tree, grown.sound.home⟩, grown.tree⟩
  rw [ready]
  refine (batch.during _).bind ?_
  rintro batch g ⟨isBatch, m, draft⟩
  refine (report_sure _ _ _).yields_bind fun _ k same => ?_
  rw [yields_pure]
  exact ⟨isBatch, m, draft.quiet same⟩

/-- A table that was made is in the file, and nothing is left of one that was not. -/
theorem generate_drafts (sound : h.Sound) (tidy : o.layout.Tidy) {ids : List Bytes}
    (still : (o.generator o.layout.root (ids.map Layout.objectRef)).Keeps Quiet) :
    (o.generate ids).Yields h
      (fun batch g => o.IsBatch h batch ∧ ∃ m table,
        Draft h m g (h.locate o.layout.root) batch table ∧ o.Generates h ids table)
      (Changes (Grows (h.locate o.layout.root)) h) := by
  rw [generate_eq]
  refine Ends.bind ((ready_yields sound tidy ids).and (yields_on _ h)) ?_ fun e g readied => readied.1
  rintro batch g ⟨⟨isBatch, m, draft⟩, isReady⟩
  have filled : (o.fill ids batch).Yields g
      (fun _ k => ∃ table, Draft h m k (h.locate o.layout.root) batch table ∧
        o.Generates h ids table)
      (fun k => Draft h m k (h.locate o.layout.root) batch []) := by
    refine Ends.bind ((still.yields g).and (yields_on _ g)) ?_ fun e k made => draft.quiet made.1
    rintro ⟨text, failure⟩ k ⟨same, made⟩
    have draft := draft.quiet same
    cases failure with
    | some f => exact ⟨draft⟩
    | none =>
        refine (append_yields draft.look text).mono (fun _ n appended => ?_) ?_
        · have written := draft.appended text n.room
          rw [draft.locate] at appended
          rw [← appended, List.nil_append] at written
          exact ⟨text, written, batch, g, isReady, by rw [made]⟩
        · rintro _ rfl
          exact draft
  refine Yields.bind (yields_attempt filled) fun outcome k made => ?_
  cases outcome with
  | ok _ =>
      obtain ⟨table, draft, generates⟩ := made
      exact ⟨isBatch, m, table, draft, generates⟩
  | error e =>
      have draft : Draft h m k (h.locate o.layout.root) batch [] := made
      have removed := on_removeFile draft.look
      rw [draft.locate] at removed
      rw [Yields, ends_iff, on_bind, removed]
      exact draft.removed

/-- A table of its own beside the stores. -/
theorem spares_of_draft {m : Host} {batch table : Bytes} (isBatch : o.IsBatch h batch)
    {apart : List Bytes} (visible : ∀ name ∈ apart, name.head? ≠ some 46)
    (draft : Draft h m g (h.locate o.layout.root) batch table) : o.layout.Spares apart h g := by
  have grown : o.layout.Spares apart h m := .of_grows draft.base
  have changes : Changes (Only (m.locate batch)) m g := by
    refine ⟨draft.setting, draft.cache, draft.sound, fun k other => ?_⟩
    rw [locate_of_folder draft.base.folder] at other
    rw [draft.tree, if_neg other]
  exact grown.trans ((isBatch.of_folder draft.base.folder).spares visible changes)

theorem generate_yields (sound : h.Sound) (tidy : o.layout.Tidy)
    (still : ∀ folder paths, (o.generator folder paths).Keeps Quiet) (ids : List Bytes) :
    (o.generate ids).Yields h
      (fun batch g => o.layout.Spares Layout.stores h g ∧ o.IsBatch g batch)
      (o.layout.Spares Layout.stores h) := by
  refine (generate_drafts sound tidy (still _ _)).mono ?_ fun _ grown => .of_grows grown
  rintro batch g ⟨isBatch, m, table, draft, -⟩
  exact ⟨spares_of_draft isBatch (by decide) draft,
    isBatch.of_folder (draft.setting.folder.trans draft.base.folder)⟩

/-- Adding a table to the combined one changes no other file. -/
theorem appendCombined_changes (sound : h.Sound) (batch : Bytes) :
    (o.appendCombined batch).Yields h (fun _ => Changes (Only (h.locate o.layout.combined)) h)
      (Changes (Only (h.locate o.layout.combined)) h) := by
  have further : ∀ {g k}, Changes (Only (h.locate o.layout.combined)) h g →
      Changes (Only (g.locate o.layout.combined)) g k →
      Changes (Only (h.locate o.layout.combined)) h k := by
    intro g k first second
    rw [locate_of_folder first.folder] at second
    exact first.trans second fun _ _ _ => Only.trans
  have start : ∀ {g}, Quiet h g → Changes (Only (h.locate o.layout.combined)) h g := fun same =>
    ⟨same.toSameSetting, same.cache, same.sound sound, same.tree ▸ Only.refl _ _⟩
  rw [appendCombined, yields_during]
  refine (((readFile_quiet batch).yields h).mono (fun _ _ same => start same)
    fun _ same => start same).bind fun data g changed => ?_
  refine ((openAtEnd_changes changed.sound _).mono (fun _ _ opened => further changed opened)
    fun _ opened => further changed opened).bind fun _ g changed => ?_
  exact (append_changes changed.sound _ data).mono (fun _ _ added => further changed added)
    fun _ added => further changed added

/-- Adding a table to the combined one leaves it in its own file. -/
theorem content_of_batch {batch : Bytes} (sound : g.Sound) (isBatch : o.IsBatch g batch)
    (changes : Changes (Only (g.locate o.layout.combined)) g k) :
    k.contentAt? batch = g.contentAt? batch := by
  obtain ⟨n, place⟩ := isBatch
  refine contentAt?_congr sound changes.sound changes.folder (changes.tree _ ?_)
  rw [locate_combined, place]
  intro same
  have first := head?_batch n
  rw [List.singleton_inj.mp (List.append_cancel_left same)] at first
  exact absurd first (by decide)

theorem spares_of_combined {apart : List Bytes} (other : lit "ctags" ∉ apart)
    (changes : Changes (Only (h.locate o.layout.combined)) h g) : o.layout.Spares apart h g :=
  .of_only changes (locate_combined _ _) other

theorem appendCombined_yields (sound : h.Sound) (batch : Bytes) :
    (o.appendCombined batch).Yields h (fun _ => o.layout.Spares Layout.stores h)
      (o.layout.Spares Layout.stores h) :=
  (appendCombined_changes sound batch).mono (fun _ _ changes => spares_of_combined (by decide) changes)
    fun _ changes => spares_of_combined (by decide) changes

/-- Have a table made and add it to the combined one: where it is, and what is read there. -/
def tabled (o : Organizer) (ids : List Bytes) : Run (Bytes × Bytes) := do
  let batch ← o.generate ids
  o.appendCombined batch
  let table ← Run.during (lit "organize") (Host.readFile batch)
  pure (batch, table)

/-- The table that is read back is the generator's, and nothing has changed but the combined table
and what is hidden. -/
theorem tabled_spares (sound : h.Sound) (tidy : o.layout.Tidy) {ids : List Bytes}
    (still : (o.generator o.layout.root (ids.map Layout.objectRef)).Keeps Quiet) {apart : List Bytes}
    (visible : ∀ name ∈ apart, name.head? ≠ some 46) (other : lit "ctags" ∉ apart) :
    (o.tabled ids).Yields h
      (fun a g => o.Generates h ids a.2 ∧ o.IsBatch g a.1 ∧ o.layout.Spares apart h g)
      (o.layout.Spares apart h) := by
  rw [tabled]
  refine ((generate_drafts sound tidy still).mono (fun _ _ made => made)
    fun _ grown => .of_grows grown).bind ?_
  rintro batch g ⟨isBatch, m, table, draft, generates⟩
  have spares : o.layout.Spares apart h g := spares_of_draft isBatch visible draft
  refine ((appendCombined_changes draft.sound batch).mono (fun _ _ changes => changes)
    fun _ changes => spares.trans (spares_of_combined other changes)).bind fun _ k changes => ?_
  have isBatch' : o.IsBatch g batch := isBatch.of_folder spares.folder
  have there : k.contentAt? batch = some table := by
    rw [content_of_batch draft.sound isBatch' changes, contentAt?, draft.look]
  refine ((readFile_yields there).during _).bind ?_
  rintro _ _ ⟨rfl, rfl⟩
  rw [yields_pure]
  exact ⟨generates, isBatch.of_folder (changes.folder.trans spares.folder),
    spares.trans (spares_of_combined other changes)⟩

/-- Nothing in the stores has changed. -/
theorem tabled_yields (sound : h.Sound) (tidy : o.layout.Tidy) {ids : List Bytes}
    (still : (o.generator o.layout.root (ids.map Layout.objectRef)).Keeps Quiet) :
    (o.tabled ids).Yields h
      (fun a g => o.Generates h ids a.2 ∧ o.IsBatch g a.1 ∧ o.layout.Spares Layout.stores h g)
      (o.layout.Spares Layout.stores h) := tabled_spares sound tidy still (by decide) (by decide)

/-- What is done with a table. -/
def settle (o : Organizer) (ids : List Bytes) (table : Bytes) : Run Unit := do
  if ← o.splitTable ⟨table, none⟩ then o.markEmpty ids
  else
    let waiting ← o.pending ids
    Host.report .warn "tag table truncated; objects without a tag file stay pending"
      [("pending", .number waiting.length)]

/-- Marking contents adds empty symbol files, and no content is left without one. -/
theorem markEmpty_yields (sound : h.Sound) (ids : List Bytes) :
    ∀ {g : Host} {made : List (Bytes × Bytes)}, o.Wrote h made g →
      (o.markEmpty ids).Yields g
        (fun _ k => ∃ empty ⊆ ids, o.Wrote h (made ++ empty.map (·, [])) k ∧
          ∀ id ∈ ids, o.Settled h (made ++ empty.map (·, [])) id)
        (fun k => ∃ empty ⊆ ids, o.Wrote h (made ++ empty.map (·, [])) k) := by
  induction ids with
  | nil =>
      intro g made wrote
      rw [markEmpty, yields_pure]
      exact ⟨[], by simp, by simpa using wrote, by simp⟩
  | cons id rest ih =>
      intro g made wrote
      rw [markEmpty, ObjectStore.has]
      refine (isThere_yields g _).bind ?_
      rintro _ _ ⟨rfl, rfl⟩
      split
      · rename_i missing
        rw [Bool.not_eq_true'] at missing
        have written := o.layout.tagStore.write_yields wrote.sound id []
        refine (((written.during (lit "organize")).mono (fun _ _ stored => stored) fun k grown => ?_).discard).bind ?_
        · refine ⟨[], List.nil_subset _, ?_⟩
          rw [List.map_nil, List.append_nil]
          exact ⟨wrote.grow grown, grown.cache.trans wrote.cache⟩
        · rintro _ k ⟨_, valid, ⟨there, -, -⟩ | ⟨-, -, put, found⟩⟩
          · rw [missing] at there
            cases there
          · obtain ⟨lacks, notMade⟩ := (wrote.lacks_iff sound valid).mp missing
            have added : o.Wrote h (made ++ [(id, [])]) k :=
              ⟨wrote.put sound (ObjectId.isName_of_isValid valid) notMade lacks put found,
                put.cache.trans wrote.cache⟩
            have remembered : (Host.remember fun t => { t with
                organizing := { t.organizing with files := t.organizing.files + 1 } }).Keeps Quiet :=
              remember_quiet fun _ => rfl
            refine ((added.yields remembered).mono (fun _ _ after => after)
              fun _ after => ⟨[id], by simp, after⟩).bind fun _ m after => ?_
            refine (ih after).mono ?_ ?_
            on_goal 2 =>
              rintro n ⟨empty, subset, wrote⟩
              rw [List.append_assoc] at wrote
              exact ⟨id :: empty, List.cons_subset_cons id subset, wrote⟩
            rintro _ n ⟨empty, subset, wrote, settled⟩
            rw [List.append_assoc] at wrote settled
            refine ⟨id :: empty, List.cons_subset_cons id subset, wrote, fun id' member => ?_⟩
            rcases List.mem_cons.mp member with rfl | later
            · intro _ _
              simp
            · exact settled id' later
      · rename_i there
        refine (ih wrote).mono ?_ ?_
        on_goal 2 =>
          rintro n ⟨empty, subset, after⟩
          exact ⟨empty, List.subset_cons_of_subset id subset, after⟩
        rintro _ n ⟨empty, subset, after, settled⟩
        refine ⟨empty, List.subset_cons_of_subset id subset, after, fun id' member => ?_⟩
        rcases List.mem_cons.mp member with rfl | later
        · refine Settled.more (fun valid lacks => ?_) _
          by_contra notMade
          exact there (by rw [(wrote.lacks_iff sound valid).mpr ⟨lacks, notMade⟩, Bool.not_false])
        · exact settled id' later

/-- A content is stored and has no symbol file. -/
def isPending (o : Organizer) (h : Host) (id : Bytes) : Bool :=
  (h.look (o.layout.objectStore.path id)).isOk && !(h.look (o.layout.tagStore.path id)).isOk

theorem on_pending (o : Organizer) (h : Host) (ids : List Bytes) :
    (o.pending ids).on h = (.ok (ids.filter (o.isPending h)), h) := by
  refine on_filterM (fun id => ?_) ids
  rw [ObjectStore.has, on_bind, on_isThere, isPending]
  cases (h.look (o.layout.objectStore.path id)).isOk <;> rfl

/-- Settling a table makes symbol files of the first groups of contents, and empty ones. -/
theorem settle_stems (sound : h.Sound) (ids : List Bytes) (table : Bytes) :
    (o.settle ids table).Ends h fun _ g => ∃ (new : List (Bytes × Bytes)) (empty : List Bytes),
      o.Wrote h (new ++ empty.map (·, [])) g ∧
        o.Stems h [] new (groups (o.reading h ⟨table, none⟩).1) := by
  have unmarked : ∀ {g}, o.Parted h (groups (o.reading h ⟨table, none⟩).1) g →
      ∃ (new : List (Bytes × Bytes)) (empty : List Bytes), o.Wrote h (new ++ empty.map (·, [])) g ∧
        o.Stems h [] new (groups (o.reading h ⟨table, none⟩).1) := by
    intro g parted
    obtain ⟨new, wrote, stems⟩ := parted.made
    refine ⟨new, [], ?_, stems⟩
    rwa [List.map_nil, List.append_nil]
  rw [settle]
  refine Ends.bind (splitTable_yields sound ⟨table, none⟩) ?_ fun e g parted => unmarked parted
  rintro complete g ⟨parted, -, -⟩
  cases complete with
  | true =>
      obtain ⟨new, wrote, stems⟩ := parted.made
      rw [if_pos rfl]
      refine (markEmpty_yields sound ids wrote).ends ?_ ?_
      · rintro _ _ ⟨empty, -, after, -⟩
        exact ⟨new, empty, after, stems⟩
      · rintro _ _ ⟨empty, -, after⟩
        exact ⟨new, empty, after, stems⟩
  | false =>
      rw [if_neg Bool.false_ne_true, ends_iff, on_bind, on_pending]
      exact unmarked (parted.quiet (report_quiet _ _ _ g))

/-- A table that was read to its end is settled completely; otherwise its groups are. -/
theorem settle_ends (sound : h.Sound) (ids : List Bytes) (table : Bytes) :
    (o.settle ids table).Ends h fun r g => (∃ made, o.Wrote h made g) ∧
      ((o.reading h ⟨table, none⟩).2.badLine ≠ 0 →
        o.Parted h (groups (o.reading h ⟨table, none⟩).1) g ∧
        (r.isOk = true → ∀ group ∈ groups (o.reading h ⟨table, none⟩).1,
          ObjectId.isValid group.id = true → ¬o.Lacks g group.id)) := by
  have parted : (o.settle ids table).Ends h fun r g =>
      (o.reading h ⟨table, none⟩).2.badLine ≠ 0 →
        o.Parted h (groups (o.reading h ⟨table, none⟩).1) g ∧
        (r.isOk = true → ∀ group ∈ groups (o.reading h ⟨table, none⟩).1,
          ObjectId.isValid group.id = true → ¬o.Lacks g group.id) := by
    rw [settle]
    refine Ends.bind (splitTable_yields sound ⟨table, none⟩) ?_ ?_
    · rintro complete g ⟨parted, rfl, none⟩
      cases isComplete : (o.reading h ⟨table, Option.none⟩).2.badLine == 0 with
      | true =>
          have whole : (o.reading h ⟨table, Option.none⟩).2.badLine = 0 := by simpa using isComplete
          exact ⟨fun truncated => absurd whole truncated⟩
      | false =>
          rw [if_neg Bool.false_ne_true, ends_iff, on_bind, on_pending]
          have same := report_quiet .warn
            "tag table truncated; objects without a tag file stay pending"
            [("pending", .number (ids.filter (o.isPending g)).length)] g
          refine fun _ => ⟨parted.quiet same, fun _ group member valid => ?_⟩
          rw [lacks_of_sameFiles same.toSameFiles]
          exact none group member valid
    · intro e g parted _
      exact ⟨parted, by simp [Except.isOk, Except.toBool]⟩
  refine ((settle_stems sound ids table).and parted).mono ?_
  rintro r g ⟨⟨new, empty, wrote, -⟩, settled⟩
  exact ⟨⟨_, wrote⟩, settled⟩

theorem run_eq (o : Organizer) {ids : List Bytes} (nonempty : ids ≠ []) :
    o.run ids = o.generate ids >>= fun batch =>
      Run.ensuring (o.appendCombined batch >>= fun _ =>
        Run.during (lit "organize") (Host.readFile batch) >>= o.settle ids) (Host.removeFile batch) := by
  have notEmpty : ids.isEmpty = false := by simpa using nonempty
  rw [run, notEmpty]
  rfl

theorem on_ensuring_removeFile {α : Type} (work : Run α) (p : Bytes) (h : Host) :
    (Run.ensuring work (Host.removeFile p)).on h =
      ((work.on h).1, ((Host.removeFile p).on (work.on h).2).2) := on_ensuring work _ h

/-- Settling that succeeds marks what is left, or only reports. -/
theorem settle_ok {ids : List Bytes} {table : Bytes} (done : (o.settle ids table).on h = (.ok (), g)) :
    ∃ complete k, (o.splitTable ⟨table, none⟩).on h = (.ok complete, k) ∧
      if complete then (o.markEmpty ids).on k = (.ok (), g) else Quiet k g := by
  rw [settle] at done
  obtain ⟨complete, k, split, rest⟩ := on_bind_ok done
  refine ⟨complete, k, split, ?_⟩
  cases complete with
  | true => exact rest
  | false =>
      rw [if_neg Bool.false_ne_true, on_bind, on_pending] at rest
      exact (report_quiet _ _ _).after rest

/-- Organizing that succeeds has a table made, settles it and removes its file. -/
theorem run_ok {ids : List Bytes} (nonempty : ids ≠ []) (done : (o.run ids).on h = (.ok (), g)) :
    ∃ batch table k m, (o.tabled ids).on h = (.ok (batch, table), k) ∧
      (o.settle ids table).on k = (.ok (), m) ∧ (Host.removeFile batch).on m = (.ok (), g) := by
  rw [run_eq o nonempty] at done
  obtain ⟨batch, h₁, generated, done⟩ := on_bind_ok done
  rw [on_ensuring_removeFile] at done
  cases worked : (o.appendCombined batch >>= fun _ =>
      Run.during (lit "organize") (Host.readFile batch) >>= o.settle ids).on h₁ with
  | mk outcome m =>
      rw [worked] at done
      obtain ⟨rfl, removed⟩ := Prod.mk.inj done
      obtain ⟨_, h₂, appended, rest⟩ := on_bind_ok worked
      obtain ⟨table, k, read, settled⟩ := on_bind_ok rest
      refine ⟨batch, table, k, m, ?_, settled, Prod.ext rfl removed⟩
      rw [tabled, on_bind, generated]
      dsimp only
      rw [on_bind, appended]
      dsimp only
      rw [on_bind, read]
      rfl

/-- Organizing has a table made and settles it; then the table's own file is removed, and nothing
else changes. -/
theorem run_tabled (sound : h.Sound) (tidy : o.layout.Tidy)
    (still : ∀ folder paths, (o.generator folder paths).Keeps Quiet) {ids : List Bytes}
    (nonempty : ids ≠ []) {apart : List Bytes} (visible : ∀ name ∈ apart, name.head? ≠ some 46) :
    (o.run ids).Ends h fun r g =>
      match (o.tabled ids).on h with
      | (.error e, k) => r = .error e ∧ o.layout.Spares apart k g
      | (.ok (_, table), k) => r = ((o.settle ids table).on k).1 ∧
          o.layout.Spares apart ((o.settle ids table).on k).2 g := by
  have generated := (generate_yields sound tidy still ids).holds
  have removed : ∀ {batch k}, o.IsBatch k batch → k.Sound →
      o.layout.Spares apart k ((Host.removeFile batch).on k).2 := fun isBatch sound =>
    isBatch.spares visible (removeFile_changes sound _).holds
  rw [ends_iff, run_eq o nonempty, on_bind, tabled, on_bind]
  generalize (o.generate ids).on h = ended at generated ⊢
  obtain ⟨outcome, g⟩ := ended
  cases outcome with
  | error e => exact ⟨rfl, Layout.Spares.refl generated.sound⟩
  | ok batch =>
      obtain ⟨spares, isBatch⟩ := generated
      have appended := (appendCombined_yields (o := o) spares.sound batch).holds
      dsimp only
      rw [on_ensuring_removeFile, on_bind, on_bind]
      generalize (o.appendCombined batch).on g = ended at appended ⊢
      obtain ⟨outcome, k⟩ := ended
      cases outcome with
      | error e => exact ⟨rfl, removed (isBatch.of_folder appended.folder) appended.sound⟩
      | ok _ =>
          have isBatch := isBatch.of_folder appended.folder
          have read := (readFile_quiet batch).during (lit "organize") k
          dsimp only
          rw [on_bind, on_bind]
          generalize (Run.during (lit "organize") (Host.readFile batch)).on k = ended at read ⊢
          obtain ⟨outcome, m⟩ := ended
          have isBatch := isBatch.of_folder read.folder
          have sound := read.sound appended.sound
          cases outcome with
          | error e => exact ⟨rfl, removed isBatch sound⟩
          | ok table =>
              obtain ⟨⟨made, wrote⟩, -⟩ := (settle_ends (o := o) sound ids table).holds
              exact ⟨rfl, removed (isBatch.of_folder wrote.folder) wrote.sound⟩

/-- A table that cannot be made leaves the stores as they were, and so does making one. -/
theorem run_ends (sound : h.Sound) (tidy : o.layout.Tidy)
    (still : ∀ folder paths, (o.generator folder paths).Keeps Quiet) {ids : List Bytes}
    (nonempty : ids ≠ []) :
    (o.run ids).Ends h fun r g =>
      match (o.tabled ids).on h with
      | (.error e, _) => r = .error e ∧ o.layout.Spares Layout.stores h g
      | (.ok (_, table), k) => o.layout.Spares Layout.stores h k ∧
          r = ((o.settle ids table).on k).1 ∧
          o.layout.Spares Layout.stores ((o.settle ids table).on k).2 g := by
  have tabled := (tabled_yields sound tidy (still o.layout.root (ids.map Layout.objectRef))).holds
  refine (run_tabled sound tidy still nonempty (by decide : ∀ name ∈ Layout.stores, _)).mono
    fun r g ended => ?_
  generalize (o.tabled ids).on h = outcome at tabled ended ⊢
  obtain ⟨outcome, k⟩ := outcome
  cases outcome with
  | error e => exact ⟨ended.1, tabled.trans ended.2⟩
  | ok answer => exact ⟨tabled.2.2, ended⟩

end Organizer

end SymbolHistory
