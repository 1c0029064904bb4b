/-
# Proofs.KeptTallies -- work that leaves the counts of a pass alone

The stages of a pass count what they do in the tally of the host.  Each count is
raised in one place only.  Everything else that a pass is put together from --
reports, files, programs, stores, sources -- leaves the tally as it is
(`SameTally`), and so does what is put together from such work.

Between the stages, and around the work in them, a pass is `Idle`: it changes no
file and counts nothing that its outcome is told from (`SameCounts`).
-/
import SymbolHistory.Proofs.Stages

set_option autoImplicit false

namespace SymbolHistory

open SymbolHistory.Path FileTree Run Host

/-- What succeeds while something is going on succeeds. -/
theorem Run.on_during_ok {α : Type} {activity : Bytes} {work : Run α} {h g : Host} {a : α}
    (done : (Run.during activity work).on h = (.ok a, g)) : work.on h = (.ok a, g) := by
  rw [on_during] at done
  generalize work.on h = ended at done ⊢
  obtain ⟨outcome, k⟩ := ended
  cases outcome with
  | ok b =>
      obtain ⟨same, rfl⟩ := Prod.mk.inj done
      exact Prod.ext same rfl
  | error f => cases (Prod.mk.inj done).1

namespace Host

/-- The parts of the index remember and have counted on `g` what they had on `h`. -/
def SameTally (h g : Host) : Prop := g.tally = h.tally

/-- What the outcome of a pass is told from is on `g` what it was on `h`: symbols written, diffs made
and diffs passed over. -/
structure SameCounts (h g : Host) : Prop where
  symbols : g.tally.organizing.symbols = h.tally.organizing.symbols
  diffs : g.tally.comparing.diffs = h.tally.comparing.diffs
  skipped : g.tally.comparing.skipped = h.tally.comparing.skipped

theorem sameTally_lasting : Lasting SameTally where
  refl _ := rfl
  trans first second := second.trans first

theorem sameCounts_lasting : Lasting SameCounts where
  refl _ := ⟨rfl, rfl, rfl⟩
  trans first second := ⟨second.symbols.trans first.symbols, second.diffs.trans first.diffs,
    second.skipped.trans first.skipped⟩

theorem SameTally.counts {h g : Host} (same : SameTally h g) : SameCounts h g :=
  ⟨congrArg (·.organizing.symbols) same, congrArg (·.comparing.diffs) same,
    congrArg (·.comparing.skipped) same⟩

/-! ## Reports -/

theorem reportIn_sameTally (context : List Journal.Attribute) (level : Journal.Level) (message : String)
    (attributes : List (String × Journal.Value)) :
    (reportIn context level message attributes).Keeps SameTally := Keeps.of_modify fun _ => rfl

theorem report_sameTally (level : Journal.Level) (message : String)
    (attributes : List (String × Journal.Value)) : (report level message attributes).Keeps SameTally :=
  Keeps.get_bind fun h => reportIn_sameTally h.context level message attributes h

theorem changeStage_sameTally (f : Progress → Progress) : (changeStage f).Keeps SameTally :=
  Keeps.of_modify fun _ => rfl

theorem startStage_sameTally (stage : String) (total : Int) : (startStage stage total).Keeps SameTally :=
  Keeps.of_modify fun _ => rfl

theorem count_sameTally (f : Metrics → Metrics) : (count f).Keeps SameTally :=
  Keeps.of_modify fun _ => rfl

theorem checkpoint_sameTally : Run.checkpoint.Keeps SameTally := by
  refine Keeps.get_bind fun h => ?_
  rcases h.interrupt with _ | _ | n <;> rfl

/-! ## Files -/

theorem system_sameTally {α : Type} (operation : String) (p : Bytes) (answer : Except SystemError α) :
    (system operation p answer).Keeps SameTally := by
  cases answer with
  | ok a => exact Keeps.pure sameTally_lasting a
  | error e => exact Keeps.throw sameTally_lasting _

theorem isThere_sameTally (p : Bytes) : (isThere p).Keeps SameTally := fun _ => rfl

theorem readFile_sameTally (p : Bytes) : (readFile p).Keeps SameTally := by
  refine Keeps.get_bind fun h => ?_
  refine Keeps.bind sameTally_lasting (system_sameTally _ _ _) (fun node => ?_) h
  cases node with
  | file content executable => exact Keeps.pure sameTally_lasting content
  | folder => exact Keeps.throw sameTally_lasting _

theorem readFolder_sameTally (p : Bytes) : (readFolder p).Keeps SameTally := by
  refine Keeps.get_bind fun h => ?_
  refine Keeps.bind sameTally_lasting (system_sameTally _ _ _) (fun node => ?_) h
  cases node with
  | file content executable => exact Keeps.throw sameTally_lasting _
  | folder => exact Keeps.pure sameTally_lasting _

theorem place_sameTally (p : Bytes) (n : Node) : (place p n).Keeps SameTally :=
  Keeps.of_modify fun _ => rfl

theorem makeFolder_sameTally (p : Bytes) : (makeFolder p).Keeps SameTally := by
  refine Keeps.get_bind fun h => ?_
  split
  · rfl
  · rfl
  · exact Keeps.bind sameTally_lasting (system_sameTally _ _ _) (fun _ => place_sameTally _ _) h

theorem makeFolders_sameTally (p : Bytes) : (makeFolders p).Keeps SameTally :=
  Keeps.forM sameTally_lasting makeFolder_sameTally _

theorem takeRoom_sameTally (p : Bytes) (n : Nat) : (takeRoom p n).Keeps SameTally := by
  refine Keeps.get_bind fun h => ?_
  split
  · rfl
  · split <;> rfl

theorem append_sameTally (p data : Bytes) : (append p data).Keeps SameTally := by
  refine Keeps.bind sameTally_lasting (takeRoom_sameTally _ _) fun _ => Keeps.get_bind fun h => ?_
  split
  · exact place_sameTally _ _ h
  · rfl

theorem openAtEnd_sameTally (p : Bytes) : (openAtEnd p).Keeps SameTally := by
  refine Keeps.get_bind fun h => ?_
  split
  · rfl
  · rfl
  · exact Keeps.bind sameTally_lasting (system_sameTally _ _ _) (fun _ => place_sameTally _ _) h
  · rfl

theorem createTemporary_sameTally (inside stem : Bytes) :
    (createTemporary inside stem).Keeps SameTally := by
  refine Keeps.get_bind fun h => ?_
  dsimp only
  generalize (if Bytes.endsWith [Path.slash] inside then inside else inside ++ [Path.slash]) ++ stem ++
    Decimal.ofNat (freshNumber h.tree (h.locate inside) stem h.temporary) = p
  cases h.admits p <;> rfl

theorem removeFile_sameTally (p : Bytes) : (removeFile p).Keeps SameTally := by
  refine Keeps.of_modify fun h => ?_
  split <;> rfl

theorem rename_sameTally (old new : Bytes) : (rename old new).Keeps SameTally := by
  refine Keeps.get_bind fun h => ?_
  dsimp only
  split
  · rfl
  · split
    · rfl
    · split <;> rfl

theorem stage_sameTally {α : Type} (name : String) (total : Int) {work : Run α}
    (keeps : work.Keeps SameTally) : (stage name total work).Keeps SameTally :=
  Keeps.bind sameTally_lasting (startStage_sameTally _ _) fun _ =>
    Keeps.ensuring sameTally_lasting keeps (changeStage_sameTally _)

end Host

/-! ## Stores -/

namespace AtomicFile

theorem create_sameTally (dest : Bytes) : (create dest).Keeps SameTally :=
  Keeps.bind sameTally_lasting ((makeFolders_sameTally _).during _) fun _ =>
    Keeps.bind sameTally_lasting ((createTemporary_sameTally _ _).during _) fun _ =>
      Keeps.pure sameTally_lasting _

theorem place_sameTally (f : AtomicFile) : f.place.Keeps SameTally := by
  refine Keeps.bind sameTally_lasting (rename_sameTally _ _).attempt fun outcome => ?_
  cases outcome with
  | ok _ => exact Keeps.pure sameTally_lasting _
  | error e =>
      exact Keeps.bind sameTally_lasting (removeFile_sameTally _) fun _ => Keeps.pure sameTally_lasting _

theorem finish_sameTally (f : AtomicFile) (how : Finish) : (f.finish how).Keeps SameTally := by
  unfold finish
  split
  · exact Keeps.pure sameTally_lasting _
  · exact Keeps.pure sameTally_lasting _
  · exact Keeps.bind sameTally_lasting f.place_sameTally fun _ => Keeps.pure sameTally_lasting _
  · exact Keeps.bind sameTally_lasting (removeFile_sameTally _) fun _ => Keeps.pure sameTally_lasting _

theorem writing_sameTally {α : Type} (dest : Bytes) {work : AtomicFile → Run α}
    (keeps : ∀ f, (work f).Keeps SameTally) : (writing dest work).Keeps SameTally := by
  refine Keeps.bind sameTally_lasting (create_sameTally _) fun f => ?_
  refine Keeps.bind sameTally_lasting (keeps f).attempt fun outcome => ?_
  cases outcome with
  | ok a =>
      refine Keeps.bind sameTally_lasting ?_ fun _ => Keeps.pure sameTally_lasting a
      exact Keeps.bind sameTally_lasting (f.finish_sameTally _) fun _ => Keeps.ofExcept sameTally_lasting _
  | error e =>
      refine Keeps.bind sameTally_lasting ?_ fun _ => Keeps.throw sameTally_lasting e
      exact Keeps.map sameTally_lasting (f.finish_sameTally _) _

theorem writeAll_sameTally (dest data : Bytes) : (writeAll dest data).Keeps SameTally :=
  writing_sameTally dest fun _ => (append_sameTally _ _).during _

end AtomicFile

namespace ObjectStore

theorem checkId_sameTally (verb : String) (id : Bytes) : (checkId verb id).Keeps SameTally :=
  (Keeps.ofExcept sameTally_lasting _).during _

theorem write_sameTally (s : ObjectStore) (id data : Bytes) : (s.write id data).Keeps SameTally := by
  refine Keeps.bind sameTally_lasting (checkId_sameTally _ _) fun _ => ?_
  refine Keeps.bind sameTally_lasting (isThere_sameTally _) fun there => ?_
  cases there with
  | true => exact Keeps.pure sameTally_lasting _
  | false =>
      exact Keeps.bind sameTally_lasting ((AtomicFile.writeAll_sameTally _ _).during _) fun _ =>
        Keeps.pure sameTally_lasting _

theorem read_sameTally (s : ObjectStore) (id : Bytes) : (s.read id).Keeps SameTally :=
  Keeps.bind sameTally_lasting (checkId_sameTally _ _) fun _ => (readFile_sameTally _).during _

theorem list_sameTally (s : ObjectStore) : s.list.Keeps SameTally := by
  refine Keeps.bind sameTally_lasting (readFolder_sameTally _).attempt fun outcome => ?_
  cases outcome with
  | ok entries => exact Keeps.pure sameTally_lasting _
  | error f =>
      dsimp only
      split
      · exact Keeps.pure sameTally_lasting _
      · exact Keeps.throw sameTally_lasting _

end ObjectStore

/-! ## Programs and sources -/

namespace Process

theorem launch_sameTally (p : Process) : p.launch.Keeps SameTally := by
  refine Keeps.get_bind fun h => ?_
  refine Keeps.bind sameTally_lasting (Keeps.ofExcept sameTally_lasting _) (fun found => ?_) h
  refine Keeps.bind sameTally_lasting checkpoint_sameTally fun _ => ?_
  split
  · split
    · exact Keeps.throw sameTally_lasting _
    · exact Keeps.throw sameTally_lasting _
    · exact Keeps.pure sameTally_lasting _
  · exact Keeps.pure sameTally_lasting _

theorem run_sameTally (p : Process) : p.run.Keeps SameTally :=
  Keeps.bind sameTally_lasting p.launch_sameTally fun _ => Keeps.get_bind fun _ => rfl

theorem begin_sameTally (p : Process) : p.begin.Keeps SameTally :=
  Keeps.bind sameTally_lasting p.launch_sameTally fun _ => Keeps.get_bind fun _ => rfl

end Process

namespace GitSource

theorem capture_sameTally (g : GitSource) (args : List Bytes) : (g.capture args).Keeps SameTally := by
  refine Keeps.bind sameTally_lasting (Process.run_sameTally _).attempt fun outcome => ?_
  cases outcome with
  | error f => exact Keeps.throw sameTally_lasting _
  | ok o =>
      dsimp only
      split
      · exact Keeps.pure sameTally_lasting _
      · exact Keeps.throw sameTally_lasting _

theorem peel_sameTally (g : GitSource) (name : Bytes) : (g.peel name).Keeps SameTally := by
  refine Keeps.bind sameTally_lasting (g.capture_sameTally _).attempt fun outcome => ?_
  cases outcome with
  | error f => exact Keeps.throw sameTally_lasting _
  | ok out =>
      dsimp only
      split
      · exact Keeps.throw sameTally_lasting _
      · exact Keeps.bind sameTally_lasting (Keeps.ofExcept sameTally_lasting _) fun _ =>
          Keeps.pure sameTally_lasting _

theorem resolve_sameTally (g : GitSource) (r : Reference) : (g.resolve r).Keeps SameTally := by
  have timed : ∀ (time : Bytes) (tag : Int → Tag),
      (Run.ofExcept (parseTime time) >>= fun time => (pure (tag time) : Run Tag)).Keeps SameTally :=
    fun time tag => Keeps.bind sameTally_lasting (Keeps.ofExcept sameTally_lasting _) fun _ =>
      Keeps.pure sameTally_lasting _
  unfold resolve
  split
  · exact timed _ _
  · split
    · exact timed _ _
    · split
      · exact g.peel_sameTally _
      · exact Keeps.throw sameTally_lasting _

theorem resolveAll_sameTally (g : GitSource) (lines : List Bytes) :
    (g.resolveAll lines).Keeps SameTally := by
  induction lines with
  | nil => exact Keeps.pure sameTally_lasting _
  | cons line rest ih =>
      refine Keeps.bind sameTally_lasting (Keeps.ofExcept sameTally_lasting _) fun r => ?_
      refine Keeps.bind sameTally_lasting (g.resolve_sameTally r).attempt fun outcome => ?_
      cases outcome with
      | ok tag => exact Keeps.bind sameTally_lasting ih fun _ => Keeps.pure sameTally_lasting _
      | error f => exact Keeps.bind sameTally_lasting (reportIn_sameTally _ _ _ _) fun _ => ih

theorem tags_sameTally (g : GitSource) : g.tags.Keeps SameTally :=
  (Keeps.bind sameTally_lasting (g.capture_sameTally _) fun _ => g.resolveAll_sameTally _).during _

theorem files_sameTally (g : GitSource) (tag : Tag) : (g.files tag).Keeps SameTally := by
  refine Keeps.bind sameTally_lasting ((Process.run_sameTally _).during _) fun o => ?_
  dsimp only
  split <;> exact Keeps.pure sameTally_lasting _

theorem readBody_sameTally (l : Process.Live) (kind : Bytes) (size : Int) :
    (readBody l kind size).Keeps SameTally := by
  unfold readBody
  dsimp only
  split
  · exact sameTally_lasting.refl
  · split
    · exact sameTally_lasting.refl
    · split
      · exact sameTally_lasting.refl
      · split <;> exact sameTally_lasting.refl

theorem readAnswer_sameTally (l : Process.Live) (id : Bytes) : (readAnswer l id).Keeps SameTally := by
  unfold readAnswer
  dsimp only
  split
  · exact sameTally_lasting.refl
  · split
    · split
      · exact sameTally_lasting.refl
      · exact readBody_sameTally _ _ _
    · split <;> exact sameTally_lasting.refl

end GitSource

namespace BlobReader

theorem read_sameTally (r : BlobReader) (id : Bytes) : (r.read id).Keeps SameTally := by
  cases r with
  | memory m => exact Keeps.pure sameTally_lasting _
  | git l =>
      refine Keeps.bind sameTally_lasting ?_ fun _ => Keeps.pure sameTally_lasting _
      unfold GitSource.readBlob
      cases ObjectId.validate id with
      | error f => exact sameTally_lasting.refl
      | ok _ =>
          dsimp only
          split
          · exact sameTally_lasting.refl
          · exact Keeps.bind sameTally_lasting (GitSource.readAnswer_sameTally _ _) fun _ =>
              Keeps.pure sameTally_lasting _

theorem close_sameTally (r : BlobReader) : r.close.Keeps SameTally := by
  cases r with
  | memory m => exact Keeps.pure sameTally_lasting _
  | git l =>
      unfold close GitSource.close
      dsimp only
      split
      · exact Keeps.pure sameTally_lasting _
      · exact Keeps.throw sameTally_lasting _

end BlobReader

namespace Source

theorem tags_sameTally (s : Source) : s.tags.Keeps SameTally := by
  cases s with
  | memory m => exact Keeps.pure sameTally_lasting _
  | git g => exact g.tags_sameTally

theorem openBlobs_sameTally (s : Source) : s.openBlobs.Keeps SameTally := by
  cases s with
  | memory m => exact Keeps.pure sameTally_lasting _
  | git g =>
      exact Keeps.bind sameTally_lasting ((Process.begin_sameTally _).during _) fun _ =>
        Keeps.pure sameTally_lasting _

/-- Files are visited by what every visit keeps. -/
theorem visitEntries_keeps {σ : Type} {R : Host → Host → Prop} (lasting : Lasting R)
    (checks : Run.checkpoint.Keeps R) {visit : σ → FileEntry → Run σ}
    (each : ∀ s e, (visit s e).Keeps R) (entries : List FileEntry) :
    ∀ s, (visitEntries visit s entries).Keeps R := by
  induction entries with
  | nil => exact fun s => Keeps.pure lasting _
  | cons e rest ih =>
      intro s
      refine Keeps.bind lasting (Keeps.bind lasting checks fun _ => each s e).attempt fun outcome => ?_
      cases outcome with
      | error f => exact Keeps.pure lasting _
      | ok s => exact ih s

/-- The files of a tag are visited by what every visit keeps, if it does not mind a look at the source. -/
theorem walk_keeps {σ : Type} {R : Host → Host → Prop} (lasting : Lasting R)
    (implied : ∀ {h g}, SameTally h g → R h g) (source : Source) (tag : Tag) (s : σ)
    {visit : σ → FileEntry → Run σ} (each : ∀ s e, (visit s e).Keeps R) :
    (source.walk tag s visit).Keeps R := by
  have visited := visitEntries_keeps lasting (checkpoint_sameTally.mono implied) each
  unfold walk
  split
  · split
    · exact Keeps.pure lasting _
    · exact visited _ s
  · rename_i g
    refine Keeps.bind lasting ((g.files_sameTally tag).mono implied).attempt fun outcome => ?_
    cases outcome with
    | error f => exact Keeps.pure lasting _
    | ok answer => exact Keeps.bind lasting (visited _ s) fun _ => Keeps.pure lasting _

end Source

namespace NameList

theorem gather_sameTally (store : ObjectStore) (ids : List Bytes) :
    ∀ found, (gather store found ids).Keeps SameTally := by
  induction ids with
  | nil => exact fun found => Keeps.pure sameTally_lasting _
  | cons id rest ih =>
      intro found
      refine Keeps.bind sameTally_lasting checkpoint_sameTally fun _ => ?_
      refine Keeps.bind sameTally_lasting ?_ fun names => ih _
      refine Keeps.bind sameTally_lasting (store.read_sameTally id) fun data => ?_
      dsimp only
      split
      · exact Keeps.throw sameTally_lasting _
      · exact Keeps.pure sameTally_lasting _

theorem build_sameTally (l : Layout) : (build l).Keeps SameTally := by
  refine Keeps.bind sameTally_lasting ?_ fun found => ?_
  · refine Keeps.bind sameTally_lasting l.tagStore.list_sameTally fun ids => ?_
    exact Keeps.map sameTally_lasting ((gather_sameTally _ _ _).during _) _
  · refine Keeps.bind sameTally_lasting (Keeps.during ?_ _) fun _ => Keeps.pure sameTally_lasting _
    exact AtomicFile.writing_sameTally _ fun _ => append_sameTally _ _

end NameList

/-! ## Generators -/

namespace Generator

theorem command_sameTally (name : Bytes) (args : List Bytes) (timeout : Duration) (folder : Bytes)
    (paths : List Bytes) : (command name args timeout folder paths).Keeps SameTally := by
  refine Keeps.get_bind fun h => ?_
  split
  · exact Keeps.pure sameTally_lasting _ h
  · split
    · exact Keeps.pure sameTally_lasting _ h
    · refine Keeps.bind sameTally_lasting (Process.run_sameTally _).attempt (fun outcome => ?_) h
      cases outcome with
      | error f => exact Keeps.pure sameTally_lasting _
      | ok o =>
          dsimp only
          split
          · exact Keeps.pure sameTally_lasting _
          · split
            · exact Keeps.pure sameTally_lasting _
            · exact Keeps.pure sameTally_lasting _

/-- No generator that a project can choose counts anything. -/
theorem ofChoice_sameTally (g : CSource.Grammar) (choice : Choice) (folder : Bytes)
    (paths : List Bytes) : (ofChoice g choice folder paths).Keeps SameTally := by
  cases choice with
  | command name args timeout => exact command_sameTally name args timeout folder paths
  | scanner timeout =>
      exact ofGrammar_keeps g timeout sameTally_lasting checkpoint_sameTally readFile_sameTally folder paths

end Generator

/-! ## Stages -/

namespace Extractor

variable (x : Extractor)

theorem collect_sameTally (tags : List Tag) : (x.collect tags).Keeps SameTally := by
  have each : ∀ (c : Collection) (tag : Tag), (x.collectTag c tag).Keeps SameTally := by
    intro c tag
    refine Keeps.bind sameTally_lasting checkpoint_sameTally fun _ => ?_
    refine Keeps.bind sameTally_lasting ?_ fun ended => ?_
    · refine x.source.walk_keeps sameTally_lasting (fun same => same) tag c fun c e => ?_
      split
      · exact Keeps.pure sameTally_lasting _
      · exact Keeps.pure sameTally_lasting _
    · refine Keeps.bind sameTally_lasting (changeStage_sameTally _) fun _ => ?_
      obtain ⟨c, ended⟩ := ended
      cases ended with
      | none => exact Keeps.pure sameTally_lasting _
      | some f =>
          dsimp only
          split
          · exact Keeps.bind sameTally_lasting (report_sameTally _ _ _) fun _ =>
              Keeps.bind sameTally_lasting (count_sameTally _) fun _ => Keeps.pure sameTally_lasting _
          · exact Keeps.throw sameTally_lasting _
  refine Keeps.bind sameTally_lasting
    (stage_sameTally _ _ (Keeps.foldlM sameTally_lasting each tags {})) fun c => ?_
  exact Keeps.bind sameTally_lasting (report_sameTally _ _ _) fun _ => Keeps.pure sameTally_lasting _

theorem writeEach_sameCounts (ids : List Bytes) :
    ∀ (blobs : BlobReader) (created : List Bytes), (x.writeEach blobs created ids).Keeps SameCounts := by
  have counted : ∀ created : Bool, (counted created).Keeps SameCounts := fun created =>
    Keeps.bind sameCounts_lasting (Keeps.of_modify fun _ => ⟨rfl, rfl, rfl⟩) fun _ =>
      Keeps.bind sameCounts_lasting ((count_sameTally _).mono SameTally.counts) fun _ =>
        Keeps.pure sameCounts_lasting _
  have one : ∀ (blobs : BlobReader) (id : Bytes), (x.writeObject blobs id).Keeps SameCounts := by
    intro blobs id
    refine Keeps.bind sameCounts_lasting ((isThere_sameTally _).mono SameTally.counts) fun there => ?_
    split
    · exact Keeps.bind sameCounts_lasting (counted _) fun _ => Keeps.pure sameCounts_lasting _
    · refine Keeps.bind sameCounts_lasting ((blobs.read_sameTally id).mono SameTally.counts) fun read => ?_
      refine Keeps.bind sameCounts_lasting (Keeps.ofExcept sameCounts_lasting _) fun data => ?_
      refine Keeps.bind sameCounts_lasting (Keeps.ofExcept sameCounts_lasting _) fun _ => ?_
      refine Keeps.bind sameCounts_lasting ((x.store.write_sameTally _ _).mono SameTally.counts) fun _ => ?_
      exact Keeps.bind sameCounts_lasting (counted _) fun _ => Keeps.pure sameCounts_lasting _
  induction ids with
  | nil => exact fun _ _ => Keeps.pure sameCounts_lasting _
  | cons id rest ih =>
      intro blobs created
      refine Keeps.bind sameCounts_lasting (checkpoint_sameTally.mono SameTally.counts) fun _ => ?_
      refine Keeps.bind sameCounts_lasting (one blobs id) fun answer => ?_
      exact Keeps.bind sameCounts_lasting ((changeStage_sameTally _).mono SameTally.counts) fun _ => ih _ _

theorem openReaders_sameTally (n : Nat) : (x.openReaders n).Keeps SameTally := by
  induction n with
  | zero => exact Keeps.pure sameTally_lasting _
  | succ n ih =>
      exact Keeps.bind sameTally_lasting x.source.openBlobs_sameTally fun _ =>
        Keeps.bind sameTally_lasting ih fun _ => Keeps.pure sameTally_lasting _

/-- Storing contents counts no symbol and no diff. -/
theorem writeObjects_sameCounts (ids : List Bytes) : (x.writeObjects ids).Keeps SameCounts := by
  refine Keeps.bind sameCounts_lasting (checkpoint_sameTally.mono SameTally.counts) fun _ => ?_
  refine Keeps.bind sameCounts_lasting ?_ fun created => ?_
  · refine Keeps.bind sameCounts_lasting ((startStage_sameTally _ _).mono SameTally.counts) fun _ => ?_
    refine Keeps.ensuring sameCounts_lasting (Keeps.during (Keeps.get_bind fun h => ?_) _)
      ((changeStage_sameTally _).mono SameTally.counts)
    refine Keeps.bind sameCounts_lasting ((x.openReaders_sameTally _).mono SameTally.counts)
      (fun readers => ?_) h
    cases readers with
    | nil => exact Keeps.pure sameCounts_lasting _
    | cons blobs others =>
        refine Keeps.ensuring sameCounts_lasting (x.writeEach_sameCounts ids blobs []) ?_
        refine Keeps.forM sameCounts_lasting (fun r => ?_) (blobs :: others)
        exact Keeps.bind sameCounts_lasting (r.close_sameTally.mono SameTally.counts).attempt fun _ =>
          Keeps.pure sameCounts_lasting _
  · exact Keeps.bind sameCounts_lasting ((report_sameTally _ _ _).mono SameTally.counts) fun _ =>
      Keeps.pure sameCounts_lasting _

end Extractor

namespace Pipeline

theorem selectTags_sameTally (source : Source) (c : Config) : (selectTags source c).Keeps SameTally :=
  Keeps.bind sameTally_lasting (Keeps.ofExcept sameTally_lasting _) fun _ =>
    Keeps.bind sameTally_lasting (source.tags_sameTally.during _) fun _ => Keeps.pure sameTally_lasting _

theorem listNames_sameTally (l : Layout) (pending : List Bytes) : (listNames l pending).Keeps SameTally := by
  have built : (NameList.build l >>= fun n =>
      Host.report .info "wrote autocomplete list" [("names", .number n)] >>= fun _ =>
        (pure n : Run Nat)).Keeps SameTally :=
    Keeps.bind sameTally_lasting (NameList.build_sameTally l) fun _ =>
      Keeps.bind sameTally_lasting (report_sameTally _ _ _) fun _ => Keeps.pure sameTally_lasting _
  unfold listNames
  cases pending with
  | cons id rest => exact built
  | nil =>
      refine Keeps.bind sameTally_lasting (isThere_sameTally _) fun there => ?_
      cases there with
      | true =>
          exact Keeps.bind sameTally_lasting (report_sameTally _ _ _) fun _ => Keeps.pure sameTally_lasting _
      | false => exact built

end Pipeline

/-! ## Idle work -/

namespace Host

/-- Only what is reported and used up has changed, and nothing that is told at the end. -/
structure Idle (h g : Host) : Prop extends Quiet h g where
  counts : SameCounts h g

theorem idle_lasting : Lasting Idle where
  refl h := ⟨quiet_lasting.refl h, sameCounts_lasting.refl h⟩
  trans first second := ⟨quiet_lasting.trans first.toQuiet second.toQuiet,
    sameCounts_lasting.trans first.counts second.counts⟩

theorem idle_of_keeps {α : Type} {work : Run α} (quiet : work.Keeps Quiet) (same : work.Keeps SameTally) :
    work.Keeps Idle := fun h => ⟨quiet h, (same h).counts⟩

theorem report_idle (level : Journal.Level) (message : String)
    (attributes : List (String × Journal.Value)) : (report level message attributes).Keeps Idle :=
  idle_of_keeps (report_quiet _ _ _) (report_sameTally _ _ _)

theorem changeStage_idle (f : Progress → Progress) : (changeStage f).Keeps Idle :=
  idle_of_keeps (changeStage_quiet f) (changeStage_sameTally f)

theorem startStage_idle (stage : String) (total : Int) : (startStage stage total).Keeps Idle :=
  idle_of_keeps (startStage_quiet _ _) (startStage_sameTally _ _)

theorem count_idle (f : Metrics → Metrics) : (count f).Keeps Idle :=
  idle_of_keeps (count_quiet f) (count_sameTally f)

theorem checkpoint_idle : Run.checkpoint.Keeps Idle :=
  idle_of_keeps checkpoint_quiet checkpoint_sameTally

/-- A stage that succeeded is its work with nothing that counts before and after it. -/
theorem on_stage_ok {α : Type} {name : String} {total : Int} {work : Run α} {h g : Host} {a : α}
    (done : (stage name total work).on h = (.ok a, g)) :
    ∃ k m, Idle h k ∧ work.on k = (.ok a, m) ∧ Idle m g := by
  obtain ⟨_, k, started, rest⟩ := on_bind_ok done
  have begun := (startStage_idle name total).after started
  rw [changeStage, on_ensuring] at rest
  obtain ⟨succeeded, rfl⟩ := Prod.mk.inj rest
  exact ⟨k, _, begun, on_eq_of_ok succeeded, changeStage_idle _ _⟩

end Host

namespace Pipeline

/-- A stage of a pass that succeeded is its work with nothing that counts after it. -/
theorem on_stage_ok {α : Type} {name : String} {work : Run α} {h g : Host} {a : α}
    (done : (stage name work).on h = (.ok a, g)) : ∃ m, work.on h = (.ok a, m) ∧ Idle m g := by
  obtain ⟨outcome, m, attempted, rest⟩ := on_bind_ok done
  rw [on_attempt] at attempted
  obtain ⟨isOutcome, rfl⟩ := Prod.mk.inj attempted
  obtain ⟨_, k, counted, rest⟩ := on_bind_ok rest
  have counted := (count_idle _).after counted
  cases outcome with
  | ok b =>
      obtain ⟨_, n, reported, rest⟩ := on_bind_ok rest
      obtain ⟨same, rfl⟩ := Prod.mk.inj rest
      cases same
      exact ⟨_, Prod.ext (Except.ok.inj isOutcome) rfl,
        idle_lasting.trans counted ((report_idle _ _ _).after reported)⟩
  | error f =>
      obtain ⟨_, n, -, thrown⟩ := on_bind_ok rest
      cases thrown

end Pipeline

end SymbolHistory
