/-
# Proofs.CountedWork -- what a pass counts is what it writes

Each part of the index counts its own work.  Storing contents comes to the list of
those that were missing (`writeObjects_created`), and organizing counts a symbol
for every line of the symbol files it makes (`organize_tells`).  Each is an
induction over the recursion of the part, and what it keeps is the relation to the
host the part began on that the part's other theorems keep, with the counts added.
-/
import Mathlib.Algebra.GroupWithZero.Nat
import Mathlib.Data.List.Dedup
import SymbolHistory.Proofs.KeptTallies
import SymbolHistory.Proofs.WholeTables

set_option autoImplicit false

namespace SymbolHistory

open SymbolHistory.Path FileTree Run Host

/-! ## Stored contents -/

namespace Extractor

variable {x : Extractor} {l : Layout} {h g : Host} {made : List (Bytes × Bytes)}

def isMissing (l : Layout) (h : Host) (id : Bytes) : Bool := !(h.look (l.objectStore.path id)).isOk

theorem isMissing_of_adds (adds : Adds l.objects made h g) (sound : h.Sound) {id : Bytes}
    (valid : ObjectId.isValid id = true) (notMade : id ∉ made.map Prod.fst) :
    isMissing l g id = isMissing l h id :=
  congrArg not (adds.isOk_look_of_not_made sound (ObjectId.isName_of_isValid valid) notMade)

/-- A content is stored exactly if it is missing. -/
theorem writeObject_adds (store : x.store = l.objectStore) (sound : h.Sound)
    (adds : Adds l.objects made h g) {id : Bytes} (valid : ObjectId.isValid id = true)
    (notMade : id ∉ made.map Prod.fst) (blobs : BlobReader) :
    (x.writeObject blobs id).Yields g
      (fun answer k => answer.2 = isMissing l h id ∧
        ∃ data, Adds l.objects (made ++ if isMissing l h id then [(id, data)] else []) h k)
      (fun _ => True) := by
  have same := isMissing_of_adds adds sound valid notMade
  rw [writeObject, store, ObjectStore.has]
  refine (isThere_yields g _).bind ?_
  rintro _ g ⟨rfl, rfl⟩
  rw [← same, isMissing]
  cases there : (g.look (l.objectStore.path id)).isOk with
  | true =>
      refine ((counted_yields false g).mono (fun _ _ ended => ended) fun _ failed => failed).bind ?_
      rintro _ k ⟨rfl, quiet⟩
      exact ⟨rfl, [], by simpa using adds.sameFiles quiet.toSameFiles⟩
  | false =>
      rw [if_neg Bool.false_ne_true]
      refine ((BlobReader.read_quiet blobs id).yields g).anyway.bind ?_
      rintro ⟨blobs, outcome⟩ k quiet
      have adds := adds.sameFiles quiet.toSameFiles
      rw [← look_of_sameFiles quiet.toSameFiles] at there
      refine Yields.ofExcept_bind (fun data _ => ?_) fun _ _ => trivial
      refine Yields.ofExcept_bind (fun _ _ => ?_) fun _ _ => trivial
      refine (l.objectStore.write_yields adds.sound id data).anyway.bind ?_
      rintro _ m ⟨-, ⟨isThere, -, -⟩ | ⟨-, rfl, put, found⟩⟩
      · rw [there] at isThere
        cases isThere
      · refine ((counted_yields true m).mono (fun _ _ ended => ended) fun _ failed => failed).bind ?_
        rintro _ n ⟨rfl, quiet⟩
        have missing : (h.look (join [l.objects, id])).isOk = false := by
          rw [← adds.isOk_look_of_not_made sound (ObjectId.isName_of_isValid valid) notMade]
          exact there
        exact ⟨rfl, data, (adds.put sound (ObjectId.isName_of_isValid valid) notMade missing put
          found).sameFiles quiet.toSameFiles⟩

/-- Writing contents one by one stores those that are missing. -/
theorem writeEach_adds (store : x.store = l.objectStore) (sound : h.Sound) (ids : List Bytes) :
    ∀ {g : Host} {made : List (Bytes × Bytes)} {blobs : BlobReader} {created : List Bytes},
      Adds l.objects made h g → ids.Nodup → (∀ id ∈ ids, ObjectId.isValid id = true) →
      (∀ id ∈ ids, id ∉ made.map Prod.fst) →
      (x.writeEach blobs created ids).Yields g
        (fun result _ => result = (ids.filter (isMissing l h)).reverse ++ created)
        (fun _ => True) := by
  induction ids with
  | nil =>
      intro g made blobs created adds _ _ _
      exact ⟨rfl⟩
  | cons id rest ih =>
      intro g made blobs created adds nodup valid notMade
      obtain ⟨new, nodup⟩ := List.nodup_cons.mp nodup
      rw [writeEach]
      refine (checkpoint_quiet.yields g).anyway.bind fun _ k same => ?_
      have adds := adds.sameFiles same.toSameFiles
      refine (writeObject_adds store sound adds (valid id List.mem_cons_self)
        (notMade id List.mem_cons_self) blobs).bind ?_
      rintro ⟨blobs, stored⟩ k ⟨rfl, data, adds⟩
      refine (advanceStage_quiet.yields k).anyway.bind fun _ k same => ?_
      refine (ih (adds.sameFiles same.toSameFiles) nodup
        (fun id' member => valid id' (List.mem_cons_of_mem _ member)) fun id' member => ?_).mono ?_
        fun _ failed => failed
      · rw [List.map_append, List.mem_append, not_or]
        refine ⟨notMade id' (List.mem_cons_of_mem _ member), fun isNew => ?_⟩
        split at isNew
        · obtain rfl : id' = id := List.mem_singleton.mp isNew
          exact new member
        · cases isNew
      · rintro result _ rfl
        rw [List.filter_cons]
        cases isMissing l h id <;> simp

/-- Storing contents comes to those that were missing. -/
theorem writeObjects_created (store : x.store = l.objectStore) (sound : h.Sound)
    (busy : 0 < workerCount x.workers h) {ids : List Bytes} (nodup : ids.Nodup)
    (valid : ∀ id ∈ ids, ObjectId.isValid id = true)
    (opens : ∀ k, Quiet h k → x.source.openBlobs.Yields k (fun _ => Quiet k) (Quiet k)) :
    (x.writeObjects ids).Yields h
      (fun created _ => created.length = ids.countP (isMissing l h)) (fun _ => True) := by
  have opened : ∀ k, Quiet h k →
      (x.openReaders (min (workerCount x.workers h) ids.length)).Yields k
        (fun readers m => Quiet h m ∧ (readers = [] → ids = [])) (fun _ => True) := by
    intro k same
    have opens : ∀ k, Quiet h k →
        x.source.openBlobs.Yields k (fun _ m => Quiet k m ∧ True) (Quiet k) := fun k same =>
      (opens k same).mono (fun _ _ same => ⟨same, trivial⟩) fun _ same => same
    refine (openReaders_yields opens _ same).mono ?_ fun _ _ => trivial
    rintro readers m ⟨same, length, -⟩
    refine ⟨same, fun none => List.eq_nil_of_length_eq_zero ?_⟩
    rw [none, List.length_nil] at length
    omega
  have each : ∀ blobs (readers : List BlobReader) k, Quiet h k ∧ (blobs :: readers = [] → ids = []) →
      (x.writeEach blobs [] ids).Yields k
        (fun created _ => created = (ids.filter (isMissing l h)).reverse ++ []) fun _ => True :=
    fun blobs readers k ready => writeEach_adds store sound ids
      ((Adds.refl sound l.objects).sameFiles ready.1.toSameFiles) nodup valid (by simp)
  refine (writeObjects_of_opened opened each (fun k ready => by simp [ready.2 rfl]) (fun ended _ => ended)
    (fun _ _ => trivial) fun _ => trivial).mono ?_ fun _ failed => failed
  rintro _ _ ⟨created, rfl, rfl⟩
  rw [List.append_nil, Bytes.sort, List.length_mergeSort, List.length_reverse, List.countP_eq_length_filter]

end Extractor

/-! ## Symbols -/

def lineCount (files : List (Bytes × Bytes)) : Nat := (files.map fun e => (Bytes.lines e.2).length).sum

theorem lineCount_append (files more : List (Bytes × Bytes)) :
    lineCount (files ++ more) = lineCount files + lineCount more := by
  rw [lineCount, List.map_append, List.sum_append, lineCount, lineCount]

theorem lineCount_empty (names : List Bytes) : lineCount (names.map (·, [])) = 0 := by
  induction names with
  | nil => rfl
  | cons name names ih =>
      rw [List.map_cons, ← List.singleton_append, lineCount_append, ih]
      rfl

namespace Organizer

variable {o : Organizer} {h g k : Host} {made : List (Bytes × Bytes)}

/-- Since `h` some symbol files have been made, and a symbol has been counted for each of their
lines. -/
structure Counted (o : Organizer) (h : Host) (made : List (Bytes × Bytes)) (g : Host) : Prop
    extends o.Wrote h made g where
  nodup : (made.map Prod.fst).Nodup
  symbols : g.tally.organizing.symbols = h.tally.organizing.symbols + lineCount made
  diffs : g.tally.comparing.diffs = h.tally.comparing.diffs
  skipped : g.tally.comparing.skipped = h.tally.comparing.skipped

theorem Counted.of_counts (wrote : o.Wrote h made k) (counted : o.Counted h made g)
    (same : SameCounts g k) : o.Counted h made k :=
  ⟨wrote, counted.nodup, same.symbols.trans counted.symbols, same.diffs.trans counted.diffs,
    same.skipped.trans counted.skipped⟩

theorem Counted.idle (counted : o.Counted h made g) (idle : Idle g k) : o.Counted h made k :=
  .of_counts (counted.toWrote.quiet idle.toQuiet) counted idle.counts

/-- Symbol files can be listed in another way as long as none is left out. -/
theorem Wrote.of_names {files : List (Bytes × Bytes)} (wrote : o.Wrote h made g) (subset : files ⊆ made)
    (names : ∀ e ∈ made, e.1 ∈ files.map Prod.fst) : o.Wrote h files g := by
  refine ⟨⟨wrote.toSameSetting, wrote.sound, ⟨?_, fun k other => ?_⟩, ?_⟩, wrote.cache⟩
  · intro e member
    obtain ⟨e, isFile, rfl⟩ := List.mem_map.mp member
    exact wrote.tree.new _ (List.mem_map_of_mem (subset isFile))
  · refine wrote.tree.old k fun e member => ?_
    obtain ⟨e, isMade, rfl⟩ := List.mem_map.mp member
    obtain ⟨e', isFile, same⟩ := List.mem_map.mp (names e isMade)
    have apart := other _ (List.mem_map_of_mem isFile)
    rwa [same] at apart
  · exact fun e isFile => wrote.findable e (subset isFile)

/-- Whether a group is to be written is found out without counting a symbol. -/
theorem start_sameCounts (o : Organizer) (seen : List Bytes) (file : Bytes) :
    (o.start seen file).Keeps SameCounts := by
  have passed : ∀ work : Run Unit, work.Keeps SameCounts →
      (work >>= fun _ => (pure none : Run (Option Bytes))).Keeps SameCounts := fun work keeps =>
    Keeps.bind sameCounts_lasting keeps fun _ => Keeps.pure sameCounts_lasting _
  unfold start
  dsimp only
  split
  · exact Keeps.pure sameCounts_lasting _
  · split
    · exact passed _ ((report_sameTally _ _ _).mono SameTally.counts)
    · split
      · exact Keeps.pure sameCounts_lasting _
      · refine Keeps.bind sameCounts_lasting ((isThere_sameTally _).mono SameTally.counts) fun there => ?_
        split
        · exact passed _ (Keeps.of_modify fun _ => ⟨rfl, rfl, rfl⟩)
        · exact Keeps.pure sameCounts_lasting _

/-- Writing a symbol file counts the symbols in it. -/
theorem writeTagFile_counts {id : Bytes} {entries : List TagTable.Entry}
    (done : (o.writeTagFile id entries).on g = (.ok (), k)) :
    ∃ data symbols, g.contentAt? (o.layout.objectStore.path id) = some data ∧
      entries.mapM (symbolOf (SourceText.ofContent data)) = .ok symbols ∧
      k.tally.organizing.symbols = g.tally.organizing.symbols + symbols.length ∧
      k.tally.comparing = g.tally.comparing := by
  obtain ⟨data, g₁, read, understanding⟩ := on_bind_ok done
  obtain ⟨symbols, g₂, understood, writing⟩ := on_bind_ok understanding
  obtain ⟨_, g₃, written, counting⟩ := on_bind_ok writing
  obtain ⟨_, g₄, remembered, counted⟩ := on_bind_ok counting
  rw [on_ofExcept] at understood
  obtain ⟨isSymbols, sameHost⟩ := Prod.mk.inj understood
  have ended := (o.layout.objectStore.read_ends id g).holds
  rw [read] at ended
  have first : g₁.tally = g.tally := (o.layout.objectStore.read_sameTally id).after read
  have kept : (discard (o.layout.tagStore.write id (Symbol.writeAll symbols)) : Run Unit).Keeps SameTally :=
    Keeps.map sameTally_lasting (o.layout.tagStore.write_sameTally _ _) _
  have same : g₃.tally = g.tally := (kept.after written).trans (sameHost ▸ first)
  have last : k.tally = g₄.tally := (count_sameTally _).after counted
  rw [← (Prod.mk.inj remembered).2] at last
  refine ⟨data, symbols, (ended.2.1 data rfl).2, isSymbols, ?_⟩
  rw [last, ← same]
  exact ⟨rfl, rfl⟩

/-- Splitting counts a symbol for every line it writes. -/
theorem writeGroups_counts (sound : h.Sound) (groups : List Group) :
    ∀ {seen : List Bytes} {g k : Host} {made : List (Bytes × Bytes)} {finished : Bool},
      o.Counted h made g → (∀ group ∈ groups, ∀ e ∈ group.entries, 10 ∉ e.name) →
      (o.writeGroups seen groups).on g = (.ok finished, k) →
      ∃ new, o.Counted h (made ++ new) k := by
  induction groups with
  | nil =>
      intro seen g k made finished counted _ done
      obtain ⟨-, rfl⟩ := Prod.mk.inj done
      exact ⟨[], by rwa [List.append_nil]⟩
  | cons group rest ih =>
      intro seen g k made finished counted oneLine done
      have later : ∀ g' ∈ rest, ∀ e ∈ g'.entries, 10 ∉ e.name :=
        fun g' member => oneLine g' (List.mem_cons_of_mem _ member)
      obtain ⟨begun, g₁, started, body⟩ := on_bind_ok done
      have same := (start_sameCounts o seen group.file).after started
      obtain ⟨quiet, answer⟩ := (start_yields o seen group.file g).of_ok started
      have counted : o.Counted h made g₁ := .of_counts (counted.toWrote.quiet quiet) counted same
      rcases answer with ⟨rfl, begins⟩ | ⟨rfl, -⟩
      · have valid : ObjectId.isValid group.id = true := begins.1
        have begins : o.Lacks g₁ group.id := by
          rw [lacks_of_sameFiles quiet.toSameFiles]
          exact begins.2.2
        obtain ⟨_, g₂, checked, writing⟩ := on_bind_ok body
        have counted := counted.idle (checkpoint_idle.after checked)
        have begins : o.Lacks g₂ group.id := by
          rw [lacks_of_sameFiles (checkpoint_idle.after checked).toSameFiles]
          exact begins
        obtain ⟨lacks, notMade⟩ := (counted.toWrote.lacks_iff sound valid).mp begins
        obtain ⟨_, g₃, written, advancing⟩ := on_bind_ok writing
        obtain ⟨text, isText, wrote⟩ :=
          (writeTagFile_yields sound counted.toWrote valid lacks notMade).of_ok written
        obtain ⟨data, symbols, content, understood, more, comparing⟩ := writeTagFile_counts written
        have content := (counted.toWrote.stored sound valid).symm.trans content
        have isText : text = Symbol.writeAll symbols := by
          simp only [textOf?, content, understood, Option.bind_some, Except.toOption,
            Option.map_some] at isText
          exact (Option.some.inj isText).symm
        have lines : lineCount [(group.id, text)] = symbols.length := by
          have oneLine := newline_not_mem_symbols (forall₂_of_mapM understood)
            (oneLine group List.mem_cons_self)
          simp [lineCount, isText, Symbol.lines_writeAll oneLine]
        have counted : o.Counted h (made ++ [(group.id, text)]) g₃ := by
          refine ⟨wrote, ?_, ?_, ?_, ?_⟩
          · rw [List.map_append, List.nodup_append]
            refine ⟨counted.nodup, List.nodup_singleton _, ?_⟩
            rintro name isMade _ isNew rfl
            obtain rfl : name = group.id := List.mem_singleton.mp isNew
            exact notMade isMade
          · rw [more, counted.symbols, lineCount_append, lines, Nat.add_assoc]
          · rw [comparing, counted.diffs]
          · rw [comparing, counted.skipped]
        obtain ⟨_, g₄, advanced, others⟩ := on_bind_ok advancing
        obtain ⟨new, counted⟩ := ih (counted.idle ((changeStage_idle _).after advanced)) later others
        exact ⟨_, by rwa [List.append_assoc] at counted⟩
      · obtain ⟨outcome, g₂, checked, others⟩ := on_bind_ok body
        have counted := counted.idle (checkpoint_idle.attempt.after checked)
        cases outcome with
        | error f =>
            obtain ⟨-, rfl⟩ := Prod.mk.inj others
            exact ⟨[], by rwa [List.append_nil]⟩
        | ok _ => exact ih counted later others

theorem conclude_idle (reader : TagTable.Reader) (finished : Bool) : (conclude reader finished).Keeps Idle := by
  have last : (do
      let t := (← get).tally.organizing
      Host.report .info "organized symbols"
        [("symbols", .number t.symbols), ("objects", .number t.files), ("skipped", .number t.skipped)]
      pure (reader.badLine == 0) : Run Bool).Keeps Idle :=
    Keeps.get_bind fun h => Keeps.bind idle_lasting (report_idle _ _ _) (fun _ => Keeps.pure idle_lasting _) h
  have reports : (do
      if reader.badLine != 0 then
        Host.report .warn "malformed tag table line; ignoring the rest" [("line", .number reader.badLine)]
      let t := (← get).tally.organizing
      Host.report .info "organized symbols"
        [("symbols", .number t.symbols), ("objects", .number t.files), ("skipped", .number t.skipped)]
      pure (reader.badLine == 0) : Run Bool).Keeps Idle := by
    split
    · exact Keeps.bind idle_lasting (report_idle _ _ _) fun _ => last
    · exact last
  cases finished with
  | false => exact Keeps.throw idle_lasting _
  | true =>
      rw [conclude]
      cases reader.fault with
      | some f => exact Keeps.throw idle_lasting _
      | none => exact Keeps.bind idle_lasting checkpoint_idle fun _ => reports

/-- Splitting a table is writing its groups; the rest counts nothing. -/
theorem splitTable_ok {table : Input} {complete : Bool} (done : (o.splitTable table).on h = (.ok complete, k)) :
    ∃ finished m n, Idle h m ∧
      (o.writeGroups [] (groups (o.reading h table).1)).on m = (.ok finished, n) ∧ Idle n k := by
  obtain ⟨_, _, looked, work⟩ := on_bind_ok done
  obtain ⟨same, rfl⟩ := Prod.mk.inj looked
  obtain rfl := Except.ok.inj same
  obtain ⟨m, n, begun, staged, ended⟩ := on_stage_ok work
  obtain ⟨finished, n', written, concluded⟩ := on_bind_ok staged
  exact ⟨finished, m, n', begun, on_during_ok written,
    idle_lasting.trans ((conclude_idle _ finished).after concluded) ended⟩

theorem splitTable_counts (sound : h.Sound) {table : Bytes} {complete : Bool}
    (done : (o.splitTable ⟨table, none⟩).on h = (.ok complete, k)) : ∃ made, o.Counted h made k := by
  obtain ⟨finished, m, n, begun, written, ended⟩ := splitTable_ok done
  have start : o.Counted h [] h := ⟨Wrote.refl o sound, List.nodup_nil, rfl, rfl, rfl⟩
  obtain ⟨made, counted⟩ := writeGroups_counts sound _ (start.idle begun) (fun group member e inside =>
    TagTable.newline_not_mem_entry_name (mem_of_mem_groups member inside).1) written
  exact ⟨made, counted.idle ended⟩

/-- Marking contents counts no symbol. -/
theorem markEmpty_sameCounts (o : Organizer) (ids : List Bytes) : (o.markEmpty ids).Keeps SameCounts := by
  induction ids with
  | nil => exact Keeps.pure sameCounts_lasting ()
  | cons id rest ih =>
      refine Keeps.bind sameCounts_lasting ((isThere_sameTally _).mono SameTally.counts) fun there => ?_
      split
      · refine Keeps.bind sameCounts_lasting (Keeps.map sameCounts_lasting (Keeps.during ?_ _) _) fun _ => ?_
        · exact (o.layout.tagStore.write_sameTally _ _).mono SameTally.counts
        · exact Keeps.bind sameCounts_lasting (Keeps.of_modify fun _ => ⟨rfl, rfl, rfl⟩) fun _ => ih
      · exact ih

theorem settle_counts (sound : h.Sound) {ids : List Bytes} {table : Bytes}
    (done : (o.settle ids table).on h = (.ok (), k)) : ∃ made, o.Counted h made k := by
  obtain ⟨complete, m, split, rest⟩ := on_bind_ok done
  obtain ⟨made, counted⟩ := splitTable_counts sound split
  cases complete with
  | true =>
      obtain ⟨empty, -, wrote, -⟩ := (markEmpty_yields sound ids counted.toWrote).of_ok rest
      have same := (o.markEmpty_sameCounts ids).after rest
      -- an empty file may be named twice, or after one that splitting made; it is listed once
      let new := empty.dedup.filter fun id => id ∉ made.map Prod.fst
      have isNew : ∀ {id}, id ∈ new ↔ id ∈ empty ∧ id ∉ made.map Prod.fst := by simp [new]
      refine ⟨made ++ new.map (·, []), wrote.of_names ?_ ?_, ?_, ?_, same.diffs.trans counted.diffs,
        same.skipped.trans counted.skipped⟩
      · refine List.append_subset.mpr ⟨List.subset_append_left _ _, fun e member => ?_⟩
        obtain ⟨id, isEmpty, rfl⟩ := List.mem_map.mp member
        exact List.mem_append_right _ (List.mem_map_of_mem (isNew.mp isEmpty).1)
      · intro e member
        rw [List.map_append, List.mem_append, List.map_map]
        by_cases isMade : e.1 ∈ made.map Prod.fst
        · exact .inl isMade
        · refine .inr ?_
          rcases List.mem_append.mp member with before | after
          · exact absurd (List.mem_map_of_mem before) isMade
          · obtain ⟨id, isEmpty, rfl⟩ := List.mem_map.mp after
            exact List.mem_map.mpr ⟨id, isNew.mpr ⟨isEmpty, isMade⟩, rfl⟩
      · rw [List.map_append, List.nodup_append, List.map_map]
        refine ⟨counted.nodup, ?_, ?_⟩
        · rw [show Prod.fst ∘ (·, ([] : Bytes)) = id from rfl, List.map_id]
          exact (List.nodup_dedup empty).filter _
        · rintro name isMade _ isEmpty rfl
          obtain ⟨id, member, rfl⟩ := List.mem_map.mp isEmpty
          exact (isNew.mp member).2 isMade
      · rw [same.symbols, counted.symbols, lineCount_append, lineCount_empty, Nat.add_zero]
  | false =>
      rw [if_neg Bool.false_ne_true, on_bind, on_pending] at rest
      exact ⟨made, counted.idle ((report_idle _ _ _).after rest)⟩

/-- Having a table made and reading it back counts nothing, if the generator does not. -/
theorem tabled_sameCounts (told : ∀ folder paths, (o.generator folder paths).Keeps SameCounts)
    (ids : List Bytes) : (o.tabled ids).Keeps SameCounts := by
  have generated : (o.generate ids).Keeps SameCounts := by
    rw [generate_eq]
    refine Keeps.bind sameCounts_lasting ?_ fun batch => ?_
    · refine Keeps.bind sameCounts_lasting ((Keeps.during ?_ _).mono SameTally.counts) fun batch => ?_
      · exact Keeps.bind sameTally_lasting (makeFolders_sameTally _) fun _ => createTemporary_sameTally _ _
      · exact Keeps.bind sameCounts_lasting ((report_sameTally _ _ _).mono SameTally.counts) fun _ =>
          Keeps.pure sameCounts_lasting _
    · refine Keeps.bind sameCounts_lasting (Keeps.attempt ?_) fun made => ?_
      · refine Keeps.bind sameCounts_lasting (told _ _) fun out => ?_
        split
        · exact Keeps.throw sameCounts_lasting _
        · exact (append_sameTally _ _).mono SameTally.counts
      · cases made with
        | ok _ => exact Keeps.pure sameCounts_lasting _
        | error f =>
            exact Keeps.bind sameCounts_lasting ((removeFile_sameTally _).mono SameTally.counts) fun _ =>
              Keeps.throw sameCounts_lasting _
  have added : ∀ batch, (o.appendCombined batch).Keeps SameTally := fun batch =>
    (Keeps.bind sameTally_lasting (readFile_sameTally _) fun _ =>
      Keeps.bind sameTally_lasting (openAtEnd_sameTally _) fun _ => append_sameTally _ _).during _
  refine Keeps.bind sameCounts_lasting generated fun batch => ?_
  refine Keeps.bind sameCounts_lasting ((added batch).mono SameTally.counts) fun _ => ?_
  exact Keeps.bind sameCounts_lasting (((readFile_sameTally _).during _).mono SameTally.counts) fun _ =>
    Keeps.pure sameCounts_lasting _

end Organizer

namespace Layout

variable {l : Layout} {h h' g g' : Host} {made : List (Bytes × Bytes)}

/-- The symbol files that are on `g` and were not on `h`, with what they hold. -/
structure IsNew (l : Layout) (h : Host) (made : List (Bytes × Bytes)) (g : Host) : Prop where
  nodup : (made.map Prod.fst).Nodup
  isName : ∀ e ∈ made, IsName e.1
  mem_iff : ∀ {name data : Bytes}, IsName name → ((name, data) ∈ made ↔
    (h.look (join [l.tags, name])).isOk = false ∧ g.look (join [l.tags, name]) = .ok (.file data false))

theorem IsNew.of_wrote {o : Organizer} (sound : h.Sound) (wrote : o.Wrote h made g)
    (nodup : (made.map Prod.fst).Nodup) : o.layout.IsNew h made g := by
  refine ⟨nodup, fun e member => (wrote.findable e member).1, fun {name data} isName => ⟨fun member => ?_, ?_⟩⟩
  · have missing := wrote.missing sound member
    exact ⟨missing, wrote.look_of_mem member⟩
  · rintro ⟨missing, found⟩
    by_cases isMade : name ∈ made.map Prod.fst
    · obtain ⟨⟨_, data'⟩, member, rfl⟩ := List.mem_map.mp isMade
      obtain rfl : data' = data := by
        have same := (wrote.look_of_mem member).symm.trans found
        cases same
        rfl
      exact member
    · rw [← wrote.isOk_look_of_not_made sound isName isMade, found] at missing
      cases missing

theorem locate_inTags (l : Layout) (h : Host) {name : Bytes} (isName : IsName name) :
    h.locate (join [l.tags, name]) = h.locate l.root ++ [tagsName, name] := by
  rw [h.locate_join _ isName, locate_tags, List.append_assoc]
  rfl

/-- What leaves the symbol files alone afterwards does not matter. -/
theorem IsNew.after (isNew : l.IsNew h made g) (sound : g.Sound) (sound' : g'.Sound)
    (folder : g'.folder = g.folder) (same : ∀ name,
      g'.tree.get? (g.locate l.root ++ [tagsName, name]) = g.tree.get? (g.locate l.root ++ [tagsName, name])) :
    l.IsNew h made g' := by
  refine ⟨isNew.nodup, isNew.isName, fun {name data} isName => ?_⟩
  rw [isNew.mem_iff isName, look_congr sound sound' folder (by rw [l.locate_inTags g isName, same])]

/-- What spares the symbol files before and after does not matter. -/
theorem IsNew.spared (isNew : l.IsNew h made g) (sound' : h'.Sound) (before : l.Spares [tagsName] h' h)
    (sound : g.Sound) (after : l.Spares [tagsName] g g') : l.IsNew h' made g' := by
  have isNew := isNew.after sound after.sound after.folder fun name =>
    after.get?_under List.mem_cons_self [name]
  refine ⟨isNew.nodup, isNew.isName, fun {name data} isName => ?_⟩
  rw [isNew.mem_iff isName, isOk_look_congr sound' before.sound before.folder
      (before.get?_eq (l.locate_inTags h' isName) List.mem_cons_self)]

end Layout

namespace Pipeline

variable {h g : Host} {o : Organizer}

/-- From `h` to `g` symbol files have been made, a symbol has been counted for each of their lines,
and no diff has been counted. -/
structure Tells (l : Layout) (h g : Host) : Prop where
  sound : g.Sound
  symbols : ∃ made, l.IsNew h made g ∧
    g.tally.organizing.symbols = h.tally.organizing.symbols + lineCount made
  diffs : g.tally.comparing.diffs = h.tally.comparing.diffs
  skipped : g.tally.comparing.skipped = h.tally.comparing.skipped

theorem tells_of_counted {made : List (Bytes × Bytes)} (sound : h.Sound) (counted : o.Counted h made g) :
    Tells o.layout h g :=
  ⟨counted.sound, ⟨made, .of_wrote sound counted.toWrote counted.nodup, counted.symbols⟩, counted.diffs,
    counted.skipped⟩

/-- What spares the symbol files and counts nothing before and after does not matter. -/
theorem Tells.spared {l : Layout} {h' g' : Host} (tells : Tells l h g) (sound : h'.Sound)
    (before : l.Spares [Layout.tagsName] h' h) (uncounted : SameCounts h' h)
    (after : l.Spares [Layout.tagsName] g g') (uncounted' : SameCounts g g') : Tells l h' g' := by
  obtain ⟨made, isNew, symbols⟩ := tells.symbols
  refine ⟨after.sound, ⟨made, isNew.spared sound before tells.sound after, ?_⟩, ?_, ?_⟩
  · rw [uncounted'.symbols, symbols, uncounted.symbols]
  · rw [uncounted'.diffs, tells.diffs, uncounted.diffs]
  · rw [uncounted'.skipped, tells.skipped, uncounted.skipped]

/-- Organizing counts a symbol for every line of the symbol files it makes. -/
theorem run_tells (sound : h.Sound) (tidy : o.layout.Tidy)
    (still : ∀ folder paths, (o.generator folder paths).Keeps Quiet)
    (told : ∀ folder paths, (o.generator folder paths).Keeps SameCounts) {ids : List Bytes}
    (done : (o.run ids).on h = (.ok (), g)) : Tells o.layout h g := by
  by_cases nonempty : ids = []
  · subst nonempty
    obtain ⟨-, rfl⟩ := Prod.mk.inj done
    exact tells_of_counted sound ⟨.refl o sound, List.nodup_nil, rfl, rfl, rfl⟩
  · obtain ⟨batch, table, k, m, tabled, settled, removed⟩ := Organizer.run_ok nonempty done
    obtain ⟨-, isBatch, spares⟩ := (Organizer.tabled_yields sound tidy (still _ _)).of_ok tabled
    obtain ⟨made, counted⟩ := Organizer.settle_counts spares.sound settled
    have changes := (removeFile_changes counted.sound batch).holds
    rw [removed] at changes
    have after : o.layout.Spares Layout.stores m g :=
      (isBatch.of_folder counted.folder).spares (by decide) changes
    exact (tells_of_counted spares.sound counted).spared sound (spares.fewer (by decide))
      ((Organizer.tabled_sameCounts told ids).after tabled) (after.fewer (by decide))
      (((removeFile_sameTally batch).after removed).counts)

theorem organize_tells (sound : h.Sound) (tidy : o.layout.Tidy)
    (still : ∀ folder paths, (o.generator folder paths).Keeps Quiet)
    (told : ∀ folder paths, (o.generator folder paths).Keeps SameCounts) {ids pending : List Bytes}
    {created : Nat} (done : (organize o ids created).on h = (.ok pending, g)) : Tells o.layout h g := by
  have ran : ∀ {k : Host} {ids : List Bytes}, Idle h k →
      (o.run ids >>= fun _ => (pure ids : Run (List Bytes))).on k = (.ok pending, g) →
      Tells o.layout h g := by
    intro k ids idle done
    obtain ⟨_, m, ran, last⟩ := on_bind_ok done
    obtain ⟨-, rfl⟩ := Prod.mk.inj last
    have before : o.layout.Spares [Layout.tagsName] h k := (Layout.Spares.refl sound).quiet idle.toQuiet
    have tells := run_tells before.sound tidy still told ran
    exact tells.spared sound before idle.counts (.refl tells.sound) (sameCounts_lasting.refl _)
  obtain ⟨waiting, k, found, rest⟩ := on_bind_ok done
  rw [Organizer.on_pending] at found
  obtain ⟨-, rfl⟩ := Prod.mk.inj found
  dsimp only at rest
  split at rest
  · obtain ⟨_, m, reported, rest⟩ := on_bind_ok rest
    exact ran ((report_idle _ _ _).after reported) rest
  · exact ran (idle_lasting.refl _) rest

end Pipeline

end SymbolHistory
