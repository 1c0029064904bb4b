/-
# Proofs.RememberedSymbols -- what is remembered makes no difference

A comparison remembers the symbols of the contents it read last.  What it
remembers is `Faithful` to the files: every entry is what the symbol file of its
id says now.  That holds of an empty memory, and it stays true because an entry
is made only of a symbol file that could be read to its end, and because
comparisons and stores only ever add files (`Adding`).

On hosts that differ in faithful memories alone (`Twins`) a comparison comes to
the same and leaves such hosts again (`run_twins`).
-/
import SymbolHistory.Proofs.MissingDiffs
import SymbolHistory.Proofs.TwinRuns

set_option autoImplicit false

namespace SymbolHistory

open SymbolHistory.Path FileTree Run Host

namespace Host

/-! ## Hosts that lose nothing -/

/-- Everything that is on `h` is on `g`, as it was. -/
structure Adding (h g : Host) : Prop extends SameSetting h g where
  kept : ∀ l n, h.tree.get? l = some n → g.tree.get? l = some n

namespace Adding

variable {h g k : Host}

theorem of_sameFiles (same : SameFiles h g) : Adding h g :=
  ⟨same.toSameSetting, fun _ _ there => same.tree ▸ there⟩

theorem refl (h : Host) : Adding h h := of_sameFiles (sameFiles_lasting.refl h)

theorem trans (first : Adding h g) (second : Adding g k) : Adding h k :=
  ⟨sameSetting_lasting.trans first.toSameSetting second.toSameSetting,
    fun l n there => second.kept l n (first.kept l n there)⟩

theorem of_grows {d : Location} (grown : Changes (Grows d) h g) : Adding h g :=
  ⟨grown.toSameSetting, fun _ _ there => grown.tree.get?_some there⟩

/-- A file that lands where nothing was takes the place of nothing. -/
theorem of_lands {d : Location} {p data : Bytes} (sound : h.Sound)
    (missing : (h.look p).isOk = false) (landed : Changes (Lands d (h.locate p) data) h g)
    (found : g.look p = .ok (.file data false)) : Adding h g := by
  refine ⟨landed.toSameSetting, fun l n there => landed.tree.get?_some ?_ there⟩
  rintro rfl
  obtain ⟨flawless, -, short⟩ := (look_eq_ok_iff landed.sound).mp found
  rw [locate_of_folder landed.folder] at short
  have there' := (look_eq_ok_iff sound).mpr ⟨flawless, there, short⟩
  rw [there'] at missing
  cases missing

theorem contentAt? (adding : Adding h g) (sound : h.Sound) (sound' : g.Sound) {p data : Bytes}
    (there : h.contentAt? p = some data) : g.contentAt? p = some data := by
  obtain ⟨x, found⟩ := exists_look_of_contentAt? there
  obtain ⟨-, node, -⟩ := (look_eq_ok_iff sound).mp found
  rw [contentAt?_congr sound sound' adding.folder, there]
  rw [node]
  exact adding.kept _ _ node

end Adding

end Host

namespace ObjectStore

/-- Storing a content adds at most a file. -/
theorem write_adding {h : Host} (sound : h.Sound) (s : ObjectStore) (id data : Bytes) :
    (s.write id data).Ends h fun _ g => g.Sound ∧ Adding h g ∧ g.tally.cache = h.tally.cache := by
  refine (s.write_yields sound id data).ends ?_ ?_
  · rintro created g ⟨-, ⟨-, -, rfl⟩ | ⟨missing, -, put, found⟩⟩
    · exact ⟨sound, .refl g, rfl⟩
    · exact ⟨put.sound, .of_lands sound missing put found, put.cache⟩
  · exact fun _ g grown => ⟨grown.sound, .of_grows grown, grown.cache⟩

end ObjectStore

namespace Comparison

/-! ## Memory and files -/

/-- What is remembered is what the symbol files say. -/
def Faithful (c : Comparison) (h : Host) : Prop :=
  ∀ e ∈ h.tally.cache.entries, ObjectId.isValid e.1 = true ∧
    ∃ data, h.contentAt? (c.layout.tagStore.path e.1) = some data ∧
      Symbol.readAll ⟨data, none⟩ = ⟨e.2, none⟩

/-- Listing the files of a tag changes no file, on every host that has what `start` has. -/
def Careful (c : Comparison) (start : Host) : Prop :=
  ∀ tag h, Adding start h → Quiet h ((c.walker.source.listing tag).on h).2

/-- The symbols of a content, read from its symbol file whatever is remembered. -/
def consult (c : Comparison) (id : Bytes) : Run (List Symbol) := do
  match ← Run.attempt (c.layout.tagStore.read id) with
  | .error f => if f.isMissingFile then pure [] else throw f
  | .ok data =>
    let d := Symbol.readAll ⟨data, none⟩
    match d.failure with
    | some f => throw (f.within (lit "tag file " ++ ObjectId.brief id))
    | none => pure d.items

variable {c : Comparison} {start h g : Host}

theorem careful_of_memory {m : MemorySource} (whole : c.walker.source = .memory m) (start : Host) :
    c.Careful start := by
  intro tag h _
  rw [whole]
  simp only [Source.listing]
  cases m.entries tag with
  | error f => exact quiet_lasting.refl h
  | ok entries => exact quiet_lasting.refl h

theorem Faithful.adding (faithful : c.Faithful h) (adding : Adding h g) (sound : h.Sound)
    (sound' : g.Sound) (cache : g.tally.cache = h.tally.cache) : c.Faithful g := by
  intro e member
  rw [cache] at member
  obtain ⟨valid, data, there, read⟩ := faithful e member
  exact ⟨valid, data, adding.contentAt? sound sound' there, read⟩

/-- An empty memory is faithful. -/
theorem faithful_of_nil (none : h.tally.cache.entries = []) : c.Faithful h := by
  intro e member
  rw [none] at member
  cases member

theorem blind_consult (c : Comparison) (id : Bytes) : Blind (c.consult id) := by
  refine (c.layout.tagStore.blind_read id).attempt.bind fun outcome => ?_
  cases outcome with
  | error f =>
      simp only
      split
      · exact Agree.pure _ []
      · exact Agree.throw _ f
  | ok data =>
      simp only
      split
      · exact Agree.throw _ _
      · exact Agree.pure _ _

theorem on_consult (c : Comparison) {id data : Bytes} (valid : ObjectId.isValid id = true)
    (there : h.contentAt? (c.layout.tagStore.path id) = some data) :
    (c.consult id).on h =
      (match (Symbol.readAll ⟨data, none⟩).failure with
      | some f => .error (f.within (lit "tag file " ++ ObjectId.brief id))
      | none => .ok (Symbol.readAll ⟨data, none⟩).items, h) := by
  rw [consult, on_bind, on_attempt, ObjectStore.on_read valid there]
  simp only
  split <;> rfl

/-- A content without a symbol file has no symbols. -/
theorem on_consult_of_absent (c : Comparison) {id : Bytes} (valid : ObjectId.isValid id = true)
    (absent : h.look (c.layout.tagStore.path id) = .error .noEntry) :
    (c.consult id).on h = (.ok [], h) := by
  simp only [consult, ObjectStore.read, on_bind, on_attempt, ObjectStore.on_checkId_of_isValid valid "read",
    on_during, readFile, on_get, absent]
  rfl

/-- With a faithful memory, the symbols of a content are what its symbol file says, and the memory
stays faithful. -/
theorem symbols_consults (faithful : c.Faithful h) (id : Bytes) :
    (c.symbols id).Ends h fun r g => r = ((c.consult id).on h).1 ∧ c.Faithful g ∧
      ∃ cache, g = { h with tally := { h.tally with cache } } := by
  rw [symbols, ends_get_bind]
  cases hit : h.tally.cache.get? id with
  | some remembered =>
      obtain ⟨found, cache⟩ := remembered
      simp only [SymbolCache.get?] at hit
      split at hit
      · cases hit
      · rename_i e located
        obtain ⟨rfl, rfl⟩ := Prod.mk.inj (Option.some.inj hit)
        obtain rfl : e.1 = id := by simpa using List.find?_some located
        have member := List.mem_of_find?_eq_some located
        obtain ⟨valid, data, there, read⟩ := faithful e member
        refine ⟨?_, fun e' member' => ?_, _, rfl⟩
        · simp only [c.on_consult valid there, read]
          rfl
        · rcases List.mem_cons.mp member' with rfl | later
          · exact faithful _ member
          · exact faithful e' (List.mem_filter.mp later).1
  | none =>
      have unchanged : ∃ cache, h = { h with tally := { h.tally with cache } } :=
        ⟨h.tally.cache, rfl⟩
      obtain ⟨same, success, -⟩ := (c.layout.tagStore.read_ends id h).holds
      have reads : (c.layout.tagStore.read id).Ends h fun r k =>
          (c.layout.tagStore.read id).on h = (r, k) ∧ k = h := ⟨rfl, same⟩
      refine reads.attempt_bind ?_
      rintro outcome k ⟨ended, rfl⟩
      simp only [consult, on_bind, on_attempt, ended]
      rw [ended] at success
      cases outcome with
      | error f =>
          by_cases missing : f.isMissingFile = true
          · simp only [missing, if_true]
            exact ⟨rfl, faithful, unchanged⟩
          · simp only [missing]
            exact ⟨rfl, faithful, unchanged⟩
      | ok data =>
          cases flaw : (Symbol.readAll ⟨data, none⟩).failure with
          | some f =>
              simp only [flaw]
              exact ⟨rfl, faithful, unchanged⟩
          | none =>
              simp only [flaw]
              obtain ⟨valid, there⟩ := success data rfl
              refine ⟨rfl, fun e member => ?_, _, rfl⟩
              -- the new entry is what was read to its end just now
              rcases List.mem_cons.mp (List.mem_of_mem_take member) with rfl | later
              · exact ⟨valid, data, there, congrArg (Delivery.mk _) flaw⟩
              · exact faithful e (List.mem_filter.mp later).1

/-! ## Two hosts at a time -/

/-- Two hosts that have what `start` had and differ in faithful memories and in reports alone. -/
structure Twins (c : Comparison) (start h g : Host) : Prop where
  alike : Alike h g
  sound : h.Sound
  adding : Adding start h
  first : c.Faithful h
  second : c.Faithful g

namespace Twins

theorem refl (sound : h.Sound) (adding : Adding start h) (faithful : c.Faithful h) :
    c.Twins start h h := ⟨.refl h, sound, adding, faithful, faithful⟩

/-- What such a pair is after each has lost nothing. -/
theorem after {h' g' : Host} (twins : c.Twins start h g) (alike : Alike h' g') (sound : h'.Sound)
    (left : Adding h h') (right : Adding g g') (cache : h'.tally.cache = h.tally.cache)
    (cache' : g'.tally.cache = g.tally.cache) : c.Twins start h' g' where
  alike := alike
  sound := sound
  adding := twins.adding.trans left
  first := twins.first.adding left twins.sound sound cache
  second := twins.second.adding right (twins.alike.sound twins.sound) (alike.sound sound) cache'

end Twins

/-- Work that is blind and loses nothing does the same on both. -/
theorem Twins.agreeAt {α : Type} {work : Run α} (twins : c.Twins start h g) (blind : Blind work)
    (left : work.Ends h fun _ k => k.Sound ∧ Adding h k ∧ k.tally.cache = h.tally.cache)
    (right : work.Ends g fun _ k => k.Sound ∧ Adding g k ∧ k.tally.cache = g.tally.cache) :
    AgreeAt (c.Twins start) h g work work := by
  obtain ⟨same, alike⟩ := blind twins.alike
  obtain ⟨sound, adding, cache⟩ := left.holds
  obtain ⟨-, adding', cache'⟩ := right.holds
  exact ⟨same, twins.after alike sound adding adding' cache cache'⟩

theorem agree_of_quiet {α : Type} {work : Run α} (blind : Blind work) (quiet : work.Keeps Quiet) :
    Agree (c.Twins start) work work := by
  have adds : ∀ {k : Host}, k.Sound →
      work.Ends k fun _ k' => k'.Sound ∧ Adding k k' ∧ k'.tally.cache = k.tally.cache :=
    fun sound => (quiet.ends _).mono fun _ _ same =>
      ⟨same.sound sound, .of_sameFiles same.toSameFiles, same.cache⟩
  intro h g twins
  exact twins.agreeAt blind (adds twins.sound) (adds (twins.alike.sound twins.sound))

theorem report_twins (level : Journal.Level) (message : String)
    (attributes attributes' : List (String × Journal.Value)) :
    Agree (c.Twins start) (report level message attributes) (report level message attributes') := by
  intro h g twins
  have left := report_quiet level message attributes h
  have right := report_quiet level message attributes' g
  obtain ⟨same, alike⟩ := report_agree level message attributes attributes' twins.alike
  exact ⟨same, twins.after alike (left.sound twins.sound) (.of_sameFiles left.toSameFiles)
    (.of_sameFiles right.toSameFiles) left.cache right.cache⟩

theorem remember_twins {f : Tally → Tally} (cache : ∀ t, (f t).cache = t.cache) :
    Agree (c.Twins start) (remember f) (remember f) :=
  agree_of_quiet (blind_remember f) (remember_quiet cache)

theorem stage_twins {name : String} {total : Int} {work : Run Unit}
    (agree : Agree (c.Twins start) work work) :
    Agree (c.Twins start) (stage name total work) (stage name total work) :=
  Agree.stage (fun f => agree_of_quiet (blind_changeStage f) (changeStage_quiet f))
    (agree_of_quiet (blind_startStage name total) (startStage_quiet name total)) agree

/-- Both hosts hear the same symbols, from memory or from the file. -/
theorem symbols_twins (id : Bytes) : Agree (c.Twins start) (c.symbols id) (c.symbols id) := by
  intro h g twins
  obtain ⟨heard, first, cache, left⟩ := (symbols_consults twins.first id).holds
  obtain ⟨heard', second, cache', right⟩ := (symbols_consults twins.second id).holds
  have files : SameFiles h ((c.symbols id).on h).2 := by
    rw [left]
    exact ⟨⟨rfl, rfl, rfl⟩, rfl⟩
  refine ⟨?_, ?_, files.sound twins.sound, twins.adding.trans (.of_sameFiles files), first, second⟩
  · rw [heard, heard']
    exact (c.blind_consult id twins.alike).1
  · rw [left, right]
    obtain ⟨journal, tally, rfl⟩ := twins.alike
    exact ⟨journal, { tally with cache := cache' }, rfl⟩

theorem loadFile_twins (w : Window) (e : FileEntry) :
    Agree (c.Twins start) (c.loadFile w e) (c.loadFile w e) := by
  unfold loadFile
  refine (symbols_twins e.id).bind fun found => ?_
  refine Agree.bind (remember_twins ?_) fun _ => Agree.pure _ _
  exact fun _ => rfl

theorem visitEntries_twins {σ : Type} {visit : σ → FileEntry → Run σ}
    (each : ∀ s e, Agree (c.Twins start) (visit s e) (visit s e)) (entries : List FileEntry) :
    ∀ s, Agree (c.Twins start) (visitEntries visit s entries) (visitEntries visit s entries) := by
  induction entries with
  | nil => exact fun s => Agree.pure _ (s, none)
  | cons e rest ih =>
      intro s
      have checked : Agree (c.Twins start) Run.checkpoint Run.checkpoint :=
        agree_of_quiet blind_checkpoint checkpoint_quiet
      refine (checked.bind fun _ => each s e).attempt.bind fun outcome => ?_
      cases outcome with
      | error f => exact Agree.pure _ (s, some f)
      | ok s' => exact ih s'

theorem load_twins (careful : c.Careful start) (w : Window) (tag : Tag) :
    Agree (c.Twins start) (c.load w tag) (c.load w tag) := by
  unfold load
  rw [c.walker.walk_eq, Source.walk_eq]
  have listed : Agree (c.Twins start) (c.walker.source.listing tag) (c.walker.source.listing tag) := by
    have adds : ∀ {k : Host}, k.Sound → Adding start k → (c.walker.source.listing tag).Ends k
        fun _ k' => k'.Sound ∧ Adding k k' ∧ k'.tally.cache = k.tally.cache := by
      intro k sound adding
      have same := careful tag k adding
      exact ⟨same.sound sound, .of_sameFiles same.toSameFiles, same.cache⟩
    intro h g twins
    have adding := twins.adding.trans (.of_sameFiles twins.alike.sameFiles)
    exact twins.agreeAt (Source.blind_listing _ tag) (adds twins.sound twins.adding)
      (adds (twins.alike.sound twins.sound) adding)
  have visited : ∀ (w : Window) (e : FileEntry),
      Agree (c.Twins start) (if c.walker.keeps e then c.loadFile w e else pure w)
        (if c.walker.keeps e then c.loadFile w e else pure w) := by
    intro w e
    split
    · exact loadFile_twins w e
    · exact Agree.pure _ w
  refine (listed.bind fun answer => (visitEntries_twins visited answer.1 w).bind fun ended =>
    Agree.pure _ _).bind fun walked => ?_
  obtain ⟨w', ended⟩ := walked
  cases ended with
  | some f => exact Agree.throw _ _
  | none => exact (report_twins _ _ _ _).bind fun _ => Agree.pure _ w'

/-- A file that is written where nothing is. -/
theorem writeAll_twins (twins : c.Twins start h g) {dest : Bytes} (missing : (h.look dest).isOk = false)
    (data : Bytes) :
    AgreeAt (c.Twins start) h g (AtomicFile.writeAll dest data) (AtomicFile.writeAll dest data) := by
  have adds : ∀ {k : Host}, k.Sound → (k.look dest).isOk = false →
      (AtomicFile.writeAll dest data).Ends k
        fun _ k' => k'.Sound ∧ Adding k k' ∧ k'.tally.cache = k.tally.cache := by
    intro k sound missing
    refine (AtomicFile.writeAll_lands sound dest data).ends ?_ ?_
    · rintro _ k' ⟨landed, found⟩
      exact ⟨landed.sound, .of_lands sound missing landed found, landed.cache⟩
    · exact fun _ k' grown => ⟨grown.sound, .of_grows grown, grown.cache⟩
  refine twins.agreeAt (AtomicFile.blind_writeAll dest data) (adds twins.sound missing) ?_
  refine adds (twins.alike.sound twins.sound) ?_
  rwa [look_of_sameFiles twins.alike.sameFiles]

/-- A diff is written only where nothing is. -/
theorem persist_twins (w : Window) (tag : Tag) :
    Agree (c.Twins start) (c.persist w tag) (c.persist w tag) := by
  intro h g twins
  have same : g.look (c.layout.diff tag.name) = h.look (c.layout.diff tag.name) :=
    look_of_sameFiles twins.alike.sameFiles _
  simp only [persist, AgreeAt, on_bind, on_isThere, same]
  cases missing : (h.look (c.layout.diff tag.name)).isOk with
  | true =>
      simp only [if_true]
      refine Agree.bind (remember_twins ?_) (fun _ => report_twins _ _ _ _) twins
      exact fun _ => rfl
  | false =>
      simp only [Bool.false_eq_true, if_false]
      -- the diff is written in both branches of the report on common symbols
      have writing : ∀ {counting : Run Unit}, Agree (c.Twins start) counting counting →
          ∀ {h g}, c.Twins start h g → (h.look (c.layout.diff tag.name)).isOk = false →
            AgreeAt (c.Twins start) h g
              (Run.during (lit "write diff " ++ tag.name) (AtomicFile.writeAll
                (c.layout.diff tag.name) (Record.writeAll (w.met (c.order tag)).diff.records)) >>= fun _ => counting)
              (Run.during (lit "write diff " ++ tag.name) (AtomicFile.writeAll
                (c.layout.diff tag.name) (Record.writeAll (w.met (c.order tag)).diff.records)) >>= fun _ => counting) := by
        intro counting counts h g twins missing
        exact ((writeAll_twins twins missing _).during _).bind fun _ => counts
      have counts : ∀ {f : Tally → Tally}, (∀ t, (f t).cache = t.cache) → ∀ m level text words,
          Agree (c.Twins start) (remember f >>= fun _ => count m >>= fun _ => report level text words)
            (remember f >>= fun _ => count m >>= fun _ => report level text words) := by
        intro f cache m level text words
        refine (remember_twins cache).bind fun _ => ?_
        exact (agree_of_quiet (blind_count m) (count_quiet m)).bind fun _ => report_twins _ _ _ _
      split
      · have still : ∀ level text words, AgreeAt (fun h g => c.Twins start h g ∧
            (h.look (c.layout.diff tag.name)).isOk = false) h g
              (report level text words) (report level text words) := by
          intro level text words
          obtain ⟨same, reported⟩ := report_twins level text words words twins
          refine ⟨same, reported, ?_⟩
          rw [look_of_sameFiles (report_quiet level text words h).toSameFiles]
          exact missing
        refine (still _ _ _).bind_of (fun both => both.1) fun _ h g both => ?_
        refine writing (counts ?_ _ _ _ _) both.1 both.2
        exact fun _ => rfl
      · refine writing (counts ?_ _ _ _ _) twins missing
        exact fun _ => rfl

theorem compareEach_twins (careful : c.Careful start) (tags : List Tag) :
    ∀ w, Agree (c.Twins start) (c.compareEach w tags) (c.compareEach w tags) := by
  induction tags with
  | nil => exact fun w => Agree.pure _ ()
  | cons tag rest ih =>
      intro w
      refine (agree_of_quiet blind_checkpoint checkpoint_quiet).bind fun _ => ?_
      refine (load_twins careful w tag).bind fun w' => (persist_twins w' tag).bind fun _ => ?_
      exact (agree_of_quiet blind_advanceStage advanceStage_quiet).bind fun _ => ih w'.slide

/-- A comparison does the same on both. -/
theorem run_twins (careful : c.Careful start) (tags : List Tag) :
    Agree (c.Twins start) (c.run tags) (c.run tags) := by
  unfold run
  split
  · exact Agree.throw _ _
  · intro h g twins
    have todo : ∀ k : Host, (c.toCompute tags).on k = (.ok (needed (c.marked k tags)), k) := by
      intro k
      rw [toCompute, on_map, on_withMissing]
      rfl
    have same : c.marked g tags = c.marked h tags := by
      simp only [marked, look_of_sameFiles twins.alike.sameFiles]
    have asked : AgreeAt (c.Twins start) h g (c.toCompute tags) (c.toCompute tags) := by
      simp only [AgreeAt, todo, same]
      exact ⟨trivial, twins⟩
    refine asked.bind fun todo => ?_
    split
    · exact report_twins _ _ _ _
    · refine stage_twins ((compareEach_twins careful todo {}).bind fun _ => ?_)
      exact Agree.get_bind fun h g twins => report_twins _ _ _ _ twins

end Comparison

end SymbolHistory
