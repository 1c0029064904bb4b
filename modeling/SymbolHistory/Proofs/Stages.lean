/-
# Proofs.Stages -- what the stages of a pass change

Each stage of a pass works in a part of the project of its own, whether it
succeeds or fails.  Until the names are listed a project only `Gains` contents
and symbol files; its list of names and its diffs stay as they are.  Which tags
are compared depends on the source alone (`collect_yields`).
-/
import SymbolHistory.Pipeline
import SymbolHistory.Proofs.Organizing
import SymbolHistory.Proofs.NameLists

set_option autoImplicit false

namespace SymbolHistory

open SymbolHistory.Path FileTree Run Host

namespace Layout

/-- The diffs and the list of names of a project on `g` are those on `h`, and the symbol files on
`h` are there on `g`. -/
structure Gains (l : Layout) (h g : Host) : Prop where
  spares : l.Spares [diffsName, namesName] h g
  kept : ∀ {id data : Bytes}, ObjectId.isValid id = true →
    h.contentAt? (l.tagStore.path id) = some data → g.contentAt? (l.tagStore.path id) = some data

namespace Gains

variable {l : Layout} {h g k : Host}

theorem trans (first : l.Gains h g) (second : l.Gains g k) : l.Gains h k :=
  ⟨first.spares.trans second.spares, fun valid there => second.kept valid (first.kept valid there)⟩

theorem sound (gains : l.Gains h g) : g.Sound := gains.spares.sound

theorem of_spares (sound : h.Sound) {apart : List Bytes} (spares : l.Spares apart h g)
    (subset : [tagsName, diffsName, namesName] ⊆ apart) : l.Gains h g := by
  refine ⟨spares.fewer fun name member => subset (List.mem_cons_of_mem _ member), fun valid there => ?_⟩
  rw [contentAt?_congr sound spares.sound spares.folder
    (spares.get?_eq (l.locate_symbolFile h valid) (subset List.mem_cons_self))]
  exact there

theorem quiet (gains : l.Gains h g) (same : Quiet g k) : l.Gains h k := by
  have spares : l.Spares stores g k := (Spares.refl gains.sound).quiet same
  exact gains.trans (of_spares gains.sound spares (by decide))

end Gains

end Layout

/-! ## Organizing -/

namespace Organizer

variable {o : Organizer} {h g : Host} {made : List (Bytes × Bytes)}

theorem Wrote.gains (wrote : o.Wrote h made g) (sound : h.Sound) : o.layout.Gains h g := by
  refine ⟨wrote.spares.fewer (by decide), fun {id data} _ there => ?_⟩
  obtain ⟨x, found⟩ := exists_look_of_contentAt? there
  rw [contentAt?, wrote.look_of_ok sound found]

theorem run_gains (sound : h.Sound) (tidy : o.layout.Tidy)
    (still : ∀ folder paths, (o.generator folder paths).Keeps Quiet) {ids : List Bytes}
    (nonempty : ids ≠ []) :
    (o.run ids).Ends h fun _ g => o.layout.Gains h g := by
  have beside : ∀ {h g}, h.Sound → o.layout.Spares Layout.stores h g → o.layout.Gains h g :=
    fun sound spares => Layout.Gains.of_spares sound spares (by decide)
  refine (run_ends sound tidy still nonempty).mono fun r g ended => ?_
  generalize (o.tabled ids).on h = tabled at ended
  obtain ⟨outcome, k⟩ := tabled
  cases outcome with
  | error e => exact beside sound ended.2
  | ok answer =>
      obtain ⟨spares, -, cleaned⟩ := ended
      obtain ⟨⟨made, wrote⟩, -⟩ := (settle_ends (o := o) spares.sound ids answer.2).holds
      exact ((beside sound spares).trans (wrote.gains spares.sound)).trans
        (beside wrote.sound cleaned)

end Organizer

/-! ## Reading the source -/

namespace BlobReader

theorem readBody_quiet (l : Process.Live) (kind : Bytes) (size : Int) :
    (GitSource.readBody l kind size).Keeps Quiet := by
  unfold GitSource.readBody
  dsimp only
  split
  · exact quiet_lasting.refl
  · split
    · exact quiet_lasting.refl
    · split
      · exact quiet_lasting.refl
      · split <;> exact quiet_lasting.refl

theorem readAnswer_quiet (l : Process.Live) (id : Bytes) :
    (GitSource.readAnswer l id).Keeps Quiet := by
  unfold GitSource.readAnswer
  dsimp only
  split
  · exact quiet_lasting.refl
  · split
    · split
      · exact quiet_lasting.refl
      · exact readBody_quiet _ _ _
    · split <;> exact quiet_lasting.refl

theorem read_quiet (r : BlobReader) (id : Bytes) : (r.read id).Keeps Quiet := by
  cases r with
  | memory m => exact Keeps.pure quiet_lasting _
  | git l =>
      refine Keeps.bind quiet_lasting ?_ fun _ => Keeps.pure quiet_lasting _
      unfold GitSource.readBlob
      cases ObjectId.validate id with
      | error f => exact quiet_lasting.refl
      | ok _ =>
          dsimp only
          split
          · exact quiet_lasting.refl
          · exact Keeps.bind quiet_lasting (readAnswer_quiet _ _) fun _ => Keeps.pure quiet_lasting _

theorem close_quiet (r : BlobReader) : r.close.Keeps Quiet := by
  cases r with
  | memory m => exact Keeps.pure quiet_lasting _
  | git l =>
      unfold close GitSource.close
      dsimp only
      split
      · exact Keeps.pure quiet_lasting _
      · exact Keeps.throw quiet_lasting _

end BlobReader

namespace Extractor

variable {x : Extractor} {usual : Host → Prop} {h g : Host}
  {all : List Tag} {known : Tag → List FileEntry × Option Fault}

/-- The tags of a sequence whose files can be listed. -/
def listed (known : Tag → List FileEntry × Option Fault) (tags : List Tag) : List Tag :=
  tags.filter fun tag => (known tag).2.isNone

theorem listed_append (known : Tag → List FileEntry × Option Fault) (front back : List Tag) :
    listed known (front ++ back) = listed known front ++ listed known back := List.filter_append ..

/-- One more file of a collection. -/
def noted (x : Extractor) (c : Collection) (e : FileEntry) : Collection :=
  if x.filter.keeps e.path then
    { c with files := c.files + 1, ids := Bytes.insertSorted e.id c.ids }
  else c

theorem foldl_noted_tags (x : Extractor) (entries : List FileEntry) :
    ∀ c, (entries.foldl x.noted c).tags = c.tags := by
  induction entries with
  | nil => exact fun c => rfl
  | cons e entries ih =>
      intro c
      rw [List.foldl_cons, ih, noted]
      split <;> rfl

/-- The ids of some files among others. -/
def gather (ids : List Bytes) (files : List FileEntry) : List Bytes :=
  files.foldl (fun ids e => Bytes.insertSorted e.id ids) ids

theorem gather_append (ids : List Bytes) (front back : List FileEntry) :
    gather ids (front ++ back) = gather (gather ids front) back := List.foldl_append ..

def visited (x : Extractor) (known : Tag → List FileEntry × Option Fault) (tag : Tag) :
    List FileEntry := (known tag).1.filter fun e => x.filter.keeps e.path

theorem foldl_noted_ids (x : Extractor) (entries : List FileEntry) : ∀ c,
    (entries.foldl x.noted c).ids = gather c.ids (entries.filter fun e => x.filter.keeps e.path) := by
  induction entries with
  | nil => exact fun c => rfl
  | cons e entries ih =>
      intro c
      rw [List.foldl_cons, ih, noted]
      cases kept : x.filter.keeps e.path with
      | true => simp only [if_true, List.filter_cons, kept, gather, List.foldl_cons]
      | false => simp only [Bool.false_eq_true, if_false, List.filter_cons, kept]

/-- Whether a tag is kept is decided by the source, and so is what its files add to the ids. -/
theorem collectTag_yields (steady : x.source.Steady usual known)
    (closed : ∀ {g k}, usual g → Quiet g k → usual k) (good : usual g) (c : Collection) (tag : Tag) :
    (x.collectTag c tag).Yields g
      (fun c' k => Quiet g k ∧ c'.tags = c.tags ++ listed known [tag] ∧
        c'.ids = gather c.ids (x.visited known tag)) (Quiet g) := by
  have each : ∀ (c : Collection) (e : FileEntry) (k : Host), Quiet g k →
      (if x.filter.keeps e.path then note c e else pure c).Ends k fun r m =>
        Quiet g m ∧ (∀ c', r = .ok c' → c' = x.noted c e) ∧ ∀ e, r = .error e → e = .canceled := by
    intro c e k same
    rw [noted]
    split
    · exact ⟨same, fun _ isNew => (Except.ok.inj isNew).symm, by simp [note]⟩
    · exact ⟨same, fun _ isNew => (Except.ok.inj isNew).symm, by simp⟩
  rw [collectTag]
  refine (checkpoint_quiet.yields g).bind fun _ k same => ?_
  refine (Source.walk_yields steady (fun e => e = .canceled) (fun same => closed good same)
    (fun same same' => quiet_lasting.trans same same') rfl each tag c same).bind ?_
  rintro ⟨c', ended⟩ k ⟨same, walked⟩
  refine advanceStage_sure.yields_bind fun _ m same' => ?_
  have same := quiet_lasting.trans same same'
  obtain ⟨folded, rfl⟩ | ⟨-, f, stopped, cause⟩ := walked
  · have folded : c' = (known tag).1.foldl x.noted c := folded
    have tags : c'.tags = c.tags := by rw [folded, foldl_noted_tags]
    have ids : c'.ids = gather c.ids (x.visited known tag) := by rw [folded, foldl_noted_ids, visited]
    cases fault : (known tag).2 with
    | none =>
        have isListed : listed known [tag] = [tag] := by simp [listed, fault]
        exact ⟨same, by rw [isListed, ← tags], ids⟩
    | some f =>
        dsimp only
        split
        · have gone : listed known [tag] = [] := by simp [listed, fault]
          refine (report_sure _ _ _).yields_bind fun _ k same' => ?_
          have same := quiet_lasting.trans same same'
          refine (count_sure _).yields_bind fun _ m same' => ?_
          rw [yields_pure, gone, List.append_nil]
          exact ⟨quiet_lasting.trans same same', tags, ids⟩
        · exact ⟨same⟩
  · obtain rfl : ended = some f := stopped
    have resolvable : f.isUnresolvable = false := by
      rcases cause with rfl | resolvable
      · rfl
      · exact resolvable
    dsimp only
    rw [if_neg (by simp [resolvable])]
    exact ⟨same⟩

theorem foldlM_collectTag_yields (steady : x.source.Steady usual known)
    (closed : ∀ {g k}, usual g → Quiet g k → usual k) (tags : List Tag) :
    ∀ {g : Host} (c : Collection), usual g → (tags.foldlM x.collectTag c).Yields g
      (fun c' k => Quiet g k ∧ c'.tags = c.tags ++ listed known tags ∧
        c'.ids = gather c.ids (tags.flatMap (x.visited known))) (Quiet g) := by
  induction tags with
  | nil =>
      intro g c _
      exact ⟨quiet_lasting.refl g, by simp [listed], rfl⟩
  | cons tag rest ih =>
      intro g c good
      rw [List.foldlM_cons]
      refine (collectTag_yields steady closed good c tag).bind ?_
      rintro c' k ⟨same, added, ids⟩
      refine (ih c' (closed good same)).mono ?_ fun _ same' => quiet_lasting.trans same same'
      rintro c'' m ⟨same', more, moreIds⟩
      refine ⟨quiet_lasting.trans same same', ?_, ?_⟩
      · rw [more, added, List.append_assoc, ← listed_append, List.singleton_append]
      · rw [moreIds, ids, List.flatMap_cons, gather_append]

/-- Which tags and contents are collected depends on the source alone. -/
theorem collect_yields (steady : x.source.Steady usual known)
    (closed : ∀ {g k}, usual g → Quiet g k → usual k) (good : usual g) (tags : List Tag) :
    (x.collect tags).Yields g (fun c k => Quiet g k ∧ c.tags = listed known tags ∧
      c.ids = gather [] (tags.flatMap (x.visited known))) (Quiet g) := by
  have folded : ∀ k, Quiet g k → k.processors = g.processors →
      (tags.foldlM x.collectTag {}).Yields k
      (fun c m => Quiet g m ∧ c.tags = listed known tags ∧
        c.ids = gather [] (tags.flatMap (x.visited known))) (Quiet g) := fun k same _ =>
    (foldlM_collectTag_yields steady closed tags {} (closed good same)).mono
      (fun _ _ ended => ⟨quiet_lasting.trans same ended.1, ended.2⟩)
      fun _ same' => quiet_lasting.trans same same'
  rw [collect]
  refine (stage_yields _ _ folded (fun ended same => ⟨quiet_lasting.trans ended.1 same, ended.2⟩)
    fun same same' => quiet_lasting.trans same same').bind ?_
  rintro c k ⟨same, collected⟩
  refine (report_sure _ _ _).yields_bind fun _ m same' => ?_
  exact ⟨quiet_lasting.trans same same', collected⟩

/-! ## Storing contents -/

variable {l : Layout} {apart : List Bytes}

theorem counted_yields (created : Bool) (h : Host) {fail : Host → Prop} :
    (counted created).Yields h (fun answer g => answer = created ∧ Quiet h g) fail := by
  rw [counted]
  refine (remember_sure (by intro t; rfl)).yields_bind fun _ g same => ?_
  refine (count_sure _).yields_bind fun _ k same' => ?_
  exact ⟨rfl, quiet_lasting.trans same same'⟩

theorem counted_sure (created : Bool) : Sure (counted created) := fun h =>
  (counted_yields created h).mono (fun _ _ ended => ended.2) fun _ never => never

theorem writeObject_yields (store : x.store = l.objectStore) (other : Layout.objectsName ∉ apart)
    (spares : l.Spares apart h g) (blobs : BlobReader) (id : Bytes) :
    (x.writeObject blobs id).Yields g (fun _ => l.Spares apart h) (l.Spares apart h) := by
  rw [writeObject, store, ObjectStore.has]
  refine (isThere_yields g _).bind ?_
  rintro _ _ ⟨rfl, rfl⟩
  split
  · exact (counted_sure false).yields_bind fun _ k same => ⟨spares.quiet same⟩
  · refine (spares.yields (BlobReader.read_quiet blobs id)).bind ?_
    rintro ⟨blobs, outcome⟩ k spares
    refine Yields.ofExcept_bind (fun data _ => ?_) fun _ _ => spares
    refine Yields.ofExcept_bind (fun _ _ => ?_) fun _ _ => spares
    refine ((l.objectStore.write_yields spares.sound id data).mono (fun _ _ stored => stored)
      fun m grown => ?_).bind ?_
    · exact spares.trans (.of_grows_below grown (l.locate_objects k) other)
    · rintro _ m ⟨valid, ⟨-, rfl, rfl⟩ | ⟨-, rfl, put, -⟩⟩
      · exact (counted_sure _).yields_bind fun _ k same => ⟨spares.quiet same⟩
      · have spares := spares.trans (.of_puts put (l.locate_object k valid) other)
        exact (counted_sure _).yields_bind fun _ k same => ⟨spares.quiet same⟩

theorem writeEach_yields (store : x.store = l.objectStore) (other : Layout.objectsName ∉ apart)
    (ids : List Bytes) :
    ∀ {g : Host} (blobs : BlobReader) (created : List Bytes), l.Spares apart h g →
      (x.writeEach blobs created ids).Yields g (fun _ => l.Spares apart h) (l.Spares apart h) := by
  induction ids with
  | nil => exact fun blobs created spares => ⟨spares⟩
  | cons id rest ih =>
      intro g blobs created spares
      rw [writeEach]
      refine (spares.yields checkpoint_quiet).bind fun _ k spares => ?_
      refine (writeObject_yields store other spares blobs id).bind fun answer k spares => ?_
      refine (spares.yields advanceStage_quiet).bind fun _ k spares => ?_
      exact ih _ _ spares

/-- Readers that are opened are all `good` if each is. -/
theorem openReaders_yields {good : BlobReader → Prop}
    (opens : ∀ k, Quiet g k →
      x.source.openBlobs.Yields k (fun r m => Quiet k m ∧ good r) (Quiet k)) (n : Nat) :
    ∀ {k : Host}, Quiet g k → (x.openReaders n).Yields k
      (fun readers m => Quiet g m ∧ readers.length = n ∧ ∀ r ∈ readers, good r) (Quiet g) := by
  induction n with
  | zero => exact fun same => ⟨same, rfl, by simp⟩
  | succ n ih =>
      intro k same
      rw [openReaders]
      refine ((opens k same).mono (fun _ _ opened => opened) fun _ same' =>
        quiet_lasting.trans same same').bind ?_
      rintro r m ⟨same', isGood⟩
      refine (ih (quiet_lasting.trans same same')).bind ?_
      rintro readers n ⟨same, length, areGood⟩
      refine ⟨same, by rw [List.length_cons, length], fun r' member => ?_⟩
      rcases List.mem_cons.mp member with rfl | later
      · exact isGood
      · exact areGood r' later

/-- Storing contents comes to what writing them one by one with the first of the readers comes to, if
there are any. -/
theorem writeObjects_of_opened {ids : List Bytes} {opened : List BlobReader → Host → Prop}
    {done : List Bytes → Host → Prop} {fail : Host → Prop}
    (opens : ∀ k, Quiet g k →
      (x.openReaders (min (workerCount x.workers g) ids.length)).Yields k opened fail)
    (each : ∀ blobs readers k, opened (blobs :: readers) k →
      (x.writeEach blobs [] ids).Yields k done fail)
    (idle : ∀ k, opened [] k → done [] k)
    (success : ∀ {created k m}, done created k → Quiet k m → done created m)
    (failure : ∀ {k m}, fail k → Quiet k m → fail m) (leave : ∀ {k}, Quiet g k → fail k) :
    (x.writeObjects ids).Yields g
      (fun sorted k => ∃ created, done created k ∧ sorted = Bytes.sort created) fail := by
  have checked : Run.checkpoint.Keeps fun h k => Quiet h k ∧ k.processors = h.processors :=
    fun h => ⟨checkpoint_quiet h, checkpoint_processors h⟩
  rw [writeObjects]
  refine ((checked.yields g).mono (fun _ _ same => same) fun _ same => leave same.1).bind ?_
  rintro - k ⟨same, processors⟩
  refine Yields.bind (?_ : Yields _ k done fail) fun created m ended => ?_
  · refine stage_yields _ _ (fun m same' processors' => ?_) success failure
    refine Yields.during ?_ _
    rw [yields_get_bind, show workerCount x.workers m = workerCount x.workers g by
      rw [workerCount, workerCount, processors', processors]]
    refine (opens m (quiet_lasting.trans same same')).bind fun readers n ready => ?_
    cases readers with
    | nil => exact ⟨idle n ready⟩
    | cons blobs readers =>
        have closing : Sure ((blobs :: readers).forM fun r => do let _ ← Run.attempt r.close) :=
          Sure.forM (fun r => (attempt_sure (BlobReader.close_quiet r)).bind fun _ h =>
            (yields_pure _ _ _ _).mpr (quiet_lasting.refl h)) _
        exact ensuring_yields (each blobs readers n ready) closing (fun ended => success ended) failure
  · refine (report_sure _ _ _).yields_bind fun _ n same => ?_
    exact ⟨created, success ended same, rfl⟩

/-- Storing contents comes to what writing them one by one with a `good` reader comes to, unless
there is nothing to write or nobody to do it. -/
theorem writeObjects_of_each {good : BlobReader → Prop} {ids : List Bytes}
    {done : Host → Prop} {fail : Host → Prop}
    (opens : ∀ k, Quiet g k →
      x.source.openBlobs.Yields k (fun r m => Quiet k m ∧ good r) (Quiet k))
    (each : ∀ blobs k, good blobs → Quiet g k →
      (x.writeEach blobs [] ids).Yields k (fun _ => done) fail)
    (idle : ids = [] ∨ x.workers ≤ 0 → ∀ {k}, Quiet g k → done k)
    (success : ∀ {k m}, done k → Quiet k m → done m) (failure : ∀ {k m}, fail k → Quiet k m → fail m)
    (leave : ∀ {k}, Quiet g k → fail k) :
    (x.writeObjects ids).Yields g (fun _ => done) fail := by
  have written := writeObjects_of_opened (x := x) (g := g) (fun k same =>
      (openReaders_yields opens _ same).mono (fun _ _ opened => opened) fun _ => leave)
    (fun blobs readers k opened => each blobs k (opened.2.2 blobs List.mem_cons_self) opened.1)
    (fun k opened => idle ?_ opened.1) success failure leave
  · exact written.mono (fun _ _ ⟨_, ended, _⟩ => ended) fun _ failed => failed
  · have nobody := opened.2.1
    rw [List.length_nil, workerCount] at nobody
    split at nobody
    · refine .inl (List.eq_nil_of_length_eq_zero ?_)
      omega
    · exact .inr (by omega)

/-- Storing contents changes the store of contents and nothing else. -/
theorem writeObjects_yields (store : x.store = l.objectStore) (other : Layout.objectsName ∉ apart)
    (closed : ∀ {k}, l.Spares apart h k → usual k)
    (opens : ∀ g, usual g → x.source.openBlobs.Yields g (fun _ => Quiet g) (Quiet g))
    (spares : l.Spares apart h g) (ids : List Bytes) :
    (x.writeObjects ids).Yields g (fun _ => l.Spares apart h) (l.Spares apart h) := by
  refine writeObjects_of_each (fun k same => ?_) (fun blobs k (_ : True) same => ?_)
    (fun _ {_} => spares.quiet) Layout.Spares.quiet Layout.Spares.quiet spares.quiet
  · exact (opens k (closed (spares.quiet same))).mono (fun _ _ same => ⟨same, trivial⟩) fun _ same => same
  · exact writeEach_yields store other ids blobs [] (spares.quiet same)

end Extractor

/-! ## Symbol files and the list of names -/

namespace Layout

/-- Between `h` and `g` no symbol file of a project was lost. -/
structure Retains (l : Layout) (h g : Host) : Prop where
  sound : g.Sound
  usual : l.Usual h g
  kept : ∀ {id data : Bytes}, ObjectId.isValid id = true →
    h.contentAt? (l.tagStore.path id) = some data → g.contentAt? (l.tagStore.path id) = some data

/-- Between `h` and `g` nothing happened to the symbol files and the list of names. -/
structure Rests (l : Layout) (h g : Host) : Prop where
  sound : g.Sound
  usual : l.Usual h g
  list : g.tree.get? (h.locate l.names) = h.tree.get? (h.locate l.names)
  symbolFile : ∀ {id : Bytes}, ObjectId.isValid id = true →
    g.contentAt? (l.tagStore.path id) = h.contentAt? (l.tagStore.path id)

/-- What work that began on `h` may leave behind when it is cut off: no symbol file is lost, and
the list of names is what it was, or it is current. -/
structure Leaves (l : Layout) (h g : Host) : Prop extends Retains l h g where
  list : g.tree.get? (h.locate l.names) = h.tree.get? (h.locate l.names) ∨ l.Current g

/-- What a pass that began on `h` makes of the list of names: it is current, or it was there and
nothing happened to it and to the symbol files. -/
def Refreshed (l : Layout) (h g : Host) : Prop :=
  l.Current g ∨ (h.look l.names).isOk = true ∧ l.Rests h g

section

variable {l : Layout} {h g k : Host}

theorem Retains.trans (first : l.Retains h g) (second : l.Retains g k) : l.Retains h k :=
  ⟨second.sound, first.usual.trans second.usual,
    fun valid there => second.kept valid (first.kept valid there)⟩

theorem Gains.retains (gains : l.Gains h g) : l.Retains h g :=
  ⟨gains.sound, gains.spares.usual, gains.kept⟩

theorem Gains.leaves (gains : l.Gains h g) : l.Leaves h g :=
  ⟨gains.retains, .inl (gains.spares.get?_eq (l.locate_names h) (by decide))⟩

namespace Rests

theorem retains (rests : l.Rests h g) : l.Retains h g :=
  ⟨rests.sound, rests.usual, fun valid there => (rests.symbolFile valid).trans there⟩

theorem trans (first : l.Rests h g) (second : l.Rests g k) : l.Rests h k := by
  refine ⟨second.sound, first.usual.trans second.usual, ?_, fun valid =>
    (second.symbolFile valid).trans (first.symbolFile valid)⟩
  have list := second.list
  rw [locate_of_folder first.usual.1.folder] at list
  exact list.trans first.list

theorem of_spares (sound : h.Sound) {apart : List Bytes} (spares : l.Spares apart h g)
    (tags : tagsName ∈ apart) (names : namesName ∈ apart) : l.Rests h g :=
  ⟨spares.sound, spares.usual, spares.get?_eq (l.locate_names h) names, fun valid =>
    contentAt?_congr sound spares.sound spares.folder
      (spares.get?_eq (l.locate_symbolFile h valid) tags)⟩

theorem of_sameFiles (sound : h.Sound) (same : SameFiles h g) : l.Rests h g := by
  refine ⟨same.sound sound, .sameFiles same, by rw [same.tree], fun _ => ?_⟩
  rw [contentAt?, look_of_sameFiles same, contentAt?]

/-- A comparison touches neither. -/
theorem of_reached {c : Comparison} {made : List (Bytes × Bytes)} (sound : h.Sound)
    (reached : c.Reached h made g) : c.layout.Rests h g := by
  refine ⟨reached.sound, reached.usual, reached.get?_beside ?_ ?_, reached.symbolFile sound⟩
  · rw [locate_names, locate_diffs, List.prefix_append_right_inj]
    decide
  · rw [locate_names, locate_diffs, List.prefix_append_right_inj]
    decide

theorem current (rests : l.Rests h g) (sound : h.Sound) (current : l.Current h) : l.Current g :=
  current.congr (contentAt?_congr sound rests.sound rests.usual.1.folder rests.list)
    fun _ => l.symbolsAt_congr rests.symbolFile

end Rests

theorem Leaves.rests (leaves : l.Leaves h g) (rests : l.Rests g k) : l.Leaves h k := by
  refine ⟨leaves.toRetains.trans rests.retains, ?_⟩
  rcases leaves.list with same | current
  · have list := rests.list
    rw [locate_of_folder leaves.usual.1.folder] at list
    exact .inl (list.trans same)
  · exact .inr (rests.current leaves.sound current)

theorem Leaves.quiet (leaves : l.Leaves h g) (same : Quiet g k) : l.Leaves h k :=
  leaves.rests (.of_sameFiles leaves.sound same.toSameFiles)

theorem Refreshed.rests (refreshed : l.Refreshed h g) (sound : g.Sound) (rests : l.Rests g k) :
    l.Refreshed h k := by
  rcases refreshed with current | ⟨there, rested⟩
  · exact .inl (rests.current sound current)
  · exact .inr ⟨there, rested.trans rests⟩

/-- It does not matter on which of two hosts with the same files the work began. -/
theorem Leaves.sameFiles_before {h' : Host} (leaves : l.Leaves h' g) (same : SameFiles h h') :
    l.Leaves h g := by
  refine ⟨⟨leaves.sound, (Usual.sameFiles same).trans leaves.usual, fun valid there => ?_⟩, ?_⟩
  · refine leaves.kept valid ?_
    rwa [contentAt?, look_of_sameFiles same]
  · have list := leaves.list
    rwa [locate_of_folder same.folder, same.tree] at list

theorem Refreshed.sameFiles_before {h' : Host} (refreshed : l.Refreshed h' g) (sound : h.Sound)
    (same : SameFiles h h') : l.Refreshed h g := by
  rcases refreshed with current | ⟨there, rests⟩
  · exact .inl current
  · rw [look_of_sameFiles same] at there
    exact .inr ⟨there, (Rests.of_sameFiles sound same).trans rests⟩

theorem Refreshed.leaves (refreshed : l.Refreshed h g) (retains : l.Retains h g) : l.Leaves h g := by
  refine ⟨retains, ?_⟩
  rcases refreshed with current | ⟨-, rested⟩
  · exact .inr current
  · exact .inl rested.list

/-- The list of names after contents were organized and names listed. -/
theorem refreshed_of_listed (sound : h.Sound) {m n : Host} {pending : List Bytes}
    (stored : l.Spares [tagsName, diffsName, namesName] h g) (organized : pending = [] → Quiet g m)
    (listed : l.Current n ∨ pending = [] ∧ (m.look l.names).isOk = true ∧ Quiet m n) :
    l.Refreshed h n := by
  rcases listed with current | ⟨nothing, there, same⟩
  · exact .inl current
  · have rests : l.Rests h m := .of_spares sound (stored.quiet (organized nothing)) (by decide) (by decide)
    rw [isOk_look_congr sound rests.sound rests.usual.1.folder rests.list] at there
    exact .inr ⟨there, rests.trans (.of_sameFiles rests.sound same.toSameFiles)⟩

end

end Layout

/-! ## Stages of a pass -/

namespace Pipeline

variable {l : Layout} {h g : Host}

/-- A stage of a pass succeeds and fails as its work does. -/
theorem stage_yields {α : Type} {work : Run α} {done : α → Host → Prop} {fail : Host → Prop}
    (name : String) (yields : work.Yields g done fail)
    (success : ∀ {a k m}, done a k → Quiet k m → done a m)
    (failure : ∀ {k m}, fail k → Quiet k m → fail m) :
    (Pipeline.stage name work).Yields g done fail := by
  have ended : work.Ends g fun r k => (∀ a, r = .ok a → done a k) ∧ ∀ e, r = .error e → fail k := by
    refine yields.ends (fun a k ended => ⟨fun b same => ?_, nofun⟩) fun e k ended => ⟨nofun, fun _ _ => ended⟩
    cases same
    exact ended
  rw [Pipeline.stage]
  refine (yields_attempt ended).bind fun outcome k ended => ?_
  refine (count_sure _).yields_bind fun _ m same => ?_
  cases outcome with
  | ok a =>
      refine (report_sure _ _ _).yields_bind fun _ n same' => ?_
      exact ⟨success (ended.1 a rfl) (quiet_lasting.trans same same')⟩
  | error f =>
      refine (report_sure _ _ _).yields_bind fun _ n same' => ?_
      exact ⟨failure (ended.2 f rfl) (quiet_lasting.trans same same')⟩

/-- Organizing comes to what organizing the contents comes to that have no symbol file. -/
theorem organize_of_run {o : Organizer} (ids : List Bytes) (created : Nat)
    {done : List Bytes → Host → Prop} {fail : Host → Prop}
    (organized : ∀ k, Quiet h k → (o.run (ids.filter (o.isPending h))).Yields k
      (fun _ => done (ids.filter (o.isPending h))) fail) :
    (organize o ids created).Yields h done fail := by
  have settled : ∀ {k}, Quiet h k → (o.run (ids.filter (o.isPending h)) >>= fun _ =>
      pure (ids.filter (o.isPending h))).Yields k done fail := fun same =>
    (organized _ same).bind fun _ m ended => (yields_pure _ m _ _).mpr ended
  rw [organize]
  refine Yields.bind (Yields.of_on (o.on_pending h ids)) ?_
  rintro _ h ⟨rfl, rfl⟩
  dsimp only
  split
  · exact (report_sure _ _ _).yields_bind fun _ k same => settled same
  · exact settled (quiet_lasting.refl h)

/-- Organizing adds symbol files if there are contents without one. -/
theorem organize_yields {o : Organizer} (sound : h.Sound) (tidy : o.layout.Tidy)
    (still : ∀ folder paths, (o.generator folder paths).Keeps Quiet) (ids : List Bytes)
    (created : Nat) :
    (organize o ids created).Yields h
      (fun pending g => o.layout.Gains h g ∧ (pending = [] → Quiet h g)) (o.layout.Gains h) := by
  have start : o.layout.Spares Layout.stores h h := .refl sound
  have beside : ∀ {g}, Quiet h g → o.layout.Gains h g :=
    fun same => .of_spares sound (start.quiet same) (by decide)
  refine organize_of_run ids created fun k same => ?_
  by_cases nonempty : ids.filter (o.isPending h) = []
  · rw [nonempty]
    exact ⟨beside same, fun _ => same⟩
  · have run := Organizer.run_gains (same.sound sound) tidy still nonempty
    exact run.yields (fun _ _ more => ⟨(beside same).trans more, fun empty => absurd empty nonempty⟩)
      fun _ more => (beside same).trans more

/-- The list of names is made anew, unless nothing was organized and a list is there. -/
theorem listNames_yields (sound : h.Sound) (l : Layout) (pending : List Bytes)
    {apart lasting : List Bytes} (other : Layout.namesName ∉ lasting)
    (tags : Layout.tagsName ∈ lasting) :
    (listNames l pending).Yields h
      (fun _ g => l.Spares lasting h g ∧
        (l.Current g ∨ pending = [] ∧ (h.look l.names).isOk = true ∧ Quiet h g))
      (l.Spares apart h) := by
  have start : ∀ {apart}, l.Spares apart h h := Layout.Spares.refl sound
  have built : (NameList.build l >>= fun n =>
      Host.report .info "wrote autocomplete list" [("names", .number n)] >>= fun _ =>
        pure n).Yields h
      (fun _ g => l.Spares lasting h g ∧
        (l.Current g ∨ pending = [] ∧ (h.look l.names).isOk = true ∧ Quiet h g))
      (l.Spares apart h) := by
    refine (NameList.build_yields sound l other tags).bind fun n g made => ?_
    refine (report_sure _ _ _).yields_bind fun _ k same => ?_
    exact ⟨made.1.quiet same, .inl (made.2.quiet same)⟩
  rw [listNames]
  cases pending with
  | cons id rest => exact built
  | nil =>
      refine (isThere_yields h l.names).bind ?_
      rintro there h ⟨isThere, rfl⟩
      cases there with
      | true =>
          refine (report_sure _ _ _).yields_bind fun _ k same => ?_
          exact ⟨start.quiet same, .inr ⟨rfl, isThere.symm, same⟩⟩
      | false => exact built

end Pipeline

end SymbolHistory
