/-
# Proofs.AtomicWrites -- a file appears complete or not at all

While a file is being written its text is in a temporary file, at a location
where nothing was (`Draft`).  Committing the draft puts the file at its
destination, giving it up removes the temporary file.  So a write that succeeds
`Puts` the whole file, and one that fails leaves nothing behind but folders on
the way (`writing_lands` for any destination, `writing_yields` for one in a
folder).  A store that is written to keeps every file it has
(`ObjectStore.write_yields`).
-/
import SymbolHistory.ObjectStore
import SymbolHistory.Proofs.Files

set_option autoImplicit false

namespace SymbolHistory

open SymbolHistory.Path FileTree Run Host

/-- On `g` a file is being written under the path `temp` in the folder at `d`: it holds `content`,
and without it `g` has the files of `m`, which is `h` with folders made on the way. -/
structure Draft (h m g : Host) (d : Location) (temp content : Bytes) : Prop where
  base : Changes (Grows d) h m
  isIn : ∃ name, h.locate temp = d ++ [name]
  free : m.tree.get? (h.locate temp) = none
  folder : m.tree.get? d = some .folder
  flawless : pathFlaw temp = none
  short : Short (h.locate temp)
  setting : SameSetting m g
  cache : g.tally.cache = m.tally.cache
  sound : g.Sound
  tree : ∀ k, g.tree.get? k =
    if k = h.locate temp then some (.file content false) else m.tree.get? k

namespace Draft

variable {h m g : Host} {d : Location} {temp content : Bytes}

theorem locate (draft : Draft h m g d temp content) (p : Bytes) : g.locate p = h.locate p :=
  locate_of_folder (draft.setting.folder.trans draft.base.folder) p

theorem look (draft : Draft h m g d temp content) : g.look temp = .ok (.file content false) := by
  rw [look_eq_ok_iff draft.sound, draft.locate, draft.tree, if_pos rfl]
  exact ⟨draft.flawless, rfl, draft.short⟩

theorem leaf (draft : Draft h m g d temp content) :
    g.tree.get? (h.locate temp) ≠ some .folder := by
  rw [draft.tree, if_pos rfl]
  simp

theorem parent (draft : Draft h m g d temp content) :
    g.tree.get? (h.locate temp).dropLast = some .folder := by
  obtain ⟨name, place⟩ := draft.isIn
  have other : d ≠ h.locate temp := by simp [place]
  rw [place, List.dropLast_concat, draft.tree, if_neg other]
  exact draft.folder

/-- A temporary file that was just made. -/
theorem of_temporary {inside stem : Bytes} (base : Changes (Grows d) h m) (place : h.locate inside = d)
    (created : ∃ n, m.locate temp = m.locate inside ++ [stem ++ Decimal.ofNat n] ∧
      m.tree.get? (m.locate temp) = none ∧ m.tree.get? (m.locate inside) = some .folder ∧
      pathFlaw temp = none ∧ Short (m.locate temp) ∧
      g = { m with temporary := g.temporary, tree := m.tree.set (m.locate temp) (.file [] false) }) :
    Draft h m g d temp [] := by
  have same := locate_of_folder base.folder
  obtain ⟨n, isIn, free, folder, flaw, short, written⟩ := created
  rw [same, same, place] at isIn
  rw [same, place] at folder
  rw [same] at free short written
  have nonempty : h.locate temp ≠ [] := by simp [isIn]
  have setting : SameSetting m g := by
    rw [written]
    exact ⟨rfl, rfl, rfl⟩
  have cache : g.tally.cache = m.tally.cache := by rw [written]
  refine ⟨base, ⟨_, isIn⟩, free, folder, flaw, short, setting, cache, ?_, ?_⟩
  · have set := sound_of_set (l := h.locate temp) (n := .file [] false) base.sound
      (by rw [isIn, List.dropLast_concat]; exact folder) (by simp [free])
    rw [written]
    exact ⟨set.tree, set.home⟩
  · intro k
    rw [written]
    exact get?_set _ _ _ _ nonempty

theorem quiet {k : Host} (draft : Draft h m g d temp content) (same : Quiet g k) :
    Draft h m k d temp content where
  base := draft.base
  isIn := draft.isIn
  free := draft.free
  folder := draft.folder
  flawless := draft.flawless
  short := draft.short
  setting := sameSetting_lasting.trans draft.setting same.toSameSetting
  cache := same.cache.trans draft.cache
  sound := same.sound draft.sound
  tree := same.tree ▸ draft.tree

/-- Removing the temporary file leaves only the folders that were made. -/
theorem removed (draft : Draft h m g d temp content) :
    Changes (Grows d) h { g with tree := g.tree.erase (h.locate temp) } := by
  refine ⟨sameSetting_lasting.trans draft.base.toSameSetting ?_, draft.cache.trans draft.base.cache,
    sound_of_erase draft.sound draft.leaf, fun k => ?_⟩
  · exact ⟨draft.setting.folder, draft.setting.repositories, draft.setting.environment⟩
  · change (g.tree.erase (h.locate temp)).get? k = _ ∨ _ ∧ _ ∧ (g.tree.erase (h.locate temp)).get? k = _
    rw [get?_erase _ _ _ (ne_nil_of_not_folder draft.leaf)]
    split
    · rename_i same
      subst same
      rcases draft.base.tree (h.locate temp) with kept | ⟨-, -, made⟩
      · exact .inl (draft.free.symm.trans kept)
      · rw [draft.free] at made
        cases made
    · rename_i other
      rw [draft.tree, if_neg other]
      exact draft.base.tree k

/-- More text in the temporary file. -/
theorem appended (draft : Draft h m g d temp content) (data : Bytes) (room : Option Nat) :
    Draft h m { g with room, tree := g.tree.set (h.locate temp) (.file (content ++ data) false) }
      d temp (content ++ data) where
  base := draft.base
  isIn := draft.isIn
  free := draft.free
  folder := draft.folder
  flawless := draft.flawless
  short := draft.short
  setting := ⟨draft.setting.folder, draft.setting.repositories, draft.setting.environment⟩
  cache := draft.cache
  sound := by
    have set := sound_of_set (n := .file (content ++ data) false) draft.sound draft.parent draft.leaf
    exact ⟨set.tree, set.home⟩
  tree k := by
    change (g.tree.set (h.locate temp) _).get? k = _
    rw [get?_set _ _ _ _ (ne_nil_of_not_folder draft.leaf)]
    split
    · rfl
    · rename_i other
      rw [draft.tree, if_neg other]

/-- Moving the temporary file to its destination puts the file there. -/
theorem moved (draft : Draft h m g d temp content) {dest : Bytes}
    (notFolder : g.look dest ≠ .ok .folder) (admitted : g.admits dest = .ok ()) :
    Changes (Lands d (h.locate dest) content) h
      { g with tree := (g.tree.erase (h.locate temp)).set (h.locate dest) (.file content false) } := by
  obtain ⟨flaw, parent, short⟩ := admits_eq_ok draft.sound admitted
  rw [draft.locate] at parent short
  have tempSome := ne_nil_of_not_folder draft.leaf
  have removed := draft.removed
  have erased : ∀ k, (g.tree.erase (h.locate temp)).get? k = m.tree.get? k := by
    intro k
    rw [get?_erase _ _ _ tempSome]
    split
    · rename_i same
      rw [same, draft.free]
    · rename_i other
      rw [draft.tree, if_neg other]
  have leaf : (g.tree.erase (h.locate temp)).get? (h.locate dest) ≠ some .folder := by
    intro isFolder
    rw [get?_erase _ _ _ tempSome] at isFolder
    split at isFolder
    · cases isFolder
    · exact notFolder ((look_eq_ok_iff draft.sound).mpr
        ⟨flaw, by rw [draft.locate]; exact isFolder, by rw [draft.locate]; exact short⟩)
  have folder : (g.tree.erase (h.locate temp)).get? (h.locate dest).dropLast = some .folder := by
    have other : (h.locate dest).dropLast ≠ h.locate temp := fun same =>
      draft.leaf (same ▸ parent)
    rw [get?_erase _ _ _ tempSome, if_neg other]
    exact parent
  refine ⟨⟨removed.folder, removed.repositories, removed.environment⟩, removed.cache, ?_, m.tree,
    draft.base.tree, fun k => ?_⟩
  · have set := sound_of_set (n := .file content false) removed.sound folder leaf
    exact ⟨set.tree, set.home⟩
  · change ((g.tree.erase (h.locate temp)).set (h.locate dest) _).get? k = _
    rw [get?_set _ _ _ _ (ne_nil_of_not_folder leaf), erased]

end Draft

namespace AtomicFile

variable {h : Host} {d name : Bytes}

/-- A file that is begun has a new temporary file in the folder of its destination. -/
theorem create_temporary (sound : h.Sound) (dest : Bytes) :
    (create dest).Yields h
      (fun f g => f.dest = dest ∧ f.done = false ∧ ∃ m n,
        Changes (Grows (h.locate (dir dest))) h m ∧
        m.locate f.temp = m.locate (dir dest) ++ [stem ++ Decimal.ofNat n] ∧
        m.tree.get? (m.locate f.temp) = none ∧ m.tree.get? (m.locate (dir dest)) = some .folder ∧
        pathFlaw f.temp = none ∧ Short (m.locate f.temp) ∧
        g = { m with temporary := g.temporary, tree := m.tree.set (m.locate f.temp) (.file [] false) })
      (fun g => Changes (Grows (h.locate (dir dest))) h g) := by
  have folders := makeFolders_ends sound (splitLast dest).1
  rw [← locate_clean, ← dir] at folders
  rw [create]
  have made := folders.yields (fun _ _ base => base) fun _ base => base
  refine (made.during _).bind fun _ m base => ?_
  have temporary := createTemporary_yields base.sound (dir_ne_nil dest)
    (by decide : slash ∉ stem) (by decide)
  refine ((temporary.mono (fun _ _ made => made) ?_).during _).bind ?_
  · intro g written
    rw [written]
    exact ⟨⟨base.folder, base.repositories, base.environment⟩, base.cache,
      ⟨base.sound.tree, base.sound.home⟩, base.tree⟩
  · rintro temp g ⟨n, created⟩
    exact ⟨⟨rfl, rfl, m, n, base, created⟩⟩

theorem create_yields (sound : h.Sound) (dest : Bytes) :
    (create dest).Yields h
      (fun f g => f.dest = dest ∧ f.done = false ∧
        ∃ m, Draft h m g (h.locate (dir dest)) f.temp [])
      (fun g => Changes (Grows (h.locate (dir dest))) h g) := by
  refine (create_temporary sound dest).mono ?_ fun _ base => base
  rintro f g ⟨dest, open_, m, n, base, created⟩
  exact ⟨dest, open_, m, .of_temporary base rfl ⟨n, created⟩⟩

/-- The host after more was added to a temporary file. -/
def Added (f : AtomicFile) (content data : Bytes) (g k : Host) : Prop :=
  k = { g with room := k.room, tree := g.tree.set (g.locate f.temp) (.file (content ++ data) false) }

/-- Work that adds `data` to the temporary file.  If it fails there may be more in the file too. -/
def Appends {α : Type} (data : Bytes) (work : AtomicFile → Run α) : Prop :=
  ∀ (f : AtomicFile) (g : Host) (content : Bytes), g.look f.temp = .ok (.file content false) →
    (work f).Yields g (fun _ => Added f content data g) (fun k => k = g ∨ ∃ part, Added f content part g k)

theorem write_appends (data : Bytes) : Appends data fun f => f.write data :=
  fun _ _ _ there => (append_yields there data).mono (fun _ _ added => added) fun _ => .inl

/-- Work that may still fail after everything was added. -/
theorem Appends.followed {data : Bytes} {work : AtomicFile → Run Unit} (appends : Appends data work)
    {check : Run Unit} (still : ∀ k, check.Yields k (fun _ k' => k' = k) fun k' => k' = k) :
    Appends data fun f => work f >>= fun _ => check := by
  intro f g content there
  refine (appends f g content there).bind fun _ k added => (still k).mono ?_ ?_
  · rintro _ _ rfl
    exact added
  · rintro _ rfl
    exact .inr ⟨data, added⟩

theorem Appends.during {α : Type} {data : Bytes} {work : AtomicFile → Run α}
    (appends : Appends data work) (activity : Bytes) :
    Appends data fun f => Run.during activity (work f) :=
  fun f g content there => (appends f g content there).during activity

/-- A draft to which more was added is a draft of it all. -/
theorem Added.draft {m g k : Host} {l : Location} {f : AtomicFile} {content data : Bytes}
    (added : Added f content data g k) (draft : Draft h m g l f.temp content) :
    Draft h m k l f.temp (content ++ data) := by
  have draft' := draft.appended data k.room
  rw [Added, draft.locate] at added
  rwa [← added] at draft'

/-- Giving up a draft leaves nothing of it. -/
theorem on_abort {m g : Host} {l : Location} {f : AtomicFile} {content : Bytes}
    (draft : Draft h m g l f.temp content) (open_ : f.done = false) :
    (f.finish .abort).on g =
      (.ok ({ f with done := true }, .ok ()), { g with tree := g.tree.erase (h.locate f.temp) }) := by
  have removed := on_removeFile draft.look
  rw [draft.locate] at removed
  simp only [finish, open_, on_bind, removed]
  rfl

/-- Committing a draft puts the file at its destination; failing that, nothing is left of it. -/
theorem commit_yields {m g : Host} {d : Location} {f : AtomicFile} {content : Bytes}
    (open_ : f.done = false) (draft : Draft h m g d f.temp content) :
    f.commit.Yields g
      (fun _ k => Changes (Lands d (h.locate f.dest) content) h k ∧
        k.look f.dest = .ok (.file content false))
      (fun k => Changes (Grows d) h k) := by
  have renamed : (rename f.temp f.dest).Yields g
      (fun _ k => Changes (Lands d (h.locate f.dest) content) h k ∧
        k.look f.dest = .ok (.file content false)) (fun k => k = g) := by
    refine (rename_yields g f.temp f.dest).mono ?_ fun _ same => same
    rintro _ k ⟨node, found, notFolder, admitted, written⟩
    rw [draft.look] at found
    cases found
    obtain ⟨flaw, -, short⟩ := admits_eq_ok draft.sound admitted
    have put := draft.moved notFolder admitted
    rw [draft.locate, draft.locate] at written
    rw [← written] at put
    refine ⟨put, (look_eq_ok_iff put.sound).mpr ⟨flaw, ?_, ?_⟩⟩
    · obtain ⟨t, -, after⟩ := put.tree
      rw [locate_of_folder put.folder, after, if_pos rfl]
    · rw [locate_of_folder put.folder, ← draft.locate]
      exact short
  have removed := on_removeFile draft.look
  rw [draft.locate] at removed
  rw [Yields, ends_iff] at renamed ⊢
  simp only [commit, finish, open_, AtomicFile.place, on_bind, on_attempt]
  generalize (rename f.temp f.dest).on g = ended at renamed ⊢
  obtain ⟨outcome, k⟩ := ended
  cases outcome with
  | ok _ => exact renamed
  | error e =>
      obtain rfl : k = g := renamed
      simp only [on_bind, removed]
      exact draft.removed

/-- Work that writes a file under any path lets the whole file land there, or leaves nothing but
folders on the way. -/
theorem writing_lands {α : Type} {data : Bytes} {work : AtomicFile → Run α} (sound : h.Sound)
    (dest : Bytes) (appends : Appends data work) :
    (writing dest work).Yields h
      (fun _ g => Changes (Lands (h.locate (dir dest)) (h.locate dest) data) h g ∧
        g.look dest = .ok (.file data false))
      (fun g => Changes (Grows (h.locate (dir dest))) h g) := by
  rw [writing]
  refine (create_yields sound dest).bind ?_
  rintro f g ⟨rfl, open_, m, draft⟩
  refine Yields.bind (yields_attempt (appends f g [] draft.look)) fun outcome k ended => ?_
  cases outcome with
  | ok a =>
      have draft' := Added.draft ended draft
      rw [List.nil_append] at draft'
      exact (commit_yields open_ draft').bind fun _ _ put => ⟨put⟩
  | error e =>
      obtain ⟨content, draft⟩ : ∃ content, Draft h m k (h.locate (dir f.dest)) f.temp content := by
        rcases ended with rfl | ⟨part, added⟩
        · exact ⟨_, draft⟩
        · exact ⟨_, added.draft draft⟩
      change ((discard (f.finish .abort) : Run Unit) >>= fun _ => throw e).Yields k _ _
      rw [Yields, ends_iff, on_bind, on_discard, on_abort draft open_]
      exact draft.removed

/-- Work that writes a file in a folder puts the whole file there, or leaves nothing but folders on
the way. -/
theorem writing_yields {α : Type} {data : Bytes} {work : AtomicFile → Run α} (sound : h.Sound)
    (isName : IsName name) (appends : Appends data work) :
    (writing (join [d, name]) work).Yields h
      (fun _ g => Changes (Puts (h.locate (join [d, name])) data) h g ∧
        g.look (join [d, name]) = .ok (.file data false))
      (fun g => Changes (Grows (h.locate d)) h g) := by
  have same : Puts (h.locate (join [d, name])) data =
      Lands (h.locate d) (h.locate (join [d, name])) data := by
    funext t u
    rw [puts_iff_lands, h.locate_join d isName, List.dropLast_concat]
  rw [same, ← h.locate_dir_join d isName]
  exact writing_lands sound (join [d, name]) appends

theorem writeAll_lands (sound : h.Sound) (dest data : Bytes) :
    (writeAll dest data).Yields h
      (fun _ g => Changes (Lands (h.locate (dir dest)) (h.locate dest) data) h g ∧
        g.look dest = .ok (.file data false))
      (fun g => Changes (Grows (h.locate (dir dest))) h g) :=
  writing_lands sound dest ((write_appends data).during (lit "atomic write"))

theorem writeAll_yields (sound : h.Sound) (isName : IsName name) (data : Bytes) :
    (writeAll (join [d, name]) data).Yields h
      (fun _ g => Changes (Puts (h.locate (join [d, name])) data) h g ∧
        g.look (join [d, name]) = .ok (.file data false))
      (fun g => Changes (Grows (h.locate d)) h g) :=
  writing_yields sound isName ((write_appends data).during (lit "atomic write"))

end AtomicFile

namespace ObjectId

theorem isName_of_isValid {id : Bytes} (valid : isValid id = true) : IsName id := by
  simp only [isValid, Bool.and_eq_true, Bool.or_eq_true, beq_iff_eq, List.all_eq_true] at valid
  obtain ⟨length, digits⟩ := valid
  have long : 2 < id.length := by omega
  refine ⟨⟨fun member => absurd (digits slash member) (by decide), ?_, ?_⟩, ?_⟩
  all_goals
    intro e
    rw [e] at long
    exact absurd long (by decide)

end ObjectId

namespace ObjectStore

variable {h : Host}

theorem checkId_ends (verb : String) (id : Bytes) (h : Host) :
    (checkId verb id).Ends h fun r g => g = h ∧ (∀ a, r = .ok a → ObjectId.isValid id = true) ∧
      ∀ f, r = .error f → f.isMissingFile = false := by
  rw [checkId, ends_during, ends_ofExcept, ObjectId.validate]
  cases ObjectId.isValid id with
  | true => exact ⟨rfl, fun _ _ => rfl, by simp [Except.mapError]⟩
  | false =>
      refine ⟨rfl, by simp [Except.mapError], fun f failed => ?_⟩
      cases failed
      rfl

theorem on_checkId_of_isValid {id : Bytes} (valid : ObjectId.isValid id = true) (verb : String)
    (g : Host) : (checkId verb id).on g = (.ok (), g) := by
  rw [checkId, on_during, on_ofExcept, ObjectId.validate, valid]
  rfl

/-- Reading a content that is stored gives it and changes nothing. -/
theorem on_read {s : ObjectStore} {h : Host} {id data : Bytes} (valid : ObjectId.isValid id = true)
    (stored : h.contentAt? (s.path id) = some data) : (s.read id).on h = (.ok data, h) := by
  obtain ⟨executable, there⟩ := exists_look_of_contentAt? stored
  rw [read, on_bind, on_checkId_of_isValid valid "read"]
  simp only [on_during, readFile, on_bind, on_get, there]
  rfl

/-- What is read is what is there; a failure for want of a file means that no file is there. -/
theorem read_ends (s : ObjectStore) (id : Bytes) (h : Host) :
    (s.read id).Ends h fun r g => g = h ∧
      (∀ data, r = .ok data → ObjectId.isValid id = true ∧ h.contentAt? (s.path id) = some data) ∧
      ∀ f, r = .error f → f.isMissingFile = true →
        ObjectId.isValid id = true ∧ h.contentAt? (s.path id) = none := by
  rw [read]
  refine (checkId_ends "read" id h).bind ?_ ?_
  · rintro _ g ⟨rfl, valid, -⟩
    rw [ends_during]
    refine (readFile_ends g (s.path id)).mono fun r k ⟨same, content⟩ => ?_
    refine ⟨same, fun data found => ?_, fun f failed missing => ?_⟩
    · cases r with
      | ok data' =>
          cases found
          exact ⟨valid _ rfl, content⟩
      | error e => cases found
    · cases r with
      | ok data' => cases failed
      | error e => exact ⟨valid _ rfl, content⟩
  · rintro e g ⟨rfl, -, other⟩
    refine ⟨rfl, by simp, fun f failed missing => ?_⟩
    cases failed
    rw [other e rfl] at missing
    cases missing

/-- Writing to a store puts one file where none was, or changes nothing but folders on the way. -/
theorem write_yields (sound : h.Sound) (s : ObjectStore) (id data : Bytes) :
    (s.write id data).Yields h
      (fun created g => ObjectId.isValid id = true ∧
        ((h.look (s.path id)).isOk = true ∧ created = false ∧ g = h ∨
          (h.look (s.path id)).isOk = false ∧ created = true ∧
            Changes (Puts (h.locate (s.path id)) data) h g ∧
            g.look (s.path id) = .ok (.file data false)))
      (fun g => Changes (Grows (h.locate s.folder)) h g) := by
  rw [write]
  have unchanged : Changes (Grows (h.locate s.folder)) h h := Changes.refl (Grows.refl _) sound
  have checked : (checkId "write" id).Yields h (fun _ g => g = h ∧ ObjectId.isValid id = true)
      (fun g => Changes (Grows (h.locate s.folder)) h g) := by
    refine (checkId_ends "write" id h).yields (fun a g ended => ⟨ended.1, ended.2.1 a rfl⟩) ?_
    rintro _ g ⟨rfl, -⟩
    exact unchanged
  refine checked.bind ?_
  rintro _ g ⟨rfl, valid⟩
  rw [has]
  refine (isThere_yields g (s.path id)).bind ?_
  rintro there k ⟨rfl, rfl⟩
  cases there : (k.look (s.path id)).isOk with
  | true => exact ⟨valid, .inl ⟨rfl, rfl, rfl⟩⟩
  | false =>
      have isName := ObjectId.isName_of_isValid valid
      refine ((AtomicFile.writeAll_yields sound isName data).during _).bind fun _ g put => ?_
      exact ⟨valid, .inr ⟨rfl, rfl, put.1, put.2⟩⟩

end ObjectStore

end SymbolHistory
