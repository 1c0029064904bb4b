/-
# Proofs.SureOrganizing -- contents are organized where nothing is in the way

Organizing contents can be called off, run out of room, and be refused every file
that it makes.  `Layout.Clear l n h` names all that would have to be in the way of
`n` more symbol files.  A symbol file that is written takes away one of them and
nothing else (`Layout.Clear.write`), so a table is split to its end
(`splitTable_makes`) and what is left is marked (`markEmpty_makes`), whatever the
groups are, as long as their contents can be read and understood.

With room for the table beside the stores (`Layout.Open`) the whole run succeeds:
the table is made and read back (`tabled_makes`), and settled (`run_makes`).
-/
import SymbolHistory.Proofs.Organizing
import SymbolHistory.Proofs.SureWrites

set_option autoImplicit false

namespace SymbolHistory

open SymbolHistory.Path FileTree Run Host

namespace Path

/-- Joining a name makes a path hardly longer than the two are. -/
theorem length_join_pair_le (d : Bytes) {name : Bytes} (isName : IsName name) :
    (join [d, name]).length ≤ d.length + name.length + 3 := by
  rw [join_pair d name isName.notEmpty]
  refine Nat.le_trans (length_clean_le _) ?_
  split
  · omega
  · rw [List.length_append, List.length_cons]
    omega

theorem zero_not_mem_join {d name : Bytes} (isName : IsName name) (inFolder : 0 ∉ d)
    (inName : 0 ∉ name) : 0 ∉ join [d, name] := by
  rw [join_pair d name isName.notEmpty]
  intro member
  rcases mem_clean member with isSlash | isDot | own
  · exact absurd isSlash (by decide)
  · exact absurd isDot (by decide)
  · split at own
    · exact inName own
    · rcases List.mem_append.mp own with front | back
      · exact inFolder front
      · rcases List.mem_cons.mp back with isSlash | inside
        · exact absurd isSlash (by decide)
        · exact inName inside

end Path

namespace ObjectId

variable {id : Bytes}

theorem length_le_of_isValid (valid : isValid id = true) : id.length ≤ 64 := by
  simp only [isValid, Bool.and_eq_true, Bool.or_eq_true, beq_iff_eq] at valid
  omega

theorem isHexDigit_of_mem (valid : isValid id = true) {b : UInt8} (member : b ∈ id) :
    isHexDigit b = true := by
  simp only [isValid, Bool.and_eq_true, List.all_eq_true] at valid
  exact valid.2 b member

end ObjectId

/-! ## Work that uses nothing up -/

namespace Host

variable {h g : Host}

/-- Work is not going to be called off, and files can grow. -/
structure Untroubled (h : Host) : Prop where
  running : h.interrupt = none
  roomy : h.room = none

/-- Nothing came up that troubles work, and no number of a temporary file was used up. -/
def Thrifty (h g : Host) : Prop := h.Untroubled → g.Untroubled ∧ g.temporary = h.temporary

theorem thrifty_lasting : Lasting Thrifty where
  refl _ free := ⟨free, rfl⟩
  trans first second free := by
    obtain ⟨free, same⟩ := first free
    obtain ⟨free, same'⟩ := second free
    exact ⟨free, same'.trans same⟩

theorem report_thrifty (level : Journal.Level) (message : String)
    (attributes : List (String × Journal.Value)) : (report level message attributes).Keeps Thrifty :=
  Keeps.get_bind fun _ free => ⟨⟨free.running, free.roomy⟩, rfl⟩

theorem remember_thrifty (f : Tally → Tally) : (remember f).Keeps Thrifty :=
  Keeps.of_modify fun _ free => ⟨⟨free.running, free.roomy⟩, rfl⟩

theorem count_thrifty (f : Metrics → Metrics) : (count f).Keeps Thrifty :=
  Keeps.of_modify fun _ free => ⟨⟨free.running, free.roomy⟩, rfl⟩

theorem startStage_thrifty (stage : String) (total : Int) : (startStage stage total).Keeps Thrifty :=
  Keeps.of_modify fun _ free => ⟨⟨free.running, free.roomy⟩, rfl⟩

theorem changeStage_thrifty (f : Progress → Progress) : (changeStage f).Keeps Thrifty :=
  Keeps.of_modify fun _ free => ⟨⟨free.running, free.roomy⟩, rfl⟩

end Host

theorem AtomicFile.OnlyFiles.thrifty {h g : Host} (same : OnlyFiles h g) : Thrifty h g := by
  intro free
  rw [same]
  exact ⟨⟨free.running, free.roomy⟩, rfl⟩

namespace Host

variable {h : Host} {p : Bytes}

/-- A file is opened to write at its end in a folder that is there, unless it is a folder. -/
theorem openAtEnd_makes (sound : h.Sound) (flaw : pathFlaw p = none) (short : Short (h.locate p))
    (parent : h.tree.get? (h.locate p).dropLast = some .folder)
    (leaf : h.tree.get? (h.locate p) ≠ some .folder) :
    ∃ g content x, (openAtEnd p).on h = (.ok (), g) ∧ g.look p = .ok (.file content x) ∧
      AtomicFile.OnlyFiles h g := by
  cases there : h.tree.get? (h.locate p) with
  | some node =>
      cases node with
      | folder => exact absurd there leaf
      | file content x =>
          have found : h.look p = .ok (.file content x) := (look_eq_ok_iff sound).mpr ⟨flaw, there, short⟩
          refine ⟨h, content, x, ?_, found, rfl⟩
          rw [openAtEnd, on_bind, on_get]
          simp only [found]
          rfl
  | none =>
      have nonempty := ne_nil_of_not_folder leaf
      have split := List.dropLast_concat_getLast nonempty
      have missing : h.look p = .error .noEntry := by
        have absent := find_absent sound.tree parent (split.symm ▸ short) (split.symm ▸ there)
        rw [split] at absent
        simp only [look, flaw, absent]
      have after := sound_of_set (n := .file [] false) sound parent leaf
      refine ⟨{ h with tree := h.tree.set (h.locate p) (.file [] false) }, [], false, ?_, ?_, rfl⟩
      · rw [openAtEnd, on_bind, on_get]
        simp only [missing, admits_of_folder sound flaw parent short]
        rfl
      · refine (look_eq_ok_iff after).mpr ⟨flaw, ?_, short⟩
        exact (get?_set _ _ _ _ nonempty).trans (if_pos rfl)

/-- Text is added to a file as long as files can grow. -/
theorem append_makes {content : Bytes} {x : Bool} (free : h.Untroubled)
    (there : h.look p = .ok (.file content x)) (data : Bytes) :
    ∃ g, (append p data).on h = (.ok (), g) ∧ g.Untroubled ∧ g.temporary = h.temporary := by
  refine ⟨_, on_append there ?_, ⟨free.running, ?_⟩, rfl⟩
  · rw [free.roomy]
    nofun
  · simp only [free.roomy]
    rfl

end Host

namespace Layout

/-! ## Room for symbol files -/

/-- The project's paths can be used, and there is nothing in the way of `n` more symbol files. -/
structure Clear (l : Layout) (n : Nat) (h : Host) : Prop where
  sound : h.Sound
  free : h.Untroubled
  noZero : 0 ∉ l.root
  within : l.root.length + 102 ≤ maxPath
  home : Short (h.locate [])
  short : Short (h.locate l.root)
  way : ∀ k, k <+: h.locate l.tags → h.tree.get? k = none ∨ h.tree.get? k = some .folder
  unused : ∀ i, h.temporary ≤ i →
    h.tree.get? (h.locate l.tags ++ [AtomicFile.stem ++ Decimal.ofNat i]) = none
  few : h.temporary + n ≤ 10 ^ 20

namespace Clear

variable {l : Layout} {n m : Nat} {h g : Host} {id : Bytes}

theorem fewer (clear : l.Clear n h) (less : m ≤ n) : l.Clear m h :=
  { clear with few := Nat.le_trans (Nat.add_le_add_left less _) clear.few }

/-- What happens elsewhere is not in the way of symbol files, but may use numbers up. -/
theorem spared {apart : List Bytes} (clear : l.Clear (m + n) h) (spares : l.Spares apart h g)
    (isApart : Layout.tagsName ∈ apart) (free : g.Untroubled) (number : g.temporary = h.temporary + m) :
    l.Clear n g := by
  have same := locate_of_folder spares.folder
  refine ⟨spares.sound, free, clear.noZero, clear.within, ?_, ?_, fun k way => ?_, fun i above => ?_, ?_⟩
  · rw [same]
    exact clear.home
  · rw [same]
    exact clear.short
  · rw [same] at way
    have before := clear.way k way
    rw [l.locate_tags] at way
    rcases List.prefix_concat_iff.mp way with rfl | above
    · rw [spares.get?_under isApart []]
      exact before
    · rcases spares.tree k with same | ⟨name, -, inside⟩ | ⟨-, -, made⟩
      · rwa [same]
      · have longer := (inside.trans above).length_le
        rw [List.length_append, List.length_singleton] at longer
        omega
      · exact .inr made
  · rw [same, l.locate_tags, List.append_assoc, List.singleton_append, spares.get?_under isApart]
    have before := clear.unused i (by omega)
    rwa [l.locate_tags, List.append_assoc, List.singleton_append] at before
  · have few := clear.few
    omega

theorem thrifty (clear : l.Clear n h) (same : Quiet h g) (spent : Thrifty h g) : l.Clear n g := by
  obtain ⟨free, number⟩ := spent clear.free
  have all : l.Clear (0 + n) h := by
    rw [Nat.zero_add]
    exact clear
  exact all.spared ((Spares.refl clear.sound).quiet same) (List.mem_singleton_self _) free number

/-- The symbol file of a content that has none can be written. -/
theorem takes (clear : l.Clear (n + 1) h) (valid : ObjectId.isValid id = true)
    (missing : (h.look (l.tagStore.path id)).isOk = false) (size : Nat) :
    AtomicFile.Takes h (l.tagStore.path id) size := by
  have isName := ObjectId.isName_of_isValid valid
  have tags : IsName tagsName := ⟨⟨by decide, by decide, by decide⟩, by decide⟩
  have path : l.tagStore.path id = join [l.tags, id] := rfl
  have noZero : 0 ∉ l.tagStore.path id := by
    refine zero_not_mem_join isName (zero_not_mem_join tags clear.noZero (by decide)) fun member => ?_
    exact absurd (ObjectId.isHexDigit_of_mem valid member) (by decide)
  have within : (l.tagStore.path id).length + 28 ≤ maxPath := by
    have whole := length_join_pair_le l.tags isName
    have folder : l.tags.length ≤ l.root.length + tagsName.length + 3 := length_join_pair_le l.root tags
    have name : tagsName.length = 4 := rfl
    have digits := ObjectId.length_le_of_isValid valid
    have root := clear.within
    rw [path]
    omega
  have short : Short (h.locate (l.tagStore.path id)) := by
    rw [l.locate_symbolFile h valid]
    intro s member
    rcases List.mem_append.mp member with above | own
    · exact clear.short s above
    · rcases List.mem_cons.mp own with rfl | last
      · decide
      · rw [List.mem_singleton.mp last]
        exact Nat.le_trans (ObjectId.length_le_of_isValid valid) (by decide)
  have folder : h.locate (dir (l.tagStore.path id)) = h.locate l.tags := h.locate_dir_join l.tags isName
  have flaw : pathFlaw (l.tagStore.path id) = none := by
    refine pathFlaw_eq_none.mpr ⟨?_, noZero, by omega⟩
    rw [path, join_pair _ _ isName.notEmpty]
    exact clean_ne_nil _
  constructor
  · exact (pathFlaw_eq_none.mp flaw).1
  · exact noZero
  · exact within
  · exact clear.home
  · exact short
  · rw [folder, path, h.locate_join l.tags isName, List.dropLast_concat]
  · rw [folder]
    exact clear.way
  · intro isFolder
    rw [(look_eq_ok_iff clear.sound).mpr ⟨flaw, isFolder, short⟩] at missing
    cases missing
  · rw [folder]
    exact clear.unused _ (Nat.le_refl _)
  · have few := clear.few
    omega
  · rw [clear.free.roomy]
    nofun

/-- A symbol file is written where there is none, and the next one can be. -/
theorem write (clear : l.Clear (n + 1) h) (valid : ObjectId.isValid id = true)
    (missing : (h.look (l.tagStore.path id)).isOk = false) (data : Bytes) :
    ∃ g, (l.tagStore.write id data).on h = (.ok true, g) ∧ l.Clear n g := by
  have isName := ObjectId.isName_of_isValid valid
  obtain ⟨g, written, spent⟩ :=
    AtomicFile.writeAll_makes clear.sound (clear.takes valid missing data.length)
  obtain ⟨put, -⟩ := (AtomicFile.writeAll_yields (d := l.tags) clear.sound isName data).of_ok written
  have same := locate_of_folder put.folder
  have puts := put.tree
  rw [h.locate_join l.tags isName] at puts
  have number : g.temporary = h.temporary + 1 := by rw [spent]
  refine ⟨g, ?_, put.sound, ⟨?_, ?_⟩, clear.noZero, clear.within, ?_, ?_, fun k way => ?_,
    fun i above => ?_, ?_⟩
  · rw [ObjectStore.write, on_bind, ObjectStore.on_checkId_of_isValid valid]
    dsimp only
    rw [ObjectStore.has, on_bind, on_isThere, missing]
    dsimp only
    rw [if_neg Bool.false_ne_true, on_bind, on_during, written]
    rfl
  · rw [spent]
    exact clear.free.running
  · rw [spent, clear.free.roomy]
    rfl
  · rw [same]
    exact clear.home
  · rw [same]
    exact clear.short
  · rw [same] at way
    obtain ⟨t, grows, after⟩ := puts
    have other : k ≠ h.locate l.tags ++ [id] := by
      rintro rfl
      have longer := way.length_le
      rw [List.length_append, List.length_singleton] at longer
      omega
    rw [after, if_neg other]
    rcases grows k with before | ⟨-, -, made⟩
    · rw [before]
      exact clear.way k way
    · exact .inr made
  · -- ids have no dot, and names of temporary files begin with one
    have other : ¬h.locate l.tags ++ [AtomicFile.stem ++ Decimal.ofNat i] <+: h.locate l.tags ++ [id] := by
      intro inside
      have isId : AtomicFile.stem ++ Decimal.ofNat i = id := by
        simpa using inside.eq_of_length (by simp)
      have dot : 46 ∈ id := isId ▸ List.mem_append_left _ (by decide)
      exact absurd (ObjectId.isHexDigit_of_mem valid dot) (by decide)
    rw [same, puts.get?_off other]
    exact clear.unused i (by omega)
  · have few := clear.few
    omega

end Clear

end Layout

namespace Organizer

variable {o : Organizer} {h g : Host} {n : Nat}

/-! ## Splitting a table -/

/-- The content of a group can be read, and its entries can be understood. -/
def Legible (o : Organizer) (h : Host) (group : Group) : Prop :=
  ∃ data symbols, h.contentAt? (o.layout.objectStore.path group.id) = some data ∧
    group.entries.mapM (symbolOf (SourceText.ofContent data)) = .ok symbols

/-- The symbol file of a group is written. -/
theorem writeTagFile_makes {group : Group} {made : List (Bytes × Bytes)} (sound : h.Sound)
    (wrote : o.Wrote h made g) (clear : o.layout.Clear (n + 1) g) (legible : o.Legible h group)
    (valid : ObjectId.isValid group.id = true) (lacks : o.Lacks g group.id) :
    ∃ k text, (o.writeTagFile group.id group.entries).on g = (.ok (), k) ∧ o.layout.Clear n k ∧
      o.Wrote h (made ++ [(group.id, text)]) k := by
  obtain ⟨data, symbols, stored, understood⟩ := legible
  rw [← wrote.stored sound valid] at stored
  obtain ⟨k, written, clear⟩ := clear.write valid lacks (Symbol.writeAll symbols)
  let remembered : Run Unit := Host.remember fun t =>
    { t with
      organizing :=
        { t.organizing with
          symbols := t.organizing.symbols + symbols.length
          files := t.organizing.files + 1 } }
  let counted : Run Unit := Host.count (Metrics.tagFileWritten (kindCounts symbols))
  have quiet : (remembered >>= fun _ => counted).Keeps Quiet := by
    refine Keeps.bind quiet_lasting ?_ fun _ => count_quiet _
    exact remember_quiet fun _ => rfl
  have thrifty : (remembered >>= fun _ => counted).Keeps Thrifty :=
    Keeps.bind thrifty_lasting (remember_thrifty _) fun _ => count_thrifty _
  have ended : (o.writeTagFile group.id group.entries).on g =
      (.ok (), ((remembered >>= fun _ => counted).on k).2) := by
    rw [writeTagFile, on_bind, ObjectStore.on_read valid stored]
    dsimp only
    rw [on_bind, understood, on_ofExcept]
    dsimp only
    rw [on_bind, on_discard, written]
    rfl
  obtain ⟨lacked, notMade⟩ := (wrote.lacks_iff sound valid).mp lacks
  obtain ⟨text, -, wrote⟩ := (writeTagFile_yields sound wrote valid lacked notMade).of_ok ended
  exact ⟨_, text, ended, clear.thrifty (quiet k) (thrifty k), wrote⟩

theorem start_thrifty (o : Organizer) (seen : List Bytes) (file : Bytes) :
    (o.start seen file).Keeps Thrifty := by
  have none : (pure none : Run (Option Bytes)).Keeps Thrifty := Keeps.pure thrifty_lasting _
  rw [start]
  split
  · exact none
  · split
    · exact Keeps.bind thrifty_lasting (report_thrifty _ _ _) fun _ => none
    · split
      · exact none
      · refine Keeps.bind thrifty_lasting (fun h => ?_) fun there => ?_
        · exact thrifty_lasting.refl h
        · split
          · exact Keeps.bind thrifty_lasting (remember_thrifty _) fun _ => none
          · exact Keeps.pure thrifty_lasting _

/-- All groups are written whose contents can be read and understood. -/
theorem writeGroups_makes (sound : h.Sound) (groups : List Group)
    (legible : ∀ group ∈ groups, ObjectId.isValid group.id = true → o.Legible h group) :
    ∀ (seen : List Bytes) {g : Host} {made : List (Bytes × Bytes)}, o.Wrote h made g →
      o.layout.Clear (n + groups.length) g →
      ∃ k, (o.writeGroups seen groups).on g = (.ok true, k) ∧ o.layout.Clear n k := by
  induction groups with
  | nil =>
      intro seen g made _ clear
      exact ⟨g, rfl, clear⟩
  | cons group rest ih =>
      intro seen g made wrote clear
      have later : ∀ group ∈ rest, ObjectId.isValid group.id = true → o.Legible h group :=
        fun group member => legible group (List.mem_cons_of_mem _ member)
      obtain ⟨begun, k, started, same, begins⟩ := (start_yields o seen group.file g).exists_ok
      have clear := clear.thrifty same ((o.start_thrifty seen group.file).after started)
      have passed := on_checkpoint clear.free.running
      have wrote := wrote.quiet same
      rw [writeGroups, on_bind, started]
      dsimp only
      rcases begins with ⟨rfl, valid, -, lacks⟩ | ⟨rfl, -⟩
      · obtain ⟨m, text, written, clear, wrote⟩ := writeTagFile_makes sound wrote clear
          (legible group List.mem_cons_self valid) valid ((lacks_of_sameFiles same.toSameFiles _).mpr lacks)
        obtain ⟨k', finished, clear⟩ := ih later (group.file :: seen)
          (wrote.quiet (advanceStage_quiet m))
          (clear.thrifty (advanceStage_quiet m) (changeStage_thrifty _ m))
        refine ⟨k', ?_, clear⟩
        dsimp only
        rw [on_bind, passed]
        dsimp only
        rw [on_bind, show Path.base group.file = group.id from rfl, written]
        exact finished
      · obtain ⟨k', finished, clear⟩ := ih later (group.file :: seen) wrote
          (clear.fewer (by rw [List.length_cons]; omega))
        refine ⟨k', ?_, clear⟩
        dsimp only
        rw [on_bind, on_attempt, passed]
        exact finished

/-- Nothing is left to go wrong when a table was read to its end. -/
theorem conclude_makes {reader : TagTable.Reader} (clear : o.layout.Clear n g)
    (whole : reader.badLine = 0) (faultless : reader.fault = none) :
    ∃ k, (conclude reader true).on g = (.ok true, k) ∧ o.layout.Clear n k := by
  let tally := g.tally.organizing
  let report := Host.report .info "organized symbols"
    [("symbols", .number tally.symbols), ("objects", .number tally.files), ("skipped", .number tally.skipped)]
  refine ⟨(report.on g).2, ?_, clear.thrifty (report_quiet _ _ _ g) (report_thrifty _ _ _ g)⟩
  rw [conclude, faultless, whole]
  change (Run.checkpoint >>= fun _ => _).on g = _
  rw [on_bind, on_checkpoint clear.free.running]
  rfl

theorem on_splitTable (o : Organizer) (table : Input) (h : Host) :
    (o.splitTable table).on h = (Host.stage "Organizing symbols" (-1)
      (Run.during (lit "split tag table") (o.writeGroups [] (groups (o.reading h table).1)) >>=
        conclude (o.reading h table).2)).on h := by
  rw [splitTable, on_bind, on_get, reading]
  dsimp only
  -- a reader that is run out to its end is too much to compute with
  generalize (TagTable.Reader.ofInput table (some (o.sources h))).readAll = read
  obtain ⟨entries, reader⟩ := read
  rfl

/-- A table that can be read to its end is split to its end. -/
theorem splitTable_makes {table : Bytes}
    (clear : o.layout.Clear (n + (groups (o.reading h ⟨table, none⟩).1).length) h)
    (legible : ∀ group ∈ groups (o.reading h ⟨table, none⟩).1,
      ObjectId.isValid group.id = true → o.Legible h group)
    (whole : (o.reading h ⟨table, none⟩).2.badLine = 0)
    (faultless : (o.reading h ⟨table, none⟩).2.fault = none) :
    ∃ k, (o.splitTable ⟨table, none⟩).on h = (.ok true, k) ∧ o.layout.Clear n k := by
  have begins : Quiet h (begun h) := startStage_quiet _ _ h
  obtain ⟨m, written, clear⟩ := writeGroups_makes clear.sound _ legible []
    ((Wrote.refl o clear.sound).quiet begins)
    (clear.thrifty begins (startStage_thrifty "Organizing symbols" (-1) h))
  obtain ⟨k, concluded, clear⟩ := conclude_makes clear whole faultless
  let finish := fun (p : Progress) => { p with finished := true }
  refine ⟨((changeStage finish).on k).2, ?_,
    clear.thrifty (changeStage_quiet finish k) (changeStage_thrifty finish k)⟩
  have staged : (Run.during (lit "split tag table")
      (o.writeGroups [] (groups (o.reading h ⟨table, none⟩).1)) >>=
        conclude (o.reading h ⟨table, none⟩).2).on (begun h) = (.ok true, k) := by
    rw [on_bind, on_during, written]
    exact concluded
  rw [on_splitTable, on_stage, ← begun, staged]

/-- What is left without a symbol file gets an empty one. -/
theorem markEmpty_makes (ids : List Bytes) (valid : ∀ id ∈ ids, ObjectId.isValid id = true) :
    ∀ {g : Host}, o.layout.Clear (n + ids.length) g →
      ∃ k, (o.markEmpty ids).on g = (.ok (), k) ∧ o.layout.Clear n k := by
  induction ids with
  | nil => exact fun {g} clear => ⟨g, rfl, clear⟩
  | cons id ids ih =>
      intro g clear
      have later := fun id' member => valid id' (List.mem_cons_of_mem _ member)
      rw [markEmpty, ObjectStore.has, on_bind, on_isThere]
      dsimp only
      cases missing : (g.look (o.layout.tagStore.path id)).isOk with
      | true =>
          obtain ⟨k, marked, clear⟩ := ih later (clear.fewer (by rw [List.length_cons]; omega))
          exact ⟨k, marked, clear⟩
      | false =>
          obtain ⟨m, written, clear⟩ := clear.write (valid id List.mem_cons_self) missing []
          let remembered : Run Unit := Host.remember fun t =>
            { t with organizing := { t.organizing with files := t.organizing.files + 1 } }
          have quiet : remembered.Keeps Quiet := remember_quiet fun _ => rfl
          have thrifty : remembered.Keeps Thrifty := remember_thrifty _
          obtain ⟨k, marked, clear⟩ := ih later (clear.thrifty (quiet m) (thrifty m))
          refine ⟨k, ?_, clear⟩
          rw [Bool.not_false, if_pos rfl, on_bind, on_discard, on_during, written]
          exact marked

/-- A table that can be read to its end is settled. -/
theorem settle_makes {table : Bytes} {ids : List Bytes} (valid : ∀ id ∈ ids, ObjectId.isValid id = true)
    (clear : o.layout.Clear (ids.length + (groups (o.reading h ⟨table, none⟩).1).length) h)
    (legible : ∀ group ∈ groups (o.reading h ⟨table, none⟩).1,
      ObjectId.isValid group.id = true → o.Legible h group)
    (whole : (o.reading h ⟨table, none⟩).2.badLine = 0)
    (faultless : (o.reading h ⟨table, none⟩).2.fault = none) :
    ∃ k, (o.settle ids table).on h = (.ok (), k) := by
  obtain ⟨m, split, clear⟩ := splitTable_makes clear legible whole faultless
  rw [← Nat.zero_add ids.length] at clear
  obtain ⟨k, marked, -⟩ := markEmpty_makes ids valid clear
  refine ⟨k, ?_⟩
  rw [settle, on_bind, split]
  exact marked

/-! ## Having a table made -/

/-- There is room for `n` symbol files, for a table of its own and for the combined one. -/
structure Open (o : Organizer) (n : Nat) (h : Host) : Prop extends o.layout.Clear (1 + n) h where
  fresh : h.tree.get? (h.locate o.layout.root ++ [batchStem ++ Decimal.ofNat h.temporary]) = none
  combined : h.tree.get? (h.locate o.layout.combined) ≠ some .folder

variable {ids : List Bytes}

theorem ready_makes (tidy : o.layout.Tidy) (isOpen : o.Open n h) (ids : List Bytes) :
    ∃ batch k, (o.ready ids).on h = (.ok batch, k) ∧ k.Untroubled ∧ k.temporary = h.temporary + 1 := by
  have nonempty : o.layout.root ≠ [] := by
    rw [← tidy]
    exact clean_ne_nil _
  have within := isOpen.within
  have flaw : pathFlaw (clean o.layout.root) = none := by
    rw [tidy]
    exact pathFlaw_eq_none.mpr ⟨nonempty, isOpen.noZero, by omega⟩
  have way : ∀ k, k <+: h.locate o.layout.root →
      h.tree.get? k = none ∨ h.tree.get? k = some .folder := fun k above =>
    isOpen.way k (above.trans (by rw [o.layout.locate_tags]; exact List.prefix_append _ _))
  obtain ⟨m, made, folder⟩ := makeFolders_makes isOpen.sound flaw isOpen.home isOpen.short way
  have grown : Changes (Grows (h.locate o.layout.root)) h m := by
    have ended := (makeFolders_ends isOpen.sound o.layout.root).holds
    rwa [made] at ended
  have only : AtomicFile.OnlyFiles h m := (AtomicFile.makeFolders_onlyFiles _).after made
  have number : m.temporary = h.temporary := by rw [only]
  have same := locate_of_folder grown.folder
  have free : m.tree.get? (m.locate o.layout.root ++ [batchStem ++ Decimal.ofNat m.temporary]) = none := by
    rw [same, number, grown.tree.get?_off fun way => ?_]
    · exact isOpen.fresh
    · have longer := way.length_le
      rw [List.length_append, List.length_singleton] at longer
      omega
  have few := isOpen.few
  have stem : batchStem.length = 7 := rfl
  obtain ⟨batch, g, created, next⟩ := createTemporary_makes grown.sound nonempty isOpen.noZero
    (by decide : slash ∉ batchStem) (by decide) (by decide) (by decide) (by omega)
    (same _ ▸ isOpen.short) (same _ ▸ folder) free (by omega)
  have begun : AtomicFile.Begun m g := (AtomicFile.createTemporary_begun _ _).after created
  let report := Host.report .info "generating tag table" [("objects", .number ids.length)]
  have calm : g.Untroubled := by
    rw [begun, only]
    exact ⟨isOpen.free.running, isOpen.free.roomy⟩
  obtain ⟨calm, after⟩ := report_thrifty .info "generating tag table" [("objects", .number ids.length)] g calm
  refine ⟨batch, (report.on g).2, ?_, calm, by rw [after, next, number]⟩
  rw [tidy] at made
  rw [ready, on_bind, on_during, on_bind, made]
  dsimp only
  rw [created]
  rfl

/-- Making a table is making ready for it and filling it. -/
theorem generate_of_fill {batch : Bytes} {k : Host} (readied : (o.ready ids).on h = (.ok batch, k))
    (filled : (o.fill ids batch).on k = (.ok (), g)) : (o.generate ids).on h = (.ok batch, g) := by
  have attempted : (Run.attempt (o.fill ids batch)).on k = (.ok (.ok ()), g) := by
    rw [on_attempt, filled]
  rw [generate_eq, on_bind, readied]
  dsimp only
  rw [on_bind, attempted]
  rfl

/-- A table is made by a generator that writes one. -/
theorem generate_makes (tidy : o.layout.Tidy) (isOpen : o.Open n h)
    (writes : ∀ k, k.Untroubled → o.layout.Spares Layout.stores h k → ∃ table,
      (o.generator o.layout.root (ids.map Layout.objectRef)).on k = (.ok ⟨table, none⟩, k)) :
    ∃ batch g, (o.generate ids).on h = (.ok batch, g) ∧ g.Untroubled ∧
      g.temporary = h.temporary + 1 := by
  obtain ⟨batch, k, readied, free, number⟩ := ready_makes tidy isOpen ids
  obtain ⟨isBatch, m, draft⟩ := (ready_yields isOpen.sound tidy ids).of_ok readied
  obtain ⟨table, written⟩ := writes k free (spares_of_draft isBatch (by decide) draft)
  obtain ⟨g, added, free, same⟩ := append_makes free draft.look table
  have filled : (o.fill ids batch).on k = (.ok (), g) := by
    rw [fill, on_bind, written]
    exact added
  exact ⟨batch, g, generate_of_fill readied filled, free, same.trans number⟩

/-- A table of its own is added to the combined one. -/
theorem appendCombined_makes {batch table : Bytes} (sound : g.Sound) (free : g.Untroubled)
    (there : g.contentAt? batch = some table) (noZero : 0 ∉ o.layout.root)
    (within : o.layout.root.length + 102 ≤ maxPath) (short : Short (g.locate o.layout.root))
    (folder : g.tree.get? (g.locate o.layout.root) = some .folder)
    (leaf : g.tree.get? (g.locate o.layout.combined) ≠ some .folder) :
    ∃ k, (o.appendCombined batch).on g = (.ok (), k) ∧ k.Untroubled ∧ k.temporary = g.temporary := by
  have isName : IsName (lit "ctags") := ⟨⟨by decide, by decide, by decide⟩, by decide⟩
  have place := locate_combined o.layout g
  have flaw : pathFlaw o.layout.combined = none := by
    refine pathFlaw_eq_none.mpr ⟨?_, zero_not_mem_join isName noZero (by decide), ?_⟩
    · rw [Layout.combined, Layout.file, join_pair _ _ isName.notEmpty]
      exact clean_ne_nil _
    · have whole : o.layout.combined.length ≤ o.layout.root.length + (lit "ctags").length + 3 :=
        length_join_pair_le o.layout.root isName
      have name : (lit "ctags").length = 5 := rfl
      omega
  have steps : Short (g.locate o.layout.combined) := by
    rw [place]
    intro s member
    rcases List.mem_append.mp member with above | own
    · exact short s above
    · rw [List.mem_singleton.mp own]
      decide
  have parent : g.tree.get? (g.locate o.layout.combined).dropLast = some .folder := by
    rw [place, List.dropLast_concat]
    exact folder
  obtain ⟨m, content, x, opened, found, only⟩ := openAtEnd_makes sound flaw steps parent leaf
  obtain ⟨free, same⟩ := only.thrifty free
  obtain ⟨k, added, free, same'⟩ := append_makes free found table
  refine ⟨k, ?_, free, same'.trans same⟩
  rw [appendCombined, on_during, on_bind, on_readFile there]
  dsimp only
  rw [on_bind, opened]
  dsimp only
  rw [added]
  rfl

/-- A table is made, added to the combined one and read back, and symbol files can still be written. -/
theorem tabled_makes (tidy : o.layout.Tidy) (isOpen : o.Open n h)
    (still : (o.generator o.layout.root (ids.map Layout.objectRef)).Keeps Quiet)
    (writes : ∀ k, k.Untroubled → o.layout.Spares Layout.stores h k → ∃ table,
      (o.generator o.layout.root (ids.map Layout.objectRef)).on k = (.ok ⟨table, none⟩, k)) :
    ∃ batch table k, (o.tabled ids).on h = (.ok (batch, table), k) ∧ o.layout.Clear n k := by
  obtain ⟨batch, g, generated, free, number⟩ := generate_makes tidy isOpen writes
  obtain ⟨isBatch, m, table, draft, -⟩ := (generate_drafts isOpen.sound tidy still).of_ok generated
  have spares : o.layout.Spares [lit "ctags"] h g := spares_of_draft isBatch (by decide) draft
  have same := locate_of_folder spares.folder
  have there : g.contentAt? batch = some table := by rw [contentAt?, draft.look]
  have folder : g.tree.get? (g.locate o.layout.root) = some .folder := by
    obtain ⟨name, place⟩ := draft.isIn
    have parent := draft.parent
    rwa [place, List.dropLast_concat, ← same] at parent
  have leaf : g.tree.get? (g.locate o.layout.combined) ≠ some .folder := by
    rw [same, spares.get?_eq (locate_combined _ _) (List.mem_singleton_self _)]
    exact isOpen.combined
  obtain ⟨k, added, free, same'⟩ := appendCombined_makes draft.sound free there isOpen.noZero
    isOpen.within (same _ ▸ isOpen.short) folder leaf
  have changes := (appendCombined_changes draft.sound batch).of_ok added
  have isBatch' : o.IsBatch g batch := isBatch.of_folder spares.folder
  have read : k.contentAt? batch = some table := by
    rw [content_of_batch draft.sound isBatch' changes, there]
  have ended : (o.tabled ids).on h = (.ok (batch, table), k) := by
    rw [tabled, on_bind, generated]
    dsimp only
    rw [on_bind, added]
    dsimp only
    rw [on_bind, on_during, on_readFile read]
    rfl
  obtain ⟨-, -, kept⟩ := (tabled_yields isOpen.sound tidy still).of_ok ended
  exact ⟨batch, table, k, ended,
    isOpen.toClear.spared kept (by decide) free (same'.trans number)⟩

/-- Organizing contents is having a table made and settling it. -/
theorem run_makes {batch table : Bytes} {k m : Host} (nonempty : ids ≠ [])
    (tabled : (o.tabled ids).on h = (.ok (batch, table), k))
    (settled : (o.settle ids table).on k = (.ok (), m)) : ∃ g, (o.run ids).on h = (.ok (), g) := by
  obtain ⟨batch', g, generated, rest⟩ := on_bind_ok tabled
  obtain ⟨_, g', added, rest⟩ := on_bind_ok rest
  obtain ⟨table', k', read, same⟩ := on_bind_ok rest
  cases same
  refine ⟨((Host.removeFile batch).on m).2, ?_⟩
  rw [run_eq o nonempty, on_bind, generated]
  dsimp only
  rw [on_ensuring_removeFile, on_bind, added]
  dsimp only
  rw [on_bind, read]
  dsimp only
  rw [settled]

end Organizer

end SymbolHistory
