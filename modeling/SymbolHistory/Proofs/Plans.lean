/-
# Proofs.Plans -- what a project is to hold

When the versions are fixed and every content has one block in all tag tables, it
is settled beforehand what each file of a project is to be: a `Plan` says it for
the stored contents, the symbol files and, for every order in which symbols may
be met, the diffs (`Plan.Wants`).  A project agrees with a plan when none of these
files is anything else (`Plan.Agrees`).
Some may be missing, so a project that has just been begun agrees with every
plan, and one that agrees still does after files have been added that are what
the plan wants (`Plan.Agrees.of_adds`).
-/
import SymbolHistory.Proofs.AddedTables
import SymbolHistory.Proofs.MissingDiffs

set_option autoImplicit false

namespace SymbolHistory

open SymbolHistory.Path FileTree Run Host

open TagTable (Entry Reader Sources)

/-! ## Paths of stored contents -/

namespace Layout

/-- Below a root without detours, tables name a stored content by the path it is stored under. -/
theorem join_objectRef {l : Layout} (tidy : l.Tidy) {id : Bytes} (valid : ObjectId.isValid id = true) :
    join [l.root, objectRef id] = l.objectStore.path id := by
  have isName := ObjectId.isName_of_isValid valid
  have objects : IsName objectsName := ⟨⟨by decide, by decide, by decide⟩, by decide⟩
  have rooted : l.root ≠ [] := by
    rw [← tidy]
    exact clean_ne_nil _
  let folder := l.root ++ slash :: objectsName
  have named : folder ≠ [] := by simp [folder]
  -- the steps of the folder are already the shortest, so cleaning it first makes no difference
  have straight : shortest (isAbsolute folder) (steps folder) = steps folder := by
    have root : shortest (isAbsolute l.root) (steps l.root) = steps l.root := by
      rw [← steps_clean, tidy]
    have isRooted : isAbsolute folder = isAbsolute l.root := isAbsolute_append rooted _
    rw [isRooted, steps_slash, steps_of_isStep objects.toIsStep,
      shortest_append_name _ _ objects.notParent, root]
  have below : ∀ d : Bytes, d ≠ [] → clean (d ++ slash :: id) =
      ofSteps (isAbsolute d) (shortest (isAbsolute d) (steps d) ++ [id]) := by
    intro d nonempty
    have isRooted : isAbsolute (d ++ slash :: id) = isAbsolute d := isAbsolute_append nonempty _
    rw [clean, isRooted, steps_slash, steps_of_isStep isName.toIsStep,
      shortest_append_name _ _ isName.notParent]
  have store : l.objectStore.folder = clean folder := by
    change join [l.root, objectsName] = clean folder
    rw [join_pair _ _ objects.notEmpty, if_neg rooted]
  have whole : l.root ++ slash :: objectRef id = folder ++ slash :: id := by simp [folder, objectRef]
  rw [join_pair _ _ (by simp [objectRef, objectsName]), if_neg rooted, whole, below _ named,
    ObjectStore.path, store, join_pair _ _ isName.notEmpty, if_neg (clean_ne_nil _),
    below _ (clean_ne_nil _), isAbsolute_clean, steps_clean, straight, straight]

end Layout

/-! ## What is in a store -/

/-- A store has a file for each of some ids. -/
def ObjectStore.Holds (s : ObjectStore) (h : Host) (ids : List Bytes) : Prop :=
  ∀ id ∈ ids, (h.look (s.path id)).isOk = true

section

variable {l : Layout} {s : ObjectStore} {h g : Host} {apart ids : List Bytes}

theorem ObjectStore.Holds.sameFiles (holds : s.Holds h ids) (same : SameFiles h g) :
    s.Holds g ids := by
  intro id member
  rw [look_of_sameFiles same]
  exact holds id member

theorem ObjectStore.Holds.adds {d : Bytes} {made : List (Bytes × Bytes)} (holds : s.Holds h ids)
    (sound : h.Sound) (adds : Adds d made h g) : s.Holds g ids :=
  fun id member => adds.isOk_look sound (holds id member)

theorem Layout.Spares.objects (spares : l.Spares apart h g) (sound : h.Sound)
    (isApart : Layout.objectsName ∈ apart) (valid : ∀ id ∈ ids, ObjectId.isValid id = true)
    (holds : l.objectStore.Holds h ids) : l.objectStore.Holds g ids := by
  intro id member
  rw [isOk_look_congr sound spares.sound spares.folder
    (spares.get?_eq (l.locate_object h (valid id member)) isApart)]
  exact holds id member

theorem Layout.Spares.symbolFiles (spares : l.Spares apart h g) (sound : h.Sound)
    (isApart : Layout.tagsName ∈ apart) (valid : ∀ id ∈ ids, ObjectId.isValid id = true)
    (holds : l.tagStore.Holds h ids) : l.tagStore.Holds g ids := by
  intro id member
  rw [isOk_look_congr sound spares.sound spares.folder
    (spares.get?_eq (l.locate_symbolFile h (valid id member)) isApart)]
  exact holds id member

end

/-! ## Plans -/

/-- What a project is to hold when nothing is missing: the contents of some files, the symbol files
of these contents, and the diffs between the versions of some tags. -/
structure Plan where
  layout : Layout
  tags : List Tag
  /-- The orders in which symbols may be met when the diff of a tag is made. -/
  orders : Tag → Enumeration → Prop
  /-- The files of a tag. -/
  files : Tag → List FileEntry
  /-- The content that has an id. -/
  blob : Bytes → Bytes
  /-- The part of a tag table that speaks of a content. -/
  block : Bytes → Bytes

namespace Plan

/-- Where the lines of a content's block are looked up. -/
def sources (plan : Plan) (id : Bytes) : Sources := ⟨plan.layout.root, fun _ => some (plan.blob id)⟩

/-- The entries that make the symbol file of a content. -/
def entries (plan : Plan) (id : Bytes) : List Entry :=
  Organizer.firstRun (Layout.objectRef id)
    (Organizer.known (Reader.ofInput ⟨plan.block id, none⟩ (some (plan.sources id))).readAll.1)

def symbolText (plan : Plan) (id : Bytes) : Bytes :=
  Symbol.writeAll (((plan.entries id).mapM
    (Organizer.symbolOf (SourceText.ofContent (plan.blob id)))).toOption.getD [])

def symbols (plan : Plan) (id : Bytes) : List Symbol := (Symbol.readAll ⟨plan.symbolText id, none⟩).items

def version (plan : Plan) (tag : Tag) : Table :=
  Table.ofLoads ((plan.files tag).flatMap fun e =>
    (plan.symbols e.id).map fun s => (⟨s.name, s.kind⟩, ⟨e.path, s.line, s.extra⟩))

/-- The diff that leads to a tag, when symbols are met in this order. -/
def diffText (plan : Plan) (order : Enumeration) (i : Nat) : Bytes :=
  Comparison.rendering order (Comparison.versionBefore plan.version {} plan.tags i)
    ((plan.tags[i]?.map plan.version).getD {})

/-- What a file of the project may be, by its place below the root. -/
inductive Wants (plan : Plan) : Location → Bytes → Prop where
  | object {id : Bytes} (valid : ObjectId.isValid id = true) :
      Wants plan [Layout.objectsName, id] (plan.blob id)
  | symbolFile {id : Bytes} (valid : ObjectId.isValid id = true) :
      Wants plan [Layout.tagsName, id] (plan.symbolText id)
  | diff {i : Nat} {order : Enumeration} (inside : i < plan.tags.length)
      (met : plan.orders plan.tags[i] order) :
      Wants plan [Layout.diffsName, Tag.fileName plan.tags[i].name] (plan.diffText order i)

/-- Of what is wanted nothing is anything else; it may be missing. -/
def Agrees (plan : Plan) (h : Host) : Prop :=
  ∀ rest text, plan.Wants rest text →
    ∀ n, h.tree.get? (h.locate plan.layout.root ++ rest) = some n →
      ∃ text, plan.Wants rest text ∧ n = .file text false

def folders : List Bytes := [Layout.objectsName, Layout.tagsName, Layout.diffsName]

section

variable {plan : Plan} {h g : Host}

theorem Wants.exists_pair {rest : Location} {text : Bytes} (wants : plan.Wants rest text) :
    ∃ name ∈ folders, ∃ file, rest = [name, file] := by
  cases wants with
  | object => exact ⟨_, by decide, _, rfl⟩
  | symbolFile => exact ⟨_, by decide, _, rfl⟩
  | diff => exact ⟨_, by decide, _, rfl⟩

theorem Wants.eq_blob {id text : Bytes} (wants : plan.Wants [Layout.objectsName, id] text) :
    text = plan.blob id := by
  generalize place : [Layout.objectsName, id] = rest at wants
  cases wants with
  | object => cases place; rfl
  | symbolFile => cases place
  | diff => cases place

theorem Wants.eq_symbolText {id text : Bytes} (wants : plan.Wants [Layout.tagsName, id] text) :
    text = plan.symbolText id := by
  generalize place : [Layout.tagsName, id] = rest at wants
  cases wants with
  | object => cases place
  | symbolFile => cases place; rfl
  | diff => cases place

theorem Wants.exists_diff {file text : Bytes} (wants : plan.Wants [Layout.diffsName, file] text) :
    ∃ (i : Nat) (inside : i < plan.tags.length) (order : Enumeration),
      file = Tag.fileName plan.tags[i].name ∧ plan.orders plan.tags[i] order ∧
        text = plan.diffText order i := by
  generalize place : [Layout.diffsName, file] = rest at wants
  cases wants with
  | object => cases place
  | symbolFile => cases place
  | diff inside met =>
      obtain rfl := List.singleton_inj.mp (List.cons.inj place).2
      exact ⟨_, inside, _, rfl, met, rfl⟩

namespace Agrees

/-- A project agrees with any plan as long as the folders are empty. -/
theorem of_empty (empty : ∀ name ∈ folders, ∀ file,
    h.tree.get? (h.locate plan.layout.root ++ [name, file]) = none) : plan.Agrees h := by
  intro rest text wants n there
  obtain ⟨name, isFolder, file, rfl⟩ := wants.exists_pair
  rw [empty name isFolder file] at there
  cases there

theorem of_spares (agrees : plan.Agrees h) {apart : List Bytes}
    (spares : plan.layout.Spares apart h g) (subset : folders ⊆ apart) : plan.Agrees g := by
  intro rest text wants n there
  obtain ⟨name, isFolder, file, rfl⟩ := wants.exists_pair
  rw [locate_of_folder spares.folder, spares.get?_under (subset isFolder) [file]] at there
  exact agrees _ _ wants n there

theorem of_sameFiles (agrees : plan.Agrees h) (same : SameFiles h g) : plan.Agrees g := by
  intro rest text wants n there
  rw [locate_of_folder same.folder, same.tree] at there
  exact agrees _ _ wants n there

/-- Files that were added are to be what is wanted of them. -/
theorem of_adds (agrees : plan.Agrees h) {d name : Bytes} {made : List (Bytes × Bytes)}
    (adds : Adds d made h g) (place : h.locate d = h.locate plan.layout.root ++ [name])
    (right : ∀ e ∈ made, ∀ text, plan.Wants [name, e.1] text → plan.Wants [name, e.1] e.2) :
    plan.Agrees g := by
  intro rest text wants n there
  obtain ⟨name', -, file, rfl⟩ := wants.exists_pair
  rw [locate_of_folder adds.folder] at there
  have inside : h.locate d ++ [file] = h.locate plan.layout.root ++ [name, file] := by
    rw [place, List.append_assoc, List.singleton_append]
  by_cases here : name' = name
  · subst here
    rw [← inside] at there
    by_cases isMade : file ∈ made.map Prod.fst
    · obtain ⟨e, member, rfl⟩ := List.mem_map.mp isMade
      rw [(adds.tree.new _ (List.mem_map_of_mem member)).2] at there
      exact ⟨e.2, right e member text wants, (Option.some.inj there).symm⟩
    · rw [adds.get?_of_not_made isMade, inside] at there
      exact agrees _ _ wants n there
  · rw [adds.get?_beside ?_ ?_] at there
    · exact agrees _ _ wants n there
    · rw [place, List.prefix_append_right_inj, List.cons_prefix_cons]
      exact fun same => here same.1.symm
    · rw [place]
      intro way
      have := way.length_le
      simp at this

/-- What is wanted and there is what is wanted. -/
theorem look (agrees : plan.Agrees h) (sound : h.Sound) {rest : Location} {text p : Bytes}
    (wants : plan.Wants rest text) (place : h.locate p = h.locate plan.layout.root ++ rest)
    (there : (h.look p).isOk = true) :
    ∃ text, plan.Wants rest text ∧ h.look p = .ok (.file text false) := by
  cases found : h.look p with
  | error e =>
      rw [found] at there
      cases there
  | ok n =>
      have atPlace := ((look_eq_ok_iff sound).mp found).2.1
      rw [place] at atPlace
      obtain ⟨text, wanted, rfl⟩ := agrees _ _ wants n atPlace
      exact ⟨text, wanted, rfl⟩

theorem object (agrees : plan.Agrees h) (sound : h.Sound) {id : Bytes}
    (valid : ObjectId.isValid id = true)
    (there : (h.look (plan.layout.objectStore.path id)).isOk = true) :
    h.look (plan.layout.objectStore.path id) = .ok (.file (plan.blob id) false) := by
  obtain ⟨text, wanted, found⟩ :=
    agrees.look sound (.object valid) (plan.layout.locate_object h valid) there
  rw [found, wanted.eq_blob]

theorem symbolFile (agrees : plan.Agrees h) (sound : h.Sound) {id : Bytes}
    (valid : ObjectId.isValid id = true)
    (there : (h.look (plan.layout.tagStore.path id)).isOk = true) :
    h.look (plan.layout.tagStore.path id) = .ok (.file (plan.symbolText id) false) := by
  obtain ⟨text, wanted, found⟩ :=
    agrees.look sound (.symbolFile valid) (plan.layout.locate_symbolFile h valid) there
  rw [found, wanted.eq_symbolText]

/-- A version whose contents all have their symbol files is the one that is planned. -/
theorem finds (agrees : plan.Agrees h) (sound : h.Sound) {entries : List FileEntry}
    (settled : ∀ e ∈ entries, ObjectId.isValid e.id = true ∧
      (h.look (plan.layout.tagStore.path e.id)).isOk = true) :
    plan.layout.finds h entries = entries.flatMap fun e =>
      (plan.symbols e.id).map fun s => (⟨s.name, s.kind⟩, ⟨e.path, s.line, s.extra⟩) := by
  refine List.flatMap_congr fun e member => ?_
  obtain ⟨valid, there⟩ := settled e member
  have content : h.contentAt? (plan.layout.tagStore.path e.id) = some (plan.symbolText e.id) := by
    rw [contentAt?, agrees.symbolFile sound valid there]
  rw [plan.layout.symbolsAt_of_contentAt? valid content]
  rfl

end Agrees

/-- From `h` to `g` nothing was done against the plan, and nothing under the names `apart`. -/
structure Abides (plan : Plan) (apart : List Bytes) (h g : Host) : Prop where
  agrees : plan.Agrees g
  spares : plan.layout.Spares apart h g

namespace Abides

variable {apart : List Bytes} {k : Host}

theorem sound (abides : plan.Abides apart h g) : g.Sound := abides.spares.sound

theorem trans (first : plan.Abides apart h g) (second : plan.Abides apart g k) :
    plan.Abides apart h k := ⟨second.agrees, first.spares.trans second.spares⟩

theorem fewer {fewer : List Bytes} (abides : plan.Abides apart h g) (subset : fewer ⊆ apart) :
    plan.Abides fewer h g := ⟨abides.agrees, abides.spares.fewer subset⟩

/-- What happens elsewhere does not matter. -/
theorem spared {more : List Bytes} (abides : plan.Abides apart h g)
    (spares : plan.layout.Spares more g k) (planned : folders ⊆ more) (subset : apart ⊆ more) :
    plan.Abides apart h k :=
  ⟨abides.agrees.of_spares spares planned, abides.spares.trans (spares.fewer subset)⟩

theorem quiet (abides : plan.Abides apart h g) (same : Quiet g k) : plan.Abides apart h k :=
  ⟨abides.agrees.of_sameFiles same.toSameFiles, abides.spares.quiet same⟩

end Abides

end

end Plan

end SymbolHistory
