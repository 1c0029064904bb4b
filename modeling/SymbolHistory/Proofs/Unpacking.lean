/-
# Proofs.Unpacking -- a bundle brings a project to another database

Unpacking into an empty database goes from one tree to the next in one way:
`Unpacked l files` describes the tree after some files were put below `l`, and
one more file keeps this description (`Unpacked.put`).  As long as no path is on
the way to another, nothing can stand in the way of the next file, so with enough
room everything is unpacked (`extractMembers_vacant`).

The members of a bundle are what was shipped (`exportFile_packable`), given back by
the codec as they were.  Put together, a project that is packed and
unpacked is there again, up to what a bundle leaves out (`extract_export`).
-/
import SymbolHistory.Proofs.Exports
import SymbolHistory.Proofs.Extraction

set_option autoImplicit false

namespace SymbolHistory

open SymbolHistory.Path FileTree Run Host

namespace FileTree

/-- `u` is `t` with files put below `l`, and with the folders that they are in. -/
structure Unpacked (l : Location) (files : List (List Bytes × Bytes)) (t u : FileTree) : Prop where
  there : ∀ p ∈ files, u.get? (l ++ p.1) = some (.file p.2 false)
  folders : ∀ p ∈ files, ∀ k, k <+: l ++ p.1 → k ≠ l ++ p.1 → u.get? k = some .folder
  others : ∀ k, (∀ p ∈ files, ¬k <+: l ++ p.1) → u.get? k = t.get? k

namespace Unpacked

variable {l : Location} {files : List (List Bytes × Bytes)} {t u v : FileTree}

theorem refl (l : Location) (t : FileTree) : Unpacked l [] t t := ⟨nofun, nofun, fun _ _ => rfl⟩

/-- One more file, which no other is on the way to and which is on the way to no other. -/
theorem put {path : List Bytes} {data : Bytes} (unpacked : Unpacked l files t u) (wf : v.WellFormed)
    (lands : Lands (l ++ path).dropLast (l ++ path) data u v) (apart : ∀ p ∈ files, ¬path <+: p.1) :
    Unpacked l (files ++ [(path, data)]) t v := by
  obtain ⟨m, grows, after⟩ := lands
  have here : v.get? (l ++ path) = some (.file data false) := by rw [after, if_pos rfl]
  have other : ∀ p ∈ files, ∀ k, k <+: l ++ p.1 → k ≠ l ++ path := by
    rintro p member k way rfl
    exact apart p member ((List.prefix_append_right_inj l).mp way)
  constructor
  · intro p member
    rcases List.mem_append.mp member with before | new
    · rw [after, if_neg (other p before _ List.prefix_rfl)]
      exact grows.get?_some (unpacked.there p before)
    · rw [List.mem_singleton.mp new]
      exact here
  · intro p member k way short
    rcases List.mem_append.mp member with before | new
    · rw [after, if_neg (other p before k way)]
      exact grows.get?_some (unpacked.folders p before k way short)
    · rw [List.mem_singleton.mp new] at way short
      obtain ⟨rest, whole⟩ := way
      have more : rest ≠ [] := by
        rintro rfl
        exact short (by simpa using whole)
      exact wf.get?_append k rest more (by rw [whole, here]; rfl)
  · intro k off
    have offNew := off (path, data) (by simp)
    have before : ∀ p ∈ files, ¬k <+: l ++ p.1 := fun p member => off p (by simp [member])
    have notHere : k ≠ l ++ path := fun same => offNew (same ▸ List.prefix_rfl)
    rw [after, if_neg notHere, grows.get?_off fun way => offNew (way.trans (List.dropLast_prefix _))]
    exact unpacked.others k before

end Unpacked

end FileTree

/-- An empty database, or a place for one. -/
structure Vacant (h : Host) (db : Bytes) : Prop where
  noZero : 0 ∉ db
  home : Short (h.locate [])
  short : Short (h.locate db)
  way : ∀ k, k <+: h.locate db → h.tree.get? k = none ∨ h.tree.get? k = some .folder
  empty : ∀ k, k ≠ [] → h.tree.get? (h.locate db ++ k) = none

namespace Bundle

/-- A file that can be put below a database: its steps are names that files can have, only the
first of them hidden, and the path is not too long. -/
structure Fits (db : Bytes) (path : List Bytes) : Prop where
  names : ∀ s ∈ path, IsFileName s
  deep : path.dropLast ≠ []
  shown : ∀ s ∈ path.tail, s.head? ≠ some 46
  within : (join [db, ofSteps false path]).length + 28 ≤ maxPath

def memberOf (p : List Bytes × Bytes) : Member := { name := ofSteps false p.1, content := p.2 }

variable {h g : Host} {db : Bytes} {done : List (List Bytes × Bytes)} {path : List Bytes}

/-- What is still to be unpacked can be written where what was unpacked is not in the way. -/
theorem takes_of_unpacked {size : Nat} (vacant : Vacant h db) (fits : Fits db path)
    (folder : g.folder = h.folder) (unpacked : Unpacked (h.locate db) done h.tree g.tree)
    (shown : ∀ p ∈ done, ∀ s ∈ p.1.tail, s.head? ≠ some 46)
    (apart : ∀ p ∈ done, ¬path <+: p.1 ∧ ¬p.1 <+: path) (few : g.temporary < 10 ^ 20)
    (room : ∀ rest, g.room = some rest → size ≤ rest) :
    AtomicFile.Takes g (join [db, ofSteps false path]) size := by
  have names : ∀ s ∈ path, IsName s := fun s member => (fits.names s member).toIsName
  have steps : ∀ s ∈ path, IsStep s := fun s member => (names s member).toIsStep
  obtain ⟨front, last, rfl⟩ : ∃ front last, path = front ++ [last] := by
    have nonempty : path ≠ [] := fun none => fits.deep (by rw [none]; rfl)
    exact ⟨_, _, (List.dropLast_concat_getLast nonempty).symm⟩
  have deep := fits.deep
  rw [List.dropLast_concat] at deep
  have place := locate_of_folder folder
  have at_ : g.locate (join [db, ofSteps false (front ++ [last])]) = h.locate db ++ (front ++ [last]) := by
    rw [place, h.locate_under db names]
  have dirAt : g.locate (dir (join [db, ofSteps false (front ++ [last])])) = h.locate db ++ front := by
    rw [place, h.locate_dir_under db names]
  -- what is below the database is there because of a file, and what is above was free
  have clear : ∀ k, k <+: h.locate db ++ front → g.tree.get? k = none ∨ g.tree.get? k = some .folder := by
    intro k way
    by_cases onWay : ∃ p ∈ done, k <+: h.locate db ++ p.1
    · obtain ⟨p, member, toFile⟩ := onWay
      refine .inr (unpacked.folders p member k toFile fun same => ?_)
      rw [same] at way
      have above := (List.prefix_append_right_inj (h.locate db)).mp way
      exact (apart p member).2 (above.trans (List.prefix_append front [last]))
    · rw [unpacked.others k fun p member toFile => onWay ⟨p, member, toFile⟩]
      rcases List.prefix_or_prefix_of_prefix way (List.prefix_append _ front) with above | below
      · exact vacant.way k above
      · obtain ⟨rest, rfl⟩ := below
        by_cases none : rest = []
        · exact vacant.way _ (by simp [none])
        · exact .inl (vacant.empty rest none)
  have absent : ∀ rest, rest ≠ [] → (∀ p ∈ done, ¬rest <+: p.1) →
      g.tree.get? (h.locate db ++ rest) = none := by
    intro rest nonempty off
    rw [unpacked.others _ fun p member way =>
      off p member ((List.prefix_append_right_inj (h.locate db)).mp way)]
    exact vacant.empty rest nonempty
  have destination : join [db, ofSteps false (front ++ [last])] = clean
      (if db = [] then ofSteps false (front ++ [last]) else db ++ slash :: ofSteps false (front ++ [last])) :=
    join_pair db _ (ofSteps_ne_nil false steps)
  constructor
  · rw [destination]
    exact clean_ne_nil _
  · rw [destination]
    intro zero
    have inName : (0 : UInt8) ∉ ofSteps false (front ++ [last]) := by
      intro zero
      rw [ofSteps, if_neg (by decide), if_neg (by simp)] at zero
      rcases mem_join zero with isSlash | ⟨s, member, inStep⟩
      · exact absurd isSlash (by decide)
      · exact (fits.names s member).noZero inStep
    rcases mem_clean zero with isSlash | isDot | own
    · exact absurd isSlash (by decide)
    · exact absurd isDot (by decide)
    · split at own
      · exact inName own
      · rcases List.mem_append.mp own with inDb | rest
        · exact vacant.noZero inDb
        · rcases List.mem_cons.mp rest with isSlash | inside
          · exact absurd isSlash (by decide)
          · exact inName inside
  · exact fits.within
  · rw [place]
    exact vacant.home
  · rw [at_]
    intro s member
    rcases List.mem_append.mp member with above | own
    · exact vacant.short s above
    · exact (fits.names s own).short
  · rw [at_, dirAt, ← List.append_assoc, List.dropLast_concat]
  · rw [dirAt]
    exact clear
  · rw [at_, absent _ (by simp) fun p member => (apart p member).1]
    simp
  · rw [dirAt, List.append_assoc]
    refine absent _ (by simp) fun p member way => ?_
    -- the name of a temporary file is hidden, and no file's name is
    obtain ⟨first, rest, rfl⟩ := List.exists_cons_of_ne_nil deep
    obtain ⟨more, whole⟩ := way
    have hidden : AtomicFile.stem ++ Decimal.ofNat g.temporary ∈ p.1.tail := by
      rw [← whole]
      simp
    exact shown p member _ hidden rfl
  · exact few
  · exact room

/-- One more file is unpacked. -/
theorem extractMember_unpacked {data : Bytes} (vacant : Vacant h db) (sound : g.Sound) (fits : Fits db path)
    (folder : g.folder = h.folder) (unpacked : Unpacked (h.locate db) done h.tree g.tree)
    (shown : ∀ p ∈ done, ∀ s ∈ p.1.tail, s.head? ≠ some 46)
    (apart : ∀ p ∈ done, ¬path <+: p.1 ∧ ¬p.1 <+: path) (few : g.temporary < 10 ^ 20)
    (room : ∀ rest, g.room = some rest → data.length ≤ rest) :
    ∃ k, (extractMember db (memberOf (path, data)).whole).on g = (.ok (), k) ∧ k.Sound ∧ k.folder = h.folder ∧
      Unpacked (h.locate db) (done ++ [(path, data)]) h.tree k.tree ∧ k.temporary = g.temporary + 1 ∧
      k.room = g.room.map (· - data.length) := by
  have names : ∀ s ∈ path, IsName s := fun s member => (fits.names s member).toIsName
  have takes := takes_of_unpacked vacant fits folder unpacked shown apart few room
  obtain ⟨k, whole, spent⟩ := AtomicFile.writeAll_makes sound takes
  have found : destination? db (ofSteps false path) = some (join [db, ofSteps false path]) :=
    destination?_of_descends ⟨clean_names names, fun none => fits.deep (by rw [none]; rfl), names⟩
  have written : (extractMember db (memberOf (path, data)).whole).on g = (.ok (), k) := by
    obtain ⟨f, g', created, -⟩ : ∃ f g', (AtomicFile.create (join [db, ofSteps false path])).on g =
        (.ok f, g') ∧ True := by
      have parts := whole
      rw [AtomicFile.writeAll, AtomicFile.writing] at parts
      obtain ⟨f, g', created, -⟩ := on_bind_ok parts
      exact ⟨f, g', created, trivial⟩
    simp only [extractMember, Member.whole, memberOf, found]
    refine AtomicFile.on_writing created whole fun k' wrote => ?_
    rw [on_during, copyContent, on_bind, wrote]
    rfl
  obtain ⟨landed, -⟩ := (AtomicFile.writeAll_lands sound _ data).of_ok whole
  have place := locate_of_folder folder
  have inside := takes.inside
  rw [inside, place, h.locate_under db names] at landed
  exact ⟨k, written, landed.sound, landed.folder.trans folder,
    unpacked.put landed.sound.tree landed.tree fun p member => (apart p member).1, by rw [spent],
    by rw [spent]⟩

def sizeOf (files : List (List Bytes × Bytes)) : Nat := (files.map fun p => p.2.length).sum

/-- Files that are not on the way to each other. -/
def Apart (files : List (List Bytes × Bytes)) : Prop :=
  files.Pairwise fun p q => ¬p.1 <+: q.1 ∧ ¬q.1 <+: p.1

/-- Into an empty database all files are unpacked, whatever they are, if there is room for them. -/
theorem extractMembers_vacant (vacant : Vacant h db) (rest : List (List Bytes × Bytes)) :
    ∀ (done : List (List Bytes × Bytes)) (n : Nat) (g : Host), g.Sound → g.folder = h.folder →
      Unpacked (h.locate db) done h.tree g.tree → (∀ p ∈ done ++ rest, Fits db p.1) → Apart (done ++ rest) →
      g.temporary + rest.length ≤ 10 ^ 20 → (∀ free, g.room = some free → sizeOf rest ≤ free) →
      ∃ k, (extractMembers db n ((rest.map memberOf).map Member.whole)).on g = (.ok (n + rest.length, none), k) ∧
        Unpacked (h.locate db) (done ++ rest) h.tree k.tree := by
  induction rest with
  | nil =>
      intro done n g _ _ unpacked _ _ _ _
      exact ⟨g, rfl, by simpa using unpacked⟩
  | cons p rest ih =>
      intro done n g sound folder unpacked fits apart few room
      obtain ⟨path, data⟩ := p
      rw [List.length_cons] at few
      have roomFirst : ∀ free, g.room = some free → data.length ≤ free := by
        intro free is
        have := room free is
        simp only [sizeOf, List.map_cons, List.sum_cons] at this
        omega
      have others : ∀ q ∈ done, ¬path <+: q.1 ∧ ¬q.1 <+: path := by
        intro q member
        have both := (List.pairwise_append.mp apart).2.2 q member (path, data) (by simp)
        exact ⟨both.2, both.1⟩
      obtain ⟨k, written, sound', folder', unpacked', number, left⟩ :=
        extractMember_unpacked vacant sound (fits (path, data) (by simp)) folder unpacked
          (fun q member => (fits q (by simp [member])).shown) others (by omega) roomFirst
      have together : done ++ (path, data) :: rest = done ++ [(path, data)] ++ rest := by simp
      rw [together] at fits apart ⊢
      have roomRest : ∀ free, k.room = some free → sizeOf rest ≤ free := by
        intro free is
        rw [left] at is
        obtain ⟨before, is', rfl⟩ := Option.map_eq_some_iff.mp is
        have := room before is'
        simp only [sizeOf, List.map_cons, List.sum_cons] at this ⊢
        omega
      obtain ⟨last, ended, unpackedAll⟩ :=
        ih _ (n + 1) k sound' folder' unpacked' fits apart (by omega) roomRest
      refine ⟨last, ?_, unpackedAll⟩
      rw [List.map_cons, List.map_cons, extractMembers, on_bind, on_attempt, written]
      simp only [ended, List.length_cons]
      rw [Nat.add_right_comm, Nat.add_assoc]

/-! ## Projects -/

/-- Below `l` there is exactly what the project at `root` ships, under its name. -/
structure Restored (t : FileTree) (root : Location) (name : Bytes) (l : Location) (u : FileTree) : Prop where
  files : ∀ path data x, u.get? (l ++ path) = some (.file data x) ↔
    x = false ∧ ∃ rest, path = name :: rest ∧ Ships t root rest data
  folders : ∀ path, u.get? (l ++ path) = some .folder ↔
    ∃ rest data, Ships t root rest data ∧ path <+: name :: rest ∧ path ≠ name :: rest

/-- Unpacking makes nothing but what is below the database and folders on the way there. -/
theorem beneath_of_unpacked {u : FileTree} (vacant : Vacant h db)
    (unpacked : Unpacked (h.locate db) done h.tree u) (deep : ∀ p ∈ done, p.1 ≠ []) :
    Beneath (h.locate db) h.tree u := by
  intro k
  by_cases onWay : ∃ p ∈ done, k <+: h.locate db ++ p.1
  · obtain ⟨p, member, way⟩ := onWay
    by_cases here : k <+: h.locate db
    · have short : k ≠ h.locate db ++ p.1 := by
        intro same
        have shorter := here.length_le
        have positive := List.length_pos_iff.mpr (deep p member)
        rw [same, List.length_append] at shorter
        omega
      have folder := unpacked.folders p member k way short
      rcases vacant.way k here with absent | there
      · exact .inr (.inr ⟨here, absent, folder⟩)
      · exact .inl (folder.trans there.symm)
    · refine .inr (.inl ⟨?_, fun same => here (same ▸ List.prefix_rfl)⟩)
      exact (List.prefix_or_prefix_of_prefix way (List.prefix_append _ _)).resolve_left here
  · exact .inl (unpacked.others k fun p member way => onWay ⟨p, member, way⟩)

theorem restored_of_unpacked {t u : FileTree} {root : Location} {name : Bytes} (vacant : Vacant h db)
    (unpacked : Unpacked (h.locate db) done h.tree u)
    (exact : ∀ path data, (path, data) ∈ done ↔ ∃ rest, path = name :: rest ∧ Ships t root rest data)
    (nonempty : done ≠ []) : Restored t root name (h.locate db) u := by
  -- below the database is a file, a folder on the way to one, or nothing
  have cases_ : ∀ path,
      (∃ data, (path, data) ∈ done ∧ u.get? (h.locate db ++ path) = some (.file data false)) ∨
      (∃ p ∈ done, path <+: p.1 ∧ path ≠ p.1 ∧ u.get? (h.locate db ++ path) = some .folder) ∨
      (∀ p ∈ done, ¬path <+: p.1) ∧ u.get? (h.locate db ++ path) = none := by
    intro path
    by_cases onWay : ∃ p ∈ done, path <+: p.1
    · obtain ⟨p, member, way⟩ := onWay
      by_cases here : path = p.1
      · rw [here]
        exact .inl ⟨p.2, member, unpacked.there p member⟩
      · refine .inr (.inl ⟨p, member, way, here, ?_⟩)
        exact unpacked.folders p member _ ((List.prefix_append_right_inj _).mpr way) (by simpa using here)
    · have off : ∀ p ∈ done, ¬path <+: p.1 := fun p member way => onWay ⟨p, member, way⟩
      have deeper : path ≠ [] := by
        rintro rfl
        obtain ⟨p, rest, rfl⟩ := List.exists_cons_of_ne_nil nonempty
        exact off p List.mem_cons_self List.nil_prefix
      refine .inr (.inr ⟨off, ?_⟩)
      rw [unpacked.others _ fun p member way => off p member ((List.prefix_append_right_inj _).mp way)]
      exact vacant.empty path deeper
  constructor
  · intro path data x
    rw [← exact]
    constructor
    · intro there
      rcases cases_ path with ⟨data', member, isFile⟩ | ⟨-, -, -, -, isFolder⟩ | ⟨-, absent⟩
      · rw [isFile] at there
        cases there
        exact ⟨rfl, member⟩
      · rw [isFolder] at there
        cases there
      · rw [absent] at there
        cases there
    · rintro ⟨rfl, member⟩
      exact unpacked.there (path, data) member
  · intro path
    constructor
    · intro there
      rcases cases_ path with ⟨data', -, isFile⟩ | ⟨p, member, way, short, -⟩ | ⟨-, absent⟩
      · rw [isFile] at there
        cases there
      · obtain ⟨rest, same, ships⟩ := (exact p.1 p.2).mp member
        exact ⟨rest, p.2, ships, same ▸ way, same ▸ short⟩
      · rw [absent] at there
        cases there
    · rintro ⟨rest, data, ships, way, short⟩
      have member := (exact (name :: rest) data).mpr ⟨rest, rfl, ships⟩
      exact unpacked.folders _ member _ ((List.prefix_append_right_inj _).mpr way) (by simpa using short)

/-- A valid name is one step down. -/
theorem isName_of_valid {name : Bytes} (valid : Config.validateName name = .ok ()) : IsName name := by
  rw [Config.validateName] at valid
  split at valid
  · cases valid
  · split at valid
    · cases valid
    · split at valid
      · cases valid
      · rename_i nonempty other single
        simp only [Bool.or_eq_true, beq_iff_eq, not_or, List.any_eq_true, not_exists, not_and,
          Bool.not_eq_true', List.isEmpty_iff] at nonempty other single
        exact ⟨⟨fun member => (single.1 slash member).1 rfl, nonempty, other.1⟩, other.2⟩

/-- The last step of a project's folder is its name. -/
theorem base_join (d : Bytes) {name : Bytes} (isName : IsName name) : base (join [d, name]) = name := by
  obtain ⟨front, single, whole⟩ := exists_join_eq d
  have kept : ((front ++ name).reverse.dropWhile (· == slash)).reverse = front ++ name := by
    obtain ⟨before, last, rfl⟩ : ∃ before last, name = before ++ [last] :=
      ⟨_, _, (List.dropLast_concat_getLast isName.notEmpty).symm⟩
    have other : last ≠ slash := fun same => isName.noSlash (by simp [same])
    rw [← List.append_assoc, List.reverse_concat, List.dropWhile_cons_of_neg (by simpa using other),
      ← List.reverse_concat, List.reverse_reverse]
  have notEmpty : (front ++ name).isEmpty = false := by
    simpa using fun _ => isName.notEmpty
  rw [whole name isName, base]
  simp only [notEmpty, kept, Bool.false_eq_true, if_false]
  rcases single with rfl | ⟨u, rfl⟩
  · rw [List.nil_append, splitLast_of_noSlash isName.noSlash]
  · rw [List.append_assoc, List.singleton_append, splitLast_slash u isName.noSlash]

/-- A path below a name, as text. -/
theorem join_names {name : Bytes} {path : List Bytes} (isName : IsName name)
    (names : ∀ s ∈ path, IsName s) (nonempty : path ≠ []) :
    join [name, ofSteps false path] = ofSteps false (name :: path) := by
  obtain ⟨s, rest, rfl⟩ := List.exists_cons_of_ne_nil nonempty
  have each : ∀ t ∈ name :: s :: rest, IsName t := List.forall_mem_cons.mpr ⟨isName, names⟩
  have text : name ++ slash :: ofSteps false (s :: rest) = ofSteps false (name :: s :: rest) := by
    change _ = Bytes.join [slash] (name :: s :: rest)
    rw [Bytes.join_cons_cons, List.append_assoc, List.singleton_append]
    rfl
  rw [join_pair name _ (ofSteps_ne_nil false fun t member => (names t member).toIsStep),
    if_neg isName.notEmpty, text, clean_names each]

theorem Shipped.ne_nil (shipped : Shipped path) : path ≠ [] := by
  cases shipped <;> simp

theorem Shipped.length_le (shipped : Shipped path) : path.length ≤ 2 := by
  cases shipped <;> simp

/-- Nothing on the way to what is shipped is shipped. -/
theorem Shipped.eq_of_prefix {other : List Bytes} (shipped : Shipped path) (shipped' : Shipped other)
    (way : path <+: other) : path = other := by
  cases shipped with
  | @single n known =>
      cases shipped' with
      | @single m known' => exact way.eq_of_length rfl
      | @inside f m known' shown =>
          -- no file has the name of a folder
          have apart : ∀ a ∈ [Layout.configName, Layout.metaName, Layout.namesName],
              a ∉ [Layout.tagsName, Layout.diffsName] := by decide
          obtain rfl : n = f := (List.cons_prefix_cons.mp way).1
          exact absurd known' (apart n known)
  | @inside f n known shown =>
      cases shipped' with
      | single known' =>
          have := way.length_le
          simp at this
      | inside known' shown' => exact way.eq_of_length rfl

theorem Shipped.shown_of_mem (shipped : Shipped path) : ∀ s ∈ path, s.head? ≠ some 46 := by
  have singles : ∀ n ∈ [Layout.configName, Layout.metaName, Layout.namesName], n.head? ≠ some 46 := by decide
  have folders : ∀ n ∈ [Layout.tagsName, Layout.diffsName], n.head? ≠ some 46 := by decide
  intro s member
  cases shipped with
  | @single n known =>
      rw [List.mem_singleton.mp member]
      exact singles n known
  | @inside f n known shown =>
      rcases List.mem_cons.mp member with rfl | last
      · exact folders s known
      · rwa [List.mem_singleton.mp last]

section Projects

variable {k : Host} {name dest db' : Bytes} {paths : List (List Bytes)}

/-- A project's name is a name that a file can have. -/
theorem isFileName_of_packable (packable : Packable ⟨join [db, name]⟩ h) (isName : IsName name) :
    IsFileName name := by
  have root := packable.root
  rw [h.locate_join db isName] at root
  exact packable.proper.isFileName root name (by simp)

/-- What a project ships becomes a member under the project's name. -/
theorem packed_eq_memberOf {data : Bytes} (packable : Packable ⟨join [db, name]⟩ h) (isName : IsName name)
    (ships : Ships h.tree (h.locate (join [db, name])) path data) :
    packed ⟨join [db, name]⟩ h path = memberOf (name :: path, data) := by
  have names : ∀ s ∈ path, IsName s := fun s member => (packable.isFileName ships s member).toIsName
  rw [packed_of_ships packable ships, base_join db isName, join_names isName names ships.1.ne_nil]
  rfl

/-- An archive can hold what a project ships. -/
theorem plain_of_ships {data : Bytes} (packable : Packable ⟨join [db, name]⟩ h) (isName : IsName name)
    (ships : Ships h.tree (h.locate (join [db, name])) path data) (size : data.length < Decimal.unsignedLimit) :
    Archive.Plain (memberOf (name :: path, data)) := by
  have each : ∀ s ∈ name :: path, IsFileName s :=
    List.forall_mem_cons.mpr ⟨isFileName_of_packable packable isName, packable.isFileName ships⟩
  refine ⟨rfl, ?_, ?_, size⟩
  · obtain ⟨before, last, rfl⟩ : ∃ before last, path = before ++ [last] :=
      ⟨_, _, (List.dropLast_concat_getLast ships.1.ne_nil).symm⟩
    have isLast := each last (by simp)
    obtain ⟨front, b, rfl⟩ : ∃ front b, last = front ++ [b] :=
      ⟨_, _, (List.dropLast_concat_getLast isLast.notEmpty).symm⟩
    have other : (47 == b) = false := by
      have : b ≠ 47 := fun same => isLast.noSlash (by simp [same, slash])
      simpa using this.symm
    have text : ofSteps false (name :: (before ++ [front ++ [b]])) =
        ofSteps false (name :: before) ++ slash :: front ++ [b] := by
      have snoc : ofSteps false (name :: before ++ [front ++ [b]]) =
          ofSteps false (name :: before) ++ slash :: (front ++ [b]) := ofSteps_snoc false _
      simpa using snoc
    rw [memberOf, text, Bytes.endsWith, List.reverse_concat, List.reverse_singleton,
      List.isPrefixOf_cons_cons, other, Bool.false_and]
  · have steps := length_ofSteps_le false (name :: path)
    have bound : span (name :: path) ≤ (maxName + 1) * (name :: path).length :=
      span_le fun s member => (each s member).short
    have few := ships.1.length_le
    rw [List.length_cons] at bound
    have most : (maxName + 1) * (path.length + 1) ≤ 256 * 3 := Nat.mul_le_mul_left 256 (by omega)
    change (ofSteps false (name :: path)).length < 2 ^ 31
    omega

/-- What is shipped fits below another database. -/
theorem fits_of_ships {data : Bytes} (packable : Packable ⟨join [db, name]⟩ h) (isName : IsName name)
    (ships : Ships h.tree (h.locate (join [db, name])) path data)
    (within : (join [db', ofSteps false (name :: path)]).length + 28 ≤ maxPath) :
    Fits db' (name :: path) where
  names := List.forall_mem_cons.mpr ⟨isFileName_of_packable packable isName, packable.isFileName ships⟩
  deep := by
    obtain ⟨s, rest, rfl⟩ := List.exists_cons_of_ne_nil ships.1.ne_nil
    simp
  shown := ships.1.shown_of_mem
  within := within

/-- The files that these paths stand for, under the project's name. -/
def carried (l : Layout) (h : Host) (name : Bytes) (paths : List (List Bytes)) : List (List Bytes × Bytes) :=
  paths.map fun path => (name :: path, (packed l h path).content)

theorem mem_carried {data : Bytes} (packable : Packable ⟨join [db, name]⟩ h) (isName : IsName name)
    (packs : Packs ⟨join [db, name]⟩ h paths) :
    (path, data) ∈ carried ⟨join [db, name]⟩ h name paths ↔
      ∃ rest, path = name :: rest ∧ Ships h.tree (h.locate (join [db, name])) rest data := by
  have content : ∀ {path data}, Ships h.tree (h.locate (join [db, name])) path data →
      (packed ⟨join [db, name]⟩ h path).content = data := fun ships => by
    rw [packed_eq_memberOf packable isName ships]
    rfl
  constructor
  · intro member
    obtain ⟨rest, isPath, same⟩ := List.mem_map.mp member
    obtain ⟨data', ships⟩ := (packs.exact rest).mp isPath
    rw [content ships] at same
    cases same
    exact ⟨rest, rfl, ships⟩
  · rintro ⟨rest, rfl, ships⟩
    refine List.mem_map.mpr ⟨rest, (packs.exact rest).mpr ⟨data, ships⟩, ?_⟩
    rw [content ships]

/-- The members of a bundle are those of the files it carries. -/
theorem map_packed (packable : Packable ⟨join [db, name]⟩ h) (isName : IsName name)
    (packs : Packs ⟨join [db, name]⟩ h paths) :
    paths.map (packed ⟨join [db, name]⟩ h) = (carried ⟨join [db, name]⟩ h name paths).map memberOf := by
  rw [carried, List.map_map]
  refine List.map_congr_left fun path member => ?_
  obtain ⟨data, ships⟩ := (packs.exact path).mp member
  rw [Function.comp_apply, packed_eq_memberOf packable isName ships]
  rfl

/-- No file that is carried is on the way to another. -/
theorem apart_carried (packs : Packs ⟨join [db, name]⟩ h paths) :
    Apart (carried ⟨join [db, name]⟩ h name paths) := by
  refine List.pairwise_map.mpr (List.Pairwise.imp_of_mem ?_ packs.once)
  intro path other member member' different
  obtain ⟨data, shipped, -⟩ := (packs.exact path).mp member
  obtain ⟨data', shipped', -⟩ := (packs.exact other).mp member'
  refine ⟨fun way => ?_, fun way => ?_⟩
  · exact different (shipped.eq_of_prefix shipped' (List.cons_prefix_cons.mp way).2)
  · exact different (shipped'.eq_of_prefix shipped (List.cons_prefix_cons.mp way).2).symm

/-- Members with different paths have different names. -/
theorem nodup_names (packable : Packable ⟨join [db, name]⟩ h) (isName : IsName name)
    (packs : Packs ⟨join [db, name]⟩ h paths) :
    (((carried ⟨join [db, name]⟩ h name paths).map memberOf).map Member.name).Nodup := by
  have steps_ : ∀ path ∈ paths, steps (ofSteps false (name :: path)) = name :: path := by
    intro path member
    obtain ⟨data, ships⟩ := (packs.exact path).mp member
    exact steps_names (List.forall_mem_cons.mpr
      ⟨isName, fun s inside => (packable.isFileName ships s inside).toIsName⟩)
  rw [carried, List.map_map, List.map_map]
  refine List.Nodup.map_on (fun path member other member' same => ?_) packs.once
  have both := congrArg steps same
  simp only [Function.comp_apply, memberOf] at both
  rw [steps_ path member, steps_ other member', List.cons.injEq] at both
  exact both.2

/-- The plain codec gives back what a project ships, if no file is longer than a size can say. -/
theorem returns_packed (packable : Packable ⟨join [db, name]⟩ h) (isName : IsName name)
    (packs : Packs ⟨join [db, name]⟩ h paths)
    (sizes : ∀ path data, Ships h.tree (h.locate (join [db, name])) path data →
      data.length < Decimal.unsignedLimit) :
    Codec.plain.Returns (paths.map (packed ⟨join [db, name]⟩ h)) := by
  refine returns_plain fun m member => ?_
  obtain ⟨path, isOne, rfl⟩ := List.mem_map.mp member
  obtain ⟨data, ships⟩ := (packs.exact path).mp isOne
  rw [packed_eq_memberOf packable isName ships]
  exact plain_of_ships packable isName ships (sizes path data ships)

/-- All members that were packed are files. -/
theorem files_of_returns {c : Codec} {ms : List Member} (returns : c.Returns ms)
    (isFile : ∀ m ∈ ms, m.type = .file) :
    files (c.decode ⟨c.encode ms, none⟩) = ⟨ms.map Member.whole, none⟩ := by
  have every : ∀ a ∈ ms.map Member.whole, (a.type == .file) = true := by
    intro a member
    obtain ⟨m, isOne, rfl⟩ := List.mem_map.mp member
    exact beq_iff_eq.mpr (isFile m isOne)
  rw [files, returns, List.filter_eq_self.mpr every]
  rfl

/-- What a bundle carries is unpacked into an empty database with room for it, and nothing else. -/
theorem extract_carried (packable : Packable ⟨join [db, name]⟩ h) (isName : IsName name)
    (packs : Packs ⟨join [db, name]⟩ h paths) (sound : k.Sound) (vacant : Vacant k db')
    (within : ∀ path data, Ships h.tree (h.locate (join [db, name])) path data →
      (join [db', ofSteps false (name :: path)]).length + 28 ≤ maxPath)
    (few : k.temporary + paths.length ≤ 10 ^ 20)
    (room : ∀ free, k.room = some free → sizeOf (carried ⟨join [db, name]⟩ h name paths) ≤ free) :
    ∃ k', (extractMembers db' 0
          (((carried ⟨join [db, name]⟩ h name paths).map memberOf).map Member.whole)).on k =
        (.ok (paths.length, none), k') ∧
      Restored h.tree (h.locate (join [db, name])) name (k.locate db') k'.tree ∧
      Beneath (k.locate db') k.tree k'.tree := by
  have exact : ∀ path data, (path, data) ∈ carried ⟨join [db, name]⟩ h name paths ↔
      ∃ rest, path = name :: rest ∧ Ships h.tree (h.locate (join [db, name])) rest data :=
    fun path data => mem_carried packable isName packs
  have fits : ∀ p ∈ carried ⟨join [db, name]⟩ h name paths, Fits db' p.1 := by
    rintro ⟨path, data⟩ isFile
    obtain ⟨rest, rfl, ships⟩ := (exact path data).mp isFile
    exact fits_of_ships packable isName ships (within rest data ships)
  have length : (carried ⟨join [db, name]⟩ h name paths).length = paths.length := List.length_map _
  obtain ⟨k', ended, unpacked⟩ := extractMembers_vacant vacant
    (carried ⟨join [db, name]⟩ h name paths) [] 0 k sound rfl (.refl _ _) fits (apart_carried packs)
    (length ▸ few) room
  rw [List.nil_append] at unpacked
  rw [Nat.zero_add, length] at ended
  refine ⟨k', ended, restored_of_unpacked vacant unpacked exact fun none => ?_,
    beneath_of_unpacked vacant unpacked fun p member => ?_⟩
  · obtain ⟨data, x, config⟩ := packable.config
    have member := (exact [name, Layout.configName] data).mpr
      ⟨[Layout.configName], rfl, .single (by simp), x, config⟩
    rw [none] at member
    cases member
  · rintro empty
    exact (fits p member).deep (by rw [empty]; rfl)

/-- A project with a valid name, all of whose files are in their place, is packed unless the work is
called off or the bundle cannot be written.  If the codec gives back what it was given, the bundle
lists as many files as were packed, under different names, and as many bytes.  Unpacked into an empty
database on any host with room for it, it brings back what it was made of, exactly. -/
theorem extract_export (c : Codec) (db name dest db' : Bytes) (valid : Config.validateName name = .ok ())
    (packable : Packable ⟨join [db, name]⟩ h) (uninterrupted : h.interrupt = none)
    (returns : ∀ paths, Packs ⟨join [db, name]⟩ h paths →
      c.Returns (paths.map (packed ⟨join [db, name]⟩ h)))
    (outside : ¬h.locate (join [db, name]) <+: h.locate (dir dest) ∨
      h.tree.get? (h.locate (dir dest)) = some .folder)
    (writable : ∀ paths, Packs ⟨join [db, name]⟩ h paths →
      ∃ k, (AtomicFile.writeAll dest (c.encode (paths.map (packed ⟨join [db, name]⟩ h)))).on h = (.ok (), k))
    (sound : k.Sound) (vacant : Vacant k db')
    (within : ∀ path data, Ships h.tree (h.locate (join [db, name])) path data →
      (join [db', ofSteps false (name :: path)]).length + 28 ≤ maxPath)
    (roomy : ∀ paths, Packs ⟨join [db, name]⟩ h paths → k.temporary + paths.length ≤ 10 ^ 20 ∧
      ∀ free, k.room = some free →
        ((paths.map (packed ⟨join [db, name]⟩ h)).map fun m => m.content.length).sum ≤ free) :
    ∃ summary g bundle, (c.exportFile ⟨join [db, name]⟩ dest).on h = (.ok summary, g) ∧
      (openFile dest).on g = (.ok bundle, g) ∧ (c.decode bundle).failure = none ∧
      (files (c.decode bundle)).items.length = summary.files ∧
      ((files (c.decode bundle)).items.map fun m => m.name).Nodup ∧
      ((files (c.decode bundle)).items.map fun m => m.size).sum = summary.bytes ∧
      ∃ k', (c.extract db' bundle).on k = (.ok (summary.files, none), k') ∧
        Restored h.tree (h.locate (join [db, name])) name (k.locate db') k'.tree ∧
        Beneath (k.locate db') k.tree k'.tree := by
  have isName := isName_of_valid valid
  obtain ⟨paths, g, packs, exported, there⟩ := exportFile_packable packable uninterrupted outside writable
  have members := map_packed packable isName packs
  have returned := returns paths packs
  obtain ⟨few, room⟩ := roomy paths packs
  rw [members] at there room exported returned
  have listed := files_of_returns returned fun m member => by
    obtain ⟨p, -, rfl⟩ := List.mem_map.mp member
    rfl
  obtain ⟨k', ended, restored, beneath⟩ := extract_carried packable isName packs sound vacant within few
    fun free is => by
      have enough := room free is
      rwa [List.map_map] at enough
  refine ⟨_, g, ⟨c.encode ((carried ⟨join [db, name]⟩ h name paths).map memberOf), none⟩, exported, ?_,
    ?_, ?_, ?_, ?_, k', ?_, restored, beneath⟩
  · rw [openFile, on_bind, on_get]
    simp only [there]
    rfl
  · rw [returned]
  · rw [listed, carried, List.length_map, List.length_map, List.length_map]
  · rw [listed, List.map_map]
    exact nodup_names packable isName packs
  · rw [listed, List.map_map]
    rfl
  · rw [Codec.extract, listed, on_bind, ended]
    rfl

end Projects

/-- A project with stored contents, a hidden file, and file names of all sorts. -/
def libraryHost : Host where
  tree := ⟨[([lit "db"], .folder), ([lit "db", lit "zlib"], .folder),
    ([lit "db", lit "zlib", lit "config.toml"], .file (lit "name = \"zlib\"\n") false),
    ([lit "db", lit "zlib", lit "index.toml"], .file (lit "versions = 2\n") false),
    ([lit "db", lit "zlib", lit "ctags"], .file (lit "deflate\tdeflate.c\t1\n") false),
    ([lit "db", lit "zlib", lit "tags"], .folder),
    ([lit "db", lit "zlib", lit "tags", lit "déjà vu"], .file [0, 255, 10] true),
    ([lit "db", lit "zlib", lit "tags", lit ".tmp-7"], .file (lit "half") false),
    ([lit "db", lit "zlib", lit "diffs"], .folder),
    ([lit "db", lit "zlib", lit "diffs", lit "a\nb"], .file [] false),
    ([lit "db", lit "zlib", lit "objects"], .folder),
    ([lit "db", lit "zlib", lit "objects", lit "0a1b"], .file (lit "int x;\n") false)]⟩

theorem root_libraryHost : libraryHost.locate (join [lit "/db", lit "zlib"]) = [lit "db", lit "zlib"] := by
  decide +kernel

/-- What holds of everything on the host holds of what is shipped. -/
theorem ships_libraryHost (P : List Bytes → Node → Bool)
    (each : (libraryHost.tree.nodes.all fun p => P (p.1.drop 2) p.2) = true) {path : List Bytes} {data : Bytes}
    (ships : Ships libraryHost.tree (libraryHost.locate (join [lit "/db", lit "zlib"])) path data) :
    ∃ x, P path (.file data x) = true := by
  obtain ⟨x, node⟩ := ships.mem_nodes
  rw [root_libraryHost] at node
  exact ⟨x, List.all_eq_true.mp each _ node⟩

theorem packable_libraryHost : Packable ⟨join [lit "/db", lit "zlib"]⟩ libraryHost where
  sound := by decide +kernel
  proper := ⟨by decide +kernel, by decide +kernel⟩
  config := ⟨lit "name = \"zlib\"\n", false, by decide +kernel⟩
  files := by decide +kernel
  folders := by decide +kernel
  within path data ships := by
    obtain ⟨-, fine⟩ := ships_libraryHost (fun path _ =>
      pathFlaw (Layout.file ⟨join [lit "/db", lit "zlib"]⟩ (ofSteps false path)) == none) (by decide +kernel) ships
    exact beq_iff_eq.mp fine

/-- Anything can be written beside the database. -/
theorem takes_libraryHost (size : Nat) : AtomicFile.Takes libraryHost (lit "/zlib.bundle") size where
  nonempty := by decide
  noZero := by decide
  within := by decide +kernel
  home := by decide +kernel
  short := by decide +kernel
  inside := by decide +kernel
  way k way := by
    have root : libraryHost.locate (dir (lit "/zlib.bundle")) = [] := by decide +kernel
    rw [root, List.prefix_nil] at way
    exact .inr (way ▸ rfl)
  leaf := by decide +kernel
  free := by decide +kernel
  few := by decide
  room := nofun

theorem vacant_new : Vacant {} (lit "/new") where
  noZero := by decide
  home := by decide +kernel
  short := by decide +kernel
  way k _ := by
    cases k with
    | nil => exact .inr rfl
    | cons s rest => exact .inl rfl
  empty k nonempty := by
    have place : locate {} (lit "/new") = [lit "new"] := by decide +kernel
    rw [place]
    rfl

theorem extract_export_library :
    ∃ summary g bundle k,
      (Codec.plain.exportFile ⟨join [lit "/db", lit "zlib"]⟩ (lit "/zlib.bundle")).on libraryHost =
        (.ok summary, g) ∧ (openFile (lit "/zlib.bundle")).on g = (.ok bundle, g) ∧
      (Codec.plain.extract (lit "/new") bundle).on {} = (.ok (summary.files, none), k) ∧
      k.tree.get? [lit "new", lit "zlib", lit "tags", lit "déjà vu"] = some (.file [0, 255, 10] false) ∧
      k.tree.get? [lit "new", lit "zlib", lit "diffs", lit "a\nb"] = some (.file [] false) ∧
      ∀ data x, k.tree.get? [lit "new", lit "zlib", lit "ctags"] ≠ some (.file data x) := by
  have sound : Sound {} := by decide +kernel
  have sizes : ∀ path data, Ships libraryHost.tree (libraryHost.locate (join [lit "/db", lit "zlib"])) path data →
      data.length < Decimal.unsignedLimit := by
    intro path data ships
    let fits : List Bytes → Node → Bool
      | _, .file data _ => data.length < Decimal.unsignedLimit
      | _, .folder => true
    obtain ⟨_, small⟩ := ships_libraryHost fits (by decide +kernel) ships
    exact of_decide_eq_true small
  have within : ∀ path data, Ships libraryHost.tree (libraryHost.locate (join [lit "/db", lit "zlib"])) path data →
      (join [lit "/new", ofSteps false (lit "zlib" :: path)]).length + 28 ≤ maxPath := by
    intro path data ships
    obtain ⟨-, short⟩ := ships_libraryHost (fun path _ =>
      (join [lit "/new", ofSteps false (lit "zlib" :: path)]).length + 28 ≤ maxPath) (by decide +kernel) ships
    exact of_decide_eq_true short
  have writable : ∀ paths, Packs ⟨join [lit "/db", lit "zlib"]⟩ libraryHost paths → ∃ k,
      (AtomicFile.writeAll (lit "/zlib.bundle")
        (Codec.plain.encode (paths.map (packed ⟨join [lit "/db", lit "zlib"]⟩ libraryHost)))).on libraryHost = (.ok (), k) := by
    intro paths _
    obtain ⟨k, whole, -⟩ := AtomicFile.writeAll_makes packable_libraryHost.sound (takes_libraryHost _)
    exact ⟨k, whole⟩
  have isName : IsName (lit "zlib") := isName_of_valid (by decide +kernel)
  have few : ∀ paths, Packs ⟨join [lit "/db", lit "zlib"]⟩ libraryHost paths →
      Host.temporary {} + paths.length ≤ 10 ^ 20 := by
    intro paths packs
    have most := packs.length_le
    have nodes : libraryHost.tree.nodes.length = 12 := rfl
    have first : Host.temporary {} = 1 := rfl
    omega
  obtain ⟨summary, g, bundle, exported, opened, -, -, -, -, k, ended, restored, -⟩ :=
    extract_export .plain (lit "/db") (lit "zlib") (lit "/zlib.bundle") (lit "/new") (by decide +kernel)
      packable_libraryHost rfl (fun _ packs => returns_packed packable_libraryHost isName packs sizes) (.inr (by decide +kernel)) writable sound vacant_new within
      fun paths packs => ⟨few paths packs, nofun⟩
  have place : locate {} (lit "/new") = [lit "new"] := by decide +kernel
  rw [place, root_libraryHost] at restored
  refine ⟨summary, g, bundle, k, exported, opened, ended, ?_, ?_, fun data x there => ?_⟩
  · exact (restored.files [lit "zlib", lit "tags", lit "déjà vu"] _ _).mpr
      ⟨rfl, _, rfl, .inside (by decide) (by decide), true, by decide +kernel⟩
  · exact (restored.files [lit "zlib", lit "diffs", lit "a\nb"] _ _).mpr
      ⟨rfl, _, rfl, .inside (by decide) (by decide), false, by decide +kernel⟩
  · -- the combined table is no part of a bundle
    obtain ⟨-, rest, same, shipped, -⟩ := (restored.files [lit "zlib", lit "ctags"] data x).mp there
    obtain rfl := (List.cons.inj same).2
    cases shipped with
    | single known => exact absurd known (by decide)

end Bundle

end SymbolHistory
