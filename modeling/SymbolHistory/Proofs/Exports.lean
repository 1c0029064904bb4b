/-
# Proofs.Exports -- what a bundle is made of

Of all files of a project a bundle holds those that it `Ships`: the settings,
what is known about the last run, the list of names, and the files in two
folders that are not hidden.  Whether a file is shipped depends on its path
alone, and no path that is shipped ends in a hidden name, so a host on which only
hidden names differ ships the same files (`Packable.congr`).

On a host from which a project can be packed, the paths to be packed are those of
the files shipped, each once (`memberPaths_packable`), and every one of them is
read (`on_readMembers`).  While a bundle is written there is one more file, under
a hidden name; so what is written is what the host shipped before
(`exportFile_packable`).
-/
import SymbolHistory.Proofs.Archives
import SymbolHistory.Proofs.Descents
import SymbolHistory.Proofs.SureWrites

set_option autoImplicit false

namespace SymbolHistory

open SymbolHistory.Path FileTree Run Host

namespace Host

/-- A name joined to a path stands at the end of the text, behind a slash unless it stands alone. -/
theorem exists_join_eq (d : Bytes) : ∃ front, (front = [] ∨ ∃ u, front = u ++ [slash]) ∧
    ∀ name, IsName name → join [d, name] = front ++ name := by
  let rooted := isAbsolute d
  let before := shortest rooted (steps d)
  have whole : ∀ name, IsName name → join [d, name] = ofSteps rooted (before ++ [name]) := by
    intro name isName
    rw [join_pair d name isName.notEmpty, clean, isAbsolute_below d isName, steps_below d isName,
      shortest_append_name _ _ isName.notParent]
  cases reached : before with
  | nil =>
      refine ⟨if rooted then [slash] else [], ?_, fun name isName => ?_⟩
      · cases rooted with
        | true => exact .inr ⟨[], rfl⟩
        | false => exact .inl rfl
      · rw [whole name isName, reached, List.nil_append, ofSteps, Bytes.join_singleton]
        cases rooted <;> rfl
  | cons s rest =>
      refine ⟨ofSteps rooted (s :: rest) ++ [slash], .inr ⟨_, rfl⟩, fun name isName => ?_⟩
      rw [whole name isName, reached, ofSteps_snoc, List.append_assoc, List.singleton_append]

/-- A path does not become flawed by a shorter last name without a zero. -/
theorem pathFlaw_join_of_le {d name other : Bytes} (isName : IsName name) (isOther : IsName other)
    (shorter : other.length ≤ name.length) (noZero : 0 ∉ other) (flaw : pathFlaw (join [d, name]) = none) :
    pathFlaw (join [d, other]) = none := by
  obtain ⟨front, -, whole⟩ := exists_join_eq d
  rw [whole name isName, pathFlaw] at flaw
  rw [whole other isOther, pathFlaw]
  have notEmpty : (front ++ other).isEmpty = false := by
    simpa using fun _ => isOther.notEmpty
  split at flaw
  · cases flaw
  · split at flaw
    · cases flaw
    · rename_i clear
      split at flaw
      · cases flaw
      · rename_i fits
        have clear' : (front ++ other).elem 0 = false := by
          simp only [List.elem_eq_mem, decide_eq_true_eq, List.mem_append, not_or,
            decide_eq_false_iff_not] at clear ⊢
          exact ⟨clear.1, noZero⟩
        have fits' : ¬maxPath < (front ++ other).length := by
          rw [List.length_append] at fits ⊢
          omega
        simp only [notEmpty, clear', if_neg fits', Bool.false_eq_true, if_false]

end Host

namespace Bundle

/-! ## What is shipped -/

/-- Paths below a project whose files a bundle holds. -/
inductive Shipped : List Bytes → Prop
  | single {name : Bytes} (known : name ∈ [Layout.configName, Layout.metaName, Layout.namesName]) :
      Shipped [name]
  | inside {folder name : Bytes} (known : folder ∈ [Layout.tagsName, Layout.diffsName])
      (shown : name.head? ≠ some 46) : Shipped [folder, name]

/-- A bundle of the project at `root` holds this file of it. -/
def Ships (t : FileTree) (root : Location) (path : List Bytes) (data : Bytes) : Prop :=
  Shipped path ∧ ∃ x, t.get? (root ++ path) = some (.file data x)

/-- Everything whose last name is not hidden is the same. -/
def SameShown (root : Location) (t u : FileTree) : Prop :=
  ∀ (before : List Bytes) (name : Bytes), name.head? ≠ some 46 →
    u.get? (root ++ (before ++ [name])) = t.get? (root ++ (before ++ [name]))

/-- What is shipped is among the files of the host. -/
theorem Ships.mem_nodes {t : FileTree} {root : Location} {path : List Bytes} {data : Bytes}
    (ships : Ships t root path data) : ∃ x, (root ++ path, Node.file data x) ∈ t.nodes := by
  obtain ⟨-, x, there⟩ := ships
  have leaf : root ++ path ≠ [] := by
    intro isRoot
    rw [isRoot] at there
    cases there
  rw [get?, if_neg leaf] at there
  obtain ⟨p, found, isFile⟩ := Option.map_eq_some_iff.mp there
  have place : p.1 = root ++ path := by simpa using List.find?_some found
  refine ⟨x, ?_⟩
  rw [← place, ← isFile]
  exact List.mem_of_find?_eq_some found

theorem Shipped.shown {path : List Bytes} (shipped : Shipped path) :
    ∃ before name, path = before ++ [name] ∧ name.head? ≠ some 46 := by
  cases shipped with
  | @single name known =>
      refine ⟨[], name, rfl, ?_⟩
      have all : ∀ n ∈ [Layout.configName, Layout.metaName, Layout.namesName], n.head? ≠ some 46 := by
        decide
      exact all name known
  | @inside folder name known shown => exact ⟨[folder], name, rfl, shown⟩

theorem SameShown.ships {root : Location} {t u : FileTree} (same : SameShown root t u)
    {path : List Bytes} {data : Bytes} : Ships u root path data ↔ Ships t root path data := by
  refine and_congr_right fun shipped => ?_
  obtain ⟨before, name, rfl, shown⟩ := shipped.shown
  rw [same before name shown]

/-- A project that can be packed: it has settings, everything else is in its place, and every path
to be read can be. -/
structure Packable (l : Layout) (h : Host) : Prop where
  sound : h.Sound
  proper : h.tree.Proper
  config : ∃ data x, h.tree.get? (h.locate l.root ++ [Layout.configName]) = some (.file data x)
  files : ∀ name ∈ [Layout.metaName, Layout.namesName],
    h.tree.get? (h.locate l.root ++ [name]) ≠ some .folder
  folders : ∀ name ∈ [Layout.tagsName, Layout.diffsName],
    h.tree.get? (h.locate l.root ++ [name]) = none ∨
      h.tree.get? (h.locate l.root ++ [name]) = some .folder
  within : ∀ path data, Ships h.tree (h.locate l.root) path data →
    pathFlaw (l.file (ofSteps false path)) = none

/-- These are the paths of the files that are shipped, each once. -/
structure Packs (l : Layout) (h : Host) (paths : List (List Bytes)) : Prop where
  once : paths.Nodup
  exact : ∀ path, path ∈ paths ↔ ∃ data, Ships h.tree (h.locate l.root) path data

variable {l : Layout} {h g : Host} {path : List Bytes} {data : Bytes}

/-- No more is shipped than there are files. -/
theorem Packs.length_le {paths : List (List Bytes)} (packs : Packs l h paths) :
    paths.length ≤ h.tree.nodes.length := by
  have among : paths ⊆ h.tree.nodes.map fun p => p.1.drop (h.locate l.root).length := by
    intro path member
    obtain ⟨data, ships⟩ := (packs.exact path).mp member
    obtain ⟨x, node⟩ := ships.mem_nodes
    exact List.mem_map.mpr ⟨_, node, List.drop_left⟩
  have fewer := packs.once.length_le_of_subset among
  rwa [List.length_map] at fewer

/-- What is hidden does not matter to packing. -/
theorem Packable.congr (packable : Packable l h) (sound : g.Sound) (proper : g.tree.Proper)
    (folder : g.folder = h.folder) (same : SameShown (h.locate l.root) h.tree g.tree) : Packable l g := by
  have place : g.locate l.root = h.locate l.root := locate_of_folder folder l.root
  have kept : ∀ (name : Bytes), name.head? ≠ some 46 →
      g.tree.get? (g.locate l.root ++ [name]) = h.tree.get? (h.locate l.root ++ [name]) := by
    intro name shown
    rw [place]
    exact same [] name shown
  refine ⟨sound, proper, ?_, fun name known => ?_, fun name known => ?_, fun path data ships => ?_⟩
  · rw [kept _ (by decide)]
    exact packable.config
  · rw [kept name]
    · exact packable.files name known
    · revert name
      decide
  · rw [kept name]
    · exact packable.folders name known
    · revert name
      decide
  · rw [place, same.ships] at ships
    exact packable.within path data ships

namespace Packable

theorem root (packable : Packable l h) : h.tree.get? (h.locate l.root) = some .folder := by
  obtain ⟨data, x, there⟩ := packable.config
  exact packable.sound.tree _ _ (Option.isSome_of_eq_some there)

/-- The steps of what is shipped are names that files can have. -/
theorem isFileName (packable : Packable l h) (ships : Ships h.tree (h.locate l.root) path data) :
    ∀ s ∈ path, IsFileName s := by
  obtain ⟨-, x, there⟩ := ships
  exact fun s member => packable.proper.isFileName there s (by simp [member])

/-- What is shipped can be looked at. -/
theorem look (packable : Packable l h) (ships : Ships h.tree (h.locate l.root) path data) :
    ∃ x, h.look (l.file (ofSteps false path)) = .ok (.file data x) := by
  have names := packable.isFileName ships
  have flaw := packable.within path data ships
  obtain ⟨-, x, there⟩ := ships
  have place : h.locate (l.file (ofSteps false path)) = h.locate l.root ++ path :=
    h.locate_under l.root fun s member => (names s member).toIsName
  refine ⟨x, (look_eq_ok_iff packable.sound).mpr ⟨flaw, ?_, ?_⟩⟩
  · rw [place]
    exact there
  · rw [place]
    exact packable.proper.short there

/-- A file that may be there is there exactly if it is shipped. -/
theorem isOk_look (packable : Packable l h) {name : Bytes}
    (known : name ∈ [Layout.metaName, Layout.namesName]) :
    (h.look (l.file name)).isOk = true ↔ ∃ data, Ships h.tree (h.locate l.root) [name] data := by
  have single : ofSteps false [name] = name := Bytes.join_singleton [slash] name
  have isName : IsName name := by
    have all : ∀ n ∈ [Layout.metaName, Layout.namesName], slash ∉ n ∧ n ≠ [] ∧ n ≠ here ∧ n ≠ parent := by
      decide
    obtain ⟨noSlash, notEmpty, notHere, notParent⟩ := all name known
    exact ⟨⟨noSlash, notEmpty, notHere⟩, notParent⟩
  constructor
  · intro found
    cases there : h.look (l.file name) with
    | error e =>
        rw [there] at found
        cases found
    | ok n =>
        obtain ⟨-, at_, -⟩ := (look_eq_ok_iff packable.sound).mp there
        rw [show h.locate (l.file name) = h.locate l.root ++ [name] from h.locate_join l.root isName] at at_
        cases n with
        | folder => exact absurd at_ (packable.files name known)
        | file data x => exact ⟨data, .single (List.mem_cons_of_mem _ known), x, at_⟩
  · rintro ⟨data, ships⟩
    obtain ⟨x, there⟩ := packable.look ships
    rw [single] at there
    rw [there]
    rfl

/-- The paths to be packed of one folder are those of the files that are shipped from it. -/
theorem on_folderMembers (packable : Packable l h) (folder : Bytes)
    (known : folder ∈ [Layout.tagsName, Layout.diffsName]) :
    ∃ names : List Bytes,
      (folderMembers l folder).on h = (.ok (names.map fun n => folder ++ [slash] ++ n), h) ∧ names.Nodup ∧
        ∀ n, n ∈ names ↔ ∃ data, Ships h.tree (h.locate l.root) [folder, n] data := by
  have all : ∀ n ∈ [Layout.tagsName, Layout.diffsName], (slash ∉ n ∧ n ≠ [] ∧ n ≠ here ∧ n ≠ parent) ∧
      (n.length ≤ Layout.configName.length ∧ 0 ∉ n ∧ n.length ≤ maxName) := by decide
  obtain ⟨⟨noSlash, notEmpty, notHere, notParent⟩, shorter, noZero, short⟩ := all folder known
  have isName : IsName folder := ⟨⟨noSlash, notEmpty, notHere⟩, notParent⟩
  have place : h.locate (l.file folder) = h.locate l.root ++ [folder] := h.locate_join l.root isName
  have flaw : pathFlaw (l.file folder) = none := by
    obtain ⟨data, x, there⟩ := packable.config
    have config := packable.within [Layout.configName] data ⟨.single (by simp), x, there⟩
    rw [show ofSteps false [Layout.configName] = Layout.configName from rfl] at config
    exact pathFlaw_join_of_le
      ⟨⟨by decide, by decide, by decide⟩, by decide⟩ isName shorter noZero config
  have steps : Short (h.locate l.root ++ [folder]) := by
    intro s member
    rcases List.mem_append.mp member with front | last
    · exact packable.proper.short packable.root s front
    · rwa [List.mem_singleton.mp last]
  rcases packable.folders folder known with absent | there
  · refine ⟨[], ?_, List.nodup_nil, fun n => ⟨nofun, ?_⟩⟩
    · have missing : h.look (l.file folder) = .error .noEntry := by
        simp only [Host.look, flaw, place]
        exact find_absent packable.sound.tree packable.root steps absent
      have failed : (readFolder (l.file folder)).on h =
          (.error (.system (lit "open") (l.file folder) .noEntry), h) := by
        rw [readFolder, on_bind, on_get]
        simp only [missing]
        rfl
      rw [folderMembers, on_bind, on_attempt, failed]
      rfl
    · rintro ⟨data, -, x, deeper⟩
      have folderThere := packable.sound.tree (h.locate l.root ++ [folder]) n (by
        rw [List.append_assoc]
        exact Option.isSome_of_eq_some deeper)
      rw [absent] at folderThere
      cases folderThere
  · let entries := (h.tree.children (h.locate l.root ++ [folder])).map fun c => (c.1, c.2.isFolder)
    let shown := entries.filter fun e => !e.2 && e.1.head? != some 46
    have found : h.look (l.file folder) = .ok .folder :=
      (look_eq_ok_iff packable.sound).mpr ⟨flaw, place ▸ there, place ▸ steps⟩
    have read : (readFolder (l.file folder)).on h = (.ok entries, h) := by
      rw [readFolder, on_bind, on_get]
      simp only [found, system, place]
      rfl
    refine ⟨Bytes.sort (shown.map (·.1)), ?_, ?_, fun n => ?_⟩
    · rw [folderMembers, on_bind, on_attempt, read]
      rfl
    · rw [Bytes.sort, (List.mergeSort_perm _ _).nodup_iff]
      have listed := packable.proper.children_nodup (h.locate l.root ++ [folder])
      have names : entries.map (·.1) =
          (h.tree.children (h.locate l.root ++ [folder])).map (·.1) := by
        simp only [entries, List.map_map, Function.comp_def]
      rw [← names] at listed
      exact (List.filter_sublist.map _).nodup listed
    · rw [Bytes.mem_sort]
      constructor
      · intro member
        obtain ⟨⟨n', isFolder⟩, kept, rfl⟩ := List.mem_map.mp member
        obtain ⟨isEntry, visible⟩ := List.mem_filter.mp kept
        obtain ⟨⟨n'', node⟩, child, pair⟩ := List.mem_map.mp isEntry
        cases pair
        have at_ := packable.proper.mem_children.mp child
        rw [List.append_assoc] at at_
        simp only [Bool.and_eq_true, Bool.not_eq_true', bne_iff_ne] at visible
        cases node with
        | folder => exact absurd visible.1 (by simp [Node.isFolder])
        | file data x => exact ⟨data, .inside known visible.2, x, at_⟩
      · rintro ⟨data, shipped, x, at_⟩
        cases shipped with
        | inside known shown =>
            refine List.mem_map.mpr ⟨(n, false), List.mem_filter.mpr ⟨?_, by simp [shown]⟩, rfl⟩
            refine List.mem_map.mpr ⟨(n, .file data x), packable.proper.mem_children.mpr ?_, rfl⟩
            rwa [List.append_assoc]

/-- The paths to be packed are those of the files that are shipped, each once. -/
theorem on_memberPaths (packable : Packable l h) :
    ∃ paths : List (List Bytes),
      (memberPaths l).on h = (.ok (paths.map (ofSteps false)), h) ∧ Packs l h paths := by
  obtain ⟨tags, tagsRead, tagsOnce, isTag⟩ := packable.on_folderMembers Layout.tagsName (by simp)
  obtain ⟨diffs, diffsRead, diffsOnce, isDiff⟩ := packable.on_folderMembers Layout.diffsName (by simp)
  let optional := [Layout.metaName, Layout.namesName].filter fun n => (h.look (l.file n)).isOk
  have isOptional : ∀ n, n ∈ optional ↔ n ∈ [Layout.metaName, Layout.namesName] ∧
      ∃ data, Ships h.tree (h.locate l.root) [n] data := by
    intro n
    rw [List.mem_filter]
    exact and_congr_right fun known => packable.isOk_look known
  obtain ⟨config, x, there⟩ := packable.config
  have shipsConfig : Ships h.tree (h.locate l.root) [Layout.configName] config :=
    ⟨.single (by simp), x, there⟩
  have configThere : (h.look l.config).isOk = true := by
    obtain ⟨x, found⟩ := packable.look shipsConfig
    rw [show ofSteps false [Layout.configName] = Layout.configName from rfl] at found
    rw [Layout.config, found]
    rfl
  refine ⟨[[Layout.configName]] ++ optional.map (fun n => [n]) ++ tags.map (fun n => [Layout.tagsName, n]) ++
    diffs.map (fun n => [Layout.diffsName, n]), ?_, ?_, fun path => ?_⟩
  · have chosen : ([Layout.metaName, Layout.namesName].filterM fun n => isThere (l.file n)).on h =
        (.ok optional, h) := on_filterM (fun n => on_isThere (l.file n) h) _
    have pair : ∀ folder n : Bytes, folder ++ [slash] ++ n = ofSteps false [folder, n] := fun folder n => by
      rw [← Bytes.join_singleton [slash] n, ← Bytes.join_cons_cons, Bytes.join_singleton]
      rfl
    have single : ∀ n : Bytes, ofSteps false [n] = n := fun n => Bytes.join_singleton [slash] n
    rw [memberPaths, on_bind, on_isThere, configThere]
    simp only [Bool.not_true, Bool.false_eq_true, if_false, on_bind, on_pure, chosen, tagsRead, diffsRead,
      pair, List.map_append, List.map_map, Function.comp_def, single, List.map_cons, List.map_nil,
      List.map_id']
  · have pairs : ∀ folder : Bytes, Function.Injective fun n : Bytes => [folder, n] :=
      fun folder a b same => by simpa using same
    have singles : ([[Layout.configName]] ++ optional.map fun n => [n]).Nodup := by
      have names : (Layout.configName :: optional).Nodup :=
        List.Sublist.nodup (List.filter_sublist.cons_cons _)
          (by decide : (Layout.configName :: [Layout.metaName, Layout.namesName]).Nodup)
      have apart : Function.Injective fun n : Bytes => [n] := fun a b same => by simpa using same
      exact names.map apart
    have short : ∀ p ∈ [[Layout.configName]] ++ optional.map fun n => [n], p.length = 1 := by
      intro p member
      rcases List.mem_append.mp member with first | second
      · rw [List.mem_singleton.mp first]
        rfl
      · obtain ⟨m, -, rfl⟩ := List.mem_map.mp second
        rfl
    -- what is in a folder has two steps, and the two folders differ
    refine List.nodup_append.mpr ⟨List.nodup_append.mpr ⟨singles, tagsOnce.map (pairs _), ?_⟩,
      diffsOnce.map (pairs _), ?_⟩
    · rintro p member q member' rfl
      obtain ⟨n, -, rfl⟩ := List.mem_map.mp member'
      cases short _ member
    · rintro p member q member' rfl
      obtain ⟨n, -, rfl⟩ := List.mem_map.mp member'
      rcases List.mem_append.mp member with single | tag
      · cases short _ single
      · obtain ⟨m, -, same⟩ := List.mem_map.mp tag
        exact absurd (List.cons.inj same).1 (by decide)
  · simp only [List.mem_append, List.mem_singleton, List.mem_map, isOptional, isTag, isDiff]
    constructor
    · rintro (((rfl | ⟨n, ⟨-, ships⟩, rfl⟩) | ⟨n, ships, rfl⟩) | ⟨n, ships, rfl⟩)
      · exact ⟨config, shipsConfig⟩
      · exact ships
      · exact ships
      · exact ships
    · rintro ⟨data, ships⟩
      have shipped := ships.1
      cases shipped with
      | @single name known =>
          rcases List.mem_cons.mp known with rfl | optional
          · exact .inl (.inl (.inl rfl))
          · exact .inl (.inl (.inr ⟨name, ⟨optional, data, ships⟩, rfl⟩))
      | @inside folder name known shown =>
          rcases List.mem_cons.mp known with rfl | known'
          · exact .inl (.inr ⟨name, ⟨data, ships⟩, rfl⟩)
          · obtain rfl := List.mem_singleton.mp known'
            exact .inr ⟨name, ⟨data, ships⟩, rfl⟩

end Packable

/-- The member that a path below a project becomes. -/
def packed (l : Layout) (h : Host) (path : List Bytes) : Member :=
  { name := join [base l.root, ofSteps false path]
    content := (h.contentAt? (l.file (ofSteps false path))).getD [] }

/-- A file that is shipped becomes a member with its content. -/
theorem packed_of_ships (packable : Packable l h) (ships : Ships h.tree (h.locate l.root) path data) :
    packed l h path = { name := join [base l.root, ofSteps false path], content := data } := by
  obtain ⟨x, there⟩ := packable.look ships
  rw [packed, contentAt?, there]
  rfl

theorem on_readMember (packable : Packable l h) (ships : Ships h.tree (h.locate l.root) path data) :
    (readMember l (ofSteps false path)).on h = (.ok (packed l h path), h) := by
  obtain ⟨x, there⟩ := packable.look ships
  rw [packed_of_ships packable ships, readMember]
  simp only [on_bind, on_get, on_during, there]
  rfl

/-- Unless the work is called off, every file that is shipped is read. -/
theorem on_readMembers (packable : Packable l h) (uninterrupted : h.interrupt = none)
    (paths : List (List Bytes)) (ship : ∀ path ∈ paths, ∃ data, Ships h.tree (h.locate l.root) path data) :
    (readMembers l (paths.map (ofSteps false))).on h = (.ok (paths.map (packed l h)), h) := by
  induction paths with
  | nil => rfl
  | cons path paths ih =>
      obtain ⟨data, ships⟩ := ship path List.mem_cons_self
      have rest := ih fun p member => ship p (List.mem_cons_of_mem path member)
      rw [List.map_cons, readMembers, on_bind, on_checkpoint uninterrupted]
      simp only [on_bind, on_readMember packable ships, rest]
      rfl

/-! ## Writing a bundle -/

/-- While a file is being written, all that is not hidden below `root` is what it was, unless the
folders made for the file are there. -/
theorem sameShown_of_draft {m : Host} {d root : Location} {f : AtomicFile} {content : Bytes}
    (draft : Draft h m g d f.temp content) (sound : h.Sound)
    (named : ∃ n, h.locate f.temp = d ++ [AtomicFile.stem ++ Decimal.ofNat n])
    (outside : ¬root <+: d ∨ h.tree.get? d = some .folder) : SameShown root h.tree g.tree := by
  intro before name shown
  have other : root ++ (before ++ [name]) ≠ h.locate f.temp := by
    obtain ⟨n, place⟩ := named
    rw [place, ← List.append_assoc]
    intro same
    have last := (List.append_inj' same rfl).2
    rw [List.cons.injEq] at last
    exact shown (last.1 ▸ rfl)
  rw [draft.tree, if_neg other]
  rcases draft.base.tree (root ++ (before ++ [name])) with same | ⟨way, absent, -⟩
  · exact same
  · rcases outside with apart | there
    · exact absurd ((List.prefix_append _ _).trans way) apart
    · rw [sound.tree.get?_prefix way there] at absent
      cases absent

/-- A bundle is written wherever a file can be, unless the work is called off, and it holds exactly
what is shipped. -/
theorem exportFile_packable {c : Codec} {dest : Bytes} (packable : Packable l h)
    (uninterrupted : h.interrupt = none)
    (outside : ¬h.locate l.root <+: h.locate (dir dest) ∨
      h.tree.get? (h.locate (dir dest)) = some .folder)
    (writable : ∀ paths, Packs l h paths →
      ∃ k, (AtomicFile.writeAll dest (c.encode (paths.map (packed l h)))).on h = (.ok (), k)) :
    ∃ paths k, Packs l h paths ∧
      (c.exportFile l dest).on h = (.ok
        ⟨paths.length, ((paths.map (packed l h)).map fun m => m.content.length).sum⟩, k) ∧
      k.look dest = .ok (.file (c.encode (paths.map (packed l h))) false) := by
  obtain ⟨some, -, packs⟩ := packable.on_memberPaths
  obtain ⟨k, whole⟩ := writable some packs
  rw [AtomicFile.writeAll, AtomicFile.writing] at whole
  obtain ⟨f, g, created, -⟩ := on_bind_ok whole
  obtain ⟨-, -, m, n, base, place, written⟩ :=
    (AtomicFile.create_temporary packable.sound dest).of_ok created
  have draft : Draft h m g (h.locate (dir dest)) f.temp [] := .of_temporary base rfl ⟨n, place, written⟩
  rw [locate_of_folder base.folder, locate_of_folder base.folder] at place
  have shown : SameShown (h.locate l.root) h.tree g.tree :=
    sameShown_of_draft draft packable.sound ⟨n, place⟩ outside
  have begun : AtomicFile.Begun h g := (AtomicFile.create_begun dest).after created
  rw [AtomicFile.Begun] at begun
  have proper : g.tree.Proper := by
    have ended := (AtomicFile.create_proper packable.sound packable.proper dest).holds
    rwa [created] at ended
  have sameFolder : g.folder = h.folder := by rw [begun]
  have packable' : Packable l g := packable.congr draft.sound proper sameFolder shown
  obtain ⟨paths, listed, packs⟩ := packable'.on_memberPaths
  have ships : ∀ path data, Ships g.tree (g.locate l.root) path data ↔
      Ships h.tree (h.locate l.root) path data := by
    intro path data
    rw [locate_of_folder sameFolder]
    exact shown.ships
  have read := on_readMembers packable' (by rw [begun, uninterrupted]) paths fun path member =>
    (packs.exact path).mp member
  have members : paths.map (packed l g) = paths.map (packed l h) := by
    refine List.map_congr_left fun path member => ?_
    obtain ⟨data, shipped⟩ := (packs.exact path).mp member
    rw [packed_of_ships packable' shipped, packed_of_ships packable ((ships path data).mp shipped)]
  have packs' : Packs l h paths := ⟨packs.once, fun path => by
    rw [packs.exact]
    exact exists_congr (ships path)⟩
  obtain ⟨k, whole⟩ := writable paths packs'
  refine ⟨paths, k, packs', AtomicFile.on_writing created whole fun g' written => ?_,
    ((AtomicFile.writeAll_lands packable.sound dest _).of_ok whole).2⟩
  simp only [on_bind, listed, read, members, written, List.length_map, List.sum_eq_foldl_nat]
  rfl

end Bundle

end SymbolHistory
