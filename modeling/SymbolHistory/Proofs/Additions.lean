/-
# Proofs.Additions -- hosts that gain files in one folder

The stages of an index add files to a folder where there were none, and leave
everything else as it was.  `Adds d made h g` says that `g` is `h` with the files
`made` added to the folder `d`, each with its name and content; folders may have
been made on the way to `d`.

A project has one folder per stage.  `Layout.Spares apart h g` says that nothing
changed in some of them, nor outside of the project.
-/
import SymbolHistory.Project
import SymbolHistory.Proofs.AtomicWrites

set_option autoImplicit false

namespace SymbolHistory

open SymbolHistory.Path FileTree Run Host

namespace Host

/-- A file in the folder `d` can be found under a name. -/
def Findable (h : Host) (d name : Bytes) : Prop :=
  IsName name ∧ pathFlaw (join [d, name]) = none ∧ Short (h.locate d ++ [name])

/-- `g` is `h` with the files `made` added to the folder `d`, where there were none. -/
structure Adds (d : Bytes) (made : List (Bytes × Bytes)) (h g : Host) : Prop
    extends SameSetting h g where
  sound : g.Sound
  tree : Filled (h.locate d) (made.map fun e => (h.locate d ++ [e.1], e.2)) h.tree g.tree
  findable : ∀ e ∈ made, h.Findable d e.1

namespace Adds

variable {h g k : Host} {d : Bytes} {made : List (Bytes × Bytes)}

theorem refl (sound : h.Sound) (d : Bytes) : Adds d [] h h :=
  ⟨sameSetting_lasting.refl h, sound, Filled.refl _ _, by simp⟩

theorem sameFiles (adds : Adds d made h g) (same : SameFiles g k) : Adds d made h k :=
  ⟨sameSetting_lasting.trans adds.toSameSetting same.toSameSetting, same.sound adds.sound,
    same.tree ▸ adds.tree, adds.findable⟩

theorem grow (adds : Adds d made h g) (grown : Changes (Grows (g.locate d)) g k) :
    Adds d made h k := by
  refine ⟨sameSetting_lasting.trans adds.toSameSetting grown.toSameSetting, grown.sound,
    adds.tree.grow ?_, adds.findable⟩
  rw [← locate_of_folder adds.folder]
  exact grown.tree

theorem within (adds : Adds d made h g) {root : Location} (below : root <+: h.locate d) :
    Within root h.tree g.tree := by
  refine adds.tree.within below fun e member => ?_
  obtain ⟨e, -, rfl⟩ := List.mem_map.mp member
  exact List.prefix_append _ _

/-- A file that was not added is there if it was there. -/
theorem get?_of_not_made (adds : Adds d made h g) {name : Bytes}
    (notMade : name ∉ made.map Prod.fst) :
    g.tree.get? (h.locate d ++ [name]) = h.tree.get? (h.locate d ++ [name]) := by
  have off : ∀ e ∈ made.map fun e => (h.locate d ++ [e.1], e.2), h.locate d ++ [name] ≠ e.1 := by
    intro e member same
    obtain ⟨e, isMade, rfl⟩ := List.mem_map.mp member
    have : name = e.1 := by simpa using same
    exact notMade (this ▸ List.mem_map_of_mem isMade)
  rcases adds.tree.old _ off with same | ⟨way, -, -⟩
  · exact same
  · have := way.length_le
    rw [List.length_append, List.length_singleton] at this
    omega

/-- What is neither in the folder nor on the way to it is as it was. -/
theorem get?_beside (adds : Adds d made h g) {k : Location} (notBelow : ¬h.locate d <+: k)
    (notAbove : ¬k <+: h.locate d) : g.tree.get? k = h.tree.get? k := by
  have other : ∀ e ∈ made.map fun e => (h.locate d ++ [e.1], e.2), k ≠ e.1 := by
    intro e member same
    obtain ⟨e, -, rfl⟩ := List.mem_map.mp member
    exact notBelow (same ▸ List.prefix_append _ _)
  rcases adds.tree.old k other with same | ⟨way, -, -⟩
  · exact same
  · exact absurd way notAbove

theorem isOk_look_of_not_made (adds : Adds d made h g) (sound : h.Sound) {name : Bytes}
    (isName : IsName name) (notMade : name ∉ made.map Prod.fst) :
    (g.look (join [d, name])).isOk = (h.look (join [d, name])).isOk := by
  refine isOk_look_congr sound adds.sound adds.folder ?_
  rw [h.locate_join d isName]
  exact adds.get?_of_not_made notMade

theorem look_of_mem (adds : Adds d made h g) {name data : Bytes} (member : (name, data) ∈ made) :
    g.look (join [d, name]) = .ok (.file data false) := by
  obtain ⟨isName, flaw, short⟩ := adds.findable _ member
  rw [look_eq_ok_iff adds.sound, locate_of_folder adds.folder, h.locate_join d isName]
  exact ⟨flaw, (adds.tree.new _ (List.mem_map_of_mem member)).2, short⟩

/-- Where a file was added there was nothing. -/
theorem missing (adds : Adds d made h g) (sound : h.Sound) {e : Bytes × Bytes} (member : e ∈ made) :
    (h.look (join [d, e.1])).isOk = false := by
  cases found : h.look (join [d, e.1]) with
  | error => rfl
  | ok n =>
      have there := ((look_eq_ok_iff sound).mp found).2.1
      rw [h.locate_join d (adds.findable e member).1,
        (adds.tree.new _ (List.mem_map_of_mem member)).1] at there
      cases there

/-- Files are added in two steps. -/
theorem trans {more : List (Bytes × Bytes)} (first : Adds d made h g) (second : Adds d more g k) :
    Adds d (made ++ more) h k := by
  have same := locate_of_folder first.folder
  have tree := second.tree
  rw [same] at tree
  refine ⟨sameSetting_lasting.trans first.toSameSetting second.toSameSetting, second.sound, ?_, ?_⟩
  · rw [List.map_append]
    exact first.tree.trans tree
  · intro e member
    rcases List.mem_append.mp member with before | after
    · exact first.findable e before
    · have findable := second.findable e after
      rwa [Findable, same] at findable

/-- What was there is found as it was. -/
theorem look_of_ok (adds : Adds d made h g) (sound : h.Sound) {p : Bytes} {n : Node}
    (found : h.look p = .ok n) : g.look p = .ok n := by
  obtain ⟨flaw, there, short⟩ := (look_eq_ok_iff sound).mp found
  rw [look_eq_ok_iff adds.sound, locate_of_folder adds.folder]
  exact ⟨flaw, adds.tree.get?_some there, short⟩

theorem isOk_look (adds : Adds d made h g) (sound : h.Sound) {p : Bytes}
    (there : (h.look p).isOk = true) : (g.look p).isOk = true := by
  cases found : h.look p with
  | error e =>
      rw [found] at there
      cases there
  | ok n =>
      rw [adds.look_of_ok sound found]
      rfl

/-- Files elsewhere are as they were. -/
theorem contentAt?_elsewhere (adds : Adds d made h g) (sound : h.Sound) {p : Bytes}
    (off : ¬h.locate d <+: h.locate p) : g.contentAt? p = h.contentAt? p := by
  have other : ∀ e ∈ made.map fun e => (h.locate d ++ [e.1], e.2), h.locate p ≠ e.1 := by
    intro e member same
    obtain ⟨e, -, rfl⟩ := List.mem_map.mp member
    exact off (same ▸ List.prefix_append _ _)
  rcases adds.tree.old _ other with same | ⟨-, absent, made⟩
  · exact contentAt?_congr sound adds.sound adds.folder same
  · rw [contentAt?_of_get? sound absent]
    refine contentAt?_of_folder adds.sound ?_
    rw [locate_of_folder adds.folder]
    exact made

/-- One more file, where none was. -/
theorem put {name data : Bytes} (adds : Adds d made h g) (sound : h.Sound) (isName : IsName name)
    (notMade : name ∉ made.map Prod.fst) (missing : (h.look (join [d, name])).isOk = false)
    (put : Changes (Puts (g.locate (join [d, name])) data) g k)
    (found : k.look (join [d, name]) = .ok (.file data false)) :
    Adds d (made ++ [(name, data)]) h k := by
  have place := h.locate_join d isName
  have puts := put.tree
  obtain ⟨flaw, -, short⟩ := (look_eq_ok_iff put.sound).mp found
  rw [locate_of_folder (put.folder.trans adds.folder), place] at short
  have absent : h.tree.get? (h.locate d ++ [name]) = none := by
    cases there : h.tree.get? (h.locate d ++ [name]) with
    | none => rfl
    | some n =>
        rw [← place] at there short
        rw [(look_eq_ok_iff sound).mpr ⟨flaw, there, short⟩] at missing
        cases missing
  rw [locate_of_folder adds.folder, place] at puts
  refine ⟨sameSetting_lasting.trans adds.toSameSetting put.toSameSetting, put.sound, ?_, ?_⟩
  · rw [List.map_append, List.map_singleton]
    refine adds.tree.put puts absent fun e member same => ?_
    obtain ⟨e, isMade, rfl⟩ := List.mem_map.mp member
    have : e.1 = name := by simpa using same
    exact notMade (this ▸ List.mem_map_of_mem isMade)
  · intro e member
    rcases List.mem_append.mp member with before | isNew
    · exact adds.findable e before
    · rw [List.mem_singleton.mp isNew]
      exact ⟨isName, flaw, short⟩

end Adds

end Host

namespace Layout

theorem locate_diffs (l : Layout) (h : Host) :
    h.locate l.diffs = h.locate l.root ++ [diffsName] :=
  h.locate_join l.root ⟨⟨by decide, by decide, by decide⟩, by decide⟩

theorem locate_tags (l : Layout) (h : Host) : h.locate l.tags = h.locate l.root ++ [tagsName] :=
  h.locate_join l.root ⟨⟨by decide, by decide, by decide⟩, by decide⟩

theorem locate_objects (l : Layout) (h : Host) :
    h.locate l.objects = h.locate l.root ++ [objectsName] :=
  h.locate_join l.root ⟨⟨by decide, by decide, by decide⟩, by decide⟩

theorem locate_names (l : Layout) (h : Host) : h.locate l.names = h.locate l.root ++ [namesName] :=
  h.locate_join l.root ⟨⟨by decide, by decide, by decide⟩, by decide⟩

theorem locate_symbolFile (l : Layout) (h : Host) {id : Bytes} (valid : ObjectId.isValid id = true) :
    h.locate (l.tagStore.path id) = h.locate l.root ++ [tagsName, id] := by
  rw [ObjectStore.path, h.locate_join _ (ObjectId.isName_of_isValid valid)]
  simp [tagStore, locate_tags]

theorem locate_object (l : Layout) (h : Host) {id : Bytes} (valid : ObjectId.isValid id = true) :
    h.locate (l.objectStore.path id) = h.locate l.root ++ [objectsName, id] := by
  rw [ObjectStore.path, h.locate_join _ (ObjectId.isName_of_isValid valid)]
  simp [objectStore, locate_objects]

/-- The hosts that work on a project that began on `h` may be on: outside of the project they are
what `h` is. -/
def Usual (l : Layout) (h g : Host) : Prop :=
  SameSetting h g ∧ Within (h.locate l.root) h.tree g.tree

namespace Usual

variable {l : Layout} {h g k : Host}

theorem refl (l : Layout) (h : Host) : l.Usual h h := ⟨sameSetting_lasting.refl h, Within.refl _ _⟩

theorem trans (first : l.Usual h g) (second : l.Usual g k) : l.Usual h k := by
  obtain ⟨setting, within⟩ := second
  rw [locate_of_folder first.1.folder] at within
  exact ⟨sameSetting_lasting.trans first.1 setting, first.2.trans within⟩

theorem sameFiles (same : SameFiles h g) : l.Usual h g :=
  ⟨same.toSameSetting, same.tree ▸ Within.refl _ _⟩

end Usual

/-- Of a project nothing changed under the names `apart`, and nothing outside of it. -/
def Spares (l : Layout) (apart : List Bytes) (h g : Host) : Prop :=
  Changes (Aside (h.locate l.root) apart) h g

namespace Spares

variable {l : Layout} {apart : List Bytes} {h g k : Host}

theorem refl (sound : h.Sound) : l.Spares apart h h := Changes.refl (Aside.refl _ _) sound

theorem trans (first : l.Spares apart h g) (second : l.Spares apart g k) : l.Spares apart h k := by
  rw [Spares, locate_of_folder first.folder] at second
  exact Changes.trans first second fun _ _ _ => Aside.trans

theorem quiet (spares : l.Spares apart h g) (same : Quiet g k) : l.Spares apart h k :=
  ⟨sameSetting_lasting.trans spares.toSameSetting same.toSameSetting,
    same.cache.trans spares.cache, same.sound spares.sound, same.tree ▸ spares.tree⟩

theorem yields {α : Type} {work : Run α} (spares : l.Spares apart h g) (keeps : work.Keeps Quiet) :
    work.Yields g (fun _ => l.Spares apart h) (l.Spares apart h) :=
  (keeps.yields g).mono (fun _ _ same => spares.quiet same) fun _ same => spares.quiet same

theorem fewer {fewer : List Bytes} (spares : l.Spares apart h g) (subset : fewer ⊆ apart) :
    l.Spares fewer h g :=
  ⟨spares.toSameSetting, spares.cache, spares.sound, spares.tree.fewer subset⟩

theorem usual (spares : l.Spares apart h g) : l.Usual h g :=
  ⟨spares.toSameSetting, spares.tree.within⟩

/-- A change of one file in the project's folder. -/
theorem of_only {p name : Bytes} (changes : Changes (Only (h.locate p)) h g)
    (place : h.locate p = h.locate l.root ++ [name]) (other : name ∉ apart) :
    l.Spares apart h g := by
  rw [place] at changes
  exact ⟨changes.toSameSetting, changes.cache, changes.sound, changes.tree.aside other⟩

/-- Folders on the way to the project. -/
theorem of_grows (grown : Changes (Grows (h.locate l.root)) h g) : l.Spares apart h g := by
  refine ⟨grown.toSameSetting, grown.cache, grown.sound, grown.tree.aside ?_ List.prefix_rfl⟩
  intro name deeper
  have := deeper.length_le
  rw [List.length_append, List.length_singleton] at this
  omega

/-- Folders on the way to a folder of the project. -/
theorem of_grows_below {p name : Bytes} (grown : Changes (Grows (h.locate p)) h g)
    (place : h.locate p = h.locate l.root ++ [name]) (other : name ∉ apart) : l.Spares apart h g := by
  rw [place] at grown
  refine ⟨grown.toSameSetting, grown.cache, grown.sound,
    grown.tree.aside (fun name' deeper => ?_) (List.prefix_append _ _)⟩
  obtain rfl : name' = name := by simpa using deeper.eq_of_length (by simp)
  exact other

theorem of_puts {p name data : Bytes} {rest : Location}
    (changes : Changes (Puts (h.locate p) data) h g)
    (place : h.locate p = h.locate l.root ++ name :: rest) (other : name ∉ apart) :
    l.Spares apart h g := by
  rw [place] at changes
  exact ⟨changes.toSameSetting, changes.cache, changes.sound, changes.tree.aside other⟩

/-- Files that were added under another name. -/
theorem of_adds {d name : Bytes} {made : List (Bytes × Bytes)} (adds : Adds d made h g)
    (cache : g.tally.cache = h.tally.cache) (place : h.locate d = h.locate l.root ++ [name])
    (other : name ∉ apart) : l.Spares apart h g := by
  refine ⟨adds.toSameSetting, cache, adds.sound, ?_⟩
  have filled := adds.tree
  rw [place] at filled
  refine filled.aside other fun e member => ?_
  obtain ⟨e, -, rfl⟩ := List.mem_map.mp member
  exact List.prefix_append _ _

/-- What is under a name that is spared. -/
theorem get?_under (spares : l.Spares apart h g) {name : Bytes} (isApart : name ∈ apart)
    (rest : Location) : g.tree.get? (h.locate l.root ++ name :: rest) =
      h.tree.get? (h.locate l.root ++ name :: rest) := by
  refine spares.tree.get?_apart isApart ⟨rest, ?_⟩
  rw [List.append_assoc, List.singleton_append]

/-- What a path under a name that is spared leads to. -/
theorem get?_eq (spares : l.Spares apart h g) {p name : Bytes} {rest : Location}
    (place : h.locate p = h.locate l.root ++ name :: rest) (isApart : name ∈ apart) :
    g.tree.get? (h.locate p) = h.tree.get? (h.locate p) :=
  place ▸ spares.get?_under isApart rest

end Spares

end Layout

end SymbolHistory
