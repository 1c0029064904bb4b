/-
# Proofs.Files -- what work on files does to the tree

A host is sound when its tree is well formed and its working folder is there.
`Changes T h g` says that `g` is `h` after its files changed as `T` says, and
that nothing else did that programs or the index can see.  Every operation on
files has one statement here, in terms of locations; a new temporary file always
gets a location where nothing is (`freshNumber_free`).
-/
import SymbolHistory.Proofs.Decimals
import SymbolHistory.Proofs.Places
import SymbolHistory.Proofs.Trees
import SymbolHistory.Proofs.Work

set_option autoImplicit false

namespace SymbolHistory

namespace Host

open SymbolHistory.Path FileTree Run

/-- The files are in folders, and the working folder is there. -/
structure Sound (h : Host) : Prop where
  tree : h.tree.WellFormed
  home : h.tree.get? (h.locate []) = some .folder

instance (h : Host) : Decidable h.Sound :=
  decidable_of_iff (h.tree.WellFormed ∧ h.tree.get? (h.locate []) = some .folder)
    ⟨fun ⟨tree, home⟩ => ⟨tree, home⟩, fun sound => ⟨sound.tree, sound.home⟩⟩

/-- `g` is `h` after its files changed as `T` says. -/
structure Changes (T : FileTree → FileTree → Prop) (h g : Host) : Prop extends SameSetting h g where
  cache : g.tally.cache = h.tally.cache
  sound : g.Sound
  tree : T h.tree g.tree

theorem locate_of_folder {h g : Host} (same : g.folder = h.folder) (p : Bytes) :
    g.locate p = h.locate p := by
  simp only [locate, same]

theorem SameFiles.sound {h g : Host} (same : SameFiles h g) (sound : h.Sound) : g.Sound := by
  refine ⟨same.tree ▸ sound.tree, ?_⟩
  rw [same.tree, locate_of_folder same.folder]
  exact sound.home

theorem Changes.refl {T : FileTree → FileTree → Prop} (refl : ∀ t, T t t) {h : Host}
    (sound : h.Sound) : Changes T h h :=
  ⟨sameSetting_lasting.refl h, rfl, sound, refl h.tree⟩

theorem Changes.trans {T U V : FileTree → FileTree → Prop} {h g k : Host}
    (first : Changes T h g) (second : Changes U g k) (both : ∀ t u v, T t u → U u v → V t v) :
    Changes V h k :=
  ⟨sameSetting_lasting.trans first.toSameSetting second.toSameSetting,
    second.cache.trans first.cache, second.sound, both _ _ _ first.tree second.tree⟩

/-! ## Looking -/

theorem look_eq_ok_iff {h : Host} (sound : h.Sound) {p : Bytes} {n : Node} :
    h.look p = .ok n ↔ pathFlaw p = none ∧ h.tree.get? (h.locate p) = some n ∧ Short (h.locate p) := by
  simp only [look]
  cases flaw : pathFlaw p with
  | none => simp [find_eq_ok_iff sound.tree]
  | some e => simp

/-- What two sound hosts hold at the location of a path decides what the path leads to. -/
theorem look_congr {h g : Host} (sound : h.Sound) (sound' : g.Sound) {p : Bytes} {n : Node}
    (folder : g.folder = h.folder)
    (same : g.tree.get? (h.locate p) = h.tree.get? (h.locate p)) :
    g.look p = .ok n ↔ h.look p = .ok n := by
  rw [look_eq_ok_iff sound, look_eq_ok_iff sound', locate_of_folder folder, same]

theorem isOk_look_congr {h g : Host} (sound : h.Sound) (sound' : g.Sound) {p : Bytes}
    (folder : g.folder = h.folder)
    (same : g.tree.get? (h.locate p) = h.tree.get? (h.locate p)) :
    (g.look p).isOk = (h.look p).isOk := by
  have found := fun n => look_congr sound sound' (n := n) folder same
  cases there : h.look p with
  | ok n => rw [(found n).mpr there]
  | error e =>
      cases there' : g.look p with
      | ok n =>
          rw [(found n).mp there'] at there
          cases there
      | error e' => rfl

theorem admits_eq_ok {h : Host} (sound : h.Sound) {p : Bytes} (admitted : h.admits p = .ok ()) :
    pathFlaw p = none ∧ h.tree.get? (h.locate p).dropLast = some .folder ∧ Short (h.locate p) := by
  simp only [admits] at admitted
  cases flaw : pathFlaw p with
  | none =>
      rw [flaw] at admitted
      exact ⟨rfl, FileTree.admits_eq_ok sound.tree admitted⟩
  | some e =>
      rw [flaw] at admitted
      cases admitted

def contentAt? (h : Host) (p : Bytes) : Option Bytes :=
  match h.look p with
  | .ok (.file content _) => some content
  | _ => none

theorem exists_look_of_contentAt? {h : Host} {p data : Bytes} (there : h.contentAt? p = some data) :
    ∃ x, h.look p = .ok (.file data x) := by
  rw [contentAt?] at there
  split at there
  · rename_i content x found
    cases there
    exact ⟨x, found⟩
  · cases there

theorem contentAt?_congr {h g : Host} (sound : h.Sound) (sound' : g.Sound) {p : Bytes}
    (folder : g.folder = h.folder)
    (same : g.tree.get? (h.locate p) = h.tree.get? (h.locate p)) :
    g.contentAt? p = h.contentAt? p := by
  have found := fun n => look_congr sound sound' (n := n) folder same
  rw [contentAt?, contentAt?]
  cases there : h.look p with
  | ok n => rw [(found n).mpr there]
  | error e =>
      cases there' : g.look p with
      | ok n =>
          rw [(found n).mp there'] at there
          cases there
      | error e' => rfl

theorem contentAt?_of_get? {h : Host} (sound : h.Sound) {p : Bytes}
    (absent : h.tree.get? (h.locate p) = none) : h.contentAt? p = none := by
  rw [contentAt?]
  cases found : h.look p with
  | error e => rfl
  | ok n =>
      rw [((look_eq_ok_iff sound).mp found).2.1] at absent
      cases absent

theorem contentAt?_of_folder {h : Host} (sound : h.Sound) {p : Bytes}
    (isFolder : h.tree.get? (h.locate p) = some .folder) : h.contentAt? p = none := by
  rw [contentAt?]
  cases found : h.look p with
  | error e => rfl
  | ok n =>
      rw [((look_eq_ok_iff sound).mp found).2.1] at isFolder
      cases isFolder
      rfl

theorem isThere_yields (h : Host) (p : Bytes) {fail : Host → Prop} :
    (isThere p).Yields h (fun there g => there = (h.look p).isOk ∧ g = h) fail := ⟨rfl, rfl⟩

theorem readFile_ends (h : Host) (p : Bytes) :
    (readFile p).Ends h fun r g => g = h ∧
      match r with
      | .ok data => h.contentAt? p = some data
      | .error _ => h.contentAt? p = none := by
  rw [readFile, ends_get_bind, contentAt?]
  cases h.look p with
  | error e => exact ⟨rfl, rfl⟩
  | ok node =>
      cases node with
      | folder => exact ⟨rfl, rfl⟩
      | file content executable => exact ⟨rfl, rfl⟩

theorem on_readFile {h : Host} {p data : Bytes} (there : h.contentAt? p = some data) :
    (readFile p).on h = (.ok data, h) := by
  obtain ⟨executable, found⟩ := exists_look_of_contentAt? there
  rw [readFile, on_bind, on_get]
  simp only [found]
  rfl

/-- A file that is there can be read. -/
theorem readFile_yields {h : Host} {p content : Bytes} {fail : Host → Prop}
    (there : h.contentAt? p = some content) :
    (readFile p).Yields h (fun data g => data = content ∧ g = h) fail := by
  refine (readFile_ends h p).yields ?_ ?_
  · rintro data g ⟨same, read⟩
    exact ⟨Option.some.inj (read.symm.trans there), same⟩
  · rintro e g ⟨-, missing⟩
    rw [there] at missing
    cases missing

/-- Something that is there and is no folder is not the root. -/
theorem ne_nil_of_not_folder {t : FileTree} {l : Location} (leaf : t.get? l ≠ some .folder) :
    l ≠ [] := fun e => leaf (e ▸ get?_root t)

/-! ## Folders -/

theorem makeFolder_ends {h : Host} (sound : h.Sound) (p : Bytes) :
    (makeFolder p).Ends h fun _ g => g = h ∨
      g = { h with tree := h.tree.set (h.locate p) .folder } ∧
        h.tree.get? (h.locate p) = none ∧ h.tree.get? (h.locate p).dropLast = some .folder := by
  rw [makeFolder, ends_get_bind]
  cases found : h.look p with
  | ok node =>
      cases node with
      | folder => exact ⟨.inl rfl⟩
      | file content executable => exact ⟨.inl rfl⟩
  | error e =>
      cases admitted : h.admits p with
      | error e' => exact ⟨.inl rfl⟩
      | ok _ =>
          obtain ⟨flaw, parent, short⟩ := admits_eq_ok sound admitted
          refine ⟨.inr ⟨rfl, ?_, parent⟩⟩
          cases there : h.tree.get? (h.locate p) with
          | none => rfl
          | some n =>
              rw [(look_eq_ok_iff sound).mpr ⟨flaw, there, short⟩] at found
              cases found

theorem sound_of_set {h : Host} (sound : h.Sound) {l : Location} {n : Node}
    (parent : h.tree.get? l.dropLast = some .folder) (leaf : h.tree.get? l ≠ some .folder) :
    Sound { h with tree := h.tree.set l n } := by
  refine ⟨set_wellFormed sound.tree (ne_nil_of_not_folder leaf) parent (.inr leaf), ?_⟩
  have other : h.locate [] ≠ l := fun e => leaf (e ▸ sound.home)
  change (h.tree.set l n).get? (h.locate []) = _
  rw [get?_set _ _ _ _ (ne_nil_of_not_folder leaf), if_neg other]
  exact sound.home

theorem sound_of_erase {h : Host} (sound : h.Sound) {l : Location}
    (leaf : h.tree.get? l ≠ some .folder) : Sound { h with tree := h.tree.erase l } := by
  refine ⟨erase_wellFormed sound.tree (ne_nil_of_not_folder leaf) leaf, ?_⟩
  have other : h.locate [] ≠ l := fun e => leaf (e ▸ sound.home)
  change (h.tree.erase l).get? (h.locate []) = _
  rw [get?_erase _ _ _ (ne_nil_of_not_folder leaf), if_neg other]
  exact sound.home

theorem changes_of_set {h : Host} (sound : h.Sound) {l : Location} (n : Node)
    (parent : h.tree.get? l.dropLast = some .folder) (leaf : h.tree.get? l ≠ some .folder) :
    Changes (Only l) h { h with tree := h.tree.set l n } :=
  ⟨⟨rfl, rfl, rfl⟩, rfl, sound_of_set sound parent leaf, Only.set (ne_nil_of_not_folder leaf) _ _⟩

theorem changes_of_erase {h : Host} (sound : h.Sound) {l : Location}
    (leaf : h.tree.get? l ≠ some .folder) :
    Changes (Only l) h { h with tree := h.tree.erase l } :=
  ⟨⟨rfl, rfl, rfl⟩, rfl, sound_of_erase sound leaf, Only.erase (ne_nil_of_not_folder leaf) _⟩

/-- Making folders at places on the way to `l`, or to the working folder, makes folders on the
way to `l` only. -/
theorem forM_makeFolder_ends {l : Location} (ps : List Bytes) :
    ∀ {h : Host}, h.Sound → (∀ p ∈ ps, h.locate p <+: l ∨ h.locate p <+: h.locate []) →
      (ps.forM makeFolder).Ends h fun _ g => Changes (Grows l) h g := by
  induction ps with
  | nil => exact fun sound _ => ⟨Changes.refl (Grows.refl l) sound⟩
  | cons p ps ih =>
      intro h sound places
      refine Ends.bind (P := fun _ g => Changes (Grows l) h g) ?_ ?_ fun _ _ change => change
      · refine (makeFolder_ends sound p).mono fun _ g made => ?_
        rcases made with rfl | ⟨rfl, absent, parent⟩
        · exact Changes.refl (Grows.refl l) sound
        · have leaf : h.tree.get? (h.locate p) ≠ some .folder := by simp [absent]
          refine ⟨⟨rfl, rfl, rfl⟩, rfl, sound_of_set sound parent leaf, fun k => ?_⟩
          change (h.tree.set (h.locate p) .folder).get? k = _ ∨ _
          rw [get?_set _ _ _ _ (ne_nil_of_not_folder leaf)]
          split
          · rename_i isNew
            subst isNew
            rcases places p (by simp) with way | home
            · exact .inr ⟨way, absent, by simp⟩
            · rw [sound.tree.get?_prefix home sound.home] at absent
              cases absent
          · exact .inl rfl
      · intro _ g change
        have same := locate_of_folder change.folder
        refine (ih change.sound fun q member => ?_).mono fun _ k later =>
          change.trans later fun _ _ _ => Grows.trans
        rw [same, same]
        exact places q (by simp [member])

theorem makeFolders_ends {h : Host} (sound : h.Sound) (p : Bytes) :
    (makeFolders (clean p)).Ends h fun _ g => Changes (Grows (h.locate p)) h g := by
  refine forM_makeFolder_ends _ sound fun a member => ?_
  have := h.locate_ancestors member
  rwa [locate_clean] at this

/-! ## Temporary files -/

theorem isName_temporary {stem : Bytes} (noSlash : slash ∉ stem) (long : 2 < stem.length) (n : Nat) :
    IsName (stem ++ Decimal.ofNat n) := by
  have length : 2 < (stem ++ Decimal.ofNat n).length := by
    rw [List.length_append]
    omega
  refine ⟨⟨?_, ?_, ?_⟩, ?_⟩
  · intro member
    rcases List.mem_append.mp member with inStem | inDigits
    · exact noSlash inStem
    · exact absurd (Decimal.isDigit_of_mem_ofNat inDigits) (by decide)
  all_goals
    intro e
    rw [e] at length
    exact absurd length (by decide)

/-- Among one more numbers than there are nodes one is free. -/
theorem exists_free (t : FileTree) (inside : Location) (stem : Bytes) (start : Nat) :
    ∃ i ∈ List.range (t.nodes.length + 1),
      (t.get? (inside ++ [stem ++ Decimal.ofNat (start + i)])).isNone := by
  apply Classical.byContradiction
  intro none
  let place := fun (i : Nat) => inside ++ [stem ++ Decimal.ofNat (start + i)]
  have taken : (List.range (t.nodes.length + 1)).map place ⊆ t.nodes.map (·.1) := by
    intro l member
    obtain ⟨i, inRange, rfl⟩ := List.mem_map.mp member
    have there : (t.get? (place i)).isSome := by
      cases found : t.get? (place i) with
      | some n => rfl
      | none => exact absurd ⟨i, inRange, by simpa [place] using found⟩ none
    rw [get?, if_neg (by simp [place]), Option.isSome_map, List.find?_isSome] at there
    obtain ⟨node, isNode, same⟩ := there
    exact List.mem_map.mpr ⟨node, isNode, by simpa using same⟩
  have distinct : ((List.range (t.nodes.length + 1)).map place).Nodup := by
    refine List.Pairwise.map place ?_ List.nodup_range
    intro i j different same
    simp only [place, List.append_cancel_left_eq, List.cons.injEq, and_true] at same
    have := Decimal.ofNat_injective same
    omega
  have more := distinct.length_le_of_subset taken
  rw [List.length_map, List.length_range, List.length_map] at more
  omega

/-- The number of a new temporary file is free. -/
theorem freshNumber_free (t : FileTree) (inside : Location) (stem : Bytes) (start : Nat) :
    t.get? (inside ++ [stem ++ Decimal.ofNat (freshNumber t inside stem start)]) = none := by
  obtain ⟨i, inRange, free⟩ := exists_free t inside stem start
  simp only [freshNumber]
  cases found : (List.range (t.nodes.length + 1)).find? fun i =>
      (t.get? (inside ++ [stem ++ Decimal.ofNat (start + i)])).isNone with
  | none => exact absurd free (by simpa using List.find?_eq_none.mp found i inRange)
  | some j => simpa using List.find?_some found

/-- A temporary file is made where nothing was. -/
theorem createTemporary_yields {h : Host} (sound : h.Sound) {inside stem : Bytes}
    (nonempty : inside ≠ []) (noSlash : slash ∉ stem) (long : 2 < stem.length) :
    (createTemporary inside stem).Yields h
      (fun p g => ∃ n, h.locate p = h.locate inside ++ [stem ++ Decimal.ofNat n] ∧
        h.tree.get? (h.locate p) = none ∧ h.tree.get? (h.locate inside) = some .folder ∧
        pathFlaw p = none ∧ Short (h.locate p) ∧
        g = { h with temporary := g.temporary, tree := h.tree.set (h.locate p) (.file [] false) })
      (fun g => g = { h with temporary := g.temporary }) := by
  rw [createTemporary, yields_get_bind]
  let n := freshNumber h.tree (h.locate inside) stem h.temporary
  let p := (if Bytes.endsWith [slash] inside then inside else inside ++ [slash]) ++ stem ++
    Decimal.ofNat n
  have place : h.locate p = h.locate inside ++ [stem ++ Decimal.ofNat n] := by
    have := h.locate_inside nonempty (isName_temporary noSlash long n)
    rwa [← List.append_assoc] at this
  change ((set { h with temporary := n + 1 } : Run Unit) >>= fun _ =>
    system "open" p (h.admits p) >>= fun _ => Host.place p (.file [] false) >>= fun _ =>
      pure p).Yields h _ _
  rw [yields_set_bind]
  cases admitted : h.admits p with
  | error e => exact ⟨rfl⟩
  | ok _ =>
      obtain ⟨flaw, parent, short⟩ := admits_eq_ok sound admitted
      refine ⟨⟨n, place, ?_, ?_, flaw, short, rfl⟩⟩
      · rw [place]
        exact freshNumber_free h.tree (h.locate inside) stem h.temporary
      · rwa [place, List.dropLast_concat] at parent

/-! ## Contents -/

theorem takeRoom_yields (h : Host) (p : Bytes) (n : Nat) :
    (takeRoom p n).Yields h (fun _ g => g = { h with room := g.room }) (fun g => g = h) := by
  rw [takeRoom, yields_get_bind]
  cases free : h.room with
  | none => exact ⟨rfl⟩
  | some rest =>
      by_cases short : rest < n
      · simp only [short, if_true]
        exact ⟨rfl⟩
      · simp only [short, if_false]
        exact ⟨rfl⟩

theorem append_yields {h : Host} {p content : Bytes} {executable : Bool}
    (there : h.look p = .ok (.file content executable)) (data : Bytes) :
    (append p data).Yields h
      (fun _ g => g = { h with
        room := g.room, tree := h.tree.set (h.locate p) (.file (content ++ data) executable) })
      (fun g => g = h) := by
  rw [append]
  refine (takeRoom_yields h p data.length).bind fun _ g same => ?_
  have found : g.look p = .ok (.file content executable) := by
    rw [same]
    exact there
  rw [yields_get_bind, found]
  refine ⟨?_⟩
  change { g with tree := g.tree.set (g.locate p) _ } = _
  rw [same]
  rfl

theorem on_removeFile {h : Host} {p content : Bytes} {executable : Bool}
    (there : h.look p = .ok (.file content executable)) :
    (removeFile p).on h = (.ok (), { h with tree := h.tree.erase (h.locate p) }) := by
  simp only [removeFile, on_modify, there]

/-- Writing at the end of a file changes at most that file. -/
theorem append_changes {h : Host} (sound : h.Sound) (p data : Bytes) :
    (append p data).Yields h (fun _ => Changes (Only (h.locate p)) h)
      (Changes (Only (h.locate p)) h) := by
  have unchanged : Changes (Only (h.locate p)) h h := Changes.refl (Only.refl _) sound
  rw [append]
  refine ((takeRoom_yields h p data.length).mono (fun _ _ same => same) ?_).bind ?_
  · rintro _ rfl
    exact unchanged
  · intro _ g same
    have kept : Changes (Only (h.locate p)) h g := by
      rw [same]
      exact ⟨⟨rfl, rfl, rfl⟩, rfl, ⟨sound.tree, sound.home⟩, Only.refl _ _⟩
    rw [yields_get_bind]
    cases found : g.look p with
    | error e => exact ⟨kept⟩
    | ok node =>
        cases node with
        | folder => exact ⟨kept⟩
        | file content executable =>
            have there := ((look_eq_ok_iff kept.sound).mp found).2.1
            have parent := kept.sound.tree.get?_dropLast (Option.isSome_of_eq_some there)
            have after := changes_of_set kept.sound (.file (content ++ data) executable) parent
              (by simp [there])
            rw [locate_of_folder kept.folder] at after
            refine ⟨?_⟩
            change Changes _ h { g with tree := g.tree.set (g.locate p) _ }
            rw [locate_of_folder kept.folder]
            exact kept.trans after fun _ _ _ => Only.trans

theorem openAtEnd_changes {h : Host} (sound : h.Sound) (p : Bytes) :
    (openAtEnd p).Yields h (fun _ => Changes (Only (h.locate p)) h)
      (Changes (Only (h.locate p)) h) := by
  have unchanged : Changes (Only (h.locate p)) h h := Changes.refl (Only.refl _) sound
  rw [openAtEnd, yields_get_bind]
  cases found : h.look p with
  | ok node =>
      cases node with
      | folder => exact ⟨unchanged⟩
      | file content executable => exact ⟨unchanged⟩
  | error e =>
      cases e with
      | noEntry =>
          cases admitted : h.admits p with
          | error e => exact ⟨unchanged⟩
          | ok _ =>
              obtain ⟨flaw, parent, short⟩ := admits_eq_ok sound admitted
              refine ⟨changes_of_set sound _ parent fun isFolder => ?_⟩
              rw [(look_eq_ok_iff sound).mpr ⟨flaw, isFolder, short⟩] at found
              cases found
      | _ => exact ⟨unchanged⟩

/-- A file that was put where one can be. -/
theorem contentAt?_of_set {h : Host} {p content : Bytes} {x : Bool} {tree : FileTree}
    (sound : Sound { h with tree }) (flaw : pathFlaw p = none) (short : Short (h.locate p)) (there : tree.get? (h.locate p) = some (.file content x)) :
    contentAt? { h with tree } p = some content := by
  have found : look { h with tree } p = .ok (.file content x) :=
    (look_eq_ok_iff sound).mpr ⟨flaw, there, short⟩
  rw [contentAt?, found]

/-- A file that is open to write at its end holds what it held; a new one holds nothing. -/
theorem openAtEnd_content {h : Host} (sound : h.Sound) (p : Bytes) :
    (openAtEnd p).Yields h (fun _ g => g.contentAt? p = some ((h.contentAt? p).getD []))
      (fun g => g = h) := by
  rw [openAtEnd, yields_get_bind]
  cases found : h.look p with
  | ok node =>
      cases node with
      | folder => exact ⟨rfl⟩
      | file content executable =>
          refine ⟨?_⟩
          change h.contentAt? p = _
          rw [contentAt?, found]
          rfl
  | error e =>
      cases e with
      | noEntry =>
          have missing : h.contentAt? p = none := by rw [contentAt?, found]
          cases admitted : h.admits p with
          | error e => exact ⟨rfl⟩
          | ok _ =>
              obtain ⟨flaw, parent, short⟩ := admits_eq_ok sound admitted
              have leaf : h.tree.get? (h.locate p) ≠ some .folder := fun isFolder => by
                rw [(look_eq_ok_iff sound).mpr ⟨flaw, isFolder, short⟩] at found
                cases found
              refine ⟨?_⟩
              rw [missing]
              refine contentAt?_of_set (x := false) (sound_of_set sound parent leaf) flaw short ?_
              rw [get?_set _ _ _ _ (ne_nil_of_not_folder leaf), if_pos rfl]
              rfl
      | _ => exact ⟨rfl⟩

/-- Text that is added to a file stands after what the file held. -/
theorem append_content {h : Host} {p content : Bytes} (sound : h.Sound)
    (there : h.contentAt? p = some content) (data : Bytes) :
    (append p data).Yields h (fun _ g => g.contentAt? p = some (content ++ data)) (fun g => g = h) := by
  obtain ⟨executable, found⟩ := exists_look_of_contentAt? there
  obtain ⟨flaw, here, short⟩ := (look_eq_ok_iff sound).mp found
  have parent := sound.tree.get?_dropLast (Option.isSome_of_eq_some here)
  have leaf : h.tree.get? (h.locate p) ≠ some .folder := by simp [here]
  refine (append_yields found data).mono ?_ fun _ same => same
  intro _ g written
  have after := sound_of_set (n := .file (content ++ data) executable) sound parent leaf
  have whole : contentAt? { h with tree := h.tree.set (h.locate p) (.file (content ++ data) executable) } p =
      some (content ++ data) :=
    contentAt?_of_set after flaw short
      (by rw [get?_set _ _ _ _ (ne_nil_of_not_folder leaf), if_pos rfl])
  rw [written]
  exact whole

/-- Removing a file changes at most that file. -/
theorem removeFile_changes {h : Host} (sound : h.Sound) (p : Bytes) :
    (removeFile p).Yields h (fun _ => Changes (Only (h.locate p)) h) (fun _ => False) := by
  rw [removeFile, yields_modify]
  cases found : h.look p with
  | error e => exact Changes.refl (Only.refl _) sound
  | ok node =>
      cases node with
      | folder => exact Changes.refl (Only.refl _) sound
      | file content executable =>
          refine changes_of_erase sound ?_
          rw [((look_eq_ok_iff sound).mp found).2.1]
          simp

/-- A file is moved only to a place that admits it and is no folder. -/
theorem rename_yields (h : Host) (old new : Bytes) :
    (rename old new).Yields h
      (fun _ g => ∃ node, h.look old = .ok node ∧ h.look new ≠ .ok .folder ∧
        h.admits new = .ok () ∧
        g = { h with tree := (h.tree.erase (h.locate old)).set (h.locate new) node })
      (fun g => g = h) := by
  rw [rename, yields_get_bind]
  cases found : h.look old with
  | error e => exact ⟨rfl⟩
  | ok node =>
      cases there : h.look new with
      | ok taken =>
          cases taken with
          | folder => exact ⟨rfl⟩
          | file content executable =>
              cases admitted : h.admits new with
              | error e => exact ⟨rfl⟩
              | ok _ => exact ⟨⟨node, rfl, by simp, rfl, rfl⟩⟩
      | error e =>
          cases admitted : h.admits new with
          | error e => exact ⟨rfl⟩
          | ok _ => exact ⟨⟨node, rfl, by simp, rfl, rfl⟩⟩

end Host

end SymbolHistory
