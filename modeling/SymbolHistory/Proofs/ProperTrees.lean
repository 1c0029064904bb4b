/-
# Proofs.ProperTrees -- what a folder lists is what is in it

A tree is proper when it lists every location once and every step is a name that
a file can have.  On a proper tree the names that are listed of a folder are
exactly the names under which something is there (`Proper.mem_children`), each
listed once (`Proper.children_nodup`).

Work on files cannot make a tree improper, because it makes something new only
where a path without flaws leads: the steps of a location are steps of the path,
or of the working folder, which is there itself (`mem_locate`).
-/
import Mathlib.Data.List.Nodup
import SymbolHistory.Proofs.NameLists

set_option autoImplicit false

namespace SymbolHistory

open SymbolHistory.Path FileTree Run Host

namespace Path

structure IsFileName (s : Bytes) : Prop extends IsName s where
  noZero : 0 ∉ s
  short : s.length ≤ maxName

theorem isFileName_iff {s : Bytes} : IsFileName s ↔
    slash ∉ s ∧ s ≠ [] ∧ s ≠ here ∧ s ≠ parent ∧ 0 ∉ s ∧ s.length ≤ maxName :=
  ⟨fun isName => ⟨isName.noSlash, isName.notEmpty, isName.notHere, isName.notParent, isName.noZero,
    isName.short⟩, fun ⟨noSlash, notEmpty, notHere, notParent, noZero, short⟩ =>
    ⟨⟨⟨noSlash, notEmpty, notHere⟩, notParent⟩, noZero, short⟩⟩

instance : DecidablePred IsFileName := fun _ => decidable_of_iff _ isFileName_iff.symm

end Path

namespace FileTree

instance : DecidablePred Short := fun l => inferInstanceAs (Decidable (∀ s ∈ l, s.length ≤ maxName))

/-- Every location is listed once, by names that files can have. -/
structure Proper (t : FileTree) : Prop where
  once : (t.nodes.map (·.1)).Nodup
  named : ∀ p ∈ t.nodes, ∀ s ∈ p.1, IsFileName s

namespace Proper

variable {t : FileTree} {l d : Location} {n : Node}

theorem get?_of_mem (proper : t.Proper) (member : (l, n) ∈ t.nodes) (nonempty : l ≠ []) :
    t.get? l = some n := by
  rw [get?, if_neg nonempty]
  cases found : t.nodes.find? fun p => p.1 == l with
  | none => exact absurd (List.find?_eq_none.mp found _ member) (by simp)
  | some p =>
      have same : p.1 = (l, n).1 := by simpa using List.find?_some found
      rw [List.inj_on_of_nodup_map proper.once (List.mem_of_find?_eq_some found) member same]
      rfl

/-- What is there is there under names that files can have. -/
theorem isFileName (proper : t.Proper) (there : t.get? l = some n) : ∀ s ∈ l, IsFileName s := by
  by_cases nonempty : l = []
  · rw [nonempty]
    exact nofun
  · rw [get?, if_neg nonempty] at there
    obtain ⟨p, found, -⟩ := Option.map_eq_some_iff.mp there
    obtain rfl : p.1 = l := by simpa using List.find?_some found
    exact proper.named p (List.mem_of_find?_eq_some found)

theorem short (proper : t.Proper) (there : t.get? l = some n) : Short l :=
  fun s member => (proper.isFileName there s member).short

/-! ## Changing -/

theorem set (proper : t.Proper) (n : Node) (each : ∀ s ∈ l, IsFileName s) : (t.set l n).Proper where
  once := by
    refine List.nodup_cons.mpr ⟨fun member => ?_, (List.filter_sublist.map _).nodup proper.once⟩
    obtain ⟨p, kept, same⟩ := List.mem_map.mp member
    exact absurd same (by simpa using (List.mem_filter.mp kept).2)
  named p member := by
    rcases List.mem_cons.mp member with rfl | kept
    · exact each
    · exact proper.named p (List.mem_filter.mp kept).1

/-! ## Listing -/

theorem mem_children (proper : t.Proper) {name : Bytes} :
    (name, n) ∈ t.children d ↔ t.get? (d ++ [name]) = some n := by
  refine ⟨fun listed => ?_, Host.mem_children⟩
  rw [children, (List.mergeSort_perm _ _).mem_iff, List.mem_filterMap] at listed
  obtain ⟨⟨l, n'⟩, member, same⟩ := listed
  split at same
  · rename_i inside
    obtain ⟨last, isLast, pair⟩ := Option.map_eq_some_iff.mp same
    cases pair
    have whole : l = d ++ [name] := by
      have whole := List.dropLast_append_getLast? name isLast
      rw [beq_iff_eq.mp inside] at whole
      exact whole.symm
    subst whole
    exact proper.get?_of_mem member (by simp)
  · cases same

theorem children_nodup (proper : t.Proper) (d : Location) : ((t.children d).map (·.1)).Nodup := by
  let last := fun l : Location => if l.dropLast == d then l.getLast? else none
  have names : (t.nodes.filterMap fun p =>
      if p.1.dropLast == d then p.1.getLast?.map (fun name => (name, p.2)) else none).map (·.1) =
      (t.nodes.map (·.1)).filterMap last := by
    rw [List.map_filterMap, List.filterMap_map]
    congr 1
    funext p
    simp only [last, Function.comp_apply]
    split
    · cases p.1.getLast? <;> rfl
    · rfl
  have distinct : ((t.nodes.map (·.1)).filterMap last).Nodup := by
    refine List.Nodup.filterMap ?_ proper.once
    intro k l name first second
    simp only [last, Option.mem_def] at first second
    split at first
    · rename_i inside
      split at second
      · rename_i inside'
        rw [← List.dropLast_append_getLast? name first, ← List.dropLast_append_getLast? name second,
          beq_iff_eq.mp inside, beq_iff_eq.mp inside']
      · cases second
    · cases first
  rw [← names] at distinct
  exact ((List.mergeSort_perm _ _).map _).nodup_iff.mpr distinct

end Proper

end FileTree

namespace Path

theorem mem_walk (rooted : Bool) {taken : List Bytes} {s t : Bytes} (member : s ∈ walk rooted taken t) :
    s = parent ∨ s ∈ taken ∨ s = t := by
  by_cases up : t = parent
  · subst up
    cases taken with
    | nil => cases rooted <;> simp_all [walk]
    | cons last before =>
        rw [walk, if_pos (beq_self_eq_true _)] at member
        split at member
        · exact (List.mem_cons.mp member).imp_right .inl
        · exact .inr (.inl (List.mem_cons_of_mem last member))
  · rw [walk_name rooted taken up, List.mem_cons] at member
    exact .inr member.symm

/-- A walk takes no steps but its own, those taken before it and ways up. -/
theorem mem_foldl_walk (rooted : Bool) (ss : List Bytes) : ∀ {taken : List Bytes} {s : Bytes},
    s ∈ ss.foldl (walk rooted) taken → s = parent ∨ s ∈ taken ∨ s ∈ ss := by
  induction ss with
  | nil => exact fun member => .inr (.inl member)
  | cons t ss ih =>
      intro taken s member
      rcases ih member with up | walked | later
      · exact .inl up
      · rcases mem_walk rooted walked with up | before | rfl
        · exact .inl up
        · exact .inr (.inl before)
        · exact .inr (.inr List.mem_cons_self)
      · exact .inr (.inr (List.mem_cons_of_mem t later))

/-- Pieces of a text have its bytes. -/
theorem subset_of_mem_splitOn {sep : UInt8} {s piece : Bytes}
    (member : piece ∈ Bytes.splitOn sep s) : piece ⊆ s := by
  induction s generalizing piece with
  | nil => simp_all [Bytes.splitOn_nil]
  | cons b s ih =>
      by_cases isSep : b = sep
      · rw [isSep, Bytes.splitOn_sep, List.mem_cons] at member
        rcases member with rfl | member
        · simp
        · exact fun c inside => List.mem_cons_of_mem _ (ih member inside)
      · obtain ⟨head, tail, short, long⟩ := Bytes.splitOn_cons isSep s
        rw [short] at ih
        rw [long, List.mem_cons] at member
        rcases member with rfl | member
        · exact List.cons_subset_cons b (ih List.mem_cons_self)
        · exact fun c inside => List.mem_cons_of_mem _ (ih (List.mem_cons_of_mem _ member) inside)

end Path

namespace Host

variable {h g : Host}

/-- The steps of a location are steps of the path or of the working folder, none of them a way up. -/
theorem mem_locate (h : Host) {p s : Bytes} (member : s ∈ h.locate p) :
    IsName s ∧ (s ∈ h.locate [] ∨ s ∈ steps p) := by
  have start : shortest true (h.origin p ++ steps p) =
      ((steps p).foldl (walk true) ((h.origin p).foldl (walk true) [])).reverse := by
    rw [shortest, List.foldl_append]
  have isName : IsName s := by
    refine ⟨?_, fun up => ?_⟩
    · rw [locate_eq] at member
      refine isStep_of_mem_shortest true (fun t inside => ?_) s member
      rcases List.mem_append.mp inside with home | own
      · rw [origin] at home
        split at home
        · cases home
        · exact isStep_of_mem_steps home
      · exact isStep_of_mem_steps own
    · rw [locate_eq, up] at member
      exact parent_not_mem_shortest _ member
  refine ⟨isName, ?_⟩
  rw [locate_eq, start, List.mem_reverse] at member
  rcases mem_foldl_walk true (steps p) member with up | home | own
  · exact absurd up isName.notParent
  · rw [origin] at home
    split at home
    · cases home
    · refine .inl ?_
      rw [locate_eq, steps_nil, List.append_nil, shortest, List.mem_reverse]
      exact home
  · exact .inr own

/-- Where something new can be made, all steps are names that a file can have. -/
theorem isFileName_of_admits (sound : h.Sound) (proper : h.tree.Proper) {p : Bytes}
    (admitted : h.admits p = .ok ()) : ∀ s ∈ h.locate p, IsFileName s := by
  obtain ⟨flaw, -, short⟩ := admits_eq_ok sound admitted
  intro s member
  obtain ⟨isName, home | own⟩ := h.mem_locate member
  · exact proper.isFileName sound.home s home
  · refine ⟨isName, fun zero => ?_, short s member⟩
    have inside : s ⊆ p := subset_of_mem_splitOn (List.mem_filter.mp own).1
    rw [pathFlaw] at flaw
    split at flaw
    · cases flaw
    · rw [if_pos (by simpa using inside zero)] at flaw
      cases flaw

theorem makeFolder_proper (sound : h.Sound) (proper : h.tree.Proper) (p : Bytes) :
    (makeFolder p).Ends h fun _ g => g.tree.Proper := by
  rw [makeFolder, ends_get_bind]
  cases h.look p with
  | ok node =>
      cases node with
      | folder => exact ⟨proper⟩
      | file content executable => exact ⟨proper⟩
  | error e =>
      cases admitted : h.admits p with
      | error e' => exact ⟨proper⟩
      | ok _ => exact ⟨proper.set .folder (isFileName_of_admits sound proper admitted)⟩

theorem makeFolders_proper (ps : List Bytes) : ∀ {h : Host}, h.Sound → h.tree.Proper →
    (ps.forM makeFolder).Ends h fun _ g => g.tree.Proper := by
  induction ps with
  | nil => exact fun _ proper => ⟨proper⟩
  | cons p ps ih =>
      intro h sound proper
      have first : (makeFolder p).Ends h fun _ g => g.Sound ∧ g.tree.Proper := by
        refine ((makeFolder_ends sound p).and (makeFolder_proper sound proper p)).mono ?_
        rintro _ g ⟨rfl | ⟨rfl, absent, parent⟩, proper'⟩
        · exact ⟨sound, proper'⟩
        · exact ⟨sound_of_set sound parent (by simp [absent]), proper'⟩
      exact first.bind (fun _ g kept => ih kept.1 kept.2) fun _ _ kept => kept.2

theorem createTemporary_proper (sound : h.Sound) (proper : h.tree.Proper) (inside stem : Bytes) :
    (createTemporary inside stem).Ends h fun _ g => g.tree.Proper := by
  rw [createTemporary, ends_get_bind]
  dsimp only
  generalize (if Bytes.endsWith [slash] inside then inside else inside ++ [slash]) ++ stem ++
    Decimal.ofNat (freshNumber h.tree (h.locate inside) stem h.temporary) = p
  cases admitted : h.admits p with
  | error e => exact ⟨proper⟩
  | ok _ => exact ⟨proper.set (.file [] false) (isFileName_of_admits sound proper admitted)⟩

end Host

/-- Beginning a file leaves a proper tree. -/
theorem AtomicFile.create_proper {h : Host} (sound : h.Sound) (proper : h.tree.Proper) (dest : Bytes) :
    (create dest).Ends h fun _ g => g.tree.Proper := by
  have folders : (makeFolders (dir dest)).Ends h fun _ g => g.Sound ∧ g.tree.Proper :=
    ((makeFolders_ends sound (splitLast dest).1).and (makeFolders_proper _ sound proper)).mono
      fun _ _ made => ⟨made.1.sound, made.2⟩
  rw [create]
  refine Ends.bind (P := fun _ g => g.Sound ∧ g.tree.Proper) ((ends_during _ _ _ _).mpr folders) ?_
    fun _ _ kept => kept.2
  rintro _ g ⟨sound', proper'⟩
  have temporary := createTemporary_proper sound' proper' (dir dest) stem
  refine Ends.bind (P := fun _ k => k.tree.Proper) ((ends_during _ _ _ _).mpr temporary) ?_
    fun _ _ kept => kept
  exact fun _ _ kept => ⟨kept⟩

end SymbolHistory
