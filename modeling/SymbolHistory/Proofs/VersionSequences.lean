/-
# Proofs.VersionSequences -- what a window says about a sequence of versions

A version is the list of its finds.  Loaded into a table it keeps for each symbol
the places where it was found, in order (`get?_ofLoads`).  A window that slides
along versions compares each with the one before it: every change is a block of
symbols that went and a block of symbols that came, and replaying the changes
gives the symbols of each version in turn (`changes_replay`).

The ids of a block are taken from the sorted ids of its version, so their order
rests on all ids of that version (`pairwise_of_chain`): an id that stays can part
two ids of a block that are in order by themselves.
-/
import Mathlib
import SymbolHistory.History.Window
import SymbolHistory.Proofs.NaturalOrder

set_option autoImplicit false

namespace SymbolHistory

/-- The finds of a version, in the order in which they are loaded. -/
abbrev Version := List (SymbolId × Occurrence)

namespace Version

def ids (v : Version) : Finset SymbolId := (v.map Prod.fst).toFinset

/-- The version in front of each version of a sequence, `first` in front of the first. -/
def before (first : Version) (versions : List Version) : Nat → Version
  | 0 => first
  | k + 1 => versions[k]?.getD []

/-- The places of a symbol in a version, in order. -/
def places (v : Version) (id : SymbolId) : List Occurrence :=
  (v.filter fun l => l.1 == id).map Prod.snd

theorem mem_ids {v : Version} {id : SymbolId} : id ∈ ids v ↔ id ∈ v.map Prod.fst :=
  List.mem_toFinset

theorem places_concat (v : Version) (l : SymbolId × Occurrence) (id : SymbolId) :
    places (v ++ [l]) id = places v id ++ if l.1 = id then [l.2] else [] := by
  by_cases same : l.1 = id
  · simp [places, same]
  · simp [places, same]

theorem places_ne_nil {v : Version} {id : SymbolId} (member : id ∈ ids v) : places v id ≠ [] := by
  obtain ⟨l, found, rfl⟩ := List.mem_map.mp (mem_ids.mp member)
  have kept : l ∈ v.filter fun k => k.1 == l.1 := List.mem_filter.mpr ⟨found, beq_self_eq_true _⟩
  exact List.ne_nil_of_mem (List.mem_map_of_mem kept)

end Version

/-! ## Loading a version -/

namespace Table

theorem contains_iff {t : Table} {id : SymbolId} :
    t.contains id = true ↔ id ∈ t.rows.map Prod.fst := by
  rw [contains, List.any_eq_true, List.mem_map]
  simp only [beq_iff_eq]

/-- A find adds its id unless it is there. -/
theorem keys_addRow (id : SymbolId) (place : Occurrence) (rows : List (SymbolId × List Occurrence)) :
    (addRow id place rows).map Prod.fst =
      if id ∈ rows.map Prod.fst then rows.map Prod.fst else rows.map Prod.fst ++ [id] := by
  induction rows with
  | nil => rfl
  | cons r rest ih =>
      rw [addRow]
      by_cases same : r.1 = id
      · simp [same]
      · by_cases later : id ∈ rest.map Prod.fst
        · simp only [beq_iff_eq, same, if_false, List.map_cons, ih, later, if_true,
            List.mem_cons, or_true]
        · have other : id ∉ (r :: rest).map Prod.fst := by
            rw [List.map_cons, List.mem_cons, not_or]
            exact ⟨Ne.symm same, later⟩
          simp only [beq_iff_eq, same, if_false, List.map_cons, ih, later]
          rw [if_neg (by simpa using other), List.cons_append]

/-- A find goes behind the places of its id. -/
theorem get?_add (t : Table) (id k : SymbolId) (place : Occurrence) :
    (t.add id place).get? k =
      if id = k then some ((t.get? id).getD [] ++ [place]) else t.get? k := by
  obtain ⟨rows⟩ := t
  simp only [add, get?]
  induction rows with
  | nil =>
      rw [addRow, List.find?_cons]
      cases same : id == k with
      | true => simp [beq_iff_eq.mp same]
      | false => simp [beq_eq_false_iff_ne.mp same]
  | cons r rest ih =>
      rw [addRow]
      by_cases here : r.1 = id
      · subst here
        by_cases same : r.1 = k <;> simp [same]
      · rw [if_neg (by simpa using here), List.find?_cons, List.find?_cons, List.find?_cons]
        by_cases asked : r.1 = k
        · have other : ¬id = k := fun e => here (asked.trans e.symm)
          simp [asked, other]
        · simp only [beq_eq_false_iff_ne.mpr asked, beq_eq_false_iff_ne.mpr here]
          exact ih

theorem ofLoads_concat (v : Version) (l : SymbolId × Occurrence) :
    ofLoads (v ++ [l]) = (ofLoads v).add l.1 l.2 := by
  rw [ofLoads, List.foldl_append]
  rfl

/-- A table has the ids of its version, each once. -/
theorem keys_ofLoads (v : Version) :
    ((ofLoads v).rows.map Prod.fst).Nodup ∧
      ∀ id, id ∈ (ofLoads v).rows.map Prod.fst ↔ id ∈ v.ids := by
  induction v using List.reverseRecOn with
  | nil => exact ⟨List.nodup_nil, fun id => by simp [ofLoads, Version.ids]⟩
  | append_singleton v l ih =>
      obtain ⟨nodup, same⟩ := ih
      rw [ofLoads_concat, add, keys_addRow]
      split
      · rename_i old
        refine ⟨nodup, fun id => ?_⟩
        rw [same, Version.mem_ids, Version.mem_ids, List.map_append, List.mem_append]
        refine ⟨.inl, fun member => ?_⟩
        rcases member with before | isLast
        · exact before
        · rw [List.map_singleton, List.mem_singleton] at isLast
          rw [isLast]
          exact Version.mem_ids.mp ((same _).mp old)
      · rename_i new
        refine ⟨List.nodup_append.mpr ⟨nodup, List.nodup_singleton _, ?_⟩, fun id => ?_⟩
        · rintro a old b isNew rfl
          exact new (List.mem_singleton.mp isNew ▸ old)
        · rw [List.mem_append, same, Version.mem_ids, Version.mem_ids, List.map_append,
            List.mem_append, List.map_singleton]

/-- A table has the places of each id in the order of loading. -/
theorem get?_ofLoads (v : Version) (id : SymbolId) :
    (ofLoads v).get? id = if id ∈ v.ids then some (v.places id) else none := by
  induction v using List.reverseRecOn with
  | nil => rfl
  | append_singleton v l ih =>
      have member : id ∈ Version.ids (v ++ [l]) ↔ id ∈ Version.ids v ∨ l.1 = id := by
        rw [Version.mem_ids, Version.mem_ids, List.map_append, List.mem_append, List.map_singleton,
          List.mem_singleton, eq_comm (a := id)]
      rw [ofLoads_concat, get?_add, Version.places_concat]
      by_cases same : l.1 = id
      · subst same
        rw [if_pos rfl, if_pos rfl, if_pos (member.mpr (.inr rfl)), ih]
        by_cases old : l.1 ∈ Version.ids v
        · rw [if_pos old, Option.getD_some]
        · have unplaced : Version.places v l.1 = [] := by
            rw [Version.places, List.filter_eq_nil_iff.mpr, List.map_nil]
            intro k found isId
            exact old (Version.mem_ids.mpr (beq_iff_eq.mp isId ▸ List.mem_map_of_mem found))
          rw [if_neg old, unplaced, Option.getD_none]
      · rw [if_neg same, if_neg same, List.append_nil, ih]
        by_cases old : id ∈ Version.ids v
        · rw [if_pos old, if_pos (member.mpr (.inl old))]
        · rw [if_neg old, if_neg fun isIn => (member.mp isIn).elim old same]

theorem mem_ids {t : Table} {id : SymbolId} : id ∈ t.ids ↔ id ∈ t.rows.map Prod.fst :=
  (List.mergeSort_perm _ _).mem_iff

/-! ## Sorting without transitivity -/

/-- Neighbours in merged lists are in order if those in the lists are. -/
theorem isChain_cons_merge {α : Type} {le : α → α → Bool} (total : ∀ a b, (le a b || le b a) = true)
    (xs ys : List α) : ∀ z, (z :: xs).IsChain (fun a b => le a b = true) →
      (z :: ys).IsChain (fun a b => le a b = true) →
        (z :: xs.merge ys le).IsChain (fun a b => le a b = true) := by
  induction xs, ys using List.merge.induct le with
  | case1 ys => intro z _ right; rwa [List.nil_merge]
  | case2 xs _ => intro z left _; rwa [List.merge_right]
  | case3 x xs y ys below ih =>
      intro z left right
      rw [List.cons_merge_cons_pos _ _ _ below]
      rw [List.isChain_cons_cons] at left right ⊢
      exact ⟨left.1, ih x left.2 (List.isChain_cons_cons.mpr ⟨below, right.2⟩)⟩
  | case4 x xs y ys above ih =>
      intro z left right
      rw [List.cons_merge_cons_neg _ _ _ above]
      rw [List.isChain_cons_cons] at left right ⊢
      have back : le y x = true := by simpa [above] using total x y
      exact ⟨right.1, ih y (List.isChain_cons_cons.mpr ⟨back, left.2⟩) right.2⟩

theorem isChain_merge {α : Type} {le : α → α → Bool} (total : ∀ a b, (le a b || le b a) = true)
    {xs ys : List α} (left : xs.IsChain fun a b => le a b = true)
    (right : ys.IsChain fun a b => le a b = true) :
    (xs.merge ys le).IsChain fun a b => le a b = true := by
  cases xs with
  | nil => rwa [List.nil_merge]
  | cons x xs =>
      cases ys with
      | nil => rwa [List.merge_right]
      | cons y ys =>
          by_cases below : le x y = true
          · rw [List.cons_merge_cons_pos _ _ _ below]
            exact isChain_cons_merge total _ _ x left (List.isChain_cons_cons.mpr ⟨below, right⟩)
          · have back : le y x = true := by simpa [below] using total x y
            rw [List.cons_merge_cons_neg _ _ _ below]
            exact isChain_cons_merge total _ _ y (List.isChain_cons_cons.mpr ⟨back, left⟩) right

/-- Neighbours in a sorted list are in order, whether or not the order is transitive. -/
theorem isChain_mergeSort {α : Type} {le : α → α → Bool}
    (total : ∀ a b, (le a b || le b a) = true) (l : List α) :
    (l.mergeSort le).IsChain fun a b => le a b = true := by
  fun_induction List.mergeSort l le with
  | case1 => exact .nil
  | case2 le a => exact .singleton a
  | case3 a b xs le lr _ _ left right => exact isChain_merge total (left total) (right total)

end Table

namespace SymbolId

/-- Among the ids `all`, what comes after an id that comes after `a` comes after `a`. -/
def TransitiveFrom (all : Finset SymbolId) (a : SymbolId) : Prop :=
  ∀ b ∈ all, ∀ c ∈ all, order a b = .lt → order b c = .lt → order a c = .lt

/-- In a list of neighbours in order, everything comes after a first id from which the order is
transitive. -/
theorem TransitiveFrom.lt_of_isChain {all : Finset SymbolId} {a : SymbolId}
    (straight : TransitiveFrom all a) (l : List SymbolId) :
    (a :: l).IsChain (fun x y => order x y = .lt) → (∀ x ∈ l, x ∈ all) →
      ∀ b ∈ l, order a b = .lt := by
  induction l with
  | nil => intro _ _ b member; cases member
  | cons x l ih =>
      intro chain inside b member
      rw [List.isChain_cons_cons] at chain
      rcases List.mem_cons.mp member with rfl | later
      · exact chain.1
      · refine ih ?_ (fun y isIn => inside y (List.mem_cons_of_mem x isIn)) b later
        cases l with
        | nil => cases later
        | cons y l =>
            have next := List.isChain_cons_cons.mp chain.2
            have ahead := straight x (inside x (by simp)) y (inside y (by simp)) chain.1 next.1
            exact List.isChain_cons_cons.mpr ⟨ahead, next.2⟩

/-- Ids chosen from a list of neighbours in order are in order if the order is transitive from each
of them. -/
theorem pairwise_of_chain {all : Finset SymbolId} (chosen : SymbolId → Bool) (l : List SymbolId) :
    l.IsChain (fun x y => order x y = .lt) → (∀ x ∈ l, x ∈ all) →
      (∀ a ∈ l.filter chosen, TransitiveFrom all a) →
        (l.filter chosen).Pairwise fun a b => order a b = .lt := by
  induction l with
  | nil => intro _ _ _; exact .nil
  | cons x l ih =>
      intro chain inside straight
      have rest := ih chain.tail (fun y isIn => inside y (List.mem_cons_of_mem x isIn))
      rw [List.filter_cons] at straight ⊢
      split at straight
      · rename_i isChosen
        rw [if_pos isChosen]
        refine List.pairwise_cons.mpr ⟨fun b member => ?_, rest fun a isIn => ?_⟩
        · exact (straight x (by simp)).lt_of_isChain l chain
            (fun y isIn => inside y (List.mem_cons_of_mem x isIn)) b (List.mem_filter.mp member).1
        · exact straight a (List.mem_cons_of_mem x isIn)
      · rename_i notChosen
        rw [if_neg notChosen]
        exact rest straight

end SymbolId

/-! ## One change -/

namespace Table

theorem nodup_ids_ofLoads (v : Version) : (ofLoads v).ids.Nodup :=
  (List.mergeSort_perm _ _).nodup_iff.mpr (keys_ofLoads v).1

/-- Neighbours among the ids of a version are in order. -/
theorem isChain_ids_ofLoads (v : Version) :
    (ofLoads v).ids.IsChain fun a b => SymbolId.order a b = .lt := by
  have total : ∀ a b : SymbolId,
      ((SymbolId.order a b != .gt) || (SymbolId.order b a != .gt)) = true := by
    intro a b
    rw [SymbolId.order_swap a b]
    cases SymbolId.order a b <;> rfl
  have sorted : (ofLoads v).ids.IsChain fun a b => (SymbolId.order a b != .gt) = true :=
    isChain_mergeSort total _
  rw [List.isChain_iff_forall_rel_of_append_cons_cons] at sorted ⊢
  intro a b front back split
  have notAfter := sorted split
  have different : a ≠ b := by
    have nodup : (front ++ a :: b :: back).Nodup := split ▸ nodup_ids_ofLoads v
    rintro rfl
    simp [List.nodup_append] at nodup
  cases way : SymbolId.order a b with
  | lt => rfl
  | eq => exact absurd ((SymbolId.order_eq_iff a b).mp way) different
  | gt =>
      rw [way] at notAfter
      cases notAfter

/-- What a block of a change holds: one record per place of each symbol that `v` has and `other`
has not, the places of a symbol together and in order of loading.  The symbols `ids` are in order
if the order is transitive from each of them on, through all symbols of `v`; among the others of `v`
it may run in a circle.  Of the sort this takes only that it leaves neighbours in order. -/
structure Block (action : Action) (v other : Version) (ids : List SymbolId)
    (records : List Record) : Prop where
  nodup : ids.Nodup
  mem_iff : ∀ id, id ∈ ids ↔ id ∈ v.ids ∧ id ∉ other.ids
  records_eq : records = ids.flatMap fun id => (v.places id).map (Record.mk action id)
  increasing : (∀ a ∈ ids, SymbolId.TransitiveFrom v.ids a) →
    ids.Pairwise fun a b => SymbolId.order a b = .lt

/-- The symbols of a version that another has not make a block. -/
theorem exclusive_block (action : Action) (v other : Version) :
    ∃ ids, Block action v other ids (exclusive action (ofLoads v) (ofLoads other)) := by
  have member : ∀ id, id ∈ (ofLoads v).ids.filter (fun id => !(ofLoads other).contains id) ↔
      id ∈ v.ids ∧ id ∉ other.ids := by
    intro id
    rw [List.mem_filter, mem_ids, (keys_ofLoads v).2, Bool.not_eq_true', ← Bool.not_eq_true,
      contains_iff, (keys_ofLoads other).2]
  refine ⟨_, ?_, member, ?_, fun straight => ?_⟩
  · exact (nodup_ids_ofLoads v).filter _
  · rw [exclusive]
    refine List.flatMap_congr fun id isIn => ?_
    rw [get?_ofLoads, if_pos ((member id).mp isIn).1, Option.getD_some]
  · refine SymbolId.pairwise_of_chain _ _ (isChain_ids_ofLoads v) (fun id isIn => ?_) straight
    exact ((keys_ofLoads v).2 id).mp (mem_ids.mp isIn)

/-- The number of common symbols. -/
theorem common_diff (u v : Version) :
    ((ofLoads u).diff (ofLoads v)).common = (u.ids ∩ v.ids).card := by
  have nodup := (keys_ofLoads u).1.filter (ofLoads v).contains
  have same : (((ofLoads u).rows.map Prod.fst).filter (ofLoads v).contains).toFinset =
      u.ids ∩ v.ids := by
    ext id
    rw [List.mem_toFinset, List.mem_filter, (keys_ofLoads u).2, contains_iff, (keys_ofLoads v).2,
      Finset.mem_inter]
  rw [diff, ← List.toFinset_card_of_nodup nodup, same]

end Table

/-! ## Replaying changes -/

namespace Record

/-- A set of symbols after one record: a symbol that went is dropped, one that came is inserted. -/
def replay (s : Finset SymbolId) (r : Record) : Finset SymbolId :=
  match r.action with
  | .add => insert r.id s
  | .remove => s.erase r.id

theorem replay_removals (records : List Record) :
    ∀ s, (∀ r ∈ records, r.action = .remove) →
      records.foldl replay s = s \ (records.map Record.id).toFinset := by
  induction records with
  | nil => intro s _; simp
  | cons r rest ih =>
      intro s removals
      have own : replay s r = s.erase r.id := by rw [replay, removals r (by simp)]
      rw [List.foldl_cons, own, ih _ fun k isIn => removals k (List.mem_cons_of_mem r isIn)]
      ext id
      simp only [Finset.mem_sdiff, Finset.mem_erase, List.map_cons, List.toFinset_cons,
        Finset.mem_insert, not_or]
      tauto

theorem replay_additions (records : List Record) :
    ∀ s, (∀ r ∈ records, r.action = .add) →
      records.foldl replay s = s ∪ (records.map Record.id).toFinset := by
  induction records with
  | nil => intro s _; simp
  | cons r rest ih =>
      intro s additions
      have own : replay s r = insert r.id s := by rw [replay, additions r (by simp)]
      rw [List.foldl_cons, own, ih _ fun k isIn => additions k (List.mem_cons_of_mem r isIn)]
      ext id
      simp only [Finset.mem_union, Finset.mem_insert, List.map_cons, List.toFinset_cons]
      tauto

end Record

namespace Table.Block

variable {action : Action} {v other : Version} {ids : List SymbolId} {records : List Record}

theorem action_eq (block : Block action v other ids records) :
    ∀ r ∈ records, r.action = action := by
  intro r member
  rw [block.records_eq, List.mem_flatMap] at member
  obtain ⟨id, -, isIn⟩ := member
  obtain ⟨place, -, rfl⟩ := List.mem_map.mp isIn
  rfl

/-- Every symbol of a block has a record. -/
theorem ids_eq (block : Block action v other ids records) :
    (records.map Record.id).toFinset = v.ids \ other.ids := by
  ext id
  rw [List.mem_toFinset, Finset.mem_sdiff, ← block.mem_iff, block.records_eq, List.mem_map]
  constructor
  · rintro ⟨r, member, rfl⟩
    obtain ⟨id, isId, isIn⟩ := List.mem_flatMap.mp member
    obtain ⟨place, -, rfl⟩ := List.mem_map.mp isIn
    exact isId
  · intro isId
    obtain ⟨place, isPlace⟩ := List.exists_mem_of_ne_nil _
      (Version.places_ne_nil ((block.mem_iff id).mp isId).1)
    exact ⟨⟨action, id, place⟩, List.mem_flatMap.mpr ⟨id, isId, List.mem_map_of_mem isPlace⟩, rfl⟩

end Table.Block

/-- Replaying what turned one version into the next turns the symbols of the one into those of the
other. -/
theorem Table.replay_diff (u v : Version) :
    ((ofLoads u).diff (ofLoads v)).records.foldl Record.replay u.ids = v.ids := by
  obtain ⟨gone, removed⟩ := exclusive_block .remove u v
  obtain ⟨come, added⟩ := exclusive_block .add v u
  rw [diff, List.foldl_append, Record.replay_removals _ _ removed.action_eq,
    Record.replay_additions _ _ added.action_eq, removed.ids_eq, added.ids_eq]
  ext id
  simp only [Finset.mem_union, Finset.mem_sdiff, not_and, not_not]
  tauto

/-! ## A window sliding along versions -/

namespace Window

def loadAll (w : Window) (v : Version) : Window := v.foldl (fun w l => w.load l.1 l.2) w

/-- The changes that a window shows when each version in turn is loaded, compared with the one
before it and slid over. -/
def changes (w : Window) : List Version → List Change
  | [] => []
  | v :: rest => (w.loadAll v).diff :: (w.loadAll v).slide.changes rest

theorem loadAll_eq (v : Version) : ∀ w : Window,
    w.loadAll v = ⟨w.before, v.foldl (fun t l => t.add l.1 l.2) w.after⟩ := by
  induction v with
  | nil => exact fun w => rfl
  | cons l v ih => exact fun w => ih (w.load l.1 l.2)

theorem changes_cons (u v : Version) (rest : List Version) :
    changes ⟨Table.ofLoads u, {}⟩ (v :: rest) =
      (Table.ofLoads u).diff (Table.ofLoads v) :: changes ⟨Table.ofLoads v, {}⟩ rest := by
  rw [changes, loadAll_eq]
  rfl

/-- Each version is compared with the one before it. -/
theorem getElem?_changes (versions : List Version) :
    ∀ (u : Version) (k : Nat) (inside : k < versions.length),
      (changes ⟨Table.ofLoads u, {}⟩ versions)[k]? =
        some ((Table.ofLoads (Version.before u versions k)).diff (Table.ofLoads versions[k])) := by
  induction versions with
  | nil => intro u k inside; cases inside
  | cons v rest ih =>
      intro u k inside
      rw [changes_cons]
      cases k with
      | zero => rfl
      | succ k =>
          have front : Version.before u (v :: rest) (k + 1) = Version.before v rest k := by
            cases k <;> rfl
          rw [front]
          exact ih v k (Nat.lt_of_succ_lt_succ inside)

/-- Replaying the changes up to a version gives its symbols. -/
theorem changes_replay (versions : List Version) :
    ∀ (u : Version) (k : Nat) (inside : k < versions.length),
      (((changes ⟨Table.ofLoads u, {}⟩ versions).take (k + 1)).flatMap Change.records).foldl
        Record.replay u.ids = versions[k].ids := by
  induction versions with
  | nil => intro u k inside; cases inside
  | cons v rest ih =>
      intro u k inside
      rw [changes_cons, List.take_succ_cons, List.flatMap_cons, List.foldl_append,
        Table.replay_diff]
      cases k with
      | zero => rfl
      | succ k => exact ih v k (Nat.lt_of_succ_lt_succ inside)

/-- A window that slides along versions shows for each what went and what came since the one before
it, and the changes so far lead from nothing to the symbols of the version.  The symbols of a block
are in order where the order is transitive among all symbols of the version they are taken from. -/
theorem changes_follow_versions (versions : List Version) (k : Nat)
    (inside : k < versions.length) :
    ∃ change removed added, (changes {} versions)[k]? = some change ∧
      change.records = removed ++ added ∧
      (∃ ids, Table.Block .remove (Version.before [] versions k) versions[k] ids removed) ∧
      (∃ ids, Table.Block .add versions[k] (Version.before [] versions k) ids added) ∧
      change.common = ((Version.before [] versions k).ids ∩ versions[k].ids).card ∧
      (((changes {} versions).take (k + 1)).flatMap Change.records).foldl Record.replay ∅ =
        versions[k].ids :=
  ⟨_, _, _, getElem?_changes versions [] k inside, rfl, Table.exclusive_block _ _ _,
    Table.exclusive_block _ _ _, Table.common_diff _ _, changes_replay versions [] k inside⟩

/-! ## A block out of order -/

def crossedId (name : String) : SymbolId := ⟨lit name, .function⟩

/-- Four functions, found in this order. -/
def crossedVersion : Version :=
  [(crossedId "x1_", ⟨lit "f.c", 1, []⟩), (crossedId "x01a", ⟨lit "f.c", 2, []⟩),
   (crossedId "x01b", ⟨lit "f.c", 3, []⟩), (crossedId "x1", ⟨lit "f.c", 4, []⟩)]

/-- The version after it: two of the functions are left. -/
def crossedNext : Version :=
  [(crossedId "x01a", ⟨lit "f.c", 2, []⟩), (crossedId "x01b", ⟨lit "f.c", 3, []⟩)]

theorem changes_follow_versions_crossed :
    1 < [crossedVersion, crossedNext].length ∧
    ∃ change, (changes {} [crossedVersion, crossedNext])[1]? = some change ∧ change.common = 2 ∧
      ((changes {} [crossedVersion, crossedNext]).flatMap Change.records).foldl Record.replay ∅ =
        {crossedId "x01a", crossedId "x01b"} := by
  have inside : 1 < [crossedVersion, crossedNext].length := by decide
  obtain ⟨change, -, -, isChange, -, -, -, common, replayed⟩ :=
    changes_follow_versions [crossedVersion, crossedNext] 1 inside
  refine ⟨inside, change, isChange, ?_, ?_⟩
  · change change.common = (crossedVersion.ids ∩ crossedNext.ids).card at common
    rw [common]
    decide +kernel
  · have all : (changes {} [crossedVersion, crossedNext]).take 2 =
        changes {} [crossedVersion, crossedNext] := rfl
    rw [all] at replayed
    rw [replayed]
    change crossedNext.ids = _
    decide +kernel

/-- Two functions went, and their ids are in order, yet their records are not: the two that stay
come between them in the sorted version. -/
theorem block_unordered_crossed :
    (changes {} [crossedVersion, crossedNext])[1]?.map (fun c => c.records.map Record.id) =
      some [crossedId "x1_", crossedId "x1"] ∧
    (∀ a ∈ [crossedId "x1_", crossedId "x1"], ∀ b ∈ [crossedId "x1_", crossedId "x1"],
      ∀ c ∈ [crossedId "x1_", crossedId "x1"], SymbolId.order a b = .lt →
        SymbolId.order b c = .lt → SymbolId.order a c = .lt) ∧
    ¬[crossedId "x1_", crossedId "x1"].Pairwise fun a b => SymbolId.order a b = .lt := by
  refine ⟨?_, ?_, ?_⟩
  · cbv
  · decide +kernel
  · decide +kernel

end Window

end SymbolHistory
