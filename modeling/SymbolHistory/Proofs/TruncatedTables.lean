/-
# Proofs.TruncatedTables -- tables whose reading stops early

A malformed line ends a table, and so does a failure to read on.  The groups that
were read up to there become symbol files all the same.  All but the last are
groups of the whole table; the last may go on after the stop, and is `Cut` then.

`Splits` says what follows for the symbol files, and when exactly a content whose
group is cut stays pending: only if the groups up to its first one cannot all be
written.  Otherwise it gets a symbol file that lacks what was not read, and it is
never looked at again.
-/
import SymbolHistory.Proofs.Organizing

set_option autoImplicit false

namespace SymbolHistory

open SymbolHistory.Path FileTree Run Host

namespace Organizer

open TagTable (Delivers entriesOf unread)

variable {o : Organizer} {h g m : Host} {table : Input} {full : Bytes} {r : Except Fault Unit}

/-- What the stores hold on `g` is what they hold on `h`. -/
def SameStores (o : Organizer) (h g : Host) : Prop :=
  ∀ id, ObjectId.isValid id = true → ∀ n,
    (g.look (o.layout.tagStore.path id) = .ok n ↔ h.look (o.layout.tagStore.path id) = .ok n) ∧
    (g.look (o.layout.objectStore.path id) = .ok n ↔
      h.look (o.layout.objectStore.path id) = .ok n)

/-- What splitting `full`, of which `table` can be read, has left on `g`. -/
structure Splits (o : Organizer) (h : Host) (table : Input) (full : Bytes)
    (r : Except Fault Unit) (g : Host) : Prop where
  /-- A new symbol file is made from the first group of its content, which is a group of the whole
  table or is cut. -/
  made : ∀ {id : Bytes} {n : Node}, ObjectId.isValid id = true → o.Lacks h id →
    g.look (o.layout.tagStore.path id) = .ok n →
      ∃ group text, (groups (o.reading h table).1).find? (·.id == id) = some group ∧
        o.textOf? h group = some text ∧ n = .file text false ∧
        (group.unplaced ∈ groups (entriesOf (Bytes.lines full)) ∨
          Cut (o.reading h table).1 (unread full (o.reading h table).2) group.file)
  /-- A content whose group is cut stays pending only if its first group cannot be written. -/
  cut : ∀ {file : Bytes}, Cut (o.reading h table).1 (unread full (o.reading h table).2) file →
    ObjectId.isValid (base file) = true → o.isPending h (base file) = true →
      (((o.pending [base file]).on g).1 = .ok [base file] ↔
        ¬o.Reaches (begun h) (groups (o.reading h table).1) (base file)) ∧
      (o.Lacks g (base file) ↔
        ¬o.Reaches (begun h) (groups (o.reading h table).1) (base file)) ∧
      (r.isOk = true → o.Reaches (begun h) (groups (o.reading h table).1) (base file))

theorem sameStores_of_spares (sound : h.Sound) (spares : o.layout.Spares Layout.stores h g) :
    o.SameStores h g := by
  intro id valid n
  constructor
  · exact look_congr sound spares.sound spares.folder
      (spares.get?_eq (o.layout.locate_symbolFile h valid) (by decide))
  · exact look_congr sound spares.sound spares.folder
      (spares.get?_eq (o.layout.locate_object h valid) (by decide))

theorem SameStores.isOk_look (same : o.SameStores h g) {id : Bytes}
    (valid : ObjectId.isValid id = true) :
    (g.look (o.layout.tagStore.path id)).isOk = (h.look (o.layout.tagStore.path id)).isOk ∧
    (g.look (o.layout.objectStore.path id)).isOk =
      (h.look (o.layout.objectStore.path id)).isOk := by
  have agree : ∀ p, (∀ n, g.look p = .ok n ↔ h.look p = .ok n) → (g.look p).isOk = (h.look p).isOk := by
    intro p same
    cases there : h.look p with
    | ok n => rw [(same n).mpr there]
    | error e =>
        cases there' : g.look p with
        | ok n =>
            rw [(same n).mp there'] at there
            cases there
        | error e' => rfl
  exact ⟨agree _ fun n => (same id valid n).1, agree _ fun n => (same id valid n).2⟩

theorem cut_of_unplaced {xs ys : List TagTable.Entry} {file : Bytes}
    (cut : Cut (xs.map TagTable.Entry.unplaced) ys file) : Cut xs ys file := by
  obtain ⟨last, first⟩ := cut
  rw [groups_map_unplaced, List.getLast?_map, Option.map_map] at last
  exact ⟨last, first⟩

/-- A group that was read is a group of the whole table, unless it is cut. -/
theorem whole_or_cut (delivers : Delivers table full) {group : Group}
    (member : group ∈ groups (o.reading h table).1) :
    group.unplaced ∈ groups (entriesOf (Bytes.lines full)) ∨
      Cut (o.reading h table).1 (unread full (o.reading h table).2) group.file := by
  have isRead : group.unplaced ∈ groups ((o.reading h table).1.map TagTable.Entry.unplaced) := by
    rw [groups_map_unplaced]
    exact List.mem_map_of_mem member
  rcases mem_groups_append isRead (unread full (o.reading h table).2) with whole | ⟨-, cut⟩
  · rw [reading, TagTable.read_append_unread delivers] at whole
    exact .inl whole
  · exact .inr (cut_of_unplaced cut)

/-- The last group that was read is the one that is cut. -/
theorem exists_group_of_cut {xs ys : List TagTable.Entry} {file : Bytes} (cut : Cut xs ys file) :
    ∃ group ∈ groups xs, group.id = base file := by
  obtain ⟨group, isLast, rfl⟩ := Option.map_eq_some_iff.mp cut.1
  exact ⟨group, List.mem_of_getLast? isLast, rfl⟩

theorem pending_singleton_iff (o : Organizer) (g : Host) (id : Bytes) :
    ((o.pending [id]).on g).1 = .ok [id] ↔ o.isPending g id = true := by
  rw [on_pending]
  cases pending : o.isPending g id <;> simp [pending]

/-- Symbol files that were made in parts, and a host with the same stores. -/
theorem Parted.splits (sound : h.Sound) (delivers : Delivers table full)
    (parted : o.Parted h (groups (o.reading h table).1) m)
    (all : r.isOk = true → ∀ group ∈ groups (o.reading h table).1,
      ObjectId.isValid group.id = true → ¬o.Lacks m group.id)
    (same : o.SameStores m g) : o.Splits h table full r g := by
  obtain ⟨new, wrote, stems⟩ := parted.made
  have lacks_iff : ∀ {id}, ObjectId.isValid id = true → (o.Lacks g id ↔ o.Lacks m id) := by
    intro id valid
    rw [Lacks, (same.isOk_look valid).1, Lacks]
  constructor
  · intro id n valid lacks there
    have found := (same id valid n).1.mp there
    have isMade : id ∈ new.map Prod.fst := by
      by_contra notMade
      have lacking := (wrote.lacks_iff sound valid).mpr ⟨lacks, notMade⟩
      rw [Lacks, found] at lacking
      cases lacking
    obtain ⟨e, member, rfl⟩ := List.mem_map.mp isMade
    obtain ⟨-, -, -, group, isFirst, text⟩ := stems e member
    have put : m.look (o.layout.tagStore.path e.1) = .ok (.file e.2 false) :=
      wrote.look_of_mem member
    rw [found] at put
    exact ⟨group, e.2, isFirst, text, Except.ok.inj put,
      whole_or_cut delivers (List.mem_of_find?_eq_some isFirst)⟩
  · intro file cut valid pending
    rw [isPending, Bool.and_eq_true, Bool.not_eq_true'] at pending
    obtain ⟨stored, lacks⟩ := pending
    obtain ⟨group, member, isId⟩ := exists_group_of_cut cut
    have exactly := parted.lacks_iff valid lacks ⟨group, member, isId⟩
    have stored' : (g.look (o.layout.objectStore.path (base file))).isOk = true := by
      rw [(same.isOk_look valid).2, ← stored]
      exact isOk_look_congr sound wrote.sound wrote.folder
        (wrote.spares.get?_eq (o.layout.locate_object h valid) (by decide))
    refine ⟨?_, (lacks_iff valid).trans exactly, fun success => ?_⟩
    · rw [pending_singleton_iff, isPending, stored', Bool.true_and, Bool.not_eq_true']
      exact (lacks_iff valid).trans exactly
    · by_contra unreached
      exact all success group member (isId ▸ valid) (isId ▸ exactly.mpr unreached)

def sampleId : Bytes := List.replicate 40 97

def sampleHost : Host where
  tree := ⟨[
    ([lit "db", lit "objects", sampleId], .file (lit "int alpha(void) \x7b\n\x7d\n") false),
    ([lit "db", lit "objects"], .folder),
    ([lit "db"], .folder)]⟩

/-- A table with two entries of the content and a malformed line between them. -/
def sampleTable : Bytes :=
  lit "alpha\t" ++ Layout.objectRef sampleId ++ lit "\t1;\"\tf\njunk\n" ++
    lit "beta\t" ++ Layout.objectRef sampleId ++ lit "\t2;\"\tf\n"

/-- An organizer whose tables are all this one. -/
def sampleOrganizer : Organizer where
  layout := ⟨lit "/db"⟩
  generator := fun _ _ => pure { text := sampleTable }

theorem sampleHost_sound : sampleHost.Sound := by decide +kernel

end Organizer

end SymbolHistory
