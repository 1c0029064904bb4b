/-
# Proofs.Splitting -- which groups of a table become symbol files

Splitting goes through the groups that were read and writes a symbol file for
each content that has none.  What it keeps is `Wrote`: some symbol files have
been added and nothing else has changed.  Each of them comes from the first group
of its content (`writeGroups_yields`), and a content without a symbol file gets
one exactly when the groups up to its first one can be written
(`writeGroups_ends`), whatever happens later.
-/
import SymbolHistory.Proofs.Additions
import SymbolHistory.Proofs.TableReading

set_option autoImplicit false

namespace SymbolHistory

open SymbolHistory.Path FileTree Run Host

namespace Organizer

open TagTable (Entry)

def Group.id (g : Group) : Bytes := Path.base g.file

/-- The symbol file that a group becomes, if its content can be read and understood. -/
def textOf? (o : Organizer) (h : Host) (group : Group) : Option Bytes :=
  (h.contentAt? (o.layout.objectStore.path group.id)).bind fun data =>
    (group.entries.mapM (symbolOf (SourceText.ofContent data))).toOption.map Symbol.writeAll

/-- A content has no symbol file. -/
def Lacks (o : Organizer) (h : Host) (id : Bytes) : Prop :=
  (h.look (o.layout.tagStore.path id)).isOk = false

instance (o : Organizer) (h : Host) (id : Bytes) : Decidable (o.Lacks h id) :=
  inferInstanceAs (Decidable (_ = _))

/-- What splitting that began on `h` has come to on `g` when it has made some symbol files. -/
structure Wrote (o : Organizer) (h : Host) (made : List (Bytes × Bytes)) (g : Host) : Prop
    extends Adds o.layout.tags made h g where
  cache : g.tally.cache = h.tally.cache

namespace Wrote

variable {o : Organizer} {h g k : Host} {made : List (Bytes × Bytes)}

theorem refl (o : Organizer) (sound : h.Sound) : o.Wrote h [] h := ⟨Adds.refl sound _, rfl⟩

theorem quiet (wrote : o.Wrote h made g) (same : Quiet g k) : o.Wrote h made k :=
  ⟨wrote.toAdds.sameFiles same.toSameFiles, same.cache.trans wrote.cache⟩

theorem yields {α : Type} {work : Run α} (wrote : o.Wrote h made g) (keeps : work.Keeps Quiet) :
    work.Yields g (fun _ => o.Wrote h made) (o.Wrote h made) :=
  (keeps.yields g).mono (fun _ _ same => wrote.quiet same) fun _ same => wrote.quiet same

/-- Stored contents are as they were. -/
theorem stored (wrote : o.Wrote h made g) (sound : h.Sound) {id : Bytes}
    (valid : ObjectId.isValid id = true) :
    g.contentAt? (o.layout.objectStore.path id) = h.contentAt? (o.layout.objectStore.path id) := by
  refine wrote.contentAt?_elsewhere sound ?_
  rw [o.layout.locate_object h valid, o.layout.locate_tags, List.prefix_append_right_inj]
  rintro ⟨rest, equal⟩
  exact absurd (List.cons.inj equal).1 (by decide)

/-- A content has no symbol file if it had none and none was made. -/
theorem lacks_iff (wrote : o.Wrote h made g) (sound : h.Sound) {id : Bytes}
    (valid : ObjectId.isValid id = true) :
    o.Lacks g id ↔ o.Lacks h id ∧ id ∉ made.map Prod.fst := by
  by_cases isMade : id ∈ made.map Prod.fst
  · obtain ⟨e, member, rfl⟩ := List.mem_map.mp isMade
    have there : g.look (o.layout.tagStore.path e.1) = .ok (.file e.2 false) :=
      wrote.look_of_mem member
    simp [Lacks, there, Except.isOk, Except.toBool, isMade]
  · have same := wrote.isOk_look_of_not_made sound (ObjectId.isName_of_isValid valid) isMade
    constructor
    · exact fun lacks => ⟨same.symm.trans lacks, isMade⟩
    · exact fun lacks => same.trans lacks.1

/-- Whatever is not under the symbol files is as it was. -/
theorem beside (wrote : o.Wrote h made g) {apart : List Bytes} (other : Layout.tagsName ∉ apart) :
    o.layout.Spares apart h g := .of_adds wrote.toAdds wrote.cache (o.layout.locate_tags h) other

theorem spares (wrote : o.Wrote h made g) :
    o.layout.Spares [Layout.objectsName, Layout.diffsName, Layout.namesName] h g :=
  wrote.beside (by decide)

end Wrote

/-! ## One group -/

section

variable {o : Organizer} {h g : Host} {made : List (Bytes × Bytes)}

theorem writeTagFile_yields (sound : h.Sound) (wrote : o.Wrote h made g) {group : Group}
    (valid : ObjectId.isValid group.id = true) (lacks : o.Lacks h group.id)
    (notMade : group.id ∉ made.map Prod.fst) :
    (o.writeTagFile group.id group.entries).Yields g
      (fun _ k => ∃ text, o.textOf? h group = some text ∧
        o.Wrote h (made ++ [(group.id, text)]) k)
      (o.Wrote h made) := by
  have isName := ObjectId.isName_of_isValid valid
  rw [writeTagFile]
  have read : (o.layout.objectStore.read group.id).Yields g
      (fun data k => k = g ∧ g.contentAt? (o.layout.objectStore.path group.id) = some data)
      (o.Wrote h made) :=
    (o.layout.objectStore.read_ends group.id g).yields
      (fun data k ended => ⟨ended.1, (ended.2.1 data rfl).2⟩) fun k ended => ended.1 ▸ wrote
  refine read.bind ?_
  rintro data _ ⟨rfl, content⟩
  rw [wrote.stored sound valid] at content
  cases understood : group.entries.mapM (symbolOf (SourceText.ofContent data)) with
  | error f => exact ⟨wrote⟩
  | ok symbols =>
      have text : o.textOf? h group = some (Symbol.writeAll symbols) := by
        simp only [textOf?, content, understood, Option.bind_some, Except.toOption, Option.map_some]
      have written := o.layout.tagStore.write_yields wrote.sound group.id (Symbol.writeAll symbols)
      refine ((written.mono (fun _ _ stored => stored) fun k grown => ?_).discard).bind ?_
      · exact ⟨wrote.grow grown, grown.cache.trans wrote.cache⟩
      · rintro _ k ⟨_, -, ⟨there, -, -⟩ | ⟨-, -, put, found⟩⟩
        · rw [(wrote.lacks_iff sound valid).mpr ⟨lacks, notMade⟩] at there
          cases there
        · have added : o.Wrote h (made ++ [(group.id, Symbol.writeAll symbols)]) k :=
            ⟨wrote.put sound isName notMade lacks put found, put.cache.trans wrote.cache⟩
          have tail := (remember_sure (f := fun t => { t with
            organizing := { t.organizing with
              symbols := t.organizing.symbols + symbols.length
              files := t.organizing.files + 1 } }) fun _ => rfl).bind fun _ =>
                count_sure (Metrics.tagFileWritten (kindCounts symbols))
          exact (tail k).mono (fun _ _ same => ⟨_, text, added.quiet same⟩) fun _ never => never.elim

/-- A group is to be written: it names a content that has no symbol file, by a new path. -/
def Begins (o : Organizer) (seen : List Bytes) (g : Host) (file : Bytes) : Prop :=
  ObjectId.isValid (base file) = true ∧ file ∉ seen ∧ o.Lacks g (base file)

theorem start_yields (o : Organizer) (seen : List Bytes) (file : Bytes) (g : Host) :
    (o.start seen file).Yields g
      (fun begun k => Quiet g k ∧
        (begun = some (base file) ∧ o.Begins seen g file ∨ begun = none ∧ ¬o.Begins seen g file))
      (fun _ => False) := by
  have passed : ∀ work : Run Unit, Sure work → ¬o.Begins seen g file →
      (work >>= fun _ => (pure none : Run (Option Bytes))).Yields g
        (fun begun k => Quiet g k ∧ (begun = some (base file) ∧ o.Begins seen g file ∨
          begun = none ∧ ¬o.Begins seen g file)) (fun _ => False) := by
    intro work sure notBegun
    refine (sure g).bind fun _ k same => ?_
    rw [yields_pure]
    exact ⟨same, .inr ⟨rfl, notBegun⟩⟩
  have unsaid : ¬o.Begins seen g file → (pure none : Run (Option Bytes)).Yields g
      (fun begun k => Quiet g k ∧ (begun = some (base file) ∧ o.Begins seen g file ∨
        begun = none ∧ ¬o.Begins seen g file)) (fun _ => False) := by
    intro notBegun
    rw [yields_pure]
    exact ⟨quiet_lasting.refl g, .inr ⟨rfl, notBegun⟩⟩
  rw [start]
  split
  · rename_i nameless
    rw [Bool.and_eq_true, List.isEmpty_iff, List.isEmpty_iff] at nameless
    refine unsaid fun begins => absurd begins.1 ?_
    rw [nameless.2]
    decide
  · split
    · rename_i invalid
      refine passed _ (report_sure _ _ _) fun begins => ?_
      rw [begins.1] at invalid
      cases invalid
    · rename_i valid
      rw [Bool.not_eq_true', Bool.not_eq_false] at valid
      split
      · rename_i old
        exact unsaid fun begins => begins.2.1 (List.contains_iff_mem.mp old)
      · rename_i new
        rw [List.contains_iff_mem] at new
        rw [ObjectStore.has]
        refine (isThere_yields g _).bind ?_
        rintro _ _ ⟨rfl, rfl⟩
        split
        · rename_i there
          refine passed _ (remember_sure fun _ => rfl) fun begins => ?_
          rw [begins.2.2] at there
          cases there
        · rename_i missing
          rw [Bool.not_eq_true] at missing
          rw [yields_pure]
          exact ⟨quiet_lasting.refl _, .inl ⟨rfl, valid, new, missing⟩⟩

/-! ## All groups -/

/-- A content that could get a symbol file has one. -/
def Settled (o : Organizer) (h : Host) (made : List (Bytes × Bytes)) (id : Bytes) : Prop :=
  ObjectId.isValid id = true → o.Lacks h id → id ∈ made.map Prod.fst

theorem Settled.more {id : Bytes} (settled : o.Settled h made id) (new : List (Bytes × Bytes)) :
    o.Settled h (made ++ new) id := by
  intro valid lacks
  rw [List.map_append]
  exact List.mem_append_left _ (settled valid lacks)

/-- The symbol files `new` come from some groups, each from the first group of its content. -/
def Stems (o : Organizer) (h : Host) (made new : List (Bytes × Bytes)) (groups : List Group) :
    Prop :=
  ∀ e ∈ new, e.1 ∉ made.map Prod.fst ∧ ObjectId.isValid e.1 = true ∧ o.Lacks h e.1 ∧
    ∃ group, groups.find? (·.id == e.1) = some group ∧ o.textOf? h group = some e.2

/-- Some symbol files have been made from some groups. -/
def Advanced (o : Organizer) (h : Host) (made : List (Bytes × Bytes)) (groups : List Group)
    (g : Host) : Prop :=
  ∃ new, o.Wrote h (made ++ new) g ∧ o.Stems h made new groups

theorem Wrote.advanced (wrote : o.Wrote h made g) (groups : List Group) :
    o.Advanced h made groups g := ⟨[], by rwa [List.append_nil], by simp [Stems]⟩

/-- A group that is passed over does not matter to those after it. -/
theorem Stems.skip {new : List (Bytes × Bytes)} {group : Group} {rest : List Group}
    (stems : o.Stems h made new rest) (settled : o.Settled h made group.id) :
    o.Stems h made new (group :: rest) := by
  intro e member
  obtain ⟨notMade, valid, lacks, found⟩ := stems e member
  refine ⟨notMade, valid, lacks, ?_⟩
  have other : (group.id == e.1) = false := by
    rw [beq_eq_false_iff_ne]
    intro same
    exact notMade (same ▸ settled (same ▸ valid) (same ▸ lacks))
  rw [List.find?_cons, other]
  exact found

theorem Stems.cons {new : List (Bytes × Bytes)} {group : Group} {rest : List Group} {text : Bytes}
    (stems : o.Stems h (made ++ [(group.id, text)]) new rest)
    (valid : ObjectId.isValid group.id = true) (lacks : o.Lacks h group.id)
    (notMade : group.id ∉ made.map Prod.fst) (isText : o.textOf? h group = some text) :
    o.Stems h made ((group.id, text) :: new) (group :: rest) := by
  intro e member
  rcases List.mem_cons.mp member with rfl | later
  · exact ⟨notMade, valid, lacks, group, by rw [List.find?_cons, beq_self_eq_true], isText⟩
  · obtain ⟨notMade', valid', lacks', found⟩ := stems e later
    rw [List.map_append, List.mem_append, not_or] at notMade'
    refine ⟨notMade'.1, valid', lacks', ?_⟩
    have other : (group.id == e.1) = false := by
      rw [beq_eq_false_iff_ne]
      exact fun same => notMade'.2 (by simp [same])
    rw [List.find?_cons, other]
    exact found

/-- A group whose file has been seen or is not to be written is settled. -/
theorem settled_of_not_begins (sound : h.Sound) (wrote : o.Wrote h made g) {seen : List Bytes}
    (past : ∀ file ∈ seen, o.Settled h made (base file)) {group : Group}
    (notBegun : ¬o.Begins seen g group.file) : o.Settled h made group.id := by
  intro valid lacks
  by_cases old : group.file ∈ seen
  · exact past _ old valid lacks
  · by_contra notMade
    exact notBegun ⟨valid, old, (wrote.lacks_iff sound valid).mpr ⟨lacks, notMade⟩⟩

/-- Splitting makes symbol files from the first groups of contents that have none.  When it comes
to its end, no group is left. -/
theorem writeGroups_yields (sound : h.Sound) (groups : List Group) :
    ∀ {seen : List Bytes} {g : Host} {made : List (Bytes × Bytes)}, o.Wrote h made g →
      (∀ file ∈ seen, o.Settled h made (base file)) →
      (o.writeGroups seen groups).Yields g
        (fun finished k => ∃ new, o.Wrote h (made ++ new) k ∧ o.Stems h made new groups ∧
          (finished = true → ∀ group ∈ groups, o.Settled h (made ++ new) group.id))
        (o.Advanced h made groups) := by
  induction groups with
  | nil =>
      intro seen g made wrote _
      rw [writeGroups, yields_pure]
      exact ⟨[], by rwa [List.append_nil], by simp [Stems], by simp⟩
  | cons group rest ih =>
      intro seen g made wrote past
      rw [writeGroups]
      refine ((start_yields o seen group.file g).mono (fun _ _ ended => ended)
        fun _ never => never.elim).bind ?_
      rintro _ k ⟨same, ⟨rfl, begins⟩ | ⟨rfl, notBegun⟩⟩
      · have valid : ObjectId.isValid group.id = true := begins.1
        obtain ⟨lacks, notMade⟩ := (wrote.lacks_iff sound valid).mp begins.2.2
        have wrote := wrote.quiet same
        refine ((wrote.yields checkpoint_quiet).mono (fun _ _ after => after)
          fun _ after => after.advanced _).bind fun _ k wrote => ?_
        refine ((writeTagFile_yields sound wrote valid lacks notMade).mono (fun _ _ after => after)
          fun _ after => after.advanced _).bind ?_
        rintro _ k ⟨text, isText, wrote⟩
        refine ((wrote.yields advanceStage_quiet).mono (fun _ _ after => after) ?_).bind
          fun _ k wrote => ?_
        · exact fun _ after => ⟨_, after, Stems.cons (by simp [Stems]) valid lacks notMade isText⟩
        · have here : o.Settled h (made ++ [(group.id, text)]) group.id := by
            intro _ _
            simp
          refine (ih wrote fun file member => ?_).mono ?_ ?_
          · rcases List.mem_cons.mp member with rfl | earlier
            · exact here
            · exact (past file earlier).more _
          · rintro finished k ⟨new, wrote, stems, settled⟩
            rw [List.append_assoc] at wrote settled
            refine ⟨_, wrote, stems.cons valid lacks notMade isText, fun done g' member => ?_⟩
            rcases List.mem_cons.mp member with rfl | later
            · rw [← List.append_assoc]
              exact here.more new
            · exact settled done g' later
          · rintro k ⟨new, wrote, stems⟩
            rw [List.append_assoc] at wrote
            exact ⟨_, wrote, stems.cons valid lacks notMade isText⟩
      · have here := settled_of_not_begins sound wrote past notBegun
        have wrote := wrote.quiet same
        refine (yields_attempt (checkpoint_quiet.ends k)).bind fun outcome k same => ?_
        have wrote := wrote.quiet same
        cases outcome with
        | error e =>
            rw [yields_pure]
            exact ⟨[], by rwa [List.append_nil], by simp [Stems], by simp⟩
        | ok _ =>
            refine (ih wrote fun file member => ?_).mono ?_ ?_
            · rcases List.mem_cons.mp member with rfl | earlier
              · exact here
              · exact past file earlier
            · rintro finished k ⟨new, wrote, stems, settled⟩
              refine ⟨new, wrote, stems.skip here, fun done g' member => ?_⟩
              rcases List.mem_cons.mp member with rfl | later
              · exact here.more new
              · exact settled done g' later
            · rintro k ⟨new, wrote, stems⟩
              exact ⟨new, wrote, stems.skip here⟩

/-! ## When a content gets its symbol file -/

/-- Groups one after another are written in two parts. -/
theorem writeGroups_append (o : Organizer) (front back : List Group) :
    ∀ seen, o.writeGroups seen (front ++ back) =
      o.writeGroups seen front >>= fun finished =>
        if finished then o.writeGroups ((front.map (·.file)).reverse ++ seen) back
        else pure false := by
  induction front with
  | nil => simp [writeGroups]
  | cons group front ih =>
      intro seen
      simp only [List.cons_append, writeGroups, bind_assoc]
      congr 1
      funext begun
      cases begun with
      | some id => simp [ih]
      | none =>
          simp only [bind_assoc]
          congr 1
          funext outcome
          cases outcome with
          | error e => simp
          | ok _ => simp [ih]

/-- The last of some groups, if it is to be written, is written or fails. -/
theorem writeGroups_singleton (sound : h.Sound) (wrote : o.Wrote h made g) {seen : List Bytes}
    {group : Group} (begins : o.Begins seen g group.file) :
    (o.writeGroups seen [group]).Yields g (fun finished _ => finished = true) (o.Wrote h made) := by
  have valid : ObjectId.isValid group.id = true := begins.1
  obtain ⟨lacks, notMade⟩ := (wrote.lacks_iff sound valid).mp begins.2.2
  rw [writeGroups]
  refine ((start_yields o seen group.file g).mono (fun _ _ ended => ended)
    fun _ never => never.elim).bind ?_
  rintro _ k ⟨same, ⟨rfl, -⟩ | ⟨rfl, notBegun⟩⟩
  · refine ((wrote.quiet same).yields checkpoint_quiet).bind fun _ k wrote => ?_
    refine (writeTagFile_yields sound wrote valid lacks notMade).bind fun _ k _ => ?_
    refine ((advanceStage_sure k).mono (fun _ _ after => after) fun _ never => never.elim).bind
      fun _ k _ => ?_
    rw [writeGroups, yields_pure]
  · exact absurd begins notBegun

/-- The groups up to the first one of a content. -/
def through (id : Bytes) (groups : List Group) : List Group :=
  groups.takeWhile (·.id != id) ++ (groups.find? (·.id == id)).toList

/-- The groups up to the first one of a content can all be written. -/
def Reaches (o : Organizer) (g : Host) (groups : List Group) (id : Bytes) : Prop :=
  ((o.writeGroups [] (through id groups)).on g).1 = .ok true

theorem exists_through {id : Bytes} {groups : List Group} (named : ∃ group ∈ groups, group.id = id) :
    ∃ front group rest, groups = front ++ group :: rest ∧ group.id = id ∧
      (∀ g ∈ front, g.id ≠ id) ∧ through id groups = front ++ [group] := by
  obtain ⟨group, member, isId⟩ := named
  obtain ⟨first, found⟩ : ∃ first, groups.find? (·.id == id) = some first := by
    rw [← Option.isSome_iff_exists, List.find?_isSome]
    exact ⟨group, member, by simp [isId]⟩
  obtain ⟨isId, front, rest, rfl, before⟩ := List.find?_eq_some_iff_append.mp found
  have isId : first.id = id := by simpa using isId
  have others : ∀ g ∈ front, (g.id != id) = true := by simpa using before
  refine ⟨front, first, rest, rfl, isId, by simpa using others, ?_⟩
  rw [through, found, List.takeWhile_append_of_pos others, List.takeWhile_cons_of_neg (by simp [isId]),
    List.append_nil]
  rfl

/-- A symbol file that is made comes from a group of its content. -/
theorem Stems.not_mem {new : List (Bytes × Bytes)} {groups : List Group} {id : Bytes}
    (stems : o.Stems h made new groups) (others : ∀ group ∈ groups, group.id ≠ id) :
    id ∉ new.map Prod.fst := by
  intro member
  obtain ⟨e, isNew, rfl⟩ := List.mem_map.mp member
  obtain ⟨-, -, -, group, found, -⟩ := stems e isNew
  exact others group (List.mem_of_find?_eq_some found) (by simpa using List.find?_some found)

/-- When the groups up to the first one of a content cannot all be written, it gets nothing. -/
theorem lacks_of_cut_short (sound : h.Sound) (wrote : o.Wrote h [] g) {front : List Group}
    {group : Group} (valid : ObjectId.isValid group.id = true) (lacks : o.Lacks h group.id)
    (others : ∀ g ∈ front, g.id ≠ group.id) :
    (o.writeGroups [] (front ++ [group])).Ends g fun r k => r ≠ .ok true → o.Lacks k group.id := by
  have still : ∀ {new k}, o.Wrote h ([] ++ new) k → o.Stems h [] new front → o.Lacks k group.id := by
    intro new k wrote stems
    exact (wrote.lacks_iff sound valid).mpr ⟨lacks, stems.not_mem others⟩
  have past : ∀ file ∈ ([] : List Bytes), o.Settled h [] (base file) := by simp
  rw [writeGroups_append]
  have begun := (writeGroups_yields sound front wrote past).ends
    (Q := fun _ k => ∃ new, o.Wrote h ([] ++ new) k ∧ o.Stems h [] new front)
    (fun _ _ ⟨new, wrote, stems, _⟩ => ⟨new, wrote, stems⟩) fun _ _ advanced => advanced
  refine begun.bind ?_ fun e k ⟨new, wrote, stems⟩ _ => still wrote stems
  rintro finished k ⟨new, wrote, stems⟩
  cases finished with
  | false =>
      rw [if_neg Bool.false_ne_true, ends_pure]
      exact fun _ => still wrote stems
  | true =>
      have unseen : group.file ∉ (front.map (·.file)).reverse ++ [] := by
        simp only [List.append_nil, List.mem_reverse, List.mem_map, not_exists, not_and]
        intro g member same
        exact others g member (congrArg base same)
      rw [if_pos rfl]
      refine (writeGroups_singleton sound wrote ⟨valid, unseen, still wrote stems⟩).ends ?_ ?_
      · rintro finished k rfl notDone
        exact absurd rfl notDone
      · exact fun e k wrote _ => still wrote stems

/-- A content that has no symbol file gets one exactly when the groups up to its first one can be
written, whatever happens to the groups after it. -/
theorem writeGroups_ends (sound : h.Sound) (wrote : o.Wrote h [] g) {groups : List Group} {id : Bytes}
    (valid : ObjectId.isValid id = true) (lacks : o.Lacks h id)
    (named : ∃ group ∈ groups, group.id = id) :
    (o.writeGroups [] groups).Ends g fun _ k => o.Lacks k id ↔ ¬o.Reaches g groups id := by
  obtain ⟨front, group, rest, rfl, rfl, others, upTo⟩ := exists_through named
  have past : ∀ file ∈ ([] : List Bytes), o.Settled h [] (base file) := by simp
  have first := (writeGroups_yields sound (front ++ [group]) wrote past).holds
  have cutShort := (lacks_of_cut_short sound wrote valid lacks others).holds
  rw [Reaches, upTo, List.append_cons, writeGroups_append, ends_iff, on_bind]
  generalize (o.writeGroups [] (front ++ [group])).on g = ended at first cutShort ⊢
  obtain ⟨outcome, k⟩ := ended
  cases outcome with
  | error e => simpa using cutShort
  | ok finished =>
      cases finished with
      | false => simpa using cutShort
      | true =>
          obtain ⟨new, wrote, -, settled⟩ := first
          have isMade := settled rfl group (by simp) valid lacks
          have past' : ∀ file ∈ ((front ++ [group]).map (·.file)).reverse ++ [],
              o.Settled h ([] ++ new) (base file) := by
            intro file member
            rw [List.append_nil, List.mem_reverse, List.mem_map] at member
            obtain ⟨g, isOne, rfl⟩ := member
            exact settled rfl g isOne
          have later := (writeGroups_yields sound rest wrote past').ends
            (Q := fun _ k => ∃ more, o.Wrote h ([] ++ new ++ more) k)
            (fun _ _ ⟨more, wrote, _⟩ => ⟨more, wrote⟩) fun _ _ ⟨more, wrote, _⟩ => ⟨more, wrote⟩
          obtain ⟨more, wrote'⟩ := later.holds
          have there : ¬o.Lacks _ group.id := fun lacking =>
            ((wrote'.lacks_iff sound valid).mp lacking).2 (by
              rw [List.map_append]
              exact List.mem_append_left _ isMade)
          exact ⟨fun lacking => absurd lacking there, fun unreached => absurd rfl unreached⟩

/-! ## A whole table -/

/-- What is read of a table: the entries, and the reader after the last. -/
def reading (o : Organizer) (h : Host) (table : Input) : List Entry × TagTable.Reader :=
  (TagTable.Reader.ofInput table (some (o.sources h))).readAll

/-- The host on which the first group is written. -/
def begun (h : Host) : Host := ((startStage "Organizing symbols" (-1)).on h).2

/-- What splitting that began on `h` and went through some groups has left on `g`. -/
structure Parted (o : Organizer) (h : Host) (groups : List Group) (g : Host) : Prop where
  made : ∃ new, o.Wrote h new g ∧ o.Stems h [] new groups
  lacks_iff : ∀ {id : Bytes}, ObjectId.isValid id = true → o.Lacks h id →
    (∃ group ∈ groups, group.id = id) → (o.Lacks g id ↔ ¬o.Reaches (begun h) groups id)

theorem lacks_of_sameFiles {k : Host} (same : SameFiles g k) (id : Bytes) :
    o.Lacks k id ↔ o.Lacks g id := by
  rw [Lacks, look_of_sameFiles same, Lacks]

theorem Parted.quiet {groups : List Group} {k : Host} (parted : o.Parted h groups g)
    (same : Quiet g k) : o.Parted h groups k where
  made := by
    obtain ⟨new, wrote, stems⟩ := parted.made
    exact ⟨new, wrote.quiet same, stems⟩
  lacks_iff valid lacks named := by
    rw [lacks_of_sameFiles same.toSameFiles]
    exact parted.lacks_iff valid lacks named

/-- All groups are written, and none of a content without a symbol file is left, or some are. -/
theorem writeGroups_parted (sound : h.Sound) (groups : List Group) :
    (o.writeGroups [] groups).Yields (begun h)
      (fun finished k => o.Parted h groups k ∧
        (finished = true → ∀ group ∈ groups, ObjectId.isValid group.id = true →
          ¬o.Lacks k group.id))
      (o.Parted h groups) := by
  have wrote : o.Wrote h [] (begun h) := (Wrote.refl o sound).quiet (startStage_quiet _ _ h)
  have past : ∀ file ∈ ([] : List Bytes), o.Settled h [] (base file) := by simp
  have made := (writeGroups_yields sound groups wrote past).holds
  have exactly : ∀ {id : Bytes}, ObjectId.isValid id = true → o.Lacks h id →
      (∃ group ∈ groups, group.id = id) →
        (o.Lacks ((o.writeGroups [] groups).on (begun h)).2 id ↔ ¬o.Reaches (begun h) groups id) :=
    fun valid lacks named => (writeGroups_ends sound wrote valid lacks named).holds
  rw [Yields, ends_iff]
  generalize (o.writeGroups [] groups).on (begun h) = ended at made exactly ⊢
  obtain ⟨outcome, k⟩ := ended
  cases outcome with
  | error e => exact ⟨made, exactly⟩
  | ok finished =>
      obtain ⟨new, wrote, stems, settled⟩ := made
      refine ⟨⟨⟨new, wrote, stems⟩, exactly⟩, fun done group member valid lacking => ?_⟩
      obtain ⟨lacks, notMade⟩ := (wrote.lacks_iff sound valid).mp lacking
      exact notMade (settled done group member valid lacks)

/-- The rest of splitting, once groups have been written. -/
def conclude (reader : TagTable.Reader) (finished : Bool) : Run Bool := do
  if !finished then throw .canceled
  match reader.fault with
  | some f => throw (f.within (lit "split tag table"))
  | none => pure ()
  Run.checkpoint
  if reader.badLine != 0 then
    Host.report .warn "malformed tag table line; ignoring the rest" [("line", .number reader.badLine)]
  let t := (← get).tally.organizing
  Host.report .info "organized symbols"
    [("symbols", .number t.symbols), ("objects", .number t.files), ("skipped", .number t.skipped)]
  pure (reader.badLine == 0)

/-- Splitting a table comes to what writing its groups comes to; the rest reports and may fail, but
changes no file. -/
theorem splitTable_of_groups {table : Input} {done fail : Host → Prop}
    (written : (o.writeGroups [] (groups (o.reading h table).1)).Yields (begun h)
      (fun finished k => fail k ∧ (finished = true → done k)) fail)
    (doneQuiet : ∀ {k m}, done k → Quiet k m → done m)
    (failQuiet : ∀ {k m}, fail k → Quiet k m → fail m) :
    (o.splitTable table).Yields h
      (fun complete g => fail g ∧ done g ∧ complete = ((o.reading h table).2.badLine == 0) ∧
        (o.reading h table).2.fault = none) fail := by
  rw [splitTable, yields_get_bind]
  rw [reading] at written ⊢
  dsimp only
  generalize (TagTable.Reader.ofInput table (some (o.sources h))).readAll = read at written ⊢
  obtain ⟨entries, reader⟩ := read
  let finish := fun (p : Progress) => { p with finished := true }
  have stays : ∀ {complete : Bool} {g k}, (fail g ∧ done g ∧ complete = (reader.badLine == 0) ∧
      reader.fault = none) → Quiet g k →
        fail k ∧ done k ∧ complete = (reader.badLine == 0) ∧ reader.fault = none :=
    fun ⟨failed, isDone, rest⟩ same => ⟨failQuiet failed same, doneQuiet isDone same, rest⟩
  refine Yields.after_modify (Yields.ensuring
    (?_ : Yields _ (begun h) (fun complete g => fail g ∧ done g ∧
      complete = (reader.badLine == 0) ∧ reader.fault = none) fail)
    (fun _ _ ended => stays ended (changeStage_quiet finish _))
    fun _ ended => failQuiet ended (changeStage_quiet finish _))
  refine (written.during _).bind ?_
  rintro finished g ⟨failed, isDone⟩
  cases finished with
  | false => exact ⟨failed⟩
  | true =>
      have rest : ∀ {tail : Run Bool}, reader.fault = none → Answers (reader.badLine == 0) tail →
          tail.Yields g (fun complete g => fail g ∧ done g ∧ complete = (reader.badLine == 0) ∧
            reader.fault = none) fail := by
        intro tail intact answers
        refine (answers g).mono ?_ fun _ same => failQuiet failed same
        rintro _ k ⟨rfl, same⟩
        exact stays ⟨failed, isDone rfl, rfl, intact⟩ same
      cases fault : reader.fault with
      | some f => exact ⟨failed⟩
      | none =>
          rw [fault] at rest
          refine rest rfl (Answers.after checkpoint_quiet fun _ => ?_)
          dsimp only
          split
          · refine Answers.after (report_quiet _ _ _) fun _ => Answers.after get_quiet fun _ => ?_
            exact Answers.after (report_quiet _ _ _) fun _ => answers_pure _
          · refine Answers.after get_quiet fun _ => ?_
            exact Answers.after (report_quiet _ _ _) fun _ => answers_pure _

/-- Splitting a table goes through the groups that were read, whether or not there is more. -/
theorem splitTable_yields (sound : h.Sound) (table : Input) :
    (o.splitTable table).Yields h
      (fun complete g => o.Parted h (groups (o.reading h table).1) g ∧
        complete = ((o.reading h table).2.badLine == 0) ∧
        ∀ group ∈ groups (o.reading h table).1, ObjectId.isValid group.id = true →
          ¬o.Lacks g group.id)
      (o.Parted h (groups (o.reading h table).1)) := by
  refine (splitTable_of_groups (writeGroups_parted sound _) (fun all same group member valid => ?_)
    fun parted same => parted.quiet same).mono ?_ fun _ parted => parted
  · rw [lacks_of_sameFiles same.toSameFiles]
    exact all group member valid
  · rintro complete g ⟨parted, all, isComplete, -⟩
    exact ⟨parted, isComplete, all⟩

end

end Organizer

end SymbolHistory
