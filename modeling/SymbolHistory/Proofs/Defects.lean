/-
# Proofs.Defects -- what splitting a table cannot recover from

A failure is carried out of the work it happens in; a defect ends everything at
once.  `Calm` work has no defect: neither has anything that is done with files
(`write_calm`).  So if splitting a table comes to a defect, it comes from what is
read out of a content for an entry, and there only a function's name can cause one
(`split_defect_spoiled`).
-/
import SymbolHistory.Proofs.Causes
import SymbolHistory.Proofs.CheckedPositions
import SymbolHistory.Proofs.SerialCrews
import SymbolHistory.Proofs.TruncatedTables

set_option autoImplicit false

namespace SymbolHistory

open SymbolHistory.Path FileTree Run Host

/-- A failure that is no defect. -/
def Fault.Mild (f : Fault) : Prop := ∀ text, f ≠ .defect text

theorem Fault.Mild.within {f : Fault} (mild : f.Mild) (activity : Bytes) : (f.within activity).Mild := by
  cases f with
  | defect text => exact absurd rfl (mild text)
  | _ => exact nofun

/-- The work has no defect. -/
def Run.Calm {α : Type} (work : Run α) : Prop := ∀ h f, (work.on h).1 = .error f → f.Mild

namespace Run.Calm

variable {α β : Type}

theorem ends {work : Run α} (calm : work.Calm) (h : Host) :
    work.Ends h fun r _ => ∀ f, r = .error f → f.Mild := ⟨calm h⟩

theorem pure (a : α) : (Pure.pure a : Run α).Calm := Throws.pure a

theorem throw {f : Fault} (mild : f.Mild) : (MonadExcept.throw f : Run α).Calm := Throws.throw mild

theorem of_modify (f : Host → Host) : (modify f : Run Unit).Calm := Throws.of_modify f

theorem bind {x : Run α} {f : α → Run β} (first : x.Calm) (next : ∀ a, (f a).Calm) : (x >>= f).Calm :=
  Throws.bind first next

/-- Work that begins with a look at the host. -/
theorem get_bind {f : Host → Run β} (next : ∀ h, (f h).Calm) : ((get : Run Host) >>= f).Calm :=
  Throws.get_bind next

theorem unvalued {work : Run α} (calm : work.Calm) : (discard work : Run Unit).Calm :=
  Throws.unvalued calm

end Run.Calm

theorem Run.ends_ensuring {α : Type} {work : Run α} {f : Host → Host} {h : Host}
    {Q : Except Fault α → Prop} (ends : work.Ends h fun r _ => Q r) :
    (Run.ensuring work (modify f)).Ends h fun r _ => Q r := by
  rw [ends_iff, on_ensuring]
  exact ends.holds

/-! ## Files -/

/-- What calls work off or refuses it is no defect. -/
theorem Fault.mild_covers : Fault.Covers Fault.Mild where
  canceled := nofun
  system _ _ _ := nofun
  during _ _ _ := nofun

namespace Host

theorem checkpoint_calm : Run.checkpoint.Calm := checkpoint_throws Fault.mild_covers

theorem report_calm (level : Journal.Level) (message : String)
    (attributes : List (String × Journal.Value)) : (report level message attributes).Calm :=
  Calm.get_bind fun _ => Calm.of_modify _

theorem remember_calm (f : Tally → Tally) : (remember f).Calm := Calm.of_modify _

theorem count_calm (f : Metrics → Metrics) : (count f).Calm := Calm.of_modify _

theorem advanceStage_calm : advanceStage.Calm := Calm.of_modify _

end Host

namespace ObjectStore

variable (s : ObjectStore)

theorem read_calm (id : Bytes) : (s.read id).Calm := s.read_throws Fault.mild_covers id fun _ => nofun

theorem write_calm (id data : Bytes) : (s.write id data).Calm :=
  s.write_throws Fault.mild_covers id data fun _ => nofun

end ObjectStore

/-! ## Reading a table -/

namespace TagTable

namespace Reader

/-- What has stopped the reader is no defect. -/
def Mild (r : Reader) : Prop := ∀ f, r.fault = some f → f.Mild

theorem mild_finish (r : Reader) : r.finish.Mild := by
  rw [finish]
  split
  · rintro _ ⟨⟩ _ ⟨⟩
  · rintro _ ⟨⟩

theorem mild_resolve {r : Reader} (mild : r.Mild) (e : Entry) : (r.resolve e).2.Mild := by
  rw [resolve]
  split <;> exact mild

theorem mild_advance (ls : List Bytes.Line) : ∀ {r : Reader}, r.Mild → (r.advance ls).2.Mild := by
  induction ls with
  | nil => exact fun _ => mild_finish _
  | cons l rest ih =>
      intro r mild
      rw [advance]
      split
      · exact mild_finish _
      · dsimp only
        split
        · exact ih mild
        · split
          · rintro _ ⟨⟩
          · exact mild_resolve (r := { r with ahead := rest, passed := r.passed + 1 }) mild _

theorem mild_readAllFrom (fuel : Nat) : ∀ {done : List Entry} {r : Reader}, r.Mild →
    (readAllFrom fuel done r).2.Mild := by
  induction fuel with
  | zero => exact fun mild => mild
  | succ fuel ih =>
      intro done r mild
      have next : r.next.2.Mild := by
        rw [Reader.next]
        split
        · exact mild
        · exact mild_advance _ mild
      rw [readAllFrom]
      split
      · rename_i ended
        rwa [ended] at next
      · rename_i ended
        rw [ended] at next
        exact ih next

/-- A reader's failure is no defect. -/
theorem mild_readAll (input : Input) (sources : Option Sources) : ((ofInput input sources).readAll).2.Mild :=
  mild_readAllFrom _ nofun

end Reader

end TagTable

/-! ## Splitting -/

namespace Organizer

open TagTable (Entry)

variable {o : Organizer} {h g : Host} {made : List (Bytes × Bytes)}

/-- Out of the content with an id, nothing can be read for an entry. -/
def Spoiled (o : Organizer) (h : Host) (id : Bytes) (e : Entry) : Prop :=
  ∃ data, h.contentAt? (o.layout.objectStore.path id) = some data ∧
    Signature.Spoils e.kind e.name (SourceText.ofContent data) e.line

theorem exists_of_mapM_error {α β ε : Type} {f : α → Except ε β} {as : List α} {e : ε}
    (failed : as.mapM f = .error e) : ∃ a ∈ as, f a = .error e := by
  induction as with
  | nil => cases failed
  | cons a as ih =>
      rw [List.mapM_cons] at failed
      cases first : f a with
      | error e' =>
          rw [first] at failed
          cases failed
          exact ⟨a, List.mem_cons_self, first⟩
      | ok b =>
          rw [first] at failed
          cases rest : as.mapM f with
          | error e' =>
              simp only [rest] at failed
              cases failed
              obtain ⟨c, member, failed⟩ := ih rest
              exact ⟨c, List.mem_cons_of_mem _ member, failed⟩
          | ok bs =>
              simp only [rest] at failed
              cases failed

theorem symbolOf_eq_error {src : SourceText} {e : Entry} {f : Fault} (failed : symbolOf src e = .error f) :
    Signature.Spoils e.kind e.name src e.line := by
  rw [symbolOf] at failed
  cases extra : Signature.extraText e.kind e.name src e.line with
  | error f' => exact (Signature.extraText_eq_error_iff.mp extra).1
  | ok text =>
      rw [extra] at failed
      cases failed

/-- A symbol file comes to a defect only over an entry that nothing can be read for. -/
theorem writeTagFile_defect (o : Organizer) (id : Bytes) (entries : List Entry) (g : Host) :
    (o.writeTagFile id entries).Ends g fun r _ =>
      ∀ f, r = .error f → f.Mild ∨ ∃ e ∈ entries, o.Spoiled g id e := by
  rw [writeTagFile]
  refine ((o.layout.objectStore.read_ends id g).and ((o.layout.objectStore.read_calm id).ends g)).bind ?_
    (by rintro f k ended e ⟨⟩; exact .inl (ended.2 _ rfl))
  rintro data k ⟨⟨rfl, read, -⟩, -⟩
  cases read? : entries.mapM (symbolOf (SourceText.ofContent data)) with
  | error f =>
      obtain ⟨e, member, failed⟩ := exists_of_mapM_error read?
      exact ⟨fun _ _ => .inr ⟨e, member, data, (read data rfl).2, symbolOf_eq_error failed⟩⟩
  | ok symbols =>
      refine Ends.bind (P := fun r _ => r = .ok symbols) ⟨rfl⟩ ?_ (by rintro _ _ ⟨⟩)
      rintro _ m ⟨⟩
      refine Ends.mono (Calm.ends ?_ m) fun r _ mild f same => .inl (mild f same)
      exact (o.layout.tagStore.write_calm id _).unvalued.bind fun _ => (remember_calm _).bind fun _ => count_calm _

/-- Groups come to a defect only over an entry of theirs. -/
theorem writeGroups_defect (sound : h.Sound) (groups : List Group) :
    ∀ {seen : List Bytes} {g : Host} {made : List (Bytes × Bytes)}, o.Wrote h made g →
      (∀ file ∈ seen, o.Settled h made (base file)) →
      (o.writeGroups seen groups).Ends g fun r _ =>
        ∀ f, r = .error f → f.Mild ∨ ∃ group ∈ groups, ∃ e ∈ group.entries, o.Spoiled h group.id e := by
  induction groups with
  | nil =>
      intro seen g made _ _
      rw [writeGroups, ends_pure]
      rintro _ ⟨⟩
  | cons group rest ih =>
      intro seen g made wrote past
      rw [writeGroups]
      have later : ∀ {work : Run Bool} {k : Host}, (work.Ends k fun r _ => ∀ f, r = .error f →
          f.Mild ∨ ∃ group ∈ rest, ∃ e ∈ group.entries, o.Spoiled h group.id e) →
          work.Ends k fun r _ => ∀ f, r = .error f →
            f.Mild ∨ ∃ g' ∈ group :: rest, ∃ e ∈ g'.entries, o.Spoiled h g'.id e := by
        intro work k ends
        refine ends.mono fun r k after f same => (after f same).imp_right ?_
        rintro ⟨g', member, found⟩
        exact ⟨g', List.mem_cons_of_mem _ member, found⟩
      refine ((start_yields o seen group.file g).ends (Q := fun r k => ∃ begun, r = .ok begun ∧ Quiet g k ∧
        (begun = some (base group.file) ∧ o.Begins seen g group.file ∨
          begun = none ∧ ¬o.Begins seen g group.file)) (fun begun k ended => ⟨begun, rfl, ended⟩)
        fun _ _ never => never.elim).bind ?_ ?_
      · rintro _ k ⟨_, ⟨⟩, same, ⟨rfl, begins⟩ | ⟨rfl, notBegun⟩⟩
        · have valid : ObjectId.isValid group.id = true := begins.1
          obtain ⟨lacks, notMade⟩ := (wrote.lacks_iff sound valid).mp begins.2.2
          have wrote := wrote.quiet same
          refine ((checkpoint_quiet.ends k).and (checkpoint_calm.ends k)).bind (fun _ m after => ?_)
            (by rintro f _ after e ⟨⟩; exact .inl (after.2 _ rfl))
          have wrote := wrote.quiet after.1
          refine ((writeTagFile_yields sound wrote valid lacks notMade).and
            (writeTagFile_defect o group.id group.entries m)).bind ?_ ?_
          · rintro _ n ⟨⟨text, isText, wrote⟩, -⟩
            refine ((advanceStage_quiet.ends n).and (advanceStage_calm.ends n)).bind (fun _ n' after => ?_)
              (by rintro f _ after e ⟨⟩; exact .inl (after.2 _ rfl))
            have wrote := wrote.quiet after.1
            refine later (ih wrote fun file member => ?_)
            rcases List.mem_cons.mp member with rfl | earlier
            · intro _ _
              simp [Group.id]
            · exact (past file earlier).more _
          · rintro f n ⟨-, failed⟩ e ⟨⟩
            refine (failed f rfl).imp_right ?_
            rintro ⟨entry, member, data, content, spoils⟩
            rw [wrote.stored sound valid] at content
            exact ⟨group, List.mem_cons_self, entry, member, data, content, spoils⟩
        · have here := settled_of_not_begins sound wrote past notBegun
          have wrote := wrote.quiet same
          refine Ends.attempt_bind (checkpoint_quiet.ends k) fun outcome m same => ?_
          have wrote := wrote.quiet same
          cases outcome with
          | error e => exact ⟨by rintro _ ⟨⟩⟩
          | ok _ =>
              refine later (ih wrote fun file member => ?_)
              rcases List.mem_cons.mp member with rfl | earlier
              · exact here
              · exact past file earlier
      · rintro e k ⟨_, never, -⟩
        cases never

theorem conclude_calm {reader : TagTable.Reader} (mild : reader.Mild) (finished : Bool) :
    (conclude reader finished).Calm := by
  have reports : (do
      if reader.badLine != 0 then
        Host.report .warn "malformed tag table line; ignoring the rest" [("line", .number reader.badLine)]
      let t := (← get).tally.organizing
      Host.report .info "organized symbols"
        [("symbols", .number t.symbols), ("objects", .number t.files), ("skipped", .number t.skipped)]
      pure (reader.badLine == 0) : Run Bool).Calm := by
    have last : (do
        let t := (← get).tally.organizing
        Host.report .info "organized symbols"
          [("symbols", .number t.symbols), ("objects", .number t.files), ("skipped", .number t.skipped)]
        pure (reader.badLine == 0) : Run Bool).Calm :=
      Calm.get_bind fun _ => (report_calm _ _ _).bind fun _ => Calm.pure _
    split
    · exact (report_calm _ _ _).bind fun _ => last
    · exact last
  cases finished with
  | false => exact Calm.throw nofun
  | true =>
      rw [conclude]
      cases failed : reader.fault with
      | some f => exact Calm.throw ((mild f failed).within _)
      | none => exact checkpoint_calm.bind fun _ => reports

/-- Splitting a table comes to a defect only over an entry that was read. -/
theorem splitTable_defect (o : Organizer) (sound : h.Sound) (table : Input) :
    (o.splitTable table).Ends h fun r _ =>
      ∀ f, r = .error f → f.Mild ∨ ∃ e ∈ (o.reading h table).1, o.Spoiled h (base e.file) e := by
  have mild : (o.reading h table).2.Mild := TagTable.Reader.mild_readAll _ _
  have wrote : o.Wrote h [] (begun h) := (Wrote.refl o sound).quiet (startStage_quiet _ _ h)
  have unseen : ∀ file ∈ ([] : List Bytes), o.Settled h [] (base file) := nofun
  have groupwise := writeGroups_defect sound (groups (o.reading h table).1) wrote unseen
  have written : (Run.during (lit "split tag table")
      (o.writeGroups [] (groups (o.reading h table).1))).Ends (begun h) fun r _ =>
        ∀ f, r = .error f → f.Mild ∨ ∃ e ∈ (o.reading h table).1, o.Spoiled h (base e.file) e := by
    refine (ends_during ..).mpr (groupwise.mono fun r k after f same => ?_)
    cases r with
    | ok finished => cases same
    | error f' =>
        cases same
        refine (after f' rfl).imp (·.within _) fun ⟨group, member, e, inside, spoiled⟩ => ?_
        obtain ⟨read, own⟩ := mem_of_mem_groups member inside
        exact ⟨e, read, own ▸ spoiled⟩
  rw [splitTable, ends_get_bind]
  rw [reading] at mild written ⊢
  dsimp only
  generalize (TagTable.Reader.ofInput table (some (o.sources h))).readAll = read at mild written ⊢
  obtain ⟨entries, reader⟩ := read
  refine Ends.bind (P := fun r k => k = begun h ∧ r = .ok ()) ⟨rfl, rfl⟩ ?_ (by rintro _ _ ⟨-, ⟨⟩⟩)
  rintro _ _ ⟨rfl, -⟩
  refine ends_ensuring (Q := fun r => ∀ f, r = .error f → f.Mild ∨ ∃ e ∈ entries, o.Spoiled h (base e.file) e) ?_
  refine written.bind (fun finished k _ => ?_) (by rintro f k failed e ⟨⟩; exact failed _ rfl)
  refine Ends.mono (Calm.ends ?_ k) fun r _ mild f same => .inl (mild f same)
  exact conclude_calm mild finished

/-- What is read out of a content is read at positions inside it, whatever the line number; it fails
only for a function whose name is not valid UTF-8, on a line that the content has.  So splitting a
table, whatever its bytes and those of the contents, comes to a defect only over such an entry. -/
theorem split_defect_spoiled (o : Organizer) (table : Input) (sound : h.Sound) :
    (∀ (kind : SymbolKind) (name : Bytes) (src : SourceText) (line : Int),
      Signature.Addressable src → Signature.Wide line →
        Signature.extraText? kind name src line = some (Signature.extraText kind name src line) ∧
        ∀ f, Signature.extraText kind name src line = .error f ↔
          Signature.Spoils kind name src line ∧ f = Signature.badName name) ∧
    (o.split table).Ends h fun r _ => ∀ text, r = .error (.defect text) →
      ∃ e ∈ (o.reading h table).1, o.Spoiled h (base e.file) e := by
  refine ⟨fun kind name src line held wide => ⟨Signature.extraText?_eq kind name held wide,
    fun f => Signature.extraText_eq_error_iff⟩, ?_⟩
  have ended := (splitTable_defect o sound table).holds
  rw [split, ends_iff, on_discard]
  intro text failed
  cases outcome : ((o.splitTable table).on h).1 with
  | ok complete =>
      rw [outcome] at failed
      cases failed
  | error f =>
      rw [outcome] at failed
      cases failed
      exact (ended _ outcome).resolve_left fun mild => mild text rfl

/-- The largest line number is read as nothing, and a table of valid names is split without a defect. -/
theorem split_defect_spoiled_sample :
    Signature.extraText? .function (lit "alpha") [lit "int alpha(void)"] (2 ^ 63 - 1) =
      some (.ok (lit "unknown_t \x7bname\x7d, ???)")) ∧
    (sampleOrganizer.split ⟨sampleTable, none⟩).Ends sampleHost fun r _ =>
      ∀ text, r ≠ .error (.defect text) := by
  obtain ⟨reads, ends⟩ := split_defect_spoiled sampleOrganizer ⟨sampleTable, none⟩ sampleHost_sound
  have valid : ∀ e ∈ (sampleOrganizer.reading sampleHost ⟨sampleTable, none⟩).1, Utf8.valid e.name = true := by
    decide +kernel
  constructor
  · have short : Signature.Addressable [lit "int alpha(void)"] := show 1 < 2 ^ 60 by decide
    rw [(reads _ _ _ _ short ⟨by decide, by decide⟩).1]
    decide +kernel
  · refine ends.mono fun r _ defect text failed => ?_
    obtain ⟨e, member, _, -, spoils⟩ := defect text failed
    exact absurd (valid e member) (by simp [spoils.broken])

/-- A function whose name is a byte that no text has. -/
def brokenTable : Bytes := [255] ++ lit "\t" ++ Layout.objectRef sampleId ++ lit "\t1;\"\tf\n"

/-- Splitting a table with such a name comes to a defect. -/
theorem split_broken_name :
    ((sampleOrganizer.split ⟨brokenTable, none⟩).on sampleHost).1 = .error (Signature.badName [255]) ∧
      ∃ text, Signature.badName [255] = .defect text := by
  exact ⟨by decide +kernel, _, rfl⟩

end Organizer

end SymbolHistory
