/-
# Proofs.RecordedSymbols -- which symbols a project knows of

A pass counts the symbols it writes, and adds them to those that are known of when
it writes down what it came to, which it does last.  A pass that is cut off leaves
what is known as it was (`run_saves`), and also the symbol files it made, which no
later pass makes again.  So after a pass that succeeded the symbols that are known
of are the lines written by the passes that succeeded (`symbols_of_calls`): they
are all lines written exactly if no pass that was cut off wrote one.
-/
import Mathlib.Algebra.Group.Nat.Defs
import SymbolHistory.Proofs.InterruptedPasses
import SymbolHistory.Proofs.PassAccounts
import SymbolHistory.Proofs.SavedCounts

set_option autoImplicit false

namespace SymbolHistory

open SymbolHistory.Path FileTree Run Host

/-! ## Symbol files that are new -/

namespace Layout

variable {l : Layout} {h g k : Host} {made made' : List (Bytes × Bytes)}

/-- A symbol file that is on `g` and was not on `h`. -/
def newFile? (l : Layout) (h g : Host) (name : Bytes) : Option (Bytes × Bytes) :=
  if (h.look (join [l.tags, name])).isOk then none
  else
    match g.look (join [l.tags, name]) with
    | .ok (.file data false) => some (name, data)
    | _ => none

/-- The symbol files that are on `g` and were not on `h`. -/
def newFiles (l : Layout) (h g : Host) : List (Bytes × Bytes) :=
  let names := (g.tree.nodes.filterMap fun node => node.1.getLast?).dedup
  (names.filter fun name => slash ∉ name ∧ name ≠ [] ∧ name ≠ here ∧ name ≠ parent).filterMap (l.newFile? h g)

theorem newFile?_eq_some {name : Bytes} {e : Bytes × Bytes} :
    l.newFile? h g name = some e ↔ e.1 = name ∧
      (h.look (join [l.tags, name])).isOk = false ∧ g.look (join [l.tags, name]) = .ok (.file e.2 false) := by
  rw [newFile?]
  cases before : (h.look (join [l.tags, name])).isOk with
  | true => simp
  | false =>
      rw [if_neg Bool.false_ne_true]
      obtain ⟨name', data'⟩ := e
      split
      · rename_i data found
        rw [found]
        simp only [Option.some.injEq, Prod.mk.injEq, Except.ok.injEq, Node.file.injEq, true_and, and_true]
        exact ⟨fun same => ⟨same.1.symm, same.2⟩, fun same => ⟨same.1.symm, same.2⟩⟩
      · rename_i other
        refine ⟨fun never => absurd never (by simp), fun same => absurd same.2.2 (other data')⟩

/-- All of them are listed, each once. -/
theorem isNew_newFiles (sound : g.Sound) : l.IsNew h (l.newFiles h g) g := by
  have isName : ∀ {name : Bytes}, IsName name ↔ slash ∉ name ∧ name ≠ [] ∧ name ≠ here ∧ name ≠ parent := by
    intro name
    constructor
    · rintro ⟨⟨noSlash, nonempty, notHere⟩, notParent⟩
      exact ⟨noSlash, nonempty, notHere, notParent⟩
    · rintro ⟨noSlash, nonempty, notHere, notParent⟩
      exact ⟨⟨noSlash, nonempty, notHere⟩, notParent⟩
  refine ⟨?_, fun e member => ?_, fun {name data} named => ?_⟩
  · have distinct := (List.nodup_dedup (g.tree.nodes.filterMap fun node => node.1.getLast?)).filter
      fun name => slash ∉ name ∧ name ≠ [] ∧ name ≠ here ∧ name ≠ parent
    refine List.pairwise_map.mpr ?_
    refine List.Pairwise.filterMap _ (fun name name' other e isNew e' isNew' same => other ?_) distinct
    rw [← (newFile?_eq_some.mp isNew).1, ← (newFile?_eq_some.mp isNew').1, same]
  · obtain ⟨name, listed, isNew⟩ := List.mem_filterMap.mp member
    rw [(newFile?_eq_some.mp isNew).1, isName]
    simpa using (List.mem_filter.mp listed).2
  · rw [newFiles, List.mem_filterMap]
    constructor
    · rintro ⟨name', -, isNew⟩
      obtain ⟨rfl, new⟩ := newFile?_eq_some.mp isNew
      exact new
    · intro new
      refine ⟨name, List.mem_filter.mpr ⟨List.mem_dedup.mpr (List.mem_filterMap.mpr ?_), by
        simpa using isName.mp named⟩, newFile?_eq_some.mpr ⟨rfl, new⟩⟩
      have there := ((look_eq_ok_iff sound).mp new.2).2.1
      rw [l.locate_inTags g named, FileTree.get?, if_neg (by simp)] at there
      obtain ⟨node, found, -⟩ := Option.map_eq_some_iff.mp there
      have place := List.find?_some found
      refine ⟨node, List.mem_of_find?_eq_some found, ?_⟩
      rw [beq_iff_eq.mp place, List.getLast?_append]
      rfl

/-- Two lists of the new symbol files have as many lines. -/
theorem IsNew.lineCount_eq (isNew : l.IsNew h made g) (isNew' : l.IsNew h made' g) :
    lineCount made = lineCount made' := by
  have same : made.Perm made' := by
    refine (List.perm_ext_iff_of_nodup isNew.nodup.of_map isNew'.nodup.of_map).mpr fun e => ?_
    obtain ⟨name, data⟩ := e
    constructor
    · intro member
      have named := isNew.isName _ member
      exact (isNew'.mem_iff named).mpr ((isNew.mem_iff named).mp member)
    · intro member
      have named := isNew'.isName _ member
      exact (isNew.mem_iff named).mpr ((isNew'.mem_iff named).mp member)
  exact (same.map _).sum_eq

/-- The lines of the symbol files that are on `g` and were not on `h`. -/
def newLines (l : Layout) (h g : Host) : Nat := lineCount (l.newFiles h g)

/-! ## What is known about the last pass -/

/-- Between `h` and `g` nothing happened to what is known about the last pass. -/
structure SameRecord (l : Layout) (h g : Host) : Prop extends SameSetting h g where
  sound : g.Sound
  record : g.tree.get? (h.locate l.metaFile) = h.tree.get? (h.locate l.metaFile)

namespace SameRecord

theorem of_spares {apart : List Bytes} (spares : l.Spares apart h g) (isApart : metaName ∈ apart) :
    l.SameRecord h g :=
  ⟨spares.toSameSetting, spares.sound, spares.get?_eq (l.locate_metaFile h) isApart⟩

theorem trans (first : l.SameRecord h g) (second : l.SameRecord g k) : l.SameRecord h k := by
  have record := second.record
  rw [locate_of_folder first.folder] at record
  exact ⟨sameSetting_lasting.trans first.toSameSetting second.toSameSetting, second.sound,
    record.trans first.record⟩

theorem of_sameFiles (sound : h.Sound) (same : SameFiles h g) : l.SameRecord h g :=
  ⟨same.toSameSetting, same.sound sound, by rw [same.tree]⟩

theorem sameFiles (rests : l.SameRecord h g) (same : SameFiles g k) : l.SameRecord h k :=
  rests.trans (of_sameFiles rests.sound same)

theorem content (rests : l.SameRecord h g) (sound : h.Sound) :
    g.contentAt? l.metaFile = h.contentAt? l.metaFile :=
  contentAt?_congr sound rests.sound rests.folder rests.record

theorem of_reached {c : Comparison} {diffs : List (Bytes × Bytes)} (reached : c.Reached h diffs g) :
    c.layout.SameRecord h g := by
  refine ⟨reached.toSameSetting, reached.sound, reached.get?_beside ?_ ?_⟩ <;>
    rw [c.layout.locate_diffs, c.layout.locate_metaFile, List.prefix_append_right_inj]
  · rintro ⟨rest, equal⟩
    exact absurd (List.cons.inj equal).1 (by decide)
  · rintro ⟨rest, equal⟩
    exact absurd (List.cons.inj equal).1 (by decide)

end SameRecord

end Layout

/-! ## One pass -/

/-- Organizing leaves what is known as it was. -/
theorem Organizer.run_spares {o : Organizer} {h : Host} (sound : h.Sound) (tidy : o.layout.Tidy)
    (still : ∀ folder paths, (o.generator folder paths).Keeps Quiet) {ids : List Bytes} (nonempty : ids ≠ []) :
    (o.run ids).Ends h fun _ g => o.layout.Spares [Layout.metaName] h g := by
  have tabled := (tabled_spares sound tidy (still o.layout.root (ids.map Layout.objectRef))
    (by decide : ∀ name ∈ [Layout.metaName], _) (by decide)).holds
  refine (run_tabled sound tidy still nonempty (by decide : ∀ name ∈ [Layout.metaName], _)).mono
    fun r g ended => ?_
  generalize (o.tabled ids).on h = outcome at tabled ended
  obtain ⟨outcome, k⟩ := outcome
  cases outcome with
  | error e => exact tabled.trans ended.2
  | ok answer =>
      obtain ⟨made, wrote⟩ := ((settle_ends tabled.2.2.sound ids answer.2).holds).1
      exact (tabled.2.2.trans (wrote.beside (by decide))).trans ended.2

namespace Pipeline

variable {p : Project} {all : List Tag} {known : Tag → List FileEntry × Option Fault} {h g k : Host}

theorem organize_spares {o : Organizer} (sound : h.Sound) (tidy : o.layout.Tidy)
    (still : ∀ folder paths, (o.generator folder paths).Keeps Quiet) (ids : List Bytes) (created : Nat) :
    (organize o ids created).Yields h (fun _ => o.layout.Spares [Layout.metaName] h)
      (o.layout.Spares [Layout.metaName] h) := by
  refine organize_of_run ids created fun k same => ?_
  have start : o.layout.Spares [Layout.metaName] h k := (Layout.Spares.refl sound).quiet same
  by_cases nonempty : ids.filter (o.isPending h) = []
  · rw [nonempty]
    exact (yields_pure () k _ _).mpr start
  · have run := Organizer.run_spares start.sound tidy still nonempty
    exact run.yields (fun _ _ more => start.trans more) fun _ more => start.trans more

/-- What is known about the last pass when nothing is written down, or when a document can be read. -/
def Known (p : Project) (h : Host) (last : IndexMeta) : Prop :=
  h.contentAt? p.layout.metaFile = none ∧ last = {} ∨
    ∃ text, h.contentAt? p.layout.metaFile = some text ∧ IndexMeta.parse text = .ok last

theorem lastRun_ok {last : IndexMeta} (done : p.lastRun.on h = (.ok last, g)) : g = h ∧ Known p h last := by
  obtain ⟨outcome, m, attempted, rest⟩ := on_bind_ok done
  rw [on_attempt] at attempted
  obtain ⟨isOutcome, rfl⟩ := Prod.mk.inj attempted
  obtain rfl := Except.ok.inj isOutcome
  obtain ⟨same, content⟩ := (readFile_ends h p.layout.metaFile).holds
  rw [same] at rest
  cases read : ((readFile p.layout.metaFile).on h).1 with
  | error f =>
      rw [read] at rest content
      dsimp only at rest
      split at rest
      · obtain ⟨isLast, rfl⟩ := Prod.mk.inj rest
        exact ⟨rfl, .inl ⟨content, (Except.ok.inj isLast).symm⟩⟩
      · cases (Prod.mk.inj rest).1
  | ok text =>
      rw [read] at rest content
      have parsed := on_during_ok rest
      rw [on_ofExcept] at parsed
      obtain ⟨isLast, rfl⟩ := Prod.mk.inj parsed
      exact ⟨rfl, .inr ⟨text, content, isLast⟩⟩

def saved (last : IndexMeta) (o : Outcome) (now : Timestamp) : IndexMeta where
  initialVersion := (o.tags.head?.map (·.name)).getD []
  latestVersion := (o.tags.getLast?.map (·.name)).getD []
  tags := o.tags.length
  objects := o.objects
  symbols := IndexMeta.plus last.symbols o.symbols
  diffs := o.tags.length
  runId := o.runId
  updatedAt := now.utc

/-- On `g` a pass that began on `h` has written down what it came to. -/
def SavedOn (p : Project) (now : Timestamp) (h : Host) (outcome : Outcome) (g : Host) : Prop :=
  ∃ last, Known p h last ∧ g.contentAt? p.layout.metaFile = some (saved last outcome now).write

theorem writeMeta_ok (sound : h.Sound) {outcome : Outcome} {now : Timestamp}
    (done : (writeMeta p outcome now).on h = (.ok (), g)) : SavedOn p now h outcome g := by
  have isName : IsName Layout.metaName := ⟨⟨by decide, by decide, by decide⟩, by decide⟩
  obtain ⟨last, m, looked, saving⟩ := on_bind_ok done
  obtain ⟨rfl, isKnown⟩ := lastRun_ok looked
  have written := (AtomicFile.writeAll_yields (d := p.layout.root) sound isName _).of_ok (on_during_ok saving)
  refine ⟨last, isKnown, ?_⟩
  rw [Layout.metaFile, Layout.file, contentAt?, written.2]
  rfl

/-- Stage by stage, what is known stays as it is until what the pass came to is written down. -/
theorem stages_save {source : Source} {generator : Generator} (sound : h.Sound) (tidy : p.layout.Tidy)
    (empty : h.tally.cache.entries = []) (fixed : source.Fixed (p.layout.Usual h) all known)
    (still : ∀ folder paths, (generator folder paths).Keeps Quiet)
    (names : ∀ tag ∈ p.indexed all known, IsName (Tag.fileName tag.name)) (tools : Tools) (runId : Bytes) :
    (stages p source generator tools p.fileFilter runId).Yields h (SavedOn p tools.now h)
      (p.layout.SameRecord h) := by
  let x := extractor p source tools h
  have start : p.layout.Spares [Layout.metaName] h h := Layout.Spares.refl sound
  have leave : ∀ {g}, p.layout.Spares [Layout.metaName] h g → p.layout.SameRecord h g :=
    fun spares => .of_spares spares List.mem_cons_self
  have extract : ∀ g, Quiet h g → (x.writeObjects (p.contentIds all known)).Yields g
      (fun _ => p.layout.Spares [Layout.metaName] h) (p.layout.SameRecord h) := fun g same =>
    (Extractor.writeObjects_yields rfl (by decide) (fun spares => spares.usual) fixed.blobs
      (start.quiet same) _).mono (fun _ _ stored => stored) fun _ => leave
  have organize : ∀ g k created, p.layout.Spares [Layout.metaName] h g → Quiet g k →
      (organize ⟨p.layout, generator⟩ (p.contentIds all known) created).Yields k
        (fun _ => p.layout.Spares [Layout.metaName] h) (p.layout.SameRecord h) := by
    intro g k created stored same
    have stored := stored.quiet same
    exact (organize_spares (o := ⟨p.layout, generator⟩) stored.sound tidy still _ created).mono
      (fun _ _ more => stored.trans more) fun _ more => leave (stored.trans more)
  have list : ∀ pending g k, p.layout.Spares [Layout.metaName] h g → Quiet g k →
      (listNames p.layout pending).Yields k (fun _ => p.layout.Spares [Layout.metaName] h)
        (p.layout.SameRecord h) := by
    intro pending g k organized same
    have organized := organized.quiet same
    exact (listNames_yields organized.sound p.layout pending
      (by decide : _ ∉ [Layout.tagsName, Layout.metaName]) (by decide)).mono
      (fun _ _ listed => organized.trans (listed.1.fewer (by decide)))
      fun _ (spares : p.layout.Spares [Layout.metaName] k _) => leave (organized.trans spares)
  have compare : ∀ g k, p.layout.Spares [Layout.metaName] h g → Quiet g k →
      (({ layout := p.layout, walker := .filtered x, order := tools.order } : Comparison).run
        (p.indexed all known)).Yields k
        (fun _ => p.layout.SameRecord h) (p.layout.SameRecord h) := by
    intro g k listed same
    have listed := listed.quiet same
    let c : Comparison := { layout := p.layout, walker := .filtered x, order := tools.order }
    have steady : c.walker.source.Steady (p.layout.Usual k) known :=
      fixed.steady.mono fun usual => listed.usual.trans usual
    have cold : ∀ e ∈ k.tally.cache.entries,
        ObjectId.isValid e.1 = true ∧ e.2 = p.layout.symbolsAt k e.1 := by
      rw [listed.cache, empty]
      simp
    exact (Comparison.run_yields (c := c) listed.sound steady cold names).mono
      (fun _ _ reached => (leave listed).trans (.of_reached (c := c) reached))
      fun _ part => (leave listed).trans (part.elim fun _ cut => .of_reached (c := c) cut.2)
  have save : ∀ g k outcome, p.layout.SameRecord h g → Quiet g k → outcome.tags = p.indexed all known →
      (writeMeta p outcome tools.now).Yields k (fun _ m => ∀ n, Quiet m n → SavedOn p tools.now h outcome n)
        (p.layout.SameRecord h) := by
    intro g k outcome compared same _
    have rests := compared.sameFiles same.toSameFiles
    refine yields_of_on (fun _ m done n same' => ?_) fun f m done => ?_
    · obtain ⟨last, isKnown, written⟩ := writeMeta_ok rests.sound done
      refine ⟨last, ?_, ?_⟩
      · rwa [Known, rests.content sound] at isKnown
      · rw [contentAt?, look_of_sameFiles same'.toSameFiles]
        exact written
    · have cut : p.layout.Spares [Layout.metaName] k m :=
        (writeMeta_yields rests.sound outcome tools.now).of_error done
      exact rests.trans (.of_spares cut (List.mem_singleton_self Layout.metaName))
  exact stages_of_stages x rfl (fixed.mono fun same => .sameFiles same.toSameFiles) extract organize list
    compare save (fun rests same => rests.sameFiles same.toSameFiles) (fun same => leave (start.quiet same))
    runId

/-- A pass that succeeds writes down what it came to, and one that is cut off leaves what is known. -/
theorem run_saves (sound : h.Sound) (tidy : p.layout.Tidy) {tools : Tools}
    (serves : tools.Serves p (p.layout.Usual h) all known)
    (names : ∀ tag ∈ p.indexed all known, IsName (Tag.fileName tag.name)) :
    (run p tools).Yields h (SavedOn p tools.now h) (p.layout.SameRecord h) := by
  refine run_of_stages (fun g same => serves.source g (.sameFiles same.toSameFiles)) serves.generator
    (fun m source generator runId same _ zero fixed still => ?_) ?_ (fun rests same => rests.sameFiles same)
    fun same => .of_sameFiles sound same.toSameFiles
  · have fixed : source.Fixed (p.layout.Usual m) all known :=
      fixed.mono fun usual => (Layout.Usual.sameFiles same).trans usual
    have before : p.layout.SameRecord h m := .of_sameFiles sound same
    refine (stages_save before.sound tidy (by rw [zero]; rfl) fixed still names tools runId).mono ?_
      fun _ rests => before.trans rests
    rintro outcome k ⟨last, isKnown, written⟩
    refine ⟨last, ?_, written⟩
    rwa [Known, before.content sound] at isKnown
  · rintro outcome g k ⟨last, isKnown, written⟩ same
    refine ⟨last, isKnown, ?_⟩
    rw [contentAt?, look_of_sameFiles same]
    exact written

/-! ## Pass after pass, cut off or not -/

/-- What a pass needs: versions that are fixed while it runs, and a generator that neither changes a
file nor counts anything. -/
structure Working (p : Project) (tools : Tools) (all : List Tag) (known : Tag → List FileEntry × Option Fault)
    (h : Host) : Prop where
  sound : h.Sound
  busy : 0 < h.processors
  serves : tools.Serves p (p.layout.Usual h) all known
  told : ∀ generator, tools.generator = some generator →
    ∀ folder paths, (generator folder paths).Keeps SameCounts
  valid : ∀ id ∈ p.contentIds all known, ObjectId.isValid id = true
  names : ∀ tag ∈ p.indexed all known, IsName (Tag.fileName tag.name)
  tags : (p.indexed all known).length < Decimal.signedLimit
  contents : (p.contentIds all known).length < Decimal.signedLimit

/-- Passes one after another, and of each whether it succeeded and how many lines the symbol files
have that it made.  Between them anything may happen but to what is known about the last pass: the
versions of one pass need not be those of another. -/
inductive Recorded (p : Project) : Host → List (Bool × Nat) → Host → Prop where
  | start (h : Host) : Recorded p h [] h
  | call {h g g' k : Host} {calls : List (Bool × Nat)} {outcome : Except Fault Outcome} {tools : Tools}
      {all : List Tag} {known : Tag → List FileEntry × Option Fault} (earlier : Recorded p h calls g)
      (same : g'.contentAt? p.layout.metaFile = g.contentAt? p.layout.metaFile)
      (working : Working p tools all known g') (ended : (run p tools).on g' = (outcome, k)) :
      Recorded p h (calls ++ [(outcome.isOk, p.layout.newLines g' k)]) k

def written (calls : List (Bool × Nat)) : Nat := (calls.map (·.2)).sum

/-- The lines written by the passes that succeeded. -/
def succeeded (calls : List (Bool × Nat)) : Nat := written (calls.filter (·.1))

/-- The lines written by the passes that were cut off. -/
def cutOff (calls : List (Bool × Nat)) : Nat := written (calls.filter fun call => !call.1)

theorem written_append (calls more : List (Bool × Nat)) :
    written (calls ++ more) = written calls + written more := by
  rw [written, List.map_append, List.sum_append, written, written]

theorem written_eq (calls : List (Bool × Nat)) : written calls = succeeded calls + cutOff calls := by
  induction calls with
  | nil => rfl
  | cons call calls ih =>
      rw [← List.singleton_append, written_append, ih, succeeded, succeeded, cutOff, cutOff,
        List.filter_append, List.filter_append, written_append, written_append]
      obtain ⟨ok, lines⟩ := call
      cases ok <;> simp [written] <;> omega

/-- What is known on `h` after some passes: nothing if all of them were cut off, and otherwise as many
symbols as those wrote that succeeded. -/
def Holds (p : Project) (calls : List (Bool × Nat)) (h : Host) : Prop :=
  (∀ call ∈ calls, call.1 = false) ∧ h.contentAt? p.layout.metaFile = none ∨
    ∃ m : IndexMeta, h.contentAt? p.layout.metaFile = some m.write ∧ m.Fits ∧ m.symbols = succeeded calls

theorem succeeded_of_cutOff {calls : List (Bool × Nat)} (all : ∀ call ∈ calls, call.1 = false) :
    succeeded calls = 0 := by
  rw [succeeded, List.filter_eq_nil_iff.mpr fun call member => by simp [all call member]]
  rfl

theorem succeeded_append (calls more : List (Bool × Nat)) :
    succeeded (calls ++ more) = succeeded calls + succeeded more := by
  rw [succeeded, List.filter_append, written_append, succeeded, succeeded]

/-- The symbols that are known of are those that the passes so far have written down. -/
theorem Holds.symbols {calls : List (Bool × Nat)} {last : IndexMeta} (holds : Holds p calls h)
    (isKnown : Known p h last) : last.symbols = succeeded calls := by
  rcases holds with ⟨all, nothing⟩ | ⟨m, content, fits, symbols⟩
  · rw [succeeded_of_cutOff all]
    rcases isKnown with ⟨-, rfl⟩ | ⟨text, there, -⟩
    · rfl
    · rw [nothing] at there
      cases there
  · rcases isKnown with ⟨nothing, -⟩ | ⟨text, there, read⟩
    · rw [nothing] at content
      cases content
    · rw [content] at there
      obtain rfl := Option.some.inj there
      rw [IndexMeta.symbols_of_parse fits read, symbols]

theorem plus_natCast {n more : Nat} (small : n + more < Decimal.signedLimit) :
    IndexMeta.plus n more = ((n + more : Nat) : Int) := by
  rw [Decimal.signedLimit] at small
  rw [IndexMeta.plus, Int.bmod_def]
  split <;> omega

/-- A pass that succeeds adds the lines it wrote. -/
theorem holds_saved {calls : List (Bool × Nat)} {tools : Tools} {outcome : Outcome} (tidy : p.layout.Tidy)
    (working : Working p tools all known h) (holds : Holds p calls h)
    (success : (run p tools).on h = (.ok outcome, g))
    (small : succeeded calls + p.layout.newLines h g < Decimal.signedLimit) :
    Holds p (calls ++ [(true, p.layout.newLines h g)]) g := by
  obtain ⟨last, isKnown, written⟩ := (run_saves working.sound tidy working.serves working.names).of_ok success
  have accounts := run_accounts working.sound tidy working.busy working.serves working.told working.valid
    working.names success
  obtain ⟨made, isNew, symbols⟩ := accounts.symbols
  have sound : g.Sound :=
    ((run_yields working.sound tidy (fun usual => usual) working.serves working.names).of_ok success).1.sound
  have lines : outcome.symbols = p.layout.newLines h g :=
    symbols.trans (isNew.lineCount_eq (Layout.isNew_newFiles sound))
  have total : (saved last outcome tools.now).symbols =
      ((succeeded calls + p.layout.newLines h g : Nat) : Int) := by
    rw [← plus_natCast small, ← lines, ← holds.symbols isKnown]
    rfl
  have tags : (saved last outcome tools.now).tags = ((p.indexed all known).length : Int) := by
    rw [← accounts.tags]
    rfl
  have objects : (saved last outcome tools.now).objects = ((p.contentIds all known).length : Int) := by
    rw [← accounts.objects]
    rfl
  have natural : ∀ {i : Int} {n : Nat}, i = n → n < Decimal.signedLimit → 0 ≤ i ∧ i < Decimal.signedLimit := by
    rintro _ n rfl small
    exact ⟨Int.natCast_nonneg n, Int.ofNat_lt.mpr small⟩
  have fits : (saved last outcome tools.now).Fits :=
    ⟨natural tags working.tags, natural objects working.contents, natural total small,
      natural tags working.tags⟩
  refine .inr ⟨_, written, fits, ?_⟩
  rw [total, succeeded_append]
  rfl

/-- A pass that is cut off leaves what is known as it was. -/
theorem holds_kept {calls : List (Bool × Nat)} {tools : Tools} {f : Fault} (tidy : p.layout.Tidy)
    (working : Working p tools all known h) (holds : Holds p calls h)
    (failure : (run p tools).on h = (.error f, g)) (lines : Nat) : Holds p (calls ++ [(false, lines)]) g := by
  have kept := ((run_saves working.sound tidy working.serves working.names).of_error failure).content
    working.sound
  rcases holds with ⟨all, nothing⟩ | ⟨m, content, fits, symbols⟩
  · refine .inl ⟨fun call member => ?_, kept.trans nothing⟩
    rcases List.mem_append.mp member with before | isLast
    · exact all call before
    · rw [List.mem_singleton.mp isLast]
  · refine .inr ⟨m, kept.trans content, fits, ?_⟩
    rw [symbols, succeeded_append]
    rfl

/-- After any passes what is known is what those wrote down that succeeded. -/
theorem Recorded.holds {calls : List (Bool × Nat)} (recorded : Recorded p h calls g) (tidy : p.layout.Tidy)
    (fresh : h.contentAt? p.layout.metaFile = none) (small : succeeded calls < Decimal.signedLimit) :
    Holds p calls g := by
  -- on the passes in turn: what was known before the last one is known when it begins
  induction recorded with
  | start => exact .inl ⟨by simp, fresh⟩
  | call earlier same working ended ih =>
      rename_i g g' k calls outcome tools all known
      rw [succeeded_append] at small
      have before := ih (by omega)
      rw [Holds, ← same] at before
      cases outcome with
      | error f => exact holds_kept tidy working before ended _
      | ok outcome => exact holds_saved tidy working before ended small

theorem mended_working (table : Bytes) (sound : h.Sound) (busy : 0 < h.processors) :
    Working mendedProject (mendedTools table) mendedSource.tags (Source.answer mendedSource) h where
  sound := sound
  busy := busy
  serves := mendedTools_serves _ _
  told := mendedTools_told _
  valid := by decide +kernel
  names := mended_names
  tags := by decide +kernel
  contents := by decide +kernel

/-- The pass that was cut off wrote a line, and the others none.  At the end no symbol is known of. -/
theorem resumed_lines :
    mendedProject.layout.newLines unpassed spoiled = 0 ∧ mendedProject.layout.newLines spoiled halted = 1 ∧
    mendedProject.layout.newLines halted resumed = 0 ∧ 0 < spoiled.processors ∧ 0 < halted.processors ∧
    (mendedProject.lastRun.on resumed).1.toOption.map (·.symbols) = some 0 := by
  decide +kernel

end Pipeline

end SymbolHistory
