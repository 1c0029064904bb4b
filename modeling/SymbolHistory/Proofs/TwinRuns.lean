/-
# Proofs.TwinRuns -- the same work on two hosts

`Agree R x y` speaks about two runs at once: begun on hosts that `R` relates, `x`
and `y` come to the same, failures included, and leave hosts that `R` relates
(`AgreeAt`).  It is closed under everything a `Run` is put together from.

Two hosts are `Alike` if only their reports and what the parts of the index
remember may differ.  No program and nothing that handles files asks for either,
so such work agrees with itself on alike hosts (`Blind`): what it does there is a
function of the files, the setting and the two limits alone.
-/
import SymbolHistory.Proofs.Walks
import SymbolHistory.Proofs.Files

set_option autoImplicit false

namespace SymbolHistory

open SymbolHistory.Path FileTree Host

namespace Run

variable {α β : Type} {R : Host → Host → Prop}

/-- Begun on `h` and on `g`, `x` and `y` come to the same and leave hosts that `R` relates. -/
def AgreeAt (R : Host → Host → Prop) (h g : Host) (x y : Run α) : Prop :=
  (x.on h).1 = (y.on g).1 ∧ R (x.on h).2 (y.on g).2

/-- Begun on hosts that `R` relates, `x` and `y` come to the same and leave such hosts. -/
def Agree (R : Host → Host → Prop) (x y : Run α) : Prop := ∀ ⦃h g⦄, R h g → AgreeAt R h g x y

namespace AgreeAt

variable {h g : Host}

/-- Work after work.  The first may leave hosts that are known better. -/
theorem bind_of {S : Host → Host → Prop} {x y : Run α} {f f' : α → Run β}
    (first : AgreeAt S h g x y) (implies : ∀ {h g}, S h g → R h g)
    (second : ∀ a ⦃h g⦄, S h g → AgreeAt R h g (f a) (f' a)) : AgreeAt R h g (x >>= f) (y >>= f') := by
  obtain ⟨same, related⟩ := first
  rw [AgreeAt, on_bind, on_bind]
  generalize x.on h = left at same related ⊢
  generalize y.on g = right at same related ⊢
  obtain ⟨outcome, h⟩ := left
  obtain ⟨outcome', g⟩ := right
  obtain rfl : outcome = outcome' := same
  cases outcome with
  | ok a => exact second a related
  | error e => exact ⟨rfl, implies related⟩

theorem bind {x y : Run α} {f f' : α → Run β} (first : AgreeAt R h g x y)
    (second : ∀ a, Agree R (f a) (f' a)) : AgreeAt R h g (x >>= f) (y >>= f') :=
  first.bind_of (fun related => related) second

theorem map {x y : Run α} (agree : AgreeAt R h g x y) (f : α → β) :
    AgreeAt R h g (f <$> x) (f <$> y) := by
  obtain ⟨same, related⟩ := agree
  rw [AgreeAt, on_map, on_map, same]
  exact ⟨rfl, related⟩

theorem during {x y : Run α} (agree : AgreeAt R h g x y) (activity : Bytes) :
    AgreeAt R h g (Run.during activity x) (Run.during activity y) := by
  obtain ⟨same, related⟩ := agree
  rw [AgreeAt, on_during, on_during, same]
  exact ⟨rfl, related⟩

end AgreeAt

namespace Agree

theorem pure (R : Host → Host → Prop) (a : α) : Agree R (Pure.pure a) (Pure.pure a) :=
  fun _ _ related => ⟨rfl, related⟩

theorem throw (R : Host → Host → Prop) (f : Fault) :
    Agree R (MonadExcept.throw f : Run α) (MonadExcept.throw f) :=
  fun _ _ related => ⟨rfl, related⟩

theorem ofExcept (R : Host → Host → Prop) (outcome : Except Fault α) :
    Agree R (Run.ofExcept outcome) (Run.ofExcept outcome) := by
  intro h g related
  rw [AgreeAt, on_ofExcept, on_ofExcept]
  exact ⟨rfl, related⟩

theorem bind {x y : Run α} {f f' : α → Run β} (first : Agree R x y)
    (second : ∀ a, Agree R (f a) (f' a)) : Agree R (x >>= f) (y >>= f') :=
  fun _ _ related => (first related).bind second

/-- Work that begins with a look at the host. -/
theorem get_bind {f f' : Host → Run α} (each : ∀ ⦃h g⦄, R h g → AgreeAt R h g (f h) (f' g)) :
    Agree R (get >>= f) (get >>= f') := by
  intro h g related
  rw [AgreeAt, on_bind, on_bind]
  exact each related

theorem modify {f f' : Host → Host} (each : ∀ ⦃h g⦄, R h g → R (f h) (f' g)) :
    Agree R (modify f : Run Unit) (modify f') :=
  fun _ _ related => ⟨rfl, each related⟩

theorem attempt {x y : Run α} (agree : Agree R x y) : Agree R (Run.attempt x) (Run.attempt y) := by
  intro h g related
  obtain ⟨same, related⟩ := agree related
  rw [AgreeAt, on_attempt, on_attempt, same]
  exact ⟨rfl, related⟩

theorem during {x y : Run α} (agree : Agree R x y) (activity : Bytes) :
    Agree R (Run.during activity x) (Run.during activity y) :=
  fun _ _ related => (agree related).during activity

theorem ensuring {x y : Run α} {cleanup : Run Unit} (agree : Agree R x y)
    (cleans : Agree R cleanup cleanup) : Agree R (Run.ensuring x cleanup) (Run.ensuring y cleanup) := by
  refine agree.attempt.bind fun outcome => cleans.bind fun _ => ?_
  cases outcome with
  | ok a => exact pure R a
  | error f => exact throw R f

theorem map {x y : Run α} (agree : Agree R x y) (f : α → β) : Agree R (f <$> x) (f <$> y) :=
  fun _ _ related => (agree related).map f

theorem forM {f : α → Run Unit} (each : ∀ a, Agree R (f a) (f a)) :
    ∀ xs : List α, Agree R (xs.forM f) (xs.forM f)
  | [] => pure R ()
  | x :: xs => (each x).bind fun _ => forM each xs

/-- A stage agrees where its work does, on a relation that does not mind what is shown of it. -/
theorem stage {name : String} {total : Int} {x y : Run α}
    (changes : ∀ f, Agree R (Host.changeStage f) (Host.changeStage f))
    (starts : Agree R (Host.startStage name total) (Host.startStage name total))
    (agree : Agree R x y) : Agree R (Host.stage name total x) (Host.stage name total y) :=
  starts.bind fun _ => agree.ensuring (changes _)

end Agree

end Run

open Run (Agree)

namespace Host

/-! ## Hosts that differ in what is reported and remembered -/

/-- The host with other reports, whose parts remember something else. -/
def beside (h : Host) (journal : List Journal.Entry) (tally : Tally) : Host :=
  { h with journal, tally }

section

variable (h : Host) (journal : List Journal.Entry) (tally : Tally)

@[simp] theorem beside_tree : (h.beside journal tally).tree = h.tree := rfl

@[simp] theorem beside_interrupt : (h.beside journal tally).interrupt = h.interrupt := rfl

@[simp] theorem beside_room : (h.beside journal tally).room = h.room := rfl

@[simp] theorem beside_temporary : (h.beside journal tally).temporary = h.temporary := rfl

@[simp] theorem beside_locate (p : Bytes) : (h.beside journal tally).locate p = h.locate p := rfl

@[simp] theorem beside_look (p : Bytes) : (h.beside journal tally).look p = h.look p := rfl

@[simp] theorem beside_admits (p : Bytes) : (h.beside journal tally).admits p = h.admits p := rfl

end

/-- Only the reports and what the parts of the index remember may differ. -/
def Alike (h g : Host) : Prop := ∃ journal tally, g = h.beside journal tally

namespace Alike

variable {h g k : Host}

theorem refl (h : Host) : Alike h h := ⟨h.journal, h.tally, rfl⟩

theorem sameFiles (alike : Alike h g) : SameFiles h g := by
  obtain ⟨journal, tally, rfl⟩ := alike
  exact ⟨⟨rfl, rfl, rfl⟩, rfl⟩

theorem sound (alike : Alike h g) (sound : h.Sound) : g.Sound := alike.sameFiles.sound sound

end Alike

/-- Work that does the same on hosts that are alike. -/
def Blind {α : Type} (work : Run α) : Prop := Agree Alike work work

section

variable {α : Type}

/-- A change that does not look at what is reported and remembered. -/
theorem blind_modify {f : Host → Host}
    (each : ∀ h journal tally, Alike (f h) (f (h.beside journal tally))) :
    Blind (modify f : Run Unit) := by
  apply Agree.modify
  rintro h _ ⟨journal, tally, rfl⟩
  exact each h journal tally

/-- Work that begins with a look at the host, but not at what is reported and remembered. -/
theorem blind_get_bind {f : Host → Run α} (same : ∀ h journal tally, f (h.beside journal tally) = f h)
    (each : ∀ h, Blind (f h)) : Blind (get >>= f) := by
  apply Agree.get_bind
  rintro h _ ⟨journal, tally, rfl⟩
  rw [same]
  apply each h
  exact ⟨journal, tally, rfl⟩

theorem blind_remember (f : Tally → Tally) : Blind (remember f) :=
  blind_modify fun _ journal tally => ⟨journal, f tally, rfl⟩

theorem reportIn_agree (context : List Journal.Attribute) (level : Journal.Level) (message : String)
    (attributes attributes' : List (String × Journal.Value)) :
    Agree Alike (reportIn context level message attributes)
      (reportIn context level message attributes') := by
  apply Agree.modify
  rintro h _ ⟨journal, tally, rfl⟩
  exact ⟨_, tally, rfl⟩

/-- Reports may say different things on alike hosts. -/
theorem report_agree (level : Journal.Level) (message : String)
    (attributes attributes' : List (String × Journal.Value)) :
    Agree Alike (report level message attributes) (report level message attributes') := by
  apply Agree.get_bind
  rintro h _ ⟨journal, tally, rfl⟩
  exact reportIn_agree h.context level message attributes attributes' ⟨journal, tally, rfl⟩

theorem blind_count (f : Metrics → Metrics) : Blind (count f) :=
  blind_modify fun _ journal tally => ⟨journal, tally, rfl⟩

theorem blind_startStage (name : String) (total : Int) : Blind (startStage name total) :=
  blind_modify fun _ journal tally => ⟨journal, tally, rfl⟩

theorem blind_changeStage (f : Progress → Progress) : Blind (changeStage f) :=
  blind_modify fun _ journal tally => ⟨journal, tally, rfl⟩

theorem blind_advanceStage : Blind advanceStage := blind_changeStage _

theorem blind_checkpoint : Blind Run.checkpoint := by
  apply Agree.get_bind
  rintro h _ ⟨journal, tally, rfl⟩
  rw [beside_interrupt]
  rcases h.interrupt with _ | _ | n
  all_goals exact ⟨rfl, journal, tally, rfl⟩

/-! ## Files -/

theorem blind_system (operation : String) (p : Bytes) (answer : Except SystemError α) :
    Blind (system operation p answer) := by
  cases answer with
  | ok a => exact Agree.pure _ a
  | error e => exact Agree.throw _ _

theorem blind_isThere (p : Bytes) : Blind (isThere p) :=
  blind_get_bind (fun _ _ _ => rfl) fun _ => Agree.pure _ _

theorem blind_readFile (p : Bytes) : Blind (readFile p) := by
  refine blind_get_bind (fun _ _ _ => rfl) fun h => ?_
  refine (blind_system "open" p (h.look p)).bind fun node => ?_
  cases node with
  | file content executable => exact Agree.pure _ content
  | folder => exact Agree.throw _ _

theorem blind_place (p : Bytes) (n : Node) : Blind (place p n) :=
  blind_modify fun _ journal tally => ⟨journal, tally, rfl⟩

theorem blind_makeFolder (p : Bytes) : Blind (makeFolder p) := by
  refine blind_get_bind (fun _ _ _ => rfl) fun h => ?_
  cases h.look p with
  | ok node =>
      cases node with
      | folder => exact Agree.pure _ ()
      | file content executable => exact Agree.throw _ _
  | error e => exact (blind_system "mkdir" p (h.admits p)).bind fun _ => blind_place p .folder

theorem blind_makeFolders (p : Bytes) : Blind (makeFolders p) :=
  Agree.forM blind_makeFolder (ancestors p)

theorem blind_takeRoom (p : Bytes) (n : Nat) : Blind (takeRoom p n) := by
  apply Agree.get_bind
  rintro h _ ⟨journal, tally, rfl⟩
  rw [beside_room]
  cases h.room with
  | none => exact ⟨rfl, journal, tally, rfl⟩
  | some free =>
      simp only
      split
      all_goals exact ⟨rfl, journal, tally, rfl⟩

theorem blind_append (p data : Bytes) : Blind (append p data) := by
  refine (blind_takeRoom p data.length).bind fun _ => ?_
  refine blind_get_bind (fun _ _ _ => rfl) fun h => ?_
  split
  · exact blind_place p _
  · exact Agree.pure _ ()

theorem blind_createTemporary (inside stem : Bytes) : Blind (createTemporary inside stem) := by
  apply Agree.get_bind
  rintro h _ ⟨journal, tally, rfl⟩
  -- the number is taken from the files, which are the same
  simp only [beside_tree, beside_locate, beside_temporary, beside_admits]
  have counted : ∀ n, Run.AgreeAt Alike h (h.beside journal tally) (set { h with temporary := n })
      (set { h.beside journal tally with temporary := n }) := fun n => ⟨rfl, journal, tally, rfl⟩
  refine (counted _).bind fun _ => (blind_system "open" _ _).bind fun _ => ?_
  exact (blind_place _ _).bind fun _ => Agree.pure _ _

theorem blind_removeFile (p : Bytes) : Blind (removeFile p) := by
  refine blind_modify fun h journal tally => ?_
  simp only [beside_look]
  split
  · exact ⟨journal, tally, rfl⟩
  · exact ⟨journal, tally, rfl⟩

theorem blind_rename (old new : Bytes) : Blind (rename old new) := by
  rintro h _ ⟨journal, tally, rfl⟩
  simp only [rename, Run.AgreeAt, Run.on_bind, Run.on_get, beside_look, beside_admits]
  cases h.look old with
  | error e => exact ⟨rfl, journal, tally, rfl⟩
  | ok node =>
      simp only
      split
      · exact ⟨rfl, journal, tally, rfl⟩
      · cases h.admits new with
        | error e => exact ⟨rfl, journal, tally, rfl⟩
        | ok _ => exact ⟨rfl, journal, tally, rfl⟩

end

end Host

open Host

/-! ## Files that appear in one step -/

namespace AtomicFile

theorem blind_create (dest : Bytes) : Blind (create dest) :=
  ((blind_makeFolders _).during _).bind fun _ =>
    ((blind_createTemporary _ stem).during _).bind fun _ => Agree.pure _ _

theorem blind_place (f : AtomicFile) : Blind f.place := by
  refine (blind_rename f.temp f.dest).attempt.bind fun outcome => ?_
  cases outcome with
  | ok _ => exact Agree.pure _ _
  | error e => exact (blind_removeFile f.temp).bind fun _ => Agree.pure _ _

theorem blind_finish (f : AtomicFile) (how : Finish) : Blind (f.finish how) := by
  unfold finish
  split
  · exact Agree.pure _ _
  · exact Agree.pure _ _
  · exact f.blind_place.bind fun _ => Agree.pure _ _
  · exact (blind_removeFile f.temp).bind fun _ => Agree.pure _ _

theorem blind_writeAll (dest data : Bytes) : Blind (writeAll dest data) := by
  refine (blind_create dest).bind fun f => ?_
  refine ((blind_append f.temp data).during _).attempt.bind fun outcome => ?_
  cases outcome with
  | ok _ =>
      refine ((f.blind_finish .commit).bind fun _ => Agree.ofExcept _ _).bind fun _ => ?_
      exact Agree.pure _ _
  | error e => exact ((f.blind_finish .abort).map _).bind fun _ => Agree.throw _ e

end AtomicFile

namespace ObjectStore

theorem blind_checkId (verb : String) (id : Bytes) : Blind (checkId verb id) :=
  (Agree.ofExcept _ _).during _

theorem blind_read (s : ObjectStore) (id : Bytes) : Blind (s.read id) :=
  (blind_checkId "read" id).bind fun _ => (blind_readFile _).during _

theorem blind_write (s : ObjectStore) (id data : Bytes) : Blind (s.write id data) := by
  refine (blind_checkId "write" id).bind fun _ => (blind_isThere _).bind fun there => ?_
  cases there with
  | true => exact Agree.pure _ false
  | false =>
      exact ((AtomicFile.blind_writeAll _ data).during _).bind fun _ => Agree.pure _ true

end ObjectStore

/-! ## Programs -/

namespace Process

theorem repository?_of_alike {h g : Host} (alike : Alike h g) (fuel : Nat) (l : Location) :
    repository? g fuel l = repository? h fuel l := by
  obtain ⟨journal, tally, rfl⟩ := alike
  induction fuel generalizing l with
  | zero => rfl
  | succ fuel ih =>
      simp only [repository?, ih]
      rfl

theorem carryOut_of_alike {h g : Host} (alike : Alike h g) (p : Process) (found : Program) :
    carryOut g p found = carryOut h p found := by
  have asked : ∀ folder args input,
      askArchive g folder args input = askArchive h folder args input := by
    intro folder args input
    simp only [askArchive, repository?_of_alike alike]
    obtain ⟨journal, tally, rfl⟩ := alike
    rfl
  cases found with
  | archive =>
      simp only [carryOut, asked, alike.sameFiles.tree]
      obtain ⟨journal, tally, rfl⟩ := alike
      rfl
  | utility name =>
      obtain ⟨journal, tally, rfl⟩ := alike
      rfl
  | script path text =>
      obtain ⟨journal, tally, rfl⟩ := alike
      rfl

theorem blind_launch (p : Process) : Blind p.launch := by
  refine blind_get_bind (fun _ _ _ => rfl) fun h => ?_
  refine (Agree.ofExcept _ _).bind fun found => blind_checkpoint.bind fun _ => ?_
  split
  · split
    · exact (Agree.throw _ _).bind fun _ => Agree.pure _ found
    · exact (Agree.throw _ _).bind fun _ => Agree.pure _ found
    · exact Agree.pure _ found
  · exact Agree.pure _ found

theorem blind_run (p : Process) : Blind p.run := by
  refine p.blind_launch.bind fun found => Agree.get_bind ?_
  intro h g alike
  simp only [carryOut_of_alike alike]
  obtain ⟨journal, tally, rfl⟩ := alike
  exact ⟨rfl, journal, tally, rfl⟩

end Process

namespace Source

/-- What a source lists does not depend on what was reported and remembered. -/
theorem blind_listing (source : Source) (tag : Tag) : Blind (source.listing tag) := by
  cases source with
  | memory m =>
      simp only [listing]
      cases m.entries tag with
      | error f => exact Agree.pure _ _
      | ok entries => exact Agree.pure _ _
  | git g =>
      have files : Blind (g.files tag) := by
        refine ((Process.blind_run _).during _).bind fun o => ?_
        split
        · exact Agree.pure _ _
        · exact Agree.pure _ _
      refine files.attempt.bind fun outcome => ?_
      cases outcome with
      | error f => exact Agree.pure _ _
      | ok answer => exact Agree.pure _ answer

end Source

end SymbolHistory
