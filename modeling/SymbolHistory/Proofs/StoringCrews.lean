/-
# Proofs.StoringCrews -- storing contents with several workers

Ids are handed out to workers one by one.  A worker looks whether the content is
there, reads it, verifies it and writes it, and meanwhile the others do the same
with other ids.  Each may fail at any point, which stops the handing out but not
the others at once.  `Step` is one step of one of them, in any interleaving.

What a step keeps is `Crew.Fits`.  An id is waiting, in one worker's hands, or
settled, and the location of its content is nobody else's business; so what a
worker found out about it stays true until the worker acts on it.  What is put
into the store was verified, and nothing that was there is touched.
-/
import Mathlib.Data.List.Nodup
import Mathlib.Logic.Relation
import SymbolHistory.Proofs.ConcurrentWrites
import SymbolHistory.Proofs.StoredContents

set_option autoImplicit false

namespace SymbolHistory

open SymbolHistory.Path FileTree Run Host

/-- Every content in a store has the id it is stored under. -/
def ObjectStore.Genuine (s : ObjectStore) (h : Host) : Prop :=
  ∀ id data, ObjectId.isValid id = true → h.contentAt? (s.path id) = some data →
    ObjectId.verify id data = .ok ()

namespace Extractor

/-! ## Steps -/

/-- How far a worker has come with a content. -/
inductive Phase where
  /-- The worker got the id. -/
  | given
  /-- The content is not there. -/
  | missing
  | fetched (data : Bytes)
  | verified (data : Bytes)
  /-- The content is still not there. -/
  | absent (data : Bytes)
  /-- There is a temporary file for it, -/
  | drafting (data : Bytes)
  /-- which holds it. -/
  | drafted (data : Bytes)
  /-- The temporary file could not be written. -/
  | spoiled
  | stored

/-- The content has been stored. -/
def Phase.isStored : Phase → Bool
  | stored => true
  | _ => false

/-- What a worker does. -/
inductive Task where
  | opening
  | free (blobs : BlobReader)
  | busy (blobs : BlobReader) (id : Bytes) (phase : Phase)
  | gone

/-- Storing between two steps. -/
structure Crew where
  /-- The ids that have not been handed out. -/
  waiting : List Bytes
  tasks : Nat → Task
  /-- The files that are being written, by their ids. -/
  writers : AtomicFile.Writers Bytes := {}
  /-- The ids whose contents were stored, latest first. -/
  created : List Bytes := []
  /-- Somebody failed or was called off. -/
  failed : Bool := false

namespace Crew

def begin (workers : Nat) (ids : List Bytes) : Crew where
  waiting := ids
  tasks i := if i < workers then .opening else .gone

/-- A worker goes on to something else. -/
def set (c : Crew) (i : Nat) (t : Task) : Crew :=
  { c with tasks := fun j => if j = i then t else c.tasks j }

def fail (c : Crew) (i : Nat) : Crew := { c.set i .gone with failed := true }

theorem begin_opening {i n : Nat} (ids : List Bytes) (below : i < n) :
    (begin n ids).tasks i = .opening := if_pos below

theorem begin_gone {i n : Nat} (ids : List Bytes) (above : n ≤ i) :
    (begin n ids).tasks i = .gone := if_neg (Nat.not_lt.mpr above)

theorem set_self (c : Crew) (i : Nat) (t : Task) : (c.set i t).tasks i = t := if_pos rfl

theorem set_other (c : Crew) {i j : Nat} (t : Task) (other : j ≠ i) :
    (c.set i t).tasks j = c.tasks j := if_neg other

/-- Everybody is done, and nobody failed. -/
structure Done (c : Crew) : Prop where
  waiting : c.waiting = []
  gone : ∀ i, c.tasks i = .gone
  failed : c.failed = false

end Crew

/-- One step of one of the workers, of the one who hands out the ids, or of somebody who changes no
file. -/
inductive Step (x : Extractor) : Crew × Host → Crew × Host → Prop
  | opens {c : Crew} {g k : Host} {i : Nat} {blobs : BlobReader} :
      c.tasks i = .opening → x.source.openBlobs.on g = (.ok blobs, k) →
      Step x (c, g) (c.set i (.free blobs), k)
  | opensNot {c : Crew} {g k : Host} {i : Nat} {e : Fault} :
      c.tasks i = .opening → x.source.openBlobs.on g = (.error e, k) → Step x (c, g) (c.fail i, k)
  /-- A worker gets the next id. -/
  | takes {c : Crew} {g : Host} {i : Nat} {blobs : BlobReader} {id : Bytes} {rest : List Bytes} :
      c.tasks i = .free blobs → c.waiting = id :: rest →
      Step x (c, g) ({ c.set i (.busy blobs id .given) with waiting := rest }, g)
  /-- A worker that got an id notices that the work has been called off. -/
  | calledOff {c : Crew} {g : Host} {i : Nat} {blobs : BlobReader} {id : Bytes} :
      c.tasks i = .busy blobs id .given → Step x (c, g) (c.fail i, g)
  /-- No more ids are handed out. -/
  | stops {c : Crew} {g : Host} : Step x (c, g) ({ c with waiting := [], failed := true }, g)
  /-- A worker leaves when there are no more ids. -/
  | leaves {c : Crew} {g : Host} {i : Nat} {blobs : BlobReader} :
      c.tasks i = .free blobs → c.waiting = [] → Step x (c, g) (c.set i .gone, g)
  | finds {c : Crew} {g k : Host} {i : Nat} {blobs : BlobReader} {id : Bytes} :
      c.tasks i = .busy blobs id .given → (x.store.has id).on g = (.ok true, k) →
      Step x (c, g) (c.set i (.free blobs), k)
  | misses {c : Crew} {g k : Host} {i : Nat} {blobs : BlobReader} {id : Bytes} :
      c.tasks i = .busy blobs id .given → (x.store.has id).on g = (.ok false, k) →
      Step x (c, g) (c.set i (.busy blobs id .missing), k)
  | reads {c : Crew} {g k : Host} {i : Nat} {blobs blobs' : BlobReader} {id data : Bytes} :
      c.tasks i = .busy blobs id .missing → (blobs.read id).on g = (.ok (blobs', .ok data), k) →
      Step x (c, g) (c.set i (.busy blobs' id (.fetched data)), k)
  | readsNot {c : Crew} {g k : Host} {i : Nat} {blobs blobs' : BlobReader} {id : Bytes} {e : Fault} :
      c.tasks i = .busy blobs id .missing → (blobs.read id).on g = (.ok (blobs', .error e), k) →
      Step x (c, g) (c.fail i, k)
  | breaks {c : Crew} {g k : Host} {i : Nat} {blobs : BlobReader} {id : Bytes} {e : Fault} :
      c.tasks i = .busy blobs id .missing → (blobs.read id).on g = (.error e, k) →
      Step x (c, g) (c.fail i, k)
  | verifies {c : Crew} {g : Host} {i : Nat} {blobs : BlobReader} {id data : Bytes} :
      c.tasks i = .busy blobs id (.fetched data) → ObjectId.verify id data = .ok () →
      Step x (c, g) (c.set i (.busy blobs id (.verified data)), g)
  | rejects {c : Crew} {g : Host} {i : Nat} {blobs : BlobReader} {id data : Bytes} {e : Fault} :
      c.tasks i = .busy blobs id (.fetched data) → ObjectId.verify id data = .error e →
      Step x (c, g) (c.fail i, g)
  | findsLate {c : Crew} {g k : Host} {i : Nat} {blobs : BlobReader} {id data : Bytes} :
      c.tasks i = .busy blobs id (.verified data) → (x.store.has id).on g = (.ok true, k) →
      Step x (c, g) (c.set i (.free blobs), k)
  | missesAgain {c : Crew} {g k : Host} {i : Nat} {blobs : BlobReader} {id data : Bytes} :
      c.tasks i = .busy blobs id (.verified data) → (x.store.has id).on g = (.ok false, k) →
      Step x (c, g) (c.set i (.busy blobs id (.absent data)), k)
  | begins {c : Crew} {g k : Host} {i : Nat} {blobs : BlobReader} {id data : Bytes} {f : AtomicFile} :
      c.tasks i = .busy blobs id (.absent data) →
      (AtomicFile.create (x.store.path id)).on g = (.ok f, k) →
      Step x (c, g) ({ c.set i (.busy blobs id (.drafting data)) with
        writers := c.writers.set id { file := f } }, k)
  | beginsNot {c : Crew} {g k : Host} {i : Nat} {blobs : BlobReader} {id data : Bytes} {e : Fault} :
      c.tasks i = .busy blobs id (.absent data) →
      (AtomicFile.create (x.store.path id)).on g = (.error e, k) → Step x (c, g) (c.fail i, k)
  | writes {c : Crew} {g k : Host} {i : Nat} {blobs : BlobReader} {id data : Bytes}
      {w : AtomicFile.Writer} :
      c.tasks i = .busy blobs id (.drafting data) → c.writers.writer id = some w →
      (w.file.write data).on g = (.ok (), k) →
      Step x (c, g) ({ c.set i (.busy blobs id (.drafted data)) with
        writers := c.writers.set id { w with written := w.written ++ data } }, k)
  | writesNot {c : Crew} {g k : Host} {i : Nat} {blobs : BlobReader} {id data : Bytes}
      {w : AtomicFile.Writer} {e : Fault} :
      c.tasks i = .busy blobs id (.drafting data) → c.writers.writer id = some w →
      (w.file.write data).on g = (.error e, k) →
      Step x (c, g) (c.set i (.busy blobs id .spoiled), k)
  | aborts {c : Crew} {g k : Host} {i : Nat} {blobs : BlobReader} {id : Bytes}
      {w : AtomicFile.Writer} {f : AtomicFile} {outcome : Except Fault Unit} :
      c.tasks i = .busy blobs id .spoiled → c.writers.writer id = some w →
      (w.file.finish .abort).on g = (.ok (f, outcome), k) →
      Step x (c, g) ({ c.fail i with
        writers := c.writers.finish id w f (g.locate w.file.dest) .abort outcome }, k)
  | commits {c : Crew} {g k : Host} {i : Nat} {blobs : BlobReader} {id data : Bytes}
      {w : AtomicFile.Writer} {f : AtomicFile} :
      c.tasks i = .busy blobs id (.drafted data) → c.writers.writer id = some w →
      (w.file.finish .commit).on g = (.ok (f, .ok ()), k) →
      Step x (c, g) ({ c.set i (.busy blobs id .stored) with
        writers := c.writers.finish id w f (g.locate w.file.dest) .commit (.ok ()) }, k)
  | commitsNot {c : Crew} {g k : Host} {i : Nat} {blobs : BlobReader} {id data : Bytes}
      {w : AtomicFile.Writer} {f : AtomicFile} {e : Fault} :
      c.tasks i = .busy blobs id (.drafted data) → c.writers.writer id = some w →
      (w.file.finish .commit).on g = (.ok (f, .error e), k) →
      Step x (c, g) ({ c.fail i with
        writers := c.writers.finish id w f (g.locate w.file.dest) .commit (.error e) }, k)
  | records {c : Crew} {g : Host} {i : Nat} {blobs : BlobReader} {id : Bytes} :
      c.tasks i = .busy blobs id .stored →
      Step x (c, g) ({ c.set i (.free blobs) with created := id :: c.created }, g)
  /-- Somebody counts, reports, reads, or does something else that changes no file. -/
  | aside {c : Crew} {g k : Host} : Quiet g k → Step x (c, g) (c, k)

/-! ## What steps keep -/

/-- No content is there for an id. -/
def Lacks (x : Extractor) (h : Host) (id : Bytes) : Prop := (h.look (x.store.path id)).isOk = false

/-- The content of an id was put into the store. -/
def Put (x : Extractor) (g : Host) (id data : Bytes) : Prop :=
  g.look (x.store.path id) = .ok (.file data false)

/-- The locations of contents. -/
def Places (x : Extractor) (h : Host) (l : Location) : Prop :=
  ∃ id, ObjectId.isValid id = true ∧ h.locate (x.store.path id) = l

/-- Apart from what is in the store, `g` is `h` to programs. -/
def Usual (x : Extractor) (h g : Host) : Prop :=
  SameSetting h g ∧ Within (h.locate x.store.folder) h.tree g.tree

/-- The ids whose contents are not there. -/
def missing (x : Extractor) (h : Host) (ids : List Bytes) : List Bytes :=
  ids.filter fun id => !(h.look (x.store.path id)).isOk

/-- Nothing that was in the store is lost or changed, and every content in it has its id. -/
structure Preserves (x : Extractor) (h g : Host) : Prop where
  kept : ∀ id, ObjectId.isValid id = true → (h.look (x.store.path id)).isOk = true →
    g.look (x.store.path id) = h.look (x.store.path id)
  genuine : x.store.Genuine g

/-- Exactly the contents that were not there were stored. -/
structure Completes (x : Extractor) (blob : Bytes → Bytes) (h : Host) (ids created : List Bytes)
    (g : Host) : Prop where
  exactly : created = Bytes.sort (x.missing h ids)
  content : ∀ id, ObjectId.isValid id = true →
    g.contentAt? (x.store.path id) =
      if id ∈ created then some (blob id) else h.contentAt? (x.store.path id)

section

variable {x : Extractor} {h g k m : Host} {blob : Bytes → Bytes}

theorem locate_path (x : Extractor) (h : Host) {id : Bytes} (valid : ObjectId.isValid id = true) :
    h.locate (x.store.path id) = h.locate x.store.folder ++ [id] :=
  h.locate_join x.store.folder (ObjectId.isName_of_isValid valid)

/-- Between `g` and `k` at most the content of `id` and temporary files came or went. -/
structure Minds (x : Extractor) (h : Host) (id : Bytes) (g k : Host) : Prop where
  within : Within (h.locate x.store.folder) g.tree k.tree
  others : ∀ id', ObjectId.isValid id' = true → id' ≠ id →
    k.tree.get? (h.locate (x.store.path id')) = g.tree.get? (h.locate (x.store.path id'))

theorem Minds.refl (x : Extractor) (h : Host) (id : Bytes) (g : Host) : x.Minds h id g g :=
  ⟨.refl _ _, fun _ _ _ => rfl⟩

/-- Whoever does not touch a content itself leaves it alone. -/
theorem get?_path_of_touches {here : Location → Prop}
    (touches : Touches (h.locate x.store.folder) here g.tree k.tree) {id : Bytes}
    (valid : ObjectId.isValid id = true) (elsewhere : ¬here (h.locate (x.store.path id))) :
    k.tree.get? (h.locate (x.store.path id)) = g.tree.get? (h.locate (x.store.path id)) := by
  rcases touches (h.locate (x.store.path id)) with isHere | same | ⟨way, -⟩
  · exact absurd isHere elsewhere
  · exact same
  · -- The store's folder is not inside a content.
    rw [locate_path x h valid] at way
    have longer := way.length_le
    rw [List.length_append, List.length_singleton] at longer
    omega

/-- Whoever touches only what is in the store and is no other content minds that one. -/
theorem minds_of_touches {id : Bytes} {here : Location → Prop}
    (touches : Touches (h.locate x.store.folder) here g.tree k.tree)
    (inside : ∀ l, here l → h.locate x.store.folder <+: l)
    (own : ∀ id', ObjectId.isValid id' = true → here (h.locate (x.store.path id')) → id' = id) :
    x.Minds h id g k where
  within l := by
    rcases touches l with isHere | same | made
    · exact .inr (.inl (inside l isHere))
    · exact .inl same
    · exact .inr (.inr made)
  others id' valid other := get?_path_of_touches touches valid fun isHere => other (own id' valid isHere)

/-- The temporary file for a content is in the store's folder, and no content. -/
theorem temporary_fits {ws : AtomicFile.Writers Bytes} (files : AtomicFile.Fits (x.Places h) h ws g)
    {id : Bytes} (valid : ObjectId.isValid id = true) {w : AtomicFile.Writer}
    (is : ws.writer id = some w) (dest : w.file.dest = x.store.path id) :
    h.locate x.store.folder <+: h.locate w.file.temp ∧
      ∀ id', ObjectId.isValid id' = true → h.locate (x.store.path id') ≠ h.locate w.file.temp := by
  have own := files.each id w is
  constructor
  · obtain ⟨n, named⟩ := own.named
    rw [named, dest, ObjectStore.path, h.locate_dir_join _ (ObjectId.isName_of_isValid valid)]
    exact List.prefix_append _ _
  · exact fun id' isId same => own.notWanted ⟨id', isId, same⟩

/-- Whoever touches no more than the temporary file for a content minds that content, and the content
stays as it is. -/
theorem minds_of_temporary {ws : AtomicFile.Writers Bytes}
    (files : AtomicFile.Fits (x.Places h) h ws m) {id : Bytes} (valid : ObjectId.isValid id = true)
    {w : AtomicFile.Writer} (is : ws.writer id = some w) (dest : w.file.dest = x.store.path id)
    (touches : Touches (h.locate x.store.folder) (· = h.locate w.file.temp) g.tree k.tree) :
    x.Minds h id g k ∧
      k.tree.get? (h.locate (x.store.path id)) = g.tree.get? (h.locate (x.store.path id)) := by
  obtain ⟨inside, apart⟩ := temporary_fits files valid is dest
  constructor
  · refine minds_of_touches touches ?_ fun id' isId same => absurd same (apart id' isId)
    rintro _ rfl
    exact inside
  · exact get?_path_of_touches touches valid (apart id valid)

/-- What holds of a content in a worker's hands. -/
def Phase.Fits (x : Extractor) (h : Host) (blob : Bytes → Bytes) (ws : AtomicFile.Writers Bytes)
    (g : Host) (id : Bytes) : Phase → Prop
  | given => ws.writer id = none
  | missing => ws.writer id = none ∧ x.Lacks h id
  | fetched data => ws.writer id = none ∧ x.Lacks h id ∧ data = blob id
  | verified data | absent data =>
      ws.writer id = none ∧ x.Lacks h id ∧ data = blob id ∧ ObjectId.verify id (blob id) = .ok ()
  | drafting data =>
      (∃ f, ws.writer id = some { file := f } ∧ f.dest = x.store.path id ∧ f.done = false) ∧
        x.Lacks h id ∧ data = blob id ∧ ObjectId.verify id (blob id) = .ok ()
  | drafted _ =>
      (∃ f, ws.writer id = some { file := f, written := blob id } ∧ f.dest = x.store.path id ∧
        f.done = false) ∧ x.Lacks h id ∧ ObjectId.verify id (blob id) = .ok ()
  | spoiled => ∃ w, ws.writer id = some w ∧ w.file.dest = x.store.path id ∧ w.file.done = false
  | stored => x.Put g id (blob id) ∧ x.Lacks h id ∧ ObjectId.verify id (blob id) = .ok ()

/-- What holds of what a worker does. -/
def Task.Fits (x : Extractor) (h : Host) (blob : Bytes → Bytes) (good : BlobReader → Prop)
    (ids : List Bytes) (c : Crew) (g : Host) : Task → Prop
  | opening | gone => True
  | free blobs => good blobs
  | busy blobs id phase =>
      good blobs ∧ id ∈ ids ∧ id ∉ c.waiting ∧ id ∉ c.created ∧ phase.Fits x h blob c.writers g id

/-- The id that is in a worker's hands. -/
def Task.id? : Task → Option Bytes
  | busy _ id _ => some id
  | _ => none

/-- What a crew has made of `h`. -/
structure Crew.Fits (x : Extractor) (h : Host) (blob : Bytes → Bytes) (good : BlobReader → Prop)
    (ids : List Bytes) (c : Crew) (g : Host) : Prop where
  files : AtomicFile.Fits (x.Places h) h c.writers g
  within : Within (h.locate x.store.folder) h.tree g.tree
  nodup : c.waiting.Nodup ∧ c.created.Nodup
  waiting : ∀ id ∈ c.waiting, id ∈ ids ∧ id ∉ c.created ∧ c.writers.writer id = none
  tasks : ∀ i, (c.tasks i).Fits x h blob good ids c g
  apart : ∀ i j id, (c.tasks i).id? = some id → (c.tasks j).id? = some id → i = j
  created : ∀ id ∈ c.created, id ∈ ids ∧ x.Put g id (blob id) ∧ x.Lacks h id ∧
    ObjectId.verify id (blob id) = .ok ()
  all : c.failed = false → ∀ id ∈ ids,
    id ∈ c.waiting ∨ (∃ i, (c.tasks i).id? = some id) ∨ ¬x.Lacks h id ∨ id ∈ c.created
  kept : ∀ id, ObjectId.isValid id = true →
    g.tree.get? (h.locate (x.store.path id)) = h.tree.get? (h.locate (x.store.path id)) ∨
      id ∈ c.created ∨ ∃ i blobs, c.tasks i = .busy blobs id .stored

/-! ## One step at a time -/

variable {good : BlobReader → Prop} {ids : List Bytes} {c c' : Crew}

/-- Nobody but its worker cares about a content. -/
theorem Phase.Fits.congr {ws ws' : AtomicFile.Writers Bytes} {id : Bytes} {phase : Phase}
    (fits : phase.Fits x h blob ws g id) (same : ws'.writer id = ws.writer id)
    (put : x.Put g id (blob id) → x.Put k id (blob id)) : phase.Fits x h blob ws' k id := by
  cases phase with
  | stored => exact ⟨put fits.1, fits.2⟩
  | _ => simpa only [Phase.Fits, same] using fits

theorem put_congr {ws ws' : AtomicFile.Writers Bytes} (files : AtomicFile.Fits (x.Places h) h ws g)
    (files' : AtomicFile.Fits (x.Places h) h ws' k) {id data : Bytes}
    (same : k.tree.get? (h.locate (x.store.path id)) = g.tree.get? (h.locate (x.store.path id))) :
    x.Put g id data → x.Put k id data := by
  have folder : k.folder = g.folder := files'.setting.folder.trans files.setting.folder.symm
  exact (look_congr files.sound files'.sound folder (by rwa [files.locate])).mpr

/-- Only what concerns the content in its hands matters to a worker. -/
theorem Task.Fits.congr {t : Task} (fits : t.Fits x h blob good ids c g)
    (same : ∀ id, t.id? = some id → id ∈ ids →
      (id ∈ c'.waiting → id ∈ c.waiting) ∧ (id ∈ c'.created → id ∈ c.created) ∧
        c'.writers.writer id = c.writers.writer id ∧ (x.Put g id (blob id) → x.Put k id (blob id))) :
    t.Fits x h blob good ids c' k := by
  cases t with
  | opening | gone => trivial
  | free blobs => exact fits
  | busy blobs id phase =>
      obtain ⟨isGood, member, out, new, fits⟩ := fits
      obtain ⟨waits, made, writer, put⟩ := same id rfl member
      exact ⟨isGood, member, fun later => out (waits later), fun already => new (made already),
        fits.congr writer put⟩

namespace Crew

/-- What holds of the new task and of everybody else's holds of all tasks. -/
theorem forall_set {P : Nat → Task → Prop} {i : Nat} {t : Task} (own : P i t)
    (others : ∀ j, j ≠ i → P j (c.tasks j)) (j : Nat) : P j ((c.set i t).tasks j) := by
  by_cases here : j = i
  · rw [here, c.set_self]
    exact own
  · rw [c.set_other t here]
    exact others j here

/-- What somebody else has in hand stays there. -/
theorem id?_set {i j : Nat} {t : Task} {id : Bytes} (other : j ≠ i)
    (holds : (c.tasks j).id? = some id) : ((c.set i t).tasks j).id? = some id :=
  (congrArg Task.id? (c.set_other t other)).trans holds

/-- Somebody who has stored a content has still done so when another worker goes on. -/
theorem stored_set {i j : Nat} {t : Task} {blobs : BlobReader} {id : Bytes}
    (isStored : c.tasks j = .busy blobs id .stored) (unstored : c.tasks i ≠ .busy blobs id .stored) :
    (c.set i t).tasks j = .busy blobs id .stored := by
  have other : j ≠ i := by
    rintro rfl
    exact unstored isStored
  exact (c.set_other t other).trans isStored

/-- No two workers come to have the same content in hand if nobody else has that of the new task. -/
theorem apart_set
    (apart : ∀ i j id, (c.tasks i).id? = some id → (c.tasks j).id? = some id → i = j)
    {i : Nat} {t : Task} (own : ∀ j id, t.id? = some id → (c.tasks j).id? = some id → j = i) :
    ∀ j j' id, ((c.set i t).tasks j).id? = some id → ((c.set i t).tasks j').id? = some id →
      j = j' := by
  intro j j' id first second
  by_cases here : j = i
  · by_cases here' : j' = i
    · rw [here, here']
    · rw [here, c.set_self] at first
      rw [c.set_other t here'] at second
      exact here.trans (own j' id first second).symm
  · rw [c.set_other t here] at first
    by_cases here' : j' = i
    · rw [here', c.set_self] at second
      exact (own j id second first).trans here'.symm
    · rw [c.set_other t here'] at second
      exact apart j j' id first second

end Crew

namespace Crew.Fits

variable (valid : ∀ id ∈ ids, ObjectId.isValid id = true)

/-- Nothing happens that concerns the crew. -/
theorem quiet (fits : c.Fits x h blob good ids g) (same : Quiet g k) :
    c.Fits x h blob good ids k := by
  have files := fits.files.stay (same.sound fits.files.sound) same.toSameSetting
    fun l => .inl (by rw [same.tree])
  have put : ∀ {id data}, x.Put g id data → x.Put k id data :=
    put_congr fits.files files (by rw [same.tree])
  refine ⟨files, same.tree ▸ fits.within, fits.nodup, fits.waiting,
    fun i => (fits.tasks i).congr fun _ _ _ => ⟨fun waits => waits, fun made => made, rfl, put⟩,
    fits.apart, fun id member => ?_, fits.all, same.tree ▸ fits.kept⟩
  obtain ⟨member, there, rest⟩ := fits.created id member
  exact ⟨member, put there, rest⟩

/-- What holds of a content that is in a worker's hands. -/
theorem busy (fits : c.Fits x h blob good ids g) {i : Nat} {blobs : BlobReader} {id : Bytes}
    {phase : Phase} (isTask : c.tasks i = .busy blobs id phase) :
    good blobs ∧ id ∈ ids ∧ id ∉ c.waiting ∧ id ∉ c.created ∧
      phase.Fits x h blob c.writers g id := by
  have own := fits.tasks i
  rwa [isTask] at own

/-- Until a worker stores a content it stays as it was. -/
theorem untouched (fits : c.Fits x h blob good ids g) {i : Nat} {blobs : BlobReader} {id : Bytes}
    {phase : Phase} (isTask : c.tasks i = .busy blobs id phase) (unstored : phase.isStored = false)
    (valid : ObjectId.isValid id = true) :
    g.tree.get? (h.locate (x.store.path id)) = h.tree.get? (h.locate (x.store.path id)) := by
  rcases fits.kept id valid with before | made | ⟨j, blobs', isStored⟩
  · exact before
  · exact absurd made (fits.busy isTask).2.2.2.1
  · obtain rfl := fits.apart j i id (by rw [isStored]; rfl) (by rw [isTask]; rfl)
    rw [isTask] at isStored
    cases isStored
    cases unstored

include valid in
/-- A worker goes on with the content in its hands, or gives it up. -/
theorem advance (fits : c.Fits x h blob good ids g) {i : Nat} {blobs : BlobReader} {id : Bytes}
    {phase : Phase} (isTask : c.tasks i = .busy blobs id phase) (unstored : phase.isStored = false)
    {t : Task} {ws : AtomicFile.Writers Bytes} {failed : Bool}
    (files : AtomicFile.Fits (x.Places h) h ws k)
    (others : ∀ id', id' ≠ id → ws.writer id' = c.writers.writer id') (minds : x.Minds h id g k)
    (own : t.Fits x h blob good ids { c with writers := ws } k)
    (same : t.id? = some id ∨ t.id? = none)
    (settles : t.id? = some id ∨ failed = true ∨ ¬x.Lacks h id)
    (stays : failed = false → c.failed = false)
    (kept : k.tree.get? (h.locate (x.store.path id)) = g.tree.get? (h.locate (x.store.path id)) ∨
      ∃ blobs, t = .busy blobs id .stored) :
    Crew.Fits x h blob good ids { c.set i t with writers := ws, failed } k := by
  have holds : (c.tasks i).id? = some id := by rw [isTask]; rfl
  obtain ⟨-, inIds, handed, uncreated, -⟩ := fits.busy isTask
  -- What holds of another content goes on to hold.
  have put : ∀ {id' data}, ObjectId.isValid id' = true → id' ≠ id → x.Put g id' data →
      x.Put k id' data := fun isId other =>
    put_congr fits.files files (minds.others _ isId other)
  have elsewhere : ∀ {j id'}, j ≠ i → (c.tasks j).id? = some id' → id' ≠ id := by
    rintro j id' other holds' rfl
    exact other (fits.apart j i _ holds' holds)
  refine ⟨files, fits.within.trans minds.within, fits.nodup, fun id' member => ?_,
    forall_set (by cases t <;> exact own) fun j other => ?_,
    apart_set fits.apart fun j id' isId holds' => ?_, fun id' member => ?_,
    fun going id' member => ?_, fun id' isId => ?_⟩
  · obtain ⟨isMember, new, free⟩ := fits.waiting id' member
    exact ⟨isMember, new, (others id' fun e => handed (e ▸ member)).trans free⟩
  · refine (fits.tasks j).congr fun id' isId member => ?_
    have other : id' ≠ id := elsewhere other isId
    exact ⟨fun waits => waits, fun made => made, others id' other, put (valid id' member) other⟩
  · rcases same with isSame | isNone
    · obtain rfl : id = id' := Option.some.inj (isSame.symm.trans isId)
      exact fits.apart j i _ holds' holds
    · rw [isNone] at isId
      cases isId
  · obtain ⟨isMember, there, rest⟩ := fits.created id' member
    have other : id' ≠ id := fun e => uncreated (e ▸ member)
    exact ⟨isMember, put (valid id' isMember) other there, rest⟩
  · rcases fits.all (stays going) id' member with waits | ⟨j, isId⟩ | present | made
    · exact .inl waits
    · by_cases here : j = i
      · subst here
        obtain rfl : id = id' := Option.some.inj (holds.symm.trans isId)
        rcases settles with goesOn | fails | present
        · exact .inr (.inl ⟨j, (congrArg Task.id? (c.set_self j t)).trans goesOn⟩)
        · rw [fails] at going
          cases going
        · exact .inr (.inr (.inl present))
      · exact .inr (.inl ⟨j, id?_set here isId⟩)
    · exact .inr (.inr (.inl present))
    · exact .inr (.inr (.inr made))
  · by_cases isOwn : id' = id
    · subst isOwn
      rcases kept with unchanged | ⟨blobs', isStored⟩
      · exact .inl (unchanged.trans (fits.untouched isTask unstored isId))
      · exact .inr (.inr ⟨i, blobs', (c.set_self i t).trans isStored⟩)
    · rcases fits.kept id' isId with before | made | ⟨j, blobs', isStored⟩
      · exact .inl ((minds.others id' isId isOwn).trans before)
      · exact .inr (.inl made)
      · refine .inr (.inr ⟨j, blobs', stored_set isStored fun e => ?_⟩)
        rw [e] at holds
        exact isOwn (Option.some.inj holds)

include valid in
/-- A worker goes on with the content in its hands, or puts it down, and no file changes. -/
theorem consider (fits : c.Fits x h blob good ids g) {i : Nat} {blobs : BlobReader} {id : Bytes}
    {phase : Phase} (isTask : c.tasks i = .busy blobs id phase) (unstored : phase.isStored = false)
    {t : Task} (own : t.Fits x h blob good ids c g)
    (goes : t.id? = some id ∨ t.id? = none ∧ ¬x.Lacks h id) :
    (c.set i t).Fits x h blob good ids g := by
  refine fits.advance valid isTask unstored fits.files (fun _ _ => rfl) (.refl ..) own ?_ ?_
    (fun going => going) (.inl rfl)
  · exact goes.imp (fun isSame => isSame) And.left
  · exact goes.imp (fun isSame => isSame) fun down => .inr down.2

include valid in
/-- A worker fails with the content in its hands; at most a temporary file comes or goes. -/
theorem giveUp (fits : c.Fits x h blob good ids g) {i : Nat} {blobs : BlobReader} {id : Bytes}
    {phase : Phase} (isTask : c.tasks i = .busy blobs id phase) (unstored : phase.isStored = false)
    {ws : AtomicFile.Writers Bytes} (files : AtomicFile.Fits (x.Places h) h ws k)
    (others : ∀ id', id' ≠ id → ws.writer id' = c.writers.writer id') (minds : x.Minds h id g k)
    (same : k.tree.get? (h.locate (x.store.path id)) = g.tree.get? (h.locate (x.store.path id))) :
    Crew.Fits x h blob good ids { c.fail i with writers := ws } k :=
  fits.advance valid isTask unstored files others minds trivial (.inr rfl) (.inr (.inl rfl)) nofun
    (.inl same)

/-- A worker without a content comes to do something else without one. -/
theorem idle (fits : c.Fits x h blob good ids g) {i : Nat} {t : Task} {failed : Bool}
    (without : (c.tasks i).id? = none) (without' : t.id? = none)
    (own : t.Fits x h blob good ids c g) (stays : failed = false → c.failed = false) :
    Crew.Fits x h blob good ids { c.set i t with failed } g := by
  refine ⟨fits.files, fits.within, fits.nodup, fits.waiting,
    forall_set (by cases t <;> exact own) fun j _ => (fits.tasks j).congr fun _ _ _ =>
      ⟨fun waits => waits, fun made => made, rfl, fun put => put⟩,
    apart_set fits.apart fun j id isId => ?_, fits.created, fun going id member => ?_,
    fun id isId => ?_⟩
  · rw [without'] at isId
    cases isId
  · rcases fits.all (stays going) id member with waits | ⟨j, isId⟩ | rest
    · exact .inl waits
    · have other : j ≠ i := by
        rintro rfl
        rw [without] at isId
        cases isId
      exact .inr (.inl ⟨j, id?_set other isId⟩)
    · exact .inr (.inr rest)
  · rcases fits.kept id isId with before | made | ⟨j, blobs, isStored⟩
    · exact .inl before
    · exact .inr (.inl made)
    · refine .inr (.inr ⟨j, blobs, stored_set isStored fun e => ?_⟩)
      rw [e] at without
      cases without

/-- A worker gets the next id. -/
theorem take (fits : c.Fits x h blob good ids g) {i : Nat} {blobs : BlobReader} {id : Bytes}
    {rest : List Bytes} (isFree : c.tasks i = .free blobs) (next : c.waiting = id :: rest) :
    Crew.Fits x h blob good ids { c.set i (.busy blobs id .given) with waiting := rest } g := by
  obtain ⟨nodup, created⟩ := fits.nodup
  have waiting := fits.waiting
  have mine := fits.tasks i
  rw [next, List.nodup_cons] at nodup
  rw [next, List.forall_mem_cons] at waiting
  rw [isFree] at mine
  obtain ⟨⟨inIds, new, unwritten⟩, waiting⟩ := waiting
  have handed : ∀ {j id'}, (c.tasks j).id? = some id' → id' ∉ c.waiting := by
    intro j id' isId
    have theirs := fits.tasks j
    cases isTask : c.tasks j with
    | busy _ _ _ =>
        rw [isTask] at theirs isId
        cases isId
        exact theirs.2.2.1
    | _ => rw [isTask] at isId; cases isId
  have fresh : ∀ {j}, (c.tasks j).id? ≠ some id := fun isId =>
    handed isId (by rw [next]; exact List.mem_cons_self)
  refine ⟨fits.files, fits.within, ⟨nodup.2, created⟩, waiting,
    forall_set ⟨mine, inIds, nodup.1, new, unwritten⟩ fun j _ => (fits.tasks j).congr fun _ _ _ =>
      ⟨fun later => ?_, fun made => made, rfl, fun put => put⟩,
    apart_set fits.apart fun j id' isId holds => ?_, fits.created, fun going id' member => ?_,
    fun id' isId => ?_⟩
  · rw [next]
    exact List.mem_cons_of_mem _ later
  · cases isId
    exact absurd holds fresh
  · rcases fits.all going id' member with waits | ⟨j, isId⟩ | rest'
    · rw [next] at waits
      rcases List.mem_cons.mp waits with rfl | later
      · exact .inr (.inl ⟨i, congrArg Task.id? (c.set_self i _)⟩)
      · exact .inl later
    · have other : j ≠ i := by
        rintro rfl
        rw [isFree] at isId
        cases isId
      exact .inr (.inl ⟨j, id?_set other isId⟩)
    · exact .inr (.inr rest')
  · rcases fits.kept id' isId with before | made | ⟨j, blobs', isStored⟩
    · exact .inl before
    · exact .inr (.inl made)
    · refine .inr (.inr ⟨j, blobs', stored_set isStored fun e => ?_⟩)
      rw [isFree] at e
      cases e

/-- No more ids are handed out. -/
theorem stop (fits : c.Fits x h blob good ids g) :
    Crew.Fits x h blob good ids { c with waiting := [], failed := true } g := by
  exact ⟨fits.files, fits.within, ⟨List.nodup_nil, fits.nodup.2⟩, nofun,
    fun j => (fits.tasks j).congr fun _ _ _ => ⟨nofun, fun made => made, rfl, fun put => put⟩,
    fits.apart, fits.created, nofun, fits.kept⟩

/-- A worker notes that it stored a content. -/
theorem record (fits : c.Fits x h blob good ids g) {i : Nat} {blobs : BlobReader} {id : Bytes}
    (isStored : c.tasks i = .busy blobs id .stored) :
    Crew.Fits x h blob good ids { c.set i (.free blobs) with created := id :: c.created } g := by
  obtain ⟨isGood, inIds, handed, new, there, lacked, right⟩ := fits.busy isStored
  have holds : (c.tasks i).id? = some id := by rw [isStored]; rfl
  refine ⟨fits.files, fits.within, ⟨fits.nodup.1, List.nodup_cons.mpr ⟨new, fits.nodup.2⟩⟩,
    fun id' member => ?_,
    forall_set isGood fun j other => (fits.tasks j).congr fun id' isId _ =>
      ⟨fun waits => waits, fun made => ?_, rfl, fun put => put⟩,
    apart_set fits.apart (fun _ _ isId => nomatch isId), fun id' member => ?_,
    fun going id' member => ?_, fun id' isId => ?_⟩
  · obtain ⟨isMember, uncreated, free⟩ := fits.waiting id' member
    refine ⟨isMember, fun made => ?_, free⟩
    rcases List.mem_cons.mp made with rfl | before
    · exact handed member
    · exact uncreated before
  · rcases List.mem_cons.mp made with rfl | before
    · exact absurd (fits.apart j i _ isId holds) other
    · exact before
  · rcases List.mem_cons.mp member with rfl | before
    · exact ⟨inIds, there, lacked, right⟩
    · exact fits.created id' before
  · rcases fits.all going id' member with waits | ⟨j, isId⟩ | present | made
    · exact .inl waits
    · by_cases here : j = i
      · subst here
        obtain rfl : id = id' := Option.some.inj (holds.symm.trans isId)
        exact .inr (.inr (.inr List.mem_cons_self))
      · exact .inr (.inl ⟨j, id?_set here isId⟩)
    · exact .inr (.inr (.inl present))
    · exact .inr (.inr (.inr (List.mem_cons_of_mem _ made)))
  · rcases fits.kept id' isId with before | made | ⟨j, blobs', isStored'⟩
    · exact .inl before
    · exact .inr (.inl (List.mem_cons_of_mem _ made))
    · by_cases here : j = i
      · subst here
        rw [isStored] at isStored'
        cases isStored'
        exact .inr (.inl List.mem_cons_self)
      · exact .inr (.inr ⟨j, blobs', (c.set_other _ here).trans isStored'⟩)

/-- The temporary file for a content is new. -/
theorem create (fits : c.Fits x h blob good ids g) {id : Bytes} (valid : ObjectId.isValid id = true)
    (free : c.writers.writer id = none) {f : AtomicFile}
    (created : (AtomicFile.create (x.store.path id)).on g = (.ok f, k)) :
    AtomicFile.Fits (x.Places h) h (c.writers.set id { file := f }) k ∧
      Touches (h.locate x.store.folder) (· = h.locate f.temp) g.tree k.tree := by
  obtain ⟨-, -, m, n, base, place, -⟩ :=
    (AtomicFile.create_temporary fits.files.sound _).of_ok created
  rw [locate_of_folder base.folder, fits.files.locate] at place
  have begun := fits.files.create free ⟨id, valid, (fits.files.locate _).symm⟩ created ?_
  · rwa [ObjectStore.path, h.locate_dir_join _ (ObjectId.isName_of_isValid valid)] at begun
  · rintro ⟨id', isId, same⟩
    rw [fits.files.locate, place] at same
    exact ObjectStore.path_ne_temporary isId h _ n same

/-- Every step keeps what a crew has made of the host. -/
theorem step (valid : ∀ id ∈ ids, ObjectId.isValid id = true) (sound : h.Sound)
    (opens : ∀ g, x.Usual h g →
      x.source.openBlobs.Yields g (fun r k => Quiet g k ∧ good r) (Quiet g))
    (reads : ∀ r id g, good r → x.Usual h g → (r.read id).Yields g
      (fun answer k => Quiet g k ∧ good answer.1 ∧ ∀ data, answer.2 = .ok data → data = blob id)
      (Quiet g))
    (fits : c.Fits x h blob good ids g) (step : Step x (c, g) (c', k)) :
    c'.Fits x h blob good ids k := by
  have here : x.Usual h g := ⟨fits.files.setting, fits.within⟩
  -- A content that is still in a worker's hands is there if it was.
  have lacks : ∀ {i blobs id phase there k}, c.tasks i = .busy blobs id phase → phase.isStored = false →
      (x.store.has id).on g = (.ok there, k) →
      k = g ∧ there = (h.look (x.store.path id)).isOk := by
    intro i blobs id phase there k isTask unstored looked
    have isId := valid id (fits.busy isTask).2.1
    rw [ObjectStore.has, on_isThere] at looked
    obtain ⟨isThere, same⟩ := Prod.mk.inj looked
    refine ⟨same.symm, (Except.ok.inj isThere).symm.trans ?_⟩
    exact isOk_look_congr sound fits.files.sound fits.files.setting.folder
      (fits.untouched isTask unstored isId)
  cases step with
  | opens isTask opened =>
      obtain ⟨same, isGood⟩ := (opens g here).of_ok opened
      exact (fits.quiet same).idle (by rw [isTask]; rfl) rfl isGood fun going => going
  | opensNot isTask failed =>
      have same := (opens g here).of_error failed
      exact (fits.quiet same).idle (by rw [isTask]; rfl) rfl trivial
        fun going => absurd going.symm Bool.false_ne_true
  | takes isTask next => exact fits.take isTask next
  | calledOff isTask =>
      exact fits.giveUp valid isTask rfl fits.files (fun _ _ => rfl) (.refl ..) rfl
  | stops => exact fits.stop
  | leaves isTask nothing =>
      exact fits.idle (by rw [isTask]; rfl) rfl trivial fun going => going
  | finds isTask looked =>
      obtain ⟨rfl, there⟩ := lacks isTask rfl looked
      exact fits.consider valid isTask rfl (fits.busy isTask).1
        (.inr ⟨rfl, by simp [Lacks, ← there]⟩)
  | misses isTask looked =>
      obtain ⟨rfl, there⟩ := lacks isTask rfl looked
      obtain ⟨isGood, inIds, handed, new, free⟩ := fits.busy isTask
      exact fits.consider valid isTask rfl ⟨isGood, inIds, handed, new, free, there.symm⟩ (.inl rfl)
  | reads isTask read =>
      obtain ⟨isGood, inIds, handed, new, free, lacked⟩ := fits.busy isTask
      obtain ⟨same, isGood, right⟩ := (reads _ _ g isGood here).of_ok read
      exact (fits.quiet same).consider valid isTask rfl
        ⟨isGood, inIds, handed, new, free, lacked, right _ rfl⟩ (.inl rfl)
  | readsNot isTask read =>
      have same := ((reads _ _ g (fits.busy isTask).1 here).of_ok read).1
      exact (fits.quiet same).giveUp valid isTask rfl (fits.quiet same).files (fun _ _ => rfl)
        (.refl ..) rfl
  | breaks isTask failed =>
      have same := (reads _ _ g (fits.busy isTask).1 here).of_error failed
      exact (fits.quiet same).giveUp valid isTask rfl (fits.quiet same).files (fun _ _ => rfl)
        (.refl ..) rfl
  | verifies isTask verified =>
      obtain ⟨isGood, inIds, handed, new, free, lacked, rfl⟩ := fits.busy isTask
      exact fits.consider valid isTask rfl
        ⟨isGood, inIds, handed, new, free, lacked, rfl, verified⟩ (.inl rfl)
  | rejects isTask rejected =>
      exact fits.giveUp valid isTask rfl fits.files (fun _ _ => rfl) (.refl ..) rfl
  | findsLate isTask looked =>
      obtain ⟨rfl, there⟩ := lacks isTask rfl looked
      exact fits.consider valid isTask rfl (fits.busy isTask).1
        (.inr ⟨rfl, by simp [Lacks, ← there]⟩)
  | missesAgain isTask looked =>
      obtain ⟨rfl, -⟩ := lacks isTask rfl looked
      have own := fits.busy isTask
      exact fits.consider valid isTask rfl own (.inl rfl)
  | begins isTask created =>
      rename_i id data f
      obtain ⟨isGood, inIds, handed, new, free, lacked, rfl, right⟩ := fits.busy isTask
      have isId := valid id inIds
      obtain ⟨dest, open_, -⟩ := (AtomicFile.create_temporary fits.files.sound _).of_ok created
      obtain ⟨files, touches⟩ := fits.create isId free created
      obtain ⟨minds, same⟩ := minds_of_temporary files isId (c.writers.set_self id _) dest touches
      exact fits.advance valid isTask rfl files (fun _ other => c.writers.set_other _ other) minds
        ⟨isGood, inIds, handed, new, ⟨f, c.writers.set_self id _, dest, open_⟩, lacked, rfl, right⟩
        (.inl rfl) (.inl rfl) (fun going => going) (.inl same)
  | beginsNot isTask failed =>
      rename_i id data e
      obtain ⟨-, inIds, -⟩ := fits.busy isTask
      have grown := (AtomicFile.create_temporary fits.files.sound _).of_error failed
      have files := fits.files.stay grown.sound grown.toSameSetting grown.tree.stays
      have isId := valid id inIds
      have touches : Touches (h.locate x.store.folder) (fun _ => False) g.tree k.tree := fun l => by
        have grows := grown.tree l
        rw [fits.files.locate, ObjectStore.path,
          h.locate_dir_join _ (ObjectId.isName_of_isValid isId)] at grows
        exact .inr grows
      exact fits.giveUp valid isTask rfl files (fun _ _ => rfl)
        (minds_of_touches touches (fun _ none => none.elim) fun _ _ none => none.elim)
        (get?_path_of_touches touches isId fun none => none)
  | writes isTask is wrote =>
      rename_i id data w
      obtain ⟨isGood, inIds, handed, new, ⟨f, isNew, dest, open_⟩, lacked, rfl, right⟩ :=
        fits.busy isTask
      obtain rfl := Option.some.inj (is.symm.trans isNew)
      obtain ⟨files, touches⟩ := fits.files.write is open_ wrote (h.locate x.store.folder)
      obtain ⟨minds, same⟩ := minds_of_temporary fits.files (valid id inIds) is dest touches
      exact fits.advance valid isTask rfl files (fun _ other => c.writers.set_other _ other) minds
        ⟨isGood, inIds, handed, new, ⟨f, c.writers.set_self id _, dest, open_⟩, lacked, right⟩
        (.inl rfl) (.inl rfl) (fun going => going) (.inl same)
  | writesNot isTask is failed =>
      obtain ⟨isGood, inIds, handed, new, ⟨f, isNew, dest, open_⟩, -⟩ := fits.busy isTask
      obtain rfl := Option.some.inj (is.symm.trans isNew)
      obtain rfl := (append_yields ((fits.files.each _ _ is).writing open_) _).of_error failed
      exact fits.consider valid isTask rfl
        ⟨isGood, inIds, handed, new, _, is, dest, open_⟩ (.inl rfl)
  | aborts isTask is ended =>
      rename_i id w f outcome
      obtain ⟨isGood, inIds, handed, new, w', is', dest, open_⟩ := fits.busy isTask
      obtain rfl := Option.some.inj (is.symm.trans is')
      obtain ⟨files, ⟨kept, -⟩ | ⟨-, touches⟩⟩ := fits.files.finish is ended (h.locate x.store.folder)
      · cases kept
      · obtain ⟨minds, same⟩ := minds_of_temporary fits.files (valid id inIds) is dest touches
        exact fits.giveUp valid isTask rfl files
          (fun _ other => c.writers.finish_other _ _ _ _ _ other) minds same
  | commits isTask is ended =>
      rename_i id data w f
      obtain ⟨isGood, inIds, handed, new, ⟨f', isNew, dest, open_⟩, lacked, right⟩ := fits.busy isTask
      obtain rfl := Option.some.inj (is.symm.trans isNew)
      have isId := valid id inIds
      obtain ⟨files, ⟨-, -, touches, there⟩ | ⟨failed, -⟩⟩ :=
        fits.files.finish is ended (h.locate x.store.folder)
      · obtain ⟨inside, apart⟩ := temporary_fits fits.files isId is dest
        have minds : x.Minds h id g k := by
          refine minds_of_touches touches ?_ fun id' isId' touched => ?_
          · rintro _ (rfl | rfl)
            · exact inside
            · rw [dest, locate_path x h isId]
              exact List.prefix_append _ _
          · rcases touched with isTemp | isDest
            · exact absurd isTemp (apart id' isId')
            · rw [dest, locate_path x h isId, locate_path x h isId', List.append_cancel_left_eq] at isDest
              exact (List.cons.inj isDest).1
        rw [dest] at there
        exact fits.advance valid isTask rfl files
          (fun _ other => c.writers.finish_other _ _ _ _ _ other) minds
          ⟨isGood, inIds, handed, new, there, lacked, right⟩ (.inl rfl) (.inl rfl)
          (fun going => going) (.inr ⟨_, rfl⟩)
      · cases failed rfl
  | commitsNot isTask is ended =>
      rename_i id data w f e
      obtain ⟨isGood, inIds, handed, new, ⟨f', isNew, dest, open_⟩, -⟩ := fits.busy isTask
      obtain rfl := Option.some.inj (is.symm.trans isNew)
      obtain ⟨files, ⟨-, kept, -⟩ | ⟨-, touches⟩⟩ :=
        fits.files.finish is ended (h.locate x.store.folder)
      · cases kept
      · obtain ⟨minds, same⟩ := minds_of_temporary fits.files (valid id inIds) is dest touches
        exact fits.giveUp valid isTask rfl files
          (fun _ other => c.writers.finish_other _ _ _ _ _ other) minds same
  | records isTask => exact fits.record isTask
  | aside same => exact fits.quiet same

/-- At first nobody has done anything. -/
theorem begin (sound : h.Sound) (nodup : ids.Nodup) (n : Nat) :
    (Crew.begin n ids).Fits x h blob good ids h := by
  have idle : ∀ i, ((Crew.begin n ids).tasks i).id? = none ∧
      ((Crew.begin n ids).tasks i).Fits x h blob good ids (Crew.begin n ids) h := by
    intro i
    simp only [Crew.begin]
    split
    · exact ⟨rfl, trivial⟩
    · exact ⟨rfl, trivial⟩
  refine ⟨.begin sound, .refl _ _, ⟨nodup, List.nodup_nil⟩, fun id member => ⟨member, nofun, rfl⟩,
    fun i => (idle i).2, fun i j id first => ?_, nofun, fun _ id member => .inl member,
    fun _ _ => .inl rfl⟩
  rw [(idle i).1] at first
  cases first

/-- Whatever a crew has done, what was in the store is as it was, and what is in it has its id. -/
theorem preserves (fits : c.Fits x h blob good ids g) (sound : h.Sound)
    (genuine : x.store.Genuine h) : x.Preserves h g := by
  -- What is new was verified, and nothing was there before.
  have settled : ∀ id, ObjectId.isValid id = true →
      g.tree.get? (h.locate (x.store.path id)) = h.tree.get? (h.locate (x.store.path id)) ∨
        x.Put g id (blob id) ∧ x.Lacks h id ∧ ObjectId.verify id (blob id) = .ok () := by
    intro id valid
    rcases fits.kept id valid with same | made | ⟨i, blobs, isStored⟩
    · exact .inl same
    · exact .inr (fits.created id made).2
    · exact .inr (fits.busy isStored).2.2.2.2
  have folder := fits.files.setting.folder
  constructor
  · intro id valid there
    rcases settled id valid with same | ⟨-, lacked, -⟩
    · cases found : h.look (x.store.path id) with
      | ok n => exact (look_congr sound fits.files.sound folder same).mpr found
      | error e =>
          rw [found] at there
          cases there
    · rw [Lacks, there] at lacked
      cases lacked
  · intro id data valid there
    rcases settled id valid with same | ⟨put, -, right⟩
    · rw [contentAt?_congr sound fits.files.sound folder same] at there
      exact genuine id data valid there
    · rw [contentAt?, put] at there
      rwa [← Option.some.inj there]

/-- When everybody is done, exactly the contents that were not there have been stored. -/
theorem completes (fits : c.Fits x h blob good ids g) (sound : h.Sound) (nodup : ids.Nodup)
    (done : c.Done) : x.Completes blob h ids (Bytes.sort c.created) g := by
  have member : ∀ id, id ∈ c.created ↔ id ∈ ids ∧ x.Lacks h id := by
    intro id
    constructor
    · exact fun made => ⟨(fits.created id made).1, (fits.created id made).2.2.1⟩
    · rintro ⟨inIds, lacked⟩
      rcases fits.all done.failed id inIds with waits | ⟨i, isId⟩ | present | made
      · rw [done.waiting] at waits
        cases waits
      · rw [done.gone i] at isId
        cases isId
      · exact absurd lacked present
      · exact made
  constructor
  · refine Bytes.sort_congr ((List.perm_ext_iff_of_nodup fits.nodup.2 (nodup.filter _)).mpr ?_)
    intro id
    rw [member, List.mem_filter, Lacks, Bool.not_eq_true']
  · intro id valid
    split
    · rename_i made
      rw [contentAt?, (fits.created id (Bytes.mem_sort.mp made)).2.1]
    · rename_i unmade
      rw [Bytes.mem_sort] at unmade
      rcases fits.kept id valid with same | made | ⟨i, blobs, isStored⟩
      · exact contentAt?_congr sound fits.files.sound fits.files.setting.folder same
      · exact absurd made unmade
      · rw [done.gone i] at isStored
        cases isStored

end Crew.Fits

/-- Whatever workers do, in any order. -/
theorem Crew.fits_of_steps (sound : h.Sound) (nodup : ids.Nodup)
    (valid : ∀ id ∈ ids, ObjectId.isValid id = true)
    (supplies : x.source.Supplies (x.Usual h) blob) {n : Nat} {ended : Crew × Host}
    (steps : Relation.ReflTransGen (Step x) (Crew.begin n ids, h) ended) :
    ∃ good, ended.1.Fits x h blob good ids ended.2 := by
  obtain ⟨good, opens, reads⟩ := supplies
  refine ⟨good, ?_⟩
  induction steps with
  | refl => exact .begin sound nodup n
  | tail _ step ih => exact ih.step valid sound opens reads step

end

end Extractor

end SymbolHistory
