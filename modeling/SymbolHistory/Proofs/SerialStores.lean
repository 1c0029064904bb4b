/-
# Proofs.SerialStores -- storing contents one by one is one way to share the work

Writing contents one by one is what a crew does whose first worker gets every id
while the others wait (`writeEach_steps`); they open their readers before and
leave afterwards.  So storing contents is a run of a crew, and what holds of all
runs of a crew holds of it: whatever order the workers take their steps in, and
wherever they stop, the store is sound and nothing in it is lost, and when they
are done it has what was asked for (`stored_in_any_order`).
-/
import SymbolHistory.Proofs.StoringCrews

set_option autoImplicit false

namespace SymbolHistory

open SymbolHistory.Path FileTree Run Host

namespace Extractor

variable {x : Extractor} {c : Crew} {g h k : Host}

/-- A crew can come to fail on `g`. -/
def Fails (x : Extractor) (c : Crew) (h g : Host) : Prop :=
  ∃ c', Relation.ReflTransGen (Step x) (c, h) (c', g) ∧ c'.failed = true

/-- The first worker can come to `t` on `g` while the others wait; `created` are stored by then, and
`waiting` are left. -/
def Comes (x : Extractor) (c : Crew) (h : Host) (t : Task) (created waiting : List Bytes) (g : Host) :
    Prop :=
  ∃ c', Relation.ReflTransGen (Step x) (c, h) (c', g) ∧ c'.tasks 0 = t ∧ c'.created = created ∧
    c'.waiting = waiting ∧ c'.failed = c.failed ∧ ∀ j, j ≠ 0 → c'.tasks j = c.tasks j

theorem Fails.of_steps {c' : Crew} {m : Host}
    (steps : Relation.ReflTransGen (Step x) (c, h) (c', m)) (fails : x.Fails c' m g) :
    x.Fails c h g := by
  obtain ⟨c'', more, failed⟩ := fails
  exact ⟨c'', steps.trans more, failed⟩

namespace Comes

variable {t : Task} {created waiting : List Bytes}

theorem quiet (comes : x.Comes c h t created waiting g) (same : Quiet g k) :
    x.Comes c h t created waiting k := by
  obtain ⟨c', steps, rest⟩ := comes
  exact ⟨c', steps.tail (.aside same), rest⟩

/-- The first worker goes on. -/
theorem go (comes : x.Comes c h t created waiting g) {t' : Task}
    (step : ∀ c', c'.tasks 0 = t → Step x (c', g) (c'.set 0 t', k)) :
    x.Comes c h t' created waiting k := by
  obtain ⟨c', steps, is, made, left, failed, others⟩ := comes
  exact ⟨_, steps.tail (step c' is), c'.set_self 0 t', made, left, failed,
    fun j other => (c'.set_other t' other).trans (others j other)⟩

/-- The first worker fails. -/
theorem fail (comes : x.Comes c h t created waiting g)
    (step : ∀ c', c'.tasks 0 = t → Step x (c', g) (c'.fail 0, k)) : x.Fails c h k := by
  obtain ⟨c', steps, is, -⟩ := comes
  exact ⟨_, steps.tail (step c' is), rfl⟩

variable {blobs : BlobReader} {id data : Bytes}

/-- The first worker gets the next id. -/
theorem take (comes : x.Comes c h (.free blobs) created (id :: waiting) g) :
    x.Comes c h (.busy blobs id .given) created waiting g := by
  obtain ⟨c', steps, is, made, left, failed, others⟩ := comes
  exact ⟨_, steps.tail (.takes is left), c'.set_self 0 _, made, rfl, failed,
    fun j other => (c'.set_other _ other).trans (others j other)⟩

/-- A content is written by steps. -/
theorem writeAll (comes : x.Comes c h (.busy blobs id (.absent data)) created waiting g) :
    (AtomicFile.writeAll (x.store.path id) data).Yields g
      (fun _ k => x.Comes c h (.free blobs) (id :: created) waiting k) (x.Fails c h) := by
  obtain ⟨c', steps, is, made, left, failed, others⟩ := comes
  refine yields_of_on (fun _ k ended => ?_) fun e k ended => ?_
  · cases AtomicFile.replaces_of_writeAll ended with
    | finished begun wrote finished =>
        have steps := steps.tail (.begins is begun)
        have steps := steps.tail (.writes (i := 0) rfl (c'.writers.set_self id _) wrote)
        have steps := steps.tail (.commits (i := 0) rfl
          (AtomicFile.Writers.set_self _ id _) finished)
        have steps := steps.tail (.records (i := 0) rfl)
        refine ⟨_, steps, rfl, congrArg _ made, left, failed, fun j other => ?_⟩
        refine (Crew.set_other _ _ other).trans ((Crew.set_other _ _ other).trans ?_)
        exact (Crew.set_other _ _ other).trans ((Crew.set_other _ _ other).trans (others j other))
  · cases AtomicFile.replaces_of_writeAll ended with
    | unbegun refused => exact ⟨_, steps.tail (.beginsNot is refused), rfl⟩
    | unwritten begun refused finished =>
        have steps := steps.tail (.begins is begun)
        have steps := steps.tail (.writesNot (i := 0) rfl (c'.writers.set_self id _) refused)
        exact ⟨_, steps.tail (.aborts (i := 0) rfl (c'.writers.set_self id _) finished), rfl⟩
    | finished begun wrote finished =>
        have steps := steps.tail (.begins is begun)
        have steps := steps.tail (.writes (i := 0) rfl (c'.writers.set_self id _) wrote)
        exact ⟨_, steps.tail (.commitsNot (i := 0) rfl
          (AtomicFile.Writers.set_self _ id _) finished), rfl⟩

variable (valid : ObjectId.isValid id = true)

include valid in
/-- A verified content is stored by steps, unless it is there. -/
theorem write (comes : x.Comes c h (.busy blobs id (.verified data)) created waiting g) :
    (x.store.write id data).Yields g
      (fun new k =>
        x.Comes c h (.free blobs) (if new then id :: created else created) waiting k)
      (x.Fails c h) := by
  rw [ObjectStore.write]
  refine (Yields.of_on (ObjectStore.on_checkId_of_isValid valid "write" g)).bind ?_
  rintro _ _ ⟨-, rfl⟩
  refine yields_bind_on (fun there m looked => ?_) fun _ _ looked => ?_
  · cases there with
    | true => exact ⟨comes.go fun c' is => .findsLate is looked⟩
    | false =>
        have comes := comes.go fun c' is => .missesAgain is looked
        exact (comes.writeAll.during _).bind fun _ k stored => ⟨stored⟩
  · cases looked

include valid in
/-- A content is looked for, read, verified and stored by steps. -/
theorem writeObject (comes : x.Comes c h (.busy blobs id .given) created waiting g) :
    (x.writeObject blobs id).Yields g
      (fun answer k =>
        x.Comes c h (.free answer.1) (if answer.2 then id :: created else created) waiting k)
      (x.Fails c h) := by
  rw [Extractor.writeObject]
  refine yields_bind_on (fun there m looked => ?_) fun _ _ looked => ?_
  · cases there with
    | true =>
        have comes := comes.go fun c' is => .finds is looked
        refine (counted_yields false m).bind ?_
        rintro _ k ⟨rfl, same⟩
        exact ⟨comes.quiet same⟩
    | false =>
        have comes := comes.go fun c' is => .misses is looked
        refine yields_bind_on (fun answer n read => ?_) fun e n broken =>
          comes.fail fun c' is => .breaks is broken
        obtain ⟨blobs', outcome⟩ := answer
        refine Yields.ofExcept_bind (fun data isData => ?_) fun e isFault => ?_
        · subst isData
          have comes := comes.go fun c' is => .reads is read
          refine Yields.ofExcept_bind (fun _ verified => ?_) fun e rejected => ?_
          · have comes : x.Comes c h (.busy blobs' id (.verified data)) created waiting n :=
              comes.go fun c' is => .verifies is verified
            refine (comes.write valid).bind fun new k stored => ?_
            refine (counted_yields new k).bind ?_
            rintro _ m ⟨rfl, same⟩
            exact ⟨stored.quiet same⟩
          · exact comes.fail fun c' is => .rejects is rejected
        · subst isFault
          exact comes.fail fun c' is => .readsNot is read
  · cases looked

/-- Contents are stored one by one. -/
theorem writeEach (ids : List Bytes) :
    ∀ {g : Host} {blobs : BlobReader} {created : List Bytes},
      (∀ id ∈ ids, ObjectId.isValid id = true) → x.Comes c h (.free blobs) created ids g →
      (x.writeEach blobs created ids).Yields g
        (fun created k => ∃ blobs, x.Comes c h (.free blobs) created [] k) (x.Fails c h) := by
  induction ids with
  | nil => exact fun _ comes => ⟨_, comes⟩
  | cons id rest ih =>
      intro g blobs created valid comes
      obtain ⟨isId, valid⟩ := List.forall_mem_cons.mp valid
      rw [Extractor.writeEach]
      refine ((checkpoint_quiet.yields g).mono (fun _ _ same => same) fun k same => ?_).bind
        fun _ k same => ?_
      · obtain ⟨c', steps, -⟩ := comes.quiet same
        exact ⟨_, steps.tail .stops, rfl⟩
      · refine (writeObject isId (comes.quiet same).take).bind fun answer m stored => ?_
        exact advanceStage_sure.yields_bind fun _ n same => ih valid (stored.quiet same)

end Comes

/-- Between `c` and `c'` the workers from `i` on opened readers. -/
structure Crew.Opened (c c' : Crew) (i : Nat) (readers : List BlobReader) : Prop where
  free : ∀ n r, readers[n]? = some r → c'.tasks (i + n) = .free r
  others : ∀ j, j < i ∨ i + readers.length ≤ j → c'.tasks j = c.tasks j
  waiting : c'.waiting = c.waiting
  created : c'.created = c.created
  failed : c'.failed = c.failed

/-- Readers are opened one by one. -/
theorem openReaders_steps (n : Nat) :
    ∀ {c : Crew} {g : Host} {i : Nat}, (∀ j, i ≤ j → j < i + n → c.tasks j = .opening) →
      (x.openReaders n).Yields g
        (fun readers k => readers.length = n ∧
          ∃ c', Relation.ReflTransGen (Step x) (c, g) (c', k) ∧ c.Opened c' i readers)
        (x.Fails c g) := by
  induction n with
  | zero =>
      intro c g i _
      rw [openReaders, yields_pure]
      exact ⟨rfl, c, .refl, by simp, fun _ _ => rfl, rfl, rfl, rfl⟩
  | succ n ih =>
      intro c g i opening
      have here := opening i (Nat.le_refl i) (by omega)
      rw [openReaders]
      refine yields_bind_on (fun r k opened => ?_) fun e k refused =>
        ⟨_, .single (.opensNot here refused), rfl⟩
      have begun : Step x (c, g) (c.set i (.free r), k) := .opens here opened
      have later := ih (c := c.set i (.free r)) (g := k) (i := i + 1) fun j above below => by
        rw [c.set_other _ (by omega)]
        exact opening j (by omega) (by omega)
      refine (later.mono (fun _ _ more => more) fun m fails => .of_steps (.single begun) fails).bind ?_
      rintro readers m ⟨length, c', steps, opened⟩
      refine ⟨by rw [List.length_cons, length], c', steps.head begun, fun m r' is => ?_,
        fun j outside => ?_, opened.waiting, opened.created, opened.failed⟩
      · cases m with
        | zero =>
            obtain rfl := Option.some.inj is
            exact (opened.others i (.inl (by omega))).trans (c.set_self i _)
        | succ m =>
            rw [← opened.free m r' is]
            congr 1
            omega
      · rw [List.length_cons] at outside
        rw [opened.others j (by omega), c.set_other _ (by omega)]

/-- Workers that have nothing more to do leave. -/
theorem leave_steps (n : Nat) :
    ∀ {c : Crew} {g : Host}, c.waiting = [] → c.failed = false →
      (∀ j, j < n → ∃ r, c.tasks j = .free r) → (∀ j, n ≤ j → c.tasks j = .gone) →
      ∃ c', Relation.ReflTransGen (Step x) (c, g) (c', g) ∧ c'.Done ∧ c'.created = c.created := by
  induction n with
  | zero =>
      intro c g waiting failed _ gone
      exact ⟨c, .refl, ⟨waiting, fun j => gone j (Nat.zero_le j), failed⟩, rfl⟩
  | succ n ih =>
      intro c g waiting failed free gone
      obtain ⟨r, isFree⟩ := free n (by omega)
      have before : ∀ j, j < n → ∃ r, (c.set n .gone).tasks j = .free r := fun j below => by
        rw [c.set_other _ (by omega)]
        exact free j (by omega)
      have after : ∀ j, n ≤ j → (c.set n .gone).tasks j = .gone := fun j above => by
        by_cases same : j = n
        · rw [same, c.set_self]
        · rw [c.set_other _ same]
          exact gone j (by omega)
      obtain ⟨c', steps, done, made⟩ := ih (c := c.set n .gone) (g := g) waiting failed before after
      exact ⟨c', steps.head (.leaves isFree waiting), done, made⟩

/-- All workers can come to have a reader each on `g`. -/
def Ready (x : Extractor) (n : Nat) (ids : List Bytes) (h : Host) (readers : List BlobReader)
    (g : Host) : Prop :=
  readers.length = n ∧ ∃ c, Relation.ReflTransGen (Step x) (Crew.begin n ids, h) (c, g) ∧
    (Crew.begin n ids).Opened c 0 readers

/-- All workers can come to be done on `g`, with `created` stored. -/
def Finished (x : Extractor) (n : Nat) (ids : List Bytes) (h : Host) (created : List Bytes)
    (g : Host) : Prop :=
  ∃ c, Relation.ReflTransGen (Step x) (Crew.begin n ids, h) (c, g) ∧ c.Done ∧ c.created = created

section

variable {n : Nat} {ids : List Bytes}

/-- Every worker opens a reader. -/
theorem openReaders_ready (same : Quiet h k) :
    (x.openReaders n).Yields k (x.Ready n ids h) (x.Fails (Crew.begin n ids) h) := by
  have begun : Relation.ReflTransGen (Step x) (Crew.begin n ids, h) (Crew.begin n ids, k) :=
    .single (.aside same)
  have opening : ∀ j, 0 ≤ j → j < 0 + n → (Crew.begin n ids).tasks j = .opening :=
    fun j _ below => Crew.begin_opening ids (by omega)
  refine (openReaders_steps n opening).mono ?_ fun m fails => .of_steps begun fails
  rintro readers m ⟨length, c, steps, opened⟩
  exact ⟨length, c, begun.trans steps, opened⟩

/-- The first worker stores all contents, and everybody leaves. -/
theorem writeEach_finished (valid : ∀ id ∈ ids, ObjectId.isValid id = true) {blobs : BlobReader}
    {readers : List BlobReader} (ready : x.Ready n ids h (blobs :: readers) k) :
    (x.writeEach blobs [] ids).Yields k (x.Finished n ids h) (x.Fails (Crew.begin n ids) h) := by
  obtain ⟨length, c, steps, opened⟩ := ready
  have comes : x.Comes c k (.free blobs) [] ids k :=
    ⟨c, .refl, opened.free 0 blobs rfl, opened.created, opened.waiting, rfl, fun _ _ => rfl⟩
  refine (comes.writeEach ids valid).mono ?_ fun m fails => .of_steps steps fails
  rintro created m ⟨blobs', c', more, isFree, made, nothing, failed, others⟩
  have free : ∀ j, j < n → ∃ r, c'.tasks j = .free r := by
    intro j below
    cases j with
    | zero => exact ⟨blobs', isFree⟩
    | succ j =>
        have isReader := List.getElem?_eq_getElem (length.symm ▸ below)
        have same := opened.free (j + 1) _ isReader
        rw [Nat.zero_add] at same
        exact ⟨_, (others (j + 1) (Nat.succ_ne_zero j)).trans same⟩
  have gone : ∀ j, n ≤ j → c'.tasks j = .gone := by
    intro j above
    rw [List.length_cons] at length
    rw [others j (by omega), opened.others j (.inr (by rw [List.length_cons]; omega))]
    exact Crew.begin_gone ids above
  obtain ⟨c'', left, done, same⟩ :=
    leave_steps (g := m) n nothing (failed.trans opened.failed) free gone
  exact ⟨c'', (steps.trans more).trans left, done, same.trans made⟩

/-- Without workers there was nothing to do. -/
theorem Ready.finished (ready : x.Ready n ids h [] k) (nothing : n = 0 → ids = []) :
    x.Finished n ids h [] k := by
  obtain ⟨length, c, steps, opened⟩ := ready
  obtain rfl : n = 0 := length.symm
  refine ⟨c, steps, ⟨opened.waiting.trans (nothing rfl), fun j => ?_, opened.failed⟩, opened.created⟩
  rw [opened.others j (.inr (Nat.zero_le j))]
  exact Crew.begin_gone ids (Nat.zero_le j)

theorem Finished.quiet {created : List Bytes} (finished : x.Finished n ids h created g)
    (same : Quiet g k) : x.Finished n ids h created k := by
  obtain ⟨c, steps, rest⟩ := finished
  exact ⟨c, steps.tail (.aside same), rest⟩

theorem Fails.quiet (fails : x.Fails c h g) (same : Quiet g k) : x.Fails c h k := by
  obtain ⟨c', steps, failed⟩ := fails
  exact ⟨c', steps.tail (.aside same), failed⟩

/-- Storing contents is something a crew can do: when it succeeds everybody is done, and when it
fails somebody failed. -/
theorem writeObjects_finished (valid : ∀ id ∈ ids, ObjectId.isValid id = true)
    (busy : 0 < workerCount x.workers h) (many : n = min (workerCount x.workers h) ids.length) :
    (x.writeObjects ids).Yields h
      (fun sorted g => ∃ created, x.Finished n ids h created g ∧ sorted = Bytes.sort created)
      (x.Fails (Crew.begin n ids) h) := by
  subst many
  refine writeObjects_of_opened (fun k same => openReaders_ready same)
    (fun blobs readers k ready => writeEach_finished valid ready)
    (fun k ready => ready.finished fun none => ?_) Finished.quiet Fails.quiet fun {k} same => ?_
  · exact List.eq_nil_of_length_eq_zero (by omega)
  · exact ⟨_, (Relation.ReflTransGen.single (.aside same)).tail .stops, rfl⟩

end

/-- Any number of workers, in whatever order they take their steps: at every moment, also when some
of them failed, nothing that was in the store is lost or changed and every content in it has its id.
When all are done, exactly the contents that were not there have been stored, as the source has them.
Storing contents one by one is one such order. -/
theorem stored_in_any_order {blob : Bytes → Bytes} {ids : List Bytes} (sound : h.Sound)
    (genuine : x.store.Genuine h) (nodup : ids.Nodup)
    (valid : ∀ id ∈ ids, ObjectId.isValid id = true)
    (supplies : x.source.Supplies (x.Usual h) blob) :
    (∀ n c g, Relation.ReflTransGen (Step x) (Crew.begin n ids, h) (c, g) →
      x.Preserves h g ∧ (c.Done → x.Completes blob h ids (Bytes.sort c.created) g)) ∧
    (0 < workerCount x.workers h →
      (x.writeObjects ids).Yields h
        (fun sorted g => x.Preserves h g ∧ x.Completes blob h ids sorted g ∧
          ∃ created, x.Finished (min (workerCount x.workers h) ids.length) ids h created g ∧
            sorted = Bytes.sort created)
        (fun g => x.Preserves h g ∧
          x.Fails (Crew.begin (min (workerCount x.workers h) ids.length) ids) h g)) := by
  have all : ∀ n c g, Relation.ReflTransGen (Step x) (Crew.begin n ids, h) (c, g) →
      x.Preserves h g ∧ (c.Done → x.Completes blob h ids (Bytes.sort c.created) g) := by
    intro n c g steps
    obtain ⟨good, fits⟩ := Crew.fits_of_steps sound nodup valid supplies steps
    exact ⟨fits.preserves sound genuine, fits.completes sound nodup⟩
  refine ⟨all, fun busy => (writeObjects_finished valid busy rfl).mono ?_ ?_⟩
  · rintro _ g ⟨_, ⟨c, steps, done, rfl⟩, rfl⟩
    obtain ⟨preserves, completes⟩ := all _ c g steps
    exact ⟨preserves, completes done, _, ⟨c, steps, done, rfl⟩, rfl⟩
  · rintro g ⟨c, steps, failed⟩
    exact ⟨(all _ c g steps).1, c, steps, failed⟩

/-! ## Two workers -/

/-- The ids of three contents. -/
def idOne : Bytes := lit "43dd47ea691c90a5fa7827892c70241913351963"

def idTwo : Bytes := lit "64c5e5885a4b06010b3a0c20edb7900dd0311025"

def idOld : Bytes := lit "489ce0f857e7634a0eb9f328265a3e91fad49f61"

/-- A source with a content that does not have its id. -/
def spoiledSource : MemorySource :=
  { blobs := [(idOne, lit "one"), (idTwo, lit "other")] }

/-- Two workers store contents from there. -/
def pairExtractor : Extractor := { source := .memory spoiledSource, store := ⟨lit "/s"⟩, workers := 2 }

/-- A machine with a store that has one content. -/
def stockedHost : Host :=
  { tree := ⟨[([lit "s"], .folder), ([lit "s", idOld], .file (lit "old") false)]⟩ }

/-- The content that the source has of an id. -/
def spoiledBlob (id : Bytes) : Bytes := (spoiledSource.blob id).toOption.getD []

/-- What a worker has when it has begun to store a content. -/
def pairDraft : AtomicFile := ⟨lit "/s/.tmp-1", pairExtractor.store.path idOne, false⟩

theorem stockedHost_sound : stockedHost.Sound := by decide +kernel

theorem stockedHost_genuine : pairExtractor.store.Genuine stockedHost := by
  intro id data valid there
  obtain ⟨executable, found⟩ := exists_look_of_contentAt? there
  have here := ((look_eq_ok_iff stockedHost_sound).mp found).2.1
  rw [locate_path _ _ valid, (by decide : stockedHost.locate pairExtractor.store.folder = [lit "s"])]
    at here
  by_cases old : id = idOld
  · rw [old, (by decide +kernel : stockedHost.tree.get? ([lit "s"] ++ [idOld]) =
      some (.file (lit "old") false))] at here
    cases here
    rw [old]
    decide +kernel
  · have nothing : stockedHost.tree.get? ([lit "s"] ++ [id]) = none := by
      simp [stockedHost, get?, Ne.symm old]
    rw [nothing] at here
    cases here

theorem spoiledSource_supplies (usual : Host → Prop) :
    (Source.memory spoiledSource).Supplies usual spoiledBlob := by
  refine Source.memory_supplies (fun id data found => ?_) usual
  rw [spoiledBlob, found]
  rfl

theorem on_read_memory {m : MemorySource} {id : Bytes} {outcome : Except Fault Bytes}
    (is : m.blob id = outcome) (g : Host) :
    ((BlobReader.memory m).read id).on g = (.ok (.memory m, outcome), g) := by
  rw [← is]
  rfl

/-- One worker stores a content while the other fails: what was there is there.  Without the spoiled
content storing succeeds, and passes over what is there. -/
theorem stored_in_any_order_pair :
    (∃ c g, Relation.ReflTransGen (Step pairExtractor)
        (Crew.begin 2 [idOne, idTwo], stockedHost) (c, g) ∧
      c.failed = true ∧ c.created = [idOne] ∧ pairExtractor.Preserves stockedHost g) ∧
    ∃ g, (pairExtractor.writeObjects [idOld, idOne]).on stockedHost =
        (.ok [idOne], g) ∧
      g.contentAt? (pairExtractor.store.path idOne) = some (lit "one") ∧
      g.look (pairExtractor.store.path idOld) = .ok (.file (lit "old") false) := by
  constructor
  · have lacks : ∀ {g : Host} {id : Bytes}, (g.look (pairExtractor.store.path id)).isOk = false →
        (pairExtractor.store.has id).on g = (.ok false, g) := by
      intro g id lacked
      rw [ObjectStore.has, on_isThere, lacked]
    have steps : Relation.ReflTransGen (Step pairExtractor)
        (Crew.begin 2 [idOne, idTwo], stockedHost) (_, stockedHost) :=
      .single (.opens (i := 0) rfl rfl)
    have steps := steps.tail (.opens (i := 1) rfl rfl)
    have steps := steps.tail (.takes (i := 0) rfl rfl)
    have steps := steps.tail (.takes (i := 1) rfl rfl)
    have steps := steps.tail (.misses (i := 1) rfl (lacks (by decide +kernel)))
    have steps := steps.tail (.misses (i := 0) rfl (lacks (by decide +kernel)))
    have steps := steps.tail (.reads (i := 0) rfl
      (on_read_memory (by decide +kernel : _ = Except.ok (lit "one")) _))
    have steps := steps.tail (.reads (i := 1) rfl
      (on_read_memory (by decide +kernel : _ = Except.ok (lit "other")) _))
    have steps := steps.tail (.verifies (i := 0) rfl (by decide +kernel))
    have steps := steps.tail (.missesAgain (i := 0) rfl (lacks (by decide +kernel)))
    have steps := steps.tail (.begins (i := 0) rfl (on_eq_of_ok (by decide +kernel :
      ((AtomicFile.create (pairExtractor.store.path idOne)).on _).1 = .ok pairDraft)))
    have steps := steps.tail (.rejects (i := 1) rfl (by decide +kernel :
      _ = Except.error (.hashMismatch idTwo (lit "27fa34919ae70aa0d7eaccdfbf393cfc440e7d25"))))
    have steps := steps.tail (.writes (i := 0) rfl (AtomicFile.Writers.set_self _ _ _)
      (on_eq_of_ok (by decide +kernel : ((pairDraft.write (lit "one")).on _).1 = .ok ())))
    have steps := steps.tail (.commits (i := 0) rfl (AtomicFile.Writers.set_self _ _ _)
      (on_eq_of_ok (by decide +kernel :
        ((pairDraft.finish .commit).on _).1 = .ok ({ pairDraft with done := true }, .ok ()))))
    have steps := steps.tail (.records (i := 0) rfl)
    obtain ⟨all, -⟩ := stored_in_any_order stockedHost_sound stockedHost_genuine
      (by decide +kernel : [idOne, idTwo].Nodup) (by decide +kernel)
      (spoiledSource_supplies _)
    exact ⟨_, _, steps, rfl, rfl, (all 2 _ _ steps).1⟩
  · obtain ⟨-, serial⟩ := stored_in_any_order stockedHost_sound stockedHost_genuine
      (by decide +kernel : [idOld, idOne].Nodup) (by decide +kernel)
      (spoiledSource_supplies _)
    have ended := on_eq_of_ok (by decide +kernel :
      ((pairExtractor.writeObjects [idOld, idOne]).on stockedHost).1 = .ok [idOne])
    obtain ⟨preserves, completes, -⟩ := (serial (by decide)).of_ok ended
    refine ⟨_, ended, ?_, ?_⟩
    · have stored := completes.content idOne (by decide +kernel)
      refine (stored.trans (if_pos (List.mem_singleton_self _))).trans ?_
      decide +kernel
    · rw [preserves.kept _ (by decide +kernel) (by decide +kernel)]
      decide +kernel

end Extractor

end SymbolHistory
