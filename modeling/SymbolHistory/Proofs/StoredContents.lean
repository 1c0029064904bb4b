/-
# Proofs.StoredContents -- contents that a pass stores

A pass collects the ids of all files, each once (`gather_nodup`), and stores what
the source has of them.  When the source always has the same content for an id,
what is stored is what is planned (`Plan.Stocks`), also when storing is cut
short; when it is not, every id that was collected is there
(`Plan.writeObjects_stocks`).
-/
import SymbolHistory.Proofs.Plans
import SymbolHistory.Proofs.Stages

set_option autoImplicit false

namespace SymbolHistory

open SymbolHistory.Path FileTree Run Host

/-! ## Ids, each once -/

namespace Bytes

theorem mem_insertSorted (x y : Bytes) (xs : List Bytes) :
    y ∈ insertSorted x xs ↔ y = x ∨ y ∈ xs := by
  fun_induction insertSorted x xs with
  | case1 => simp
  | case2 => simp
  | case3 z rest same =>
      obtain rfl := eq_of_order_eq same
      simp
  | case4 z rest _ ih => rw [List.mem_cons, ih, List.mem_cons, or_left_comm]

theorem pairwise_insertSorted {x : Bytes} {xs : List Bytes}
    (sorted : xs.Pairwise fun a b => order a b = .lt) :
    (insertSorted x xs).Pairwise fun a b => order a b = .lt := by
  fun_induction insertSorted x xs with
  | case1 => exact List.pairwise_singleton _ _
  | case2 y rest below =>
      refine .cons (fun z member => ?_) sorted
      rcases List.mem_cons.mp member with rfl | later
      · exact below
      · exact order_trans below (List.rel_of_pairwise_cons sorted later)
  | case3 => exact sorted
  | case4 y rest above ih =>
      refine .cons (fun z member => ?_) (ih sorted.of_cons)
      rcases (mem_insertSorted x z rest).mp member with rfl | later
      · rw [order_swap z y, above]
        rfl
      · exact List.rel_of_pairwise_cons sorted later

end Bytes

namespace Extractor

theorem mem_gather {id : Bytes} (files : List FileEntry) :
    ∀ ids, id ∈ gather ids files ↔ id ∈ ids ∨ ∃ e ∈ files, e.id = id := by
  induction files with
  | nil => simp [gather]
  | cons e rest ih =>
      intro ids
      have more : gather ids (e :: rest) = gather (Bytes.insertSorted e.id ids) rest := rfl
      rw [more, ih, Bytes.mem_insertSorted]
      simp only [List.mem_cons, exists_eq_or_imp, eq_comm (a := id)]
      rw [or_assoc, or_left_comm]

theorem pairwise_gather (files : List FileEntry) :
    ∀ {ids : List Bytes}, (ids.Pairwise fun a b => Bytes.order a b = .lt) →
      (gather ids files).Pairwise fun a b => Bytes.order a b = .lt := by
  induction files with
  | nil => exact fun sorted => sorted
  | cons e rest ih => exact fun sorted => ih (Bytes.pairwise_insertSorted sorted)

theorem gather_nodup (files : List FileEntry) : (gather [] files).Nodup := by
  refine (pairwise_gather files .nil).imp fun below same => ?_
  rw [same, Bytes.order_self] at below
  cases below

end Extractor

/-! ## What a source has of an id -/

/-- On the hosts that are `usual`, what is read of an id is always the same. -/
def Source.Supplies (source : Source) (usual : Host → Prop) (blob : Bytes → Bytes) : Prop :=
  ∃ good : BlobReader → Prop,
    (∀ h, usual h → source.openBlobs.Yields h (fun r g => Quiet h g ∧ good r) (Quiet h)) ∧
    ∀ r id h, good r → usual h → (r.read id).Yields h
      (fun answer g => Quiet h g ∧ good answer.1 ∧ ∀ data, answer.2 = .ok data → data = blob id)
      (Quiet h)

theorem Source.Supplies.mono {source : Source} {usual usual' : Host → Prop} {blob : Bytes → Bytes}
    (supplies : source.Supplies usual blob) (implies : ∀ {h}, usual' h → usual h) :
    source.Supplies usual' blob := by
  obtain ⟨good, opens, reads⟩ := supplies
  exact ⟨good, fun h isUsual => opens h (implies isUsual),
    fun r id h isGood isUsual => reads r id h isGood (implies isUsual)⟩

/-- A source that is kept in memory has the same contents on all hosts. -/
theorem Source.memory_supplies {m : MemorySource} {blob : Bytes → Bytes}
    (right : ∀ id data, m.blob id = .ok data → data = blob id) (usual : Host → Prop) :
    (Source.memory m).Supplies usual blob := by
  refine ⟨(· = .memory m), fun h _ => ?_, ?_⟩
  · exact (yields_pure _ _ _ _).mpr ⟨quiet_lasting.refl h, rfl⟩
  · rintro _ id h rfl -
    exact (yields_pure _ _ _ _).mpr ⟨quiet_lasting.refl h, rfl, right id⟩

/-! ## Storing what is planned -/

namespace Plan

variable {plan : Plan} {x : Extractor} {h g k : Host} {id : Bytes}

/-- Between `h` and `g` planned contents were stored, and nothing else happened. -/
def Stocks (plan : Plan) (h g : Host) : Prop :=
  g.tally.cache = h.tally.cache ∧ ∃ made, Adds plan.layout.objects made h g ∧
    ∀ e ∈ made, e.2 = plan.blob e.1

namespace Stocks

theorem refl (sound : h.Sound) : plan.Stocks h h := ⟨rfl, [], .refl sound _, by simp⟩

theorem sound (stocks : plan.Stocks h g) : g.Sound := by
  obtain ⟨-, made, adds, -⟩ := stocks
  exact adds.sound

theorem quiet (stocks : plan.Stocks h g) (same : Quiet g k) : plan.Stocks h k := by
  obtain ⟨cache, made, adds, right⟩ := stocks
  exact ⟨same.cache.trans cache, made, adds.sameFiles same.toSameFiles, right⟩

theorem trans (first : plan.Stocks h g) (second : plan.Stocks g k) : plan.Stocks h k := by
  obtain ⟨cache, made, adds, right⟩ := first
  obtain ⟨cache', more, adds', right'⟩ := second
  refine ⟨cache'.trans cache, made ++ more, adds.trans adds', fun e member => ?_⟩
  exact (List.mem_append.mp member).elim (right e) (right' e)

theorem yields {α : Type} {work : Run α} (stocks : plan.Stocks h g) (keeps : work.Keeps Quiet) :
    work.Yields g (fun _ => plan.Stocks h) (plan.Stocks h) :=
  (keeps.yields g).mono (fun _ _ same => stocks.quiet same) fun _ same => stocks.quiet same

theorem isOk_look (stocks : plan.Stocks h g) (sound : h.Sound) {p : Bytes}
    (there : (h.look p).isOk = true) : (g.look p).isOk = true := by
  obtain ⟨-, made, adds, -⟩ := stocks
  exact adds.isOk_look sound there

/-- Folders may have been made on the way to the store. -/
theorem of_grows (sound : h.Sound)
    (grown : Changes (Grows (h.locate plan.layout.objectStore.folder)) h g) : plan.Stocks h g :=
  ⟨grown.cache, [], (Adds.refl sound plan.layout.objects).grow grown, by simp⟩

/-- One content was stored. -/
theorem of_puts (sound : h.Sound) (valid : ObjectId.isValid id = true)
    (missing : (h.look (plan.layout.objectStore.path id)).isOk = false)
    (put : Changes (Puts (h.locate (plan.layout.objectStore.path id)) (plan.blob id)) h g)
    (found : g.look (plan.layout.objectStore.path id) = .ok (.file (plan.blob id) false)) :
    plan.Stocks h g := by
  have added := (Adds.refl sound plan.layout.objects).put sound (ObjectId.isName_of_isValid valid)
    (by simp) missing put found
  exact ⟨put.cache, _, added, by simp⟩

/-- The names beside the store stay as they are. -/
theorem spares (stocks : plan.Stocks h g) {apart : List Bytes} (other : Layout.objectsName ∉ apart) :
    plan.layout.Spares apart h g := by
  obtain ⟨cache, made, adds, -⟩ := stocks
  exact .of_adds adds cache (plan.layout.locate_objects h) other

theorem usual (stocks : plan.Stocks h g) : plan.layout.Usual h g :=
  (stocks.spares (by decide : _ ∉ Layout.stores.tail)).usual

theorem agrees (stocks : plan.Stocks h g) (agrees : plan.Agrees h) : plan.Agrees g := by
  obtain ⟨-, made, adds, right⟩ := stocks
  refine agrees.of_adds adds (plan.layout.locate_objects h) fun e member text wants => ?_
  rw [right e member, ← wants.eq_blob]
  exact wants

end Stocks

section

variable (store : x.store = plan.layout.objectStore) {usual : Host → Prop}
  (within : ∀ {g}, plan.layout.Usual h g → usual g) {good : BlobReader → Prop}
  (reads : ∀ r id h, good r → usual h → (r.read id).Yields h
    (fun answer g => Quiet h g ∧ good answer.1 ∧ ∀ data, answer.2 = .ok data → data = plan.blob id)
    (Quiet h))

include store within reads

theorem writeObject_stocks (sound : g.Sound) (here : plan.layout.Usual h g) {blobs : BlobReader}
    (isGood : good blobs) (id : Bytes) :
    (x.writeObject blobs id).Yields g
      (fun answer k => plan.Stocks g k ∧ good answer.1 ∧
        (k.look (plan.layout.objectStore.path id)).isOk = true)
      (plan.Stocks g) := by
  have start : plan.Stocks g g := .refl sound
  rw [Extractor.writeObject, store, ObjectStore.has]
  refine (isThere_yields g _).bind ?_
  rintro _ _ ⟨rfl, rfl⟩
  split
  · rename_i there
    refine (Extractor.counted_sure false).yields_bind fun _ k same => ?_
    exact ⟨start.quiet same, isGood, (start.quiet same).isOk_look sound there⟩
  · refine ((reads blobs id _ isGood (within here)).mono (fun _ _ read => read)
      fun _ same => start.quiet same).bind ?_
    rintro ⟨blobs, outcome⟩ k ⟨same, isGood, planned⟩
    have stocks := start.quiet same
    refine Yields.ofExcept_bind (fun data isData => ?_) fun _ _ => stocks
    refine Yields.ofExcept_bind (fun _ _ => ?_) fun _ _ => stocks
    obtain rfl := planned data isData
    refine ((plan.layout.objectStore.write_yields stocks.sound id _).mono (fun _ _ stored => stored)
      fun m grown => stocks.trans (.of_grows stocks.sound grown)).bind ?_
    rintro created m stored
    refine (Extractor.counted_sure _).yields_bind fun _ n counted => ?_
    rw [yields_pure, look_of_sameFiles counted.toSameFiles]
    obtain ⟨valid, ⟨there, -, rfl⟩ | ⟨missing, -, put, found⟩⟩ := stored
    · exact ⟨stocks.quiet counted, isGood, there⟩
    · have stored := stocks.trans (.of_puts stocks.sound valid missing put found)
      exact ⟨stored.quiet counted, isGood, by rw [found]; rfl⟩

theorem writeEach_stocks (ids : List Bytes) :
    ∀ {g : Host} {blobs : BlobReader} (created : List Bytes), g.Sound → plan.layout.Usual h g →
      good blobs → (x.writeEach blobs created ids).Yields g
        (fun _ k => plan.Stocks g k ∧ plan.layout.objectStore.Holds k ids)
        (plan.Stocks g) := by
  induction ids with
  | nil => exact fun created sound _ _ => ⟨.refl sound, by simp [ObjectStore.Holds]⟩
  | cons id rest ih =>
      intro g blobs created sound here isGood
      rw [Extractor.writeEach]
      refine ((Stocks.refl sound).yields checkpoint_quiet).bind fun _ k checked => ?_
      refine ((writeObject_stocks store within reads checked.sound (here.trans checked.usual) isGood
        id).mono (fun _ _ stored => stored) fun _ => checked.trans).bind ?_
      rintro ⟨blobs, new⟩ m ⟨stored, isGood, there⟩
      refine advanceStage_sure.yields_bind fun _ n same => ?_
      have stocks := (checked.trans stored).quiet same
      rw [← look_of_sameFiles same.toSameFiles] at there
      refine (ih _ stocks.sound (here.trans stocks.usual) isGood).mono ?_ fun _ => stocks.trans
      rintro created k ⟨more, all⟩
      refine ⟨stocks.trans more, fun id' member => ?_⟩
      rcases List.mem_cons.mp member with rfl | later
      · exact more.isOk_look stocks.sound there
      · exact all id' later

end

/-- Storing keeps to the plan however it ends, and if it succeeds every id is there. -/
theorem writeObjects_stocks (store : x.store = plan.layout.objectStore) (busy : 0 < x.workers)
    {usual : Host → Prop} (within : ∀ {g}, plan.layout.Usual h g → usual g)
    (supplies : x.source.Supplies usual plan.blob) (sound : h.Sound) (ids : List Bytes) :
    (x.writeObjects ids).Yields h
      (fun _ k => plan.Stocks h k ∧ plan.layout.objectStore.Holds k ids)
      (plan.Stocks h) := by
  obtain ⟨good, opens, reads⟩ := supplies
  have start : plan.Stocks h h := .refl sound
  refine Extractor.writeObjects_of_each (fun k same => opens k (within (start.quiet same).usual))
    (fun blobs k isGood same => ?_) (fun idle {k} same => ?_) ?_ Stocks.quiet start.quiet
  · refine (writeEach_stocks store within reads ids [] (same.sound sound) (start.quiet same).usual
      isGood).mono ?_ fun _ => (start.quiet same).trans
    rintro _ m ⟨stocks, all⟩
    exact ⟨(start.quiet same).trans stocks, all⟩
  · obtain rfl : ids = [] := idle.resolve_right (by omega)
    exact ⟨start.quiet same, by simp [ObjectStore.Holds]⟩
  · rintro k m ⟨stocks, all⟩ same
    refine ⟨stocks.quiet same, fun id member => ?_⟩
    rw [look_of_sameFiles same.toSameFiles]
    exact all id member

end Plan

end SymbolHistory
