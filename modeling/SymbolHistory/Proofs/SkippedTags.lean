/-
# Proofs.SkippedTags -- what a collection counts

Collecting walks one tag after another.  `Scan` is what such a walk comes to for
somebody who writes the files down, and collecting adds up the scans of all tags
(`foldlM_collectTag_scans`).  A scan can deliver files and then end because its
tag leads nowhere.  Such a tag is skipped, but its files have been counted: a
collection counts the files of all tags, skipped or not, and that is what the
listed tags have only when no skipped tag delivered a file
(`collected_from_scans`).  A source that is kept in memory delivers nothing of a
tag that leads nowhere; a program may.
-/
import SymbolHistory.Proofs.StoredContents

set_option autoImplicit false

namespace SymbolHistory

open Run Host

/-! ## Walks that only take note -/

theorem foldl_snoc (files : List FileEntry) : ∀ seen : List FileEntry,
    files.foldl (fun seen e => seen ++ [e]) seen = seen ++ files := by
  induction files with
  | nil => simp
  | cons e rest ih => intro seen; rw [List.foldl_cons, ih, List.append_assoc, List.singleton_append]

/-- Visits that cannot fail: how far they come does not depend on what they note down. -/
theorem visitEntries_pure (entries : List FileEntry) :
    ∀ h : Host, ∃ (part : List FileEntry) (ended : Option Fault) (g : Host),
      ∀ {σ : Type} (f : σ → FileEntry → σ) (s : σ),
      (visitEntries (fun s e => pure (f s e)) s entries).on h = (.ok (part.foldl f s, ended), g) := by
  induction entries with
  | nil => exact fun h => ⟨[], none, h, fun _ _ => rfl⟩
  | cons e rest ih =>
      intro h
      cases checked : checkpoint.on h with
      | mk outcome k =>
          cases outcome with
          | error fault =>
              refine ⟨[], some fault, k, fun f s => ?_⟩
              rw [visitEntries, on_bind, on_attempt, on_bind, checked]
              rfl
          | ok _ =>
              obtain ⟨part, ended, g, rest⟩ := ih k
              refine ⟨e :: part, ended, g, fun f s => ?_⟩
              rw [visitEntries, on_bind, on_attempt, on_bind, checked]
              exact rest f (f s e)

namespace Source

/-- So a walk comes to the same files and the same end, whatever is noted down. -/
theorem walk_pure (source : Source) (tag : Tag) (h : Host) :
    (∃ (fault : Fault) (g : Host), ∀ {σ : Type} (f : σ → FileEntry → σ) (s : σ),
      (source.walk tag s fun s e => pure (f s e)).on h = (.error fault, g)) ∨
    ∃ (part : List FileEntry) (ended : Option Fault) (g : Host),
      ∀ {σ : Type} (f : σ → FileEntry → σ) (s : σ),
      (source.walk tag s fun s e => pure (f s e)).on h = (.ok (part.foldl f s, ended), g) := by
  cases listed : (source.listing tag).on h with
  | mk outcome k =>
      cases outcome with
      | error fault =>
          refine .inl ⟨fault, k, fun f s => ?_⟩
          rw [walk_eq, on_bind, listed]
      | ok answer =>
          obtain ⟨part, ended, g, visited⟩ := visitEntries_pure answer.1 k
          refine .inr ⟨part, ended.or answer.2, g, fun f s => ?_⟩
          rw [walk_eq, on_bind, listed]
          dsimp only
          rw [on_bind, visited f s]
          rfl

/-- A source that is kept in memory delivers nothing of a tag that leads nowhere. -/
theorem memory_walk_lost {σ : Type} {m : MemorySource} {tag : Tag} {f : σ → FileEntry → σ} {s s' : σ}
    {h g : Host} {fault : Fault}
    (walked : ((memory m).walk tag s fun s e => pure (f s e)).on h = (.ok (s', some fault), g))
    (unresolvable : fault.isUnresolvable = true) : s' = s := by
  cases found : m.entries tag with
  | error e =>
      simp only [walk, found] at walked
      cases walked
      rfl
  | ok entries =>
      simp only [walk, found] at walked
      have each : ∀ (s : σ) (e : FileEntry) (h : Host), True →
          (pure (f s e) : Run σ).Ends h fun r _ =>
            True ∧ (∀ s', r = .ok s' → s' = f s e) ∧ ∀ e, r = .error e → Fault.canceled = e := by
        intro s e h _
        refine ⟨⟨trivial, fun _ same => (Except.ok.inj same).symm, fun _ failed => ?_⟩⟩
        cases failed
      have visited := visitEntries_yields (J := fun _ => True) (fun _ _ => trivial) rfl each entries s
        (h := h) trivial
      obtain ⟨-, -, cause⟩ := visited.of_ok walked
      rw [← cause fault rfl] at unresolvable
      cases unresolvable

end Source

namespace Extractor

variable {x : Extractor} {h g k : Host}

theorem walk_note {σ : Type} (tag : Tag) (f : σ → FileEntry → σ) (s : σ) :
    x.walk tag s (fun s e => pure (f s e)) =
      x.source.walk tag s fun s e => pure (if x.filter.keeps e.path then f s e else s) := by
  rw [walk]
  congr 1
  funext s e
  split <;> rfl

theorem walk_pure (x : Extractor) (tag : Tag) (h : Host) :
    (∃ (fault : Fault) (g : Host), ∀ {σ : Type} (f : σ → FileEntry → σ) (s : σ),
      (x.walk tag s fun s e => pure (f s e)).on h = (.error fault, g)) ∨
    ∃ (files : List FileEntry) (ended : Option Fault) (g : Host),
      ∀ {σ : Type} (f : σ → FileEntry → σ) (s : σ),
      (x.walk tag s fun s e => pure (f s e)).on h = (.ok (files.foldl f s, ended), g) := by
  rcases x.source.walk_pure tag h with ⟨fault, g, failed⟩ | ⟨part, ended, g, visited⟩
  · exact .inl ⟨fault, g, fun f s => by rw [walk_note, failed]⟩
  · refine .inr ⟨part.filter fun e => x.filter.keeps e.path, ended, g, fun f s => ?_⟩
    rw [walk_note, visited, List.foldl_filter]

/-! ## Scans -/

/-- A tag with the files that are delivered of it, and how that ends. -/
structure Scan where
  tag : Tag
  files : List FileEntry := []
  ended : Option Fault := none

/-- All files of the tag were delivered. -/
def Scan.listed (s : Scan) : Bool := s.ended.isNone

/-- Tags are walked one after another, and their files written down; apart from that no file
changes. -/
inductive Scans (x : Extractor) : Host → List Scan → Host → Prop
  | none {h g : Host} : Quiet h g → Scans x h [] g
  | next {h k m g : Host} {s : Scan} {rest : List Scan} : Quiet h k →
      (x.walk s.tag [] fun files e => pure (files ++ [e])).on k = (.ok (s.files, s.ended), m) →
      Scans x m rest g → Scans x h (s :: rest) g

theorem Scans.quiet {scans : List Scan} (same : Quiet h k) (later : x.Scans k scans g) :
    x.Scans h scans g := by
  cases later with
  | none same' => exact .none (quiet_lasting.trans same same')
  | next same' walked rest => exact .next (quiet_lasting.trans same same') walked rest

theorem Scans.quiet_after {scans : List Scan} (scanned : x.Scans h scans g) (same : Quiet g k) :
    x.Scans h scans k := by
  induction scanned with
  | none same' => exact .none (quiet_lasting.trans same' same)
  | next same' walked _ ih => exact .next same' walked (ih same)

end Extractor

namespace Collection

open Extractor (Scan gather)

/-- A collection with one more scan. -/
def add (c : Collection) (s : Scan) : Collection where
  tags := if s.listed then c.tags ++ [s.tag] else c.tags
  skipped := if s.listed then c.skipped else c.skipped ++ [s.tag]
  ids := gather c.ids s.files
  files := c.files + s.files.length

/-- What a collection counts are the files of some scans, and the ids are theirs. -/
structure Counts (c : Collection) (scans : List Scan) : Prop where
  ids : ∀ id, id ∈ c.ids ↔ ∃ s ∈ scans, ∃ e ∈ s.files, e.id = id
  files : c.files = (scans.flatMap Scan.files).length

theorem foldl_note (files : List FileEntry) : ∀ c : Collection,
    files.foldl (fun c e => { c with files := c.files + 1, ids := Bytes.insertSorted e.id c.ids }) c =
      { c with files := c.files + files.length, ids := gather c.ids files } := by
  induction files with
  | nil => exact fun c => rfl
  | cons e rest ih =>
      intro c
      rw [List.foldl_cons, ih, List.length_cons, Nat.add_comm rest.length, ← Nat.add_assoc]
      rfl

theorem foldl_add (scans : List Scan) : ∀ c : Collection,
    (scans.foldl add c).tags = c.tags ++ (scans.filter Scan.listed).map Scan.tag ∧
    (scans.foldl add c).skipped =
      c.skipped ++ (scans.filter fun s => !s.listed).map Scan.tag ∧
    (scans.foldl add c).ids = gather c.ids (scans.flatMap Scan.files) ∧
    (scans.foldl add c).files = c.files + (scans.flatMap Scan.files).length := by
  induction scans with
  | nil => exact fun c => ⟨by simp, by simp, rfl, rfl⟩
  | cons s rest ih =>
      intro c
      obtain ⟨tags, skipped, ids, files⟩ := ih (c.add s)
      rw [List.foldl_cons, tags, skipped, ids, files, List.flatMap_cons, Extractor.gather_append,
        List.length_append, ← Nat.add_assoc]
      cases listed : s.listed <;> simp [add, listed]

/-- What scans add up to counts them all. -/
theorem counts_foldl_add (scans : List Scan) : (scans.foldl add {}).Counts scans := by
  obtain ⟨-, -, ids, files⟩ := foldl_add scans {}
  constructor
  · intro id
    rw [ids, Extractor.mem_gather]
    simp only [List.mem_flatMap, List.not_mem_nil, false_or]
    exact ⟨fun ⟨e, ⟨s, scanned, inside⟩, same⟩ => ⟨s, scanned, e, inside, same⟩,
      fun ⟨s, scanned, e, inside, same⟩ => ⟨e, ⟨s, scanned, inside⟩, same⟩⟩
  · rw [files, Nat.zero_add]

end Collection

namespace Extractor

variable {x : Extractor} {h g k : Host}

/-- Collecting a tag adds its scan. -/
theorem collectTag_scan (c : Collection) (tag : Tag) :
    (x.collectTag c tag).Yields h
      (fun c' g => ∃ s k m, s.tag = tag ∧ Quiet h k ∧
        (x.walk tag [] fun files e => pure (files ++ [e])).on k = (.ok (s.files, s.ended), m) ∧
        Quiet m g ∧ (∀ f, s.ended = some f → f.isUnresolvable = true) ∧ c' = c.add s)
      fun _ => True := by
  rw [collectTag]
  refine (checkpoint_quiet.yields h).anyway.bind fun _ k same => ?_
  rcases x.walk_pure tag k with ⟨fault, m, failed⟩ | ⟨files, ended, m, walked⟩
  · refine yields_bind_on (fun answer g is => ?_) fun _ _ _ => trivial
    have failed : (x.walk tag c note).on k = (.error fault, m) := failed _ c
    rw [failed] at is
    cases is
  · have counted : (x.walk tag c note).on k = _ := walked _ c
    have noted := walked (fun files e => files ++ [e]) []
    rw [Collection.foldl_note] at counted
    rw [foldl_snoc, List.nil_append] at noted
    refine (Yields.of_on counted).bind ?_
    rintro _ m ⟨rfl, rfl⟩
    refine advanceStage_sure.yields_bind fun _ n advanced => ?_
    cases ended with
    | none =>
        refine ⟨⟨tag, files, none⟩, k, m, rfl, same, noted, advanced, fun _ isEnded => ?_, rfl⟩
        cases isEnded
    | some fault =>
        dsimp only
        split
        · rename_i unresolvable
          refine (report_sure _ _ _).yields_bind fun _ _ reported => ?_
          refine (count_sure _).yields_bind fun _ _ counted => ?_
          refine ⟨⟨tag, files, some fault⟩, k, m, rfl, same, noted, ?_, ?_, rfl⟩
          · exact quiet_lasting.trans advanced (quiet_lasting.trans reported counted)
          · rintro _ ⟨⟩
            exact unresolvable
        · exact ⟨trivial⟩

/-- Scans of the tags, of which none ends but in success or because its tag leads nowhere, take one
collection to the other. -/
def Gathers (x : Extractor) (tags : List Tag) (h : Host) (c c' : Collection) (g : Host) : Prop :=
  ∃ scans, x.Scans h scans g ∧ scans.map Scan.tag = tags ∧
    (∀ s ∈ scans, ∀ f, s.ended = some f → f.isUnresolvable = true) ∧
    c' = scans.foldl Collection.add c

theorem Gathers.quiet {tags : List Tag} {c c' : Collection} (same : Quiet h k)
    (later : x.Gathers tags k c c' g) : x.Gathers tags h c c' g := by
  obtain ⟨scans, scanned, rest⟩ := later
  exact ⟨scans, scanned.quiet same, rest⟩

theorem Gathers.quiet_after {tags : List Tag} {c c' : Collection}
    (gathered : x.Gathers tags h c c' g) (same : Quiet g k) : x.Gathers tags h c c' k := by
  obtain ⟨scans, scanned, rest⟩ := gathered
  exact ⟨scans, scanned.quiet_after same, rest⟩

/-- Collecting tags adds up their scans. -/
theorem foldlM_collectTag_scans (tags : List Tag) :
    ∀ {h : Host} (c : Collection),
      (tags.foldlM x.collectTag c).Yields h (x.Gathers tags h c) fun _ => True := by
  induction tags with
  | nil => exact fun c => ⟨[], .none (quiet_lasting.refl _), rfl, nofun, rfl⟩
  | cons tag rest ih =>
      intro h c
      rw [List.foldlM_cons]
      refine (collectTag_scan c tag).bind ?_
      rintro _ g ⟨s, k, m, rfl, same, walked, same', lost, rfl⟩
      refine (ih (c.add s)).mono ?_ fun _ _ => trivial
      rintro _ n ⟨scans, scanned, rfl, losts, rfl⟩
      exact ⟨s :: scans, .next same walked (scanned.quiet same'), rfl,
        List.forall_mem_cons.mpr ⟨lost, losts⟩, rfl⟩

/-- Collecting adds up the scans of all tags. -/
theorem collect_scans (tags : List Tag) :
    (x.collect tags).Yields h (x.Gathers tags h {}) fun _ => True := by
  rw [collect]
  refine Yields.bind (?_ : Yields _ h (x.Gathers tags h {}) _) fun c g gathered => ?_
  · refine stage_yields _ _ (fun k same _ => ?_) Gathers.quiet_after fun _ _ => trivial
    exact (foldlM_collectTag_scans tags {}).mono (fun _ _ later => later.quiet same)
      fun _ _ => trivial
  · exact (report_sure _ _ _).yields_bind fun _ k same => ⟨gathered.quiet_after same⟩

/-- Behind each scan is a walk that came to it. -/
theorem Scans.walked {scans : List Scan} (scanned : x.Scans h scans g) :
    ∀ s ∈ scans, ∃ k m,
      (x.walk s.tag [] fun files e => pure (files ++ [e])).on k = (.ok (s.files, s.ended), m) := by
  induction scanned with
  | none _ => exact fun _ member => nomatch member
  | next _ walked _ ih => exact List.forall_mem_cons.mpr ⟨⟨_, _, walked⟩, ih⟩

/-- The files of the listed tags are all files only when the others have none. -/
theorem length_listed (scans : List Scan) :
    ((scans.filter Scan.listed).flatMap Scan.files).length ≤ (scans.flatMap Scan.files).length ∧
      ((scans.flatMap Scan.files).length = ((scans.filter Scan.listed).flatMap Scan.files).length ↔
        ∀ s ∈ scans, s.listed = false → s.files = []) := by
  induction scans with
  | nil => simp
  | cons s rest ih =>
      obtain ⟨below, same⟩ := ih
      rw [List.forall_mem_cons, ← same, ← List.length_eq_zero_iff]
      cases listed : s.listed with
      | true =>
          rw [List.filter_cons_of_pos listed]
          simp only [List.flatMap_cons, List.length_append, Bool.true_eq_false, false_implies,
            true_and]
          omega
      | false =>
          rw [List.filter_cons_of_neg (by simp [listed])]
          simp only [List.flatMap_cons, List.length_append, true_implies]
          omega

/-- A collection counts the files of its listed tags only when no other tag delivered a file. -/
theorem counts_listed_iff {c : Collection} {scans : List Scan} (counts : c.Counts scans) :
    c.Counts (scans.filter Scan.listed) ↔ ∀ s ∈ scans, s.listed = false → s.files = [] := by
  constructor
  · exact fun fewer => (length_listed scans).2.mp (counts.files.symm.trans fewer.files)
  · refine fun nothing => ⟨fun id => ?_, counts.files.trans ((length_listed scans).2.mpr nothing)⟩
    rw [counts.ids]
    constructor
    · rintro ⟨s, member, e, inside, same⟩
      cases listed : s.listed with
      | true => exact ⟨s, List.mem_filter.mpr ⟨member, listed⟩, e, inside, same⟩
      | false =>
          rw [nothing s member listed] at inside
          cases inside
    · rintro ⟨s, member, rest⟩
      exact ⟨s, (List.mem_filter.mp member).1, rest⟩

/-- The tags are parted in order into those whose files were all delivered and those that turned out
to lead nowhere.  The ids are sorted, each once.  What is counted are the files of all tags: also
those that were delivered of a tag before it turned out to lead nowhere.  So the files and ids are
those of the listed tags exactly when no other tag delivered a file, as is always so with a source
that is kept in memory. -/
theorem collected_from_scans {tags : List Tag} {c : Collection}
    (collected : (x.collect tags).on h = (.ok c, g)) :
    ∃ scans, x.Scans h scans g ∧ scans.map Scan.tag = tags ∧
      (∀ s ∈ scans, s.listed = false ↔ ∃ f, s.ended = some f ∧ f.isUnresolvable = true) ∧
      c.tags = (scans.filter Scan.listed).map Scan.tag ∧
      c.skipped = (scans.filter fun s => !s.listed).map Scan.tag ∧
      (c.ids.Pairwise fun a b => Bytes.order a b = .lt) ∧
      c.Counts scans ∧
      (c.Counts (scans.filter Scan.listed) ↔ ∀ s ∈ scans, s.listed = false → s.files = []) ∧
      ((∃ m, x.source = .memory m) → ∀ s ∈ scans, s.listed = false → s.files = []) := by
  obtain ⟨scans, scanned, isTags, lost, rfl⟩ := (collect_scans tags).of_ok collected
  obtain ⟨tags, skipped, ids, -⟩ := Collection.foldl_add scans {}
  have counts := Collection.counts_foldl_add scans
  have ended : ∀ s ∈ scans, s.listed = false ↔ ∃ f, s.ended = some f ∧ f.isUnresolvable = true := by
    intro s member
    cases isEnded : s.ended with
    | none => simp [Scan.listed, isEnded]
    | some f => simp [Scan.listed, isEnded, lost s member f isEnded]
  refine ⟨scans, scanned, isTags, ended, tags, skipped, ?_, counts, counts_listed_iff counts, ?_⟩
  · rw [ids]
    exact pairwise_gather _ .nil
  · rintro ⟨m, inMemory⟩ s member unlisted
    obtain ⟨f, isEnded, unresolvable⟩ := (ended s member).mp unlisted
    obtain ⟨k, n, walked⟩ := scanned.walked s member
    rw [walk_note, inMemory, isEnded] at walked
    exact Source.memory_walk_lost walked unresolvable

def knownTag : Tag := { name := lit "v1", time := 1 }

def lostTag : Tag := { name := lit "v2", commit := lit "c2", time := 2 }

/-- A content that both refer to. -/
def lostId : Bytes := lit "9bf38cb9ec98c6db0fe99530d677cd6ebcb4ee96"

/-- A source that is kept in memory and knows of no file of the second. -/
def lossyExtractor : Extractor where
  source := .memory
    { tags := [knownTag, lostTag], trees := [(lit "v1", [⟨lit "a.c", lostId⟩, ⟨lit "b.c", lostId⟩])],
      broken := [lit "v2"] }
  store := ⟨lit "/s"⟩

/-- There the files and ids that are counted are those of the first version. -/
theorem collected_from_scans_lossy :
    ∃ scans g, (lossyExtractor.collect [knownTag, lostTag]).on {} =
        (.ok { tags := [knownTag], skipped := [lostTag], ids := [lostId], files := 2 }, g) ∧
      lossyExtractor.Scans {} scans g ∧
      ({ tags := [knownTag], skipped := [lostTag], ids := [lostId], files := 2 } :
        Collection).Counts (scans.filter Scan.listed) := by
  have collected := on_eq_of_ok (by decide +kernel :
    ((lossyExtractor.collect [knownTag, lostTag]).on {}).1 =
      .ok { tags := [knownTag], skipped := [lostTag], ids := [lostId], files := 2 })
  obtain ⟨scans, scanned, -, -, -, -, -, -, asListed, nothing⟩ := collected_from_scans collected
  exact ⟨scans, _, collected, scanned, asListed.mpr (nothing ⟨_, rfl⟩)⟩

/-- A program that prints a file of a tree and then finds that the rest is missing. -/
def failingProgram : Bytes :=
  lit "#!/bin/sh\nprintf '100644 blob 9bf38cb9ec98c6db0fe99530d677cd6ebcb4ee96\\tb.c'\nexit 128\n"

def failingHost : Host := { tree := ⟨[([lit "git"], .file failingProgram true)]⟩ }

def failingExtractor : Extractor where
  source := .git { folder := lit "/r", program := lit "/git" }
  store := ⟨lit "/s"⟩

/-- A tag that is skipped after one of its files was delivered: the file and its id are counted, though
no tag is listed. -/
theorem skipped_tag_counted :
    ∃ scans g, (failingExtractor.collect [lostTag]).on failingHost =
        (.ok { tags := [], skipped := [lostTag], ids := [lostId], files := 1 }, g) ∧
      failingExtractor.Scans failingHost scans g ∧ scans.map Scan.tag = [lostTag] ∧
      ¬({ tags := [], skipped := [lostTag], ids := [lostId], files := 1 } :
        Collection).Counts (scans.filter Scan.listed) := by
  have collected := on_eq_of_ok (by decide +kernel :
    ((failingExtractor.collect [lostTag]).on failingHost).1 =
      .ok { tags := [], skipped := [lostTag], ids := [lostId], files := 1 })
  obtain ⟨scans, scanned, isTags, -, sums⟩ := (collect_scans [lostTag]).of_ok collected
  refine ⟨scans, _, collected, scanned, isTags, fun counts => ?_⟩
  have listed := (Collection.foldl_add scans {}).1
  rw [← sums, List.nil_append] at listed
  have none : scans.filter Scan.listed = [] := List.map_eq_nil_iff.mp listed.symm
  rw [none] at counts
  cases counts.files

end Extractor

end SymbolHistory
