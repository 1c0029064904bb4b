/-
# Proofs.MissingDiffs -- a comparison makes the diffs that are missing, and no other

The version of a tag is put together from what is known of its files and from
the symbol files of their contents (`Comparison.version`).  `Comparison.due`
lists the diffs that are missing, each between a version and the one right
before it, whether or not the diffs in between are there.

A comparison goes through the tags that a missing diff needs.  What it keeps is
`Reached`: some diffs that are due have been made, and nothing else has changed.
The window holds the version before a tag whenever the tag's diff is missing
(`compareEach_yields`), so the diffs made are those due, in order; when the work
is cut short they are an initial part of them.
-/
import SymbolHistory.Proofs.Additions
import SymbolHistory.Proofs.Walks

set_option autoImplicit false

namespace SymbolHistory

open SymbolHistory.Path FileTree Run Host

/-! ## Versions -/

namespace Layout

/-- The symbols in the symbol file of a content; none if it has no symbol file. -/
def symbolsAt (l : Layout) (h : Host) (id : Bytes) : List Symbol :=
  if ObjectId.isValid id then
    ((h.contentAt? (l.tagStore.path id)).map fun data => (Symbol.readAll ⟨data, none⟩).items).getD []
  else []

theorem symbolsAt_of_contentAt? (l : Layout) {h : Host} {id : Bytes} {content : Option Bytes}
    (valid : ObjectId.isValid id = true) (there : h.contentAt? (l.tagStore.path id) = content) :
    l.symbolsAt h id = (content.map fun data => (Symbol.readAll ⟨data, none⟩).items).getD [] := by
  rw [symbolsAt, if_pos valid, there]

/-- Hosts with the same symbol files say the same about a content. -/
theorem symbolsAt_congr (l : Layout) {h g : Host} {id : Bytes}
    (same : ObjectId.isValid id = true →
      g.contentAt? (l.tagStore.path id) = h.contentAt? (l.tagStore.path id)) :
    l.symbolsAt g id = l.symbolsAt h id := by
  rw [symbolsAt, symbolsAt]
  split
  · rename_i valid
    rw [same valid]
  · rfl

/-- Where symbol files are spared, they say what they said. -/
theorem Spares.symbolsAt {l : Layout} {apart : List Bytes} {h g : Host} (spares : l.Spares apart h g)
    (sound : h.Sound) (tags : tagsName ∈ apart) (id : Bytes) : l.symbolsAt g id = l.symbolsAt h id :=
  l.symbolsAt_congr fun valid => contentAt?_congr sound spares.sound spares.folder
    (spares.get?_eq (l.locate_symbolFile h valid) tags)

/-- The finds in some files, in order. -/
def finds (l : Layout) (h : Host) (entries : List FileEntry) : List (SymbolId × Occurrence) :=
  entries.flatMap fun e =>
    (l.symbolsAt h e.id).map fun s => (⟨s.name, s.kind⟩, ⟨e.path, s.line, s.extra⟩)

theorem locate_diff (l : Layout) (h : Host) {tag : Bytes} (isName : IsName (Tag.fileName tag)) :
    h.locate (l.diff tag) = h.locate l.diffs ++ [Tag.fileName tag] :=
  h.locate_join l.diffs isName

theorem locate_diff_root (l : Layout) (h : Host) {tag : Bytes} (isName : IsName (Tag.fileName tag)) :
    h.locate (l.diff tag) = h.locate l.root ++ [diffsName, Tag.fileName tag] := by
  rw [l.locate_diff h isName, l.locate_diffs, List.append_assoc]
  rfl

end Layout

namespace Comparison

/-- The version of a tag: what the symbol files say about the files that are known. -/
def version (c : Comparison) (known : Tag → List FileEntry × Option Fault) (h : Host) (tag : Tag) :
    Table :=
  Table.ofLoads (c.layout.finds h ((known tag).1.filter c.walker.keeps))

/-- The version that a tag is compared with: that of the tag in front of it, `first` for the first
tag. -/
def versionBefore (T : Tag → Table) (first : Table) (tags : List Tag) : Nat → Table
  | 0 => first
  | i + 1 => (tags[i]?.map T).getD {}

theorem versionBefore_congr {T T' : Tag → Table} {tags : List Tag} (same : ∀ tag ∈ tags, T tag = T' tag)
    (first : Table) (i : Nat) : versionBefore T first tags i = versionBefore T' first tags i := by
  cases i with
  | zero => rfl
  | succ i =>
      rw [versionBefore, versionBefore]
      cases there : tags[i]? with
      | none => rfl
      | some tag => exact same tag (List.mem_of_getElem? there)

/-- The diff file between two versions, when their symbols are met in this order. -/
def rendering (order : Enumeration) (before after : Table) : Bytes :=
  Record.writeAll ((order.met before).diff (order.met after)).records

/-- The diffs that are missing on `h`, in order: their file names and what they hold. -/
def due (c : Comparison) (T : Tag → Table) (h : Host) :
    Table → List Tag → List (Bytes × Bytes)
  | _, [] => []
  | before, tag :: rest =>
    if (h.look (c.layout.diff tag.name)).isOk then c.due T h (T tag) rest
    else (Tag.fileName tag.name, rendering (c.order tag) before (T tag)) :: c.due T h (T tag) rest

/-- What a comparison that began on `h` has come to on `g` when it has made some diffs. -/
structure Reached (c : Comparison) (h : Host) (made : List (Bytes × Bytes)) (g : Host) : Prop
    extends Adds c.layout.diffs made h g where
  cache : ∀ e ∈ g.tally.cache.entries,
    ObjectId.isValid e.1 = true ∧ e.2 = c.layout.symbolsAt h e.1

namespace Reached

variable {c : Comparison} {h g k : Host} {made : List (Bytes × Bytes)}

theorem usual (reached : c.Reached h made g) : c.layout.Usual h g := by
  refine ⟨reached.toSameSetting, reached.within ?_⟩
  rw [c.layout.locate_diffs]
  exact List.prefix_append _ _

theorem sameFiles (reached : c.Reached h made g) (same : SameFiles g k)
    (cache : ∀ e ∈ k.tally.cache.entries,
      ObjectId.isValid e.1 = true ∧ e.2 = c.layout.symbolsAt h e.1) : c.Reached h made k :=
  ⟨reached.toAdds.sameFiles same, cache⟩

theorem quiet (reached : c.Reached h made g) (same : Quiet g k) : c.Reached h made k :=
  reached.sameFiles same.toSameFiles (same.cache ▸ reached.cache)

theorem yields {α : Type} {work : Run α} (reached : c.Reached h made g) (keeps : work.Keeps Quiet) :
    work.Yields g (fun _ => c.Reached h made) (c.Reached h made) :=
  (keeps.yields g).mono (fun _ _ same => reached.quiet same) fun _ same => reached.quiet same

/-- Symbol files are as they were. -/
theorem symbolFile (reached : c.Reached h made g) (sound : h.Sound) {id : Bytes}
    (valid : ObjectId.isValid id = true) :
    g.contentAt? (c.layout.tagStore.path id) = h.contentAt? (c.layout.tagStore.path id) := by
  refine reached.contentAt?_elsewhere sound ?_
  rw [c.layout.locate_symbolFile h valid, c.layout.locate_diffs, List.prefix_append_right_inj]
  rintro ⟨rest, equal⟩
  exact absurd (List.cons.inj equal).1 (by decide)

theorem symbolsAt (reached : c.Reached h made g) (sound : h.Sound) (id : Bytes) :
    c.layout.symbolsAt g id = c.layout.symbolsAt h id :=
  c.layout.symbolsAt_congr (reached.symbolFile sound)

end Reached

/-! ## Loading -/

section

variable {c : Comparison} {h g : Host} {made : List (Bytes × Bytes)}
  {known : Tag → List FileEntry × Option Fault}

/-- What is remembered about a content is what its symbol file says. -/
theorem symbols_ends (sound : h.Sound) (reached : c.Reached h made g) (id : Bytes) :
    (c.symbols id).Ends g fun r k =>
      c.Reached h made k ∧ ∀ found, r = .ok found → found = c.layout.symbolsAt h id := by
  rw [symbols, ends_get_bind]
  cases hit : g.tally.cache.get? id with
  | some remembered =>
      obtain ⟨found, cache⟩ := remembered
      simp only [SymbolCache.get?] at hit
      split at hit
      · cases hit
      · rename_i e located
        obtain ⟨rfl, rfl⟩ := Prod.mk.inj (Option.some.inj hit)
        have same : e.1 = id := by simpa using List.find?_some located
        have member := List.mem_of_find?_eq_some located
        refine ⟨reached.sameFiles ⟨⟨rfl, rfl, rfl⟩, rfl⟩ fun e' member' => ?_, fun found isFound => ?_⟩
        · rcases List.mem_cons.mp member' with rfl | later
          · exact reached.cache _ member
          · exact reached.cache e' (List.mem_filter.mp later).1
        · cases isFound
          rw [(reached.cache e member).2, same]
  | none =>
      have read := c.layout.tagStore.read_ends id g
      refine read.attempt_bind ?_
      rintro outcome _ ⟨rfl, success, failure⟩
      cases outcome with
      | error f =>
          by_cases missing : f.isMissingFile = true
          · obtain ⟨valid, absent⟩ := failure f rfl missing
            simp only [missing, if_true]
            refine ⟨reached, fun found isFound => ?_⟩
            cases isFound
            rw [← reached.symbolsAt sound id, c.layout.symbolsAt_of_contentAt? valid absent]
            rfl
          · simp only [missing]
            exact ⟨reached, by simp⟩
      | ok data =>
          obtain ⟨valid, content⟩ := success data rfl
          have saying : c.layout.symbolsAt h id = (Symbol.readAll ⟨data, none⟩).items := by
            rw [← reached.symbolsAt sound id, c.layout.symbolsAt_of_contentAt? valid content]
            rfl
          cases flaw : (Symbol.readAll ⟨data, none⟩).failure with
          | some f =>
              simp only [flaw]
              exact ⟨reached, by simp⟩
          | none =>
              simp only [flaw]
              refine ⟨reached.sameFiles ⟨⟨rfl, rfl, rfl⟩, rfl⟩ fun e member => ?_, fun found isFound => ?_⟩
              · rcases List.mem_cons.mp (List.mem_of_mem_take member) with rfl | later
                · exact ⟨valid, saying.symm⟩
                · exact reached.cache e (List.mem_filter.mp later).1
              · cases isFound
                exact saying.symm

/-- The window after the symbols of one file. -/
def loaded (c : Comparison) (h : Host) (w : Window) (e : FileEntry) : Window :=
  (c.layout.symbolsAt h e.id).foldl
    (fun w s => w.load ⟨s.name, s.kind⟩ ⟨e.path, s.line, s.extra⟩) w

theorem loadFile_ends (sound : h.Sound) (reached : c.Reached h made g) (w : Window)
    (e : FileEntry) :
    (c.loadFile w e).Ends g fun r k =>
      c.Reached h made k ∧ ∀ w', r = .ok w' → w' = c.loaded h w e := by
  rw [loadFile]
  refine (symbols_ends sound reached e.id).bind ?_ fun e g ended => ⟨ended.1, by simp⟩
  rintro found k ⟨reached', isFound⟩
  refine ⟨reached'.quiet ⟨⟨⟨rfl, rfl, rfl⟩, rfl⟩, rfl⟩, fun w' done => ?_⟩
  cases done
  rw [loaded, ← isFound found rfl]

/-- Loading files is adding their finds to the newer version. -/
theorem foldl_loaded (c : Comparison) (h : Host) (entries : List FileEntry) (w : Window) :
    entries.foldl (fun w e => if c.walker.keeps e then c.loaded h w e else w) w =
      ⟨w.before, (c.layout.finds h (entries.filter c.walker.keeps)).foldl
        (fun t l => t.add l.1 l.2) w.after⟩ := by
  have one : ∀ (e : FileEntry) (symbols : List Symbol) (w : Window),
      symbols.foldl (fun w s => w.load ⟨s.name, s.kind⟩ ⟨e.path, s.line, s.extra⟩) w =
        ⟨w.before, (symbols.map fun s =>
          ((⟨s.name, s.kind⟩, ⟨e.path, s.line, s.extra⟩) : SymbolId × Occurrence)).foldl
            (fun t l => t.add l.1 l.2) w.after⟩ := by
    intro e symbols
    induction symbols with
    | nil => exact fun w => rfl
    | cons s symbols ih => exact fun w => ih _
  induction entries generalizing w with
  | nil => rfl
  | cons e entries ih =>
      rw [List.foldl_cons, ih]
      cases kept : c.walker.keeps e with
      | true =>
          simp only [if_true, loaded, one, List.filter_cons, kept, Layout.finds, List.flatMap_cons,
            List.foldl_append]
      | false => simp only [Bool.false_eq_true, if_false, List.filter_cons, kept]

/-- A tag that is loaded gives its version. -/
theorem load_yields (sound : h.Sound) (steady : c.walker.source.Steady (c.layout.Usual h) known)
    (reached : c.Reached h made g) (tag : Tag) {w : Window} (fresh : w.after = {}) :
    (c.load w tag).Yields g
      (fun w' k => c.Reached h made k ∧ w' = ⟨w.before, c.version known h tag⟩)
      (c.Reached h made) := by
  rw [load, c.walker.walk_eq]
  have each : ∀ (w : Window) (e : FileEntry) (g : Host), c.Reached h made g →
      (if c.walker.keeps e then c.loadFile w e else pure w).Ends g fun r k =>
        c.Reached h made k ∧
          (∀ w', r = .ok w' → w' = if c.walker.keeps e then c.loaded h w e else w) ∧
          ∀ f, r = .error f → True := by
    intro w e g good
    cases c.walker.keeps e with
    | true =>
        refine (loadFile_ends sound good w e).mono fun r k ended => ?_
        exact ⟨ended.1, ended.2, fun _ _ => trivial⟩
    | false =>
        refine ⟨good, fun w' same => ?_, fun _ _ => trivial⟩
        cases same
        rfl
  refine (Source.walk_yields steady (fun _ => True) (fun good => good.usual)
    (fun good same => good.quiet same) trivial each tag w reached).bind ?_
  rintro ⟨w', ended⟩ k ⟨reached', walked⟩
  cases ended with
  | some f => exact ⟨reached'⟩
  | none =>
      obtain ⟨folded, -⟩ | ⟨-, _, stopped, -⟩ := walked
      · refine (reached'.yields (report_quiet _ _ _)).bind fun _ k' reached' => ?_
        refine ⟨reached', folded.trans ?_⟩
        rw [foldl_loaded, fresh]
        rfl
      · cases stopped

/-! ## Writing -/

/-- Of some diffs that are to be made, an initial part has been. -/
def Part (c : Comparison) (h : Host) (made new : List (Bytes × Bytes)) (g : Host) : Prop :=
  ∃ part, part <+: new ∧ c.Reached h (made ++ part) g

theorem Reached.part (reached : c.Reached h made g) (new : List (Bytes × Bytes)) :
    c.Part h made new g := ⟨[], List.nil_prefix, by rwa [List.append_nil]⟩

theorem Reached.whole {new : List (Bytes × Bytes)} (reached : c.Reached h (made ++ new) g) :
    c.Part h made new g := ⟨new, List.prefix_rfl, reached⟩

theorem Part.quiet {new : List (Bytes × Bytes)} {k : Host} (part : c.Part h made new g)
    (same : Quiet g k) : c.Part h made new k := by
  obtain ⟨part, isPart, reached⟩ := part
  exact ⟨part, isPart, reached.quiet same⟩

theorem Part.longer {new : List (Bytes × Bytes)} (part : c.Part h made new g)
    (more : List (Bytes × Bytes)) : c.Part h made (new ++ more) g := by
  obtain ⟨part, isPart, reached⟩ := part
  exact ⟨part, isPart.trans (List.prefix_append _ _), reached⟩

theorem Part.after {new more : List (Bytes × Bytes)} (part : c.Part h (made ++ new) more g) :
    c.Part h made (new ++ more) g := by
  obtain ⟨part, isPart, reached⟩ := part
  rw [List.append_assoc] at reached
  exact ⟨new ++ part, (List.prefix_append_right_inj new).mpr isPart, reached⟩

/-- The diff of a tag, if it is missing. -/
def dueAt (c : Comparison) (h : Host) (tag : Tag) (before after : Table) :
    List (Bytes × Bytes) :=
  if (h.look (c.layout.diff tag.name)).isOk then []
  else [(Tag.fileName tag.name, rendering (c.order tag) before after)]

/-- A diff that is there is left.  If it is missing, one file is put between reports. -/
theorem persist_puts (sound : g.Sound) {tag : Tag} (isName : IsName (Tag.fileName tag.name))
    (w : Window) :
    let dest := join [c.layout.diffs, Tag.fileName tag.name]
    let data := rendering (c.order tag) w.before w.after
    (c.persist w tag).Yields g
      (fun _ k => (g.look dest).isOk = true ∧ Quiet g k ∨ (g.look dest).isOk = false ∧
        ∃ m n, Quiet g m ∧ Changes (Puts (m.locate dest) data) m n ∧
          n.look dest = .ok (.file data false) ∧ Quiet n k)
      fun k => ∃ m, Quiet g m ∧ Changes (Grows (m.locate c.layout.diffs)) m k := by
  intro dest data
  rw [persist]
  refine (isThere_yields g _).bind ?_
  rintro _ g ⟨rfl, rfl⟩
  rw [Layout.diff]
  by_cases there : (g.look (join [c.layout.diffs, Tag.fileName tag.name])).isOk = true
  · rw [if_pos there]
    refine ((remember_sure ?_).bind (fun _ => report_sure _ _ _) g).mono
      (fun _ _ same => .inl ⟨there, same⟩) fun _ never => never.elim
    exact fun _ => rfl
  · rw [if_neg there]
    have missing := (Bool.not_eq_true _).mp there
    -- the diff is written in both branches of the report on common symbols
    have writing : ∀ {f : Tally → Tally} {m level text words}, (∀ t, (f t).cache = t.cache) →
        ∀ k, Quiet g k → (Run.during (lit "write diff " ++ tag.name)
          (AtomicFile.writeAll dest data) >>= fun _ => remember f >>= fun _ => count m >>= fun _ =>
            report level text words).Yields k
            (fun _ j => (g.look dest).isOk = true ∧ Quiet g j ∨ (g.look dest).isOk = false ∧
              ∃ m n, Quiet g m ∧ Changes (Puts (m.locate dest) data) m n ∧
                n.look dest = .ok (.file data false) ∧ Quiet n j)
            fun j => ∃ m, Quiet g m ∧ Changes (Grows (m.locate c.layout.diffs)) m j := by
      intro f m level text words cache k same
      have written := AtomicFile.writeAll_yields (d := c.layout.diffs) (same.sound sound) isName data
      refine ((written.mono (fun _ _ put => put) fun _ grown => ⟨k, same, grown⟩).during _).bind ?_
      rintro _ n ⟨put, found⟩
      have counting : Sure (remember f >>= fun _ => count m >>= fun _ => report level text words) :=
        (remember_sure cache).bind fun _ => (count_sure m).bind fun _ => report_sure _ _ _
      exact (counting n).mono (fun _ _ after => .inr ⟨missing, k, n, same, put, found, after⟩)
        fun _ never => never.elim
    dsimp only
    split
    · refine (report_sure _ _ _).yields_bind fun _ k same => writing ?_ k same
      exact fun _ => rfl
    · refine writing ?_ g (quiet_lasting.refl g)
      exact fun _ => rfl

/-- The diff of a tag is made if it is missing. -/
theorem persist_yields (sound : h.Sound) (reached : c.Reached h made g) {tag : Tag}
    (isName : IsName (Tag.fileName tag.name))
    (notMade : Tag.fileName tag.name ∉ made.map Prod.fst) (w : Window) :
    (c.persist w tag).Yields g
      (fun _ => c.Reached h (made ++ c.dueAt h tag w.before w.after))
      (c.Part h made (c.dueAt h tag w.before w.after)) := by
  have unmade := reached.isOk_look_of_not_made sound isName notMade
  refine (persist_puts reached.sound isName w).mono ?_ fun k => ?_
  · rintro _ k (⟨there, same⟩ | ⟨missing, m, n, same, put, found, after⟩)
    · rw [unmade] at there
      rw [dueAt, Layout.diff, if_pos there, List.append_nil]
      exact reached.quiet same
    · rw [unmade] at missing
      have reached := reached.quiet same
      have made : c.Reached h (made ++ [(Tag.fileName tag.name, _)]) n :=
        ⟨reached.put sound isName notMade missing put found, put.cache ▸ reached.cache⟩
      rw [dueAt, Layout.diff, missing]
      exact made.quiet after
  · rintro ⟨m, same, grown⟩
    have reached := reached.quiet same
    exact Reached.part ⟨reached.grow grown, grown.cache ▸ reached.cache⟩ _

/-! ## All tags in turn -/

theorem due_cons (c : Comparison) (T : Tag → Table) (h : Host) (before : Table) (tag : Tag)
    (rest : List Tag) :
    c.due T h before (tag :: rest) = c.dueAt h tag before (T tag) ++ c.due T h (T tag) rest := by
  rw [due, dueAt]
  split <;> rfl

/-- The tags with, for each, whether its diff is missing on `h`. -/
def marked (c : Comparison) (h : Host) (tags : List Tag) : List (Tag × Bool) :=
  tags.map fun tag => (tag, !(h.look (c.layout.diff tag.name)).isOk)

/-- The tags that are needed are some of them, in order. -/
theorem needed_sublist (c : Comparison) (h : Host) (tags : List Tag) :
    (needed (c.marked h tags)).Sublist tags := by
  induction tags with
  | nil => exact .slnil
  | cons tag rest ih =>
      rw [marked, List.map_cons, ← marked, needed]
      split
      · exact ih.cons_cons tag
      · exact ih.cons tag

theorem on_withMissing (c : Comparison) (h : Host) (tags : List Tag) :
    (c.withMissing tags).on h = (.ok (c.marked h tags), h) := by
  rw [withMissing]
  induction tags with
  | nil => rfl
  | cons tag rest ih =>
      simp only [List.mapM_cons, on_bind, on_isThere, on_pure, ih]
      rfl

/-- Comparing the tags that are needed makes the diffs that are due.  The window need hold the
version before the first tag only if that tag's diff is missing; the tag after one that is passed
over has its diff. -/
theorem compareEach_yields (sound : h.Sound) (steady : c.walker.source.Steady (c.layout.Usual h) known)
    (tags : List Tag) :
    ∀ {g : Host} {made : List (Bytes × Bytes)} {w : Window} {before : Table},
      c.Reached h made g → w.after = {} →
      (∀ tag ∈ tags.head?, (h.look (c.layout.diff tag.name)).isOk = false → w.before = before) →
      (∀ tag ∈ tags, IsName (Tag.fileName tag.name)) →
      tags.Pairwise (fun s t => Tag.fileName s.name ≠ Tag.fileName t.name) →
      (∀ tag ∈ tags, Tag.fileName tag.name ∉ made.map Prod.fst) →
      (c.compareEach w (needed (c.marked h tags))).Yields g
        (fun _ => c.Reached h (made ++ c.due (c.version known h) h before tags))
        (c.Part h made (c.due (c.version known h) h before tags)) := by
  induction tags with
  | nil =>
      intro g made w before reached _ _ _ _ _
      refine ⟨?_⟩
      rw [due, List.append_nil]
      exact reached
  | cons tag rest ih =>
      intro g made w before reached fresh previous names distinct notMade
      have isName := names tag (by simp)
      obtain ⟨apart, distinct⟩ := List.pairwise_cons.mp distinct
      have notHere := notMade tag (by simp)
      have same : c.dueAt h tag w.before (c.version known h tag) =
          c.dueAt h tag before (c.version known h tag) := by
        cases missing : (h.look (c.layout.diff tag.name)).isOk with
        | true => simp only [dueAt, missing, if_true]
        | false => rw [previous tag (by simp) missing]
      rw [due_cons, marked, List.map_cons, ← marked, needed]
      split
      · rw [compareEach]
        refine ((reached.yields checkpoint_quiet).mono (fun _ _ after => after)
          fun _ after => after.part _).bind fun _ g reached => ?_
        refine ((load_yields sound steady reached tag fresh).mono (fun _ _ after => after)
          fun _ after => after.part _).bind ?_
        rintro _ g ⟨reached, rfl⟩
        refine ((persist_yields sound reached isName notHere _).mono (fun _ _ after => after)
          fun _ after => ?_).bind fun _ g reached => ?_
        · rw [same] at after
          exact after.longer _
        · rw [same] at reached
          refine ((reached.yields advanceStage_quiet).mono (fun _ _ after => after)
            fun _ after => after.whole.longer _).bind fun _ g reached => ?_
          refine (ih reached rfl (fun _ _ _ => rfl) (fun t member => names t (by simp [member]))
            distinct fun t member isMade => ?_).mono (fun _ _ after => ?_) fun _ after => ?_
          · rw [List.map_append, List.mem_append] at isMade
            rcases isMade with earlier | here
            · exact notMade t (by simp [member]) earlier
            · rw [dueAt] at here
              split at here
              · cases here
              · exact apart t member (List.mem_singleton.mp here).symm
          · rwa [List.append_assoc] at after
          · exact after.after
      · rename_i unneeded
        rw [Bool.or_eq_true, not_or, Bool.not_eq_true', Bool.not_eq_false] at unneeded
        obtain ⟨there, nextThere⟩ := unneeded
        have nothing : c.dueAt h tag before (c.version known h tag) = [] := by
          rw [dueAt, if_pos there]
        rw [nothing, List.nil_append]
        refine ih reached fresh (fun t first missing => ?_) (fun t member => names t (by simp [member]))
          distinct fun t member => notMade t (by simp [member])
        cases rest with
        | nil => cases first
        | cons next rest =>
            cases first
            simp [marked, missing] at nextThere

/-! ## A whole comparison -/

theorem pairwise_of_splitCollisions (tags : List Tag) :
    ∀ taken, (Tag.splitCollisions taken tags).2 = [] →
      tags.Pairwise (fun s t => Tag.fileName s.name ≠ Tag.fileName t.name) ∧
        ∀ t ∈ tags, Tag.fileName t.name ∉ taken := by
  induction tags with
  | nil => exact fun taken _ => ⟨.nil, by simp⟩
  | cons tag rest ih =>
      intro taken none
      simp only [Tag.splitCollisions, List.contains_eq_mem, decide_eq_true_eq] at none
      split at none
      · cases none
      · rename_i new
        obtain ⟨distinct, apart⟩ := ih _ none
        refine ⟨.cons (fun t member same => apart t member (by simp [same])) distinct, ?_⟩
        intro t member
        rcases List.mem_cons.mp member with rfl | later
        · exact new
        · exact fun isTaken => apart t later (by simp [isTaken])

/-- Tags that share no diff file can be told from their files. -/
theorem eq_of_fileName_eq {tags : List Tag}
    (distinct : tags.Pairwise fun s t => Tag.fileName s.name ≠ Tag.fileName t.name) {i j : Nat}
    {inside : i < tags.length} {inside' : j < tags.length}
    (same : Tag.fileName tags[i].name = Tag.fileName tags[j].name) : i = j := by
  by_contra different
  have apart := List.pairwise_iff_getElem.mp distinct
  rcases Nat.lt_or_gt_of_ne different with before | after
  · exact apart i j inside inside' before same
  · exact apart j i inside' inside after same.symm

theorem start_reached (sound : h.Sound)
    (cache : ∀ e ∈ h.tally.cache.entries,
      ObjectId.isValid e.1 = true ∧ e.2 = c.layout.symbolsAt h e.1) : c.Reached h [] h :=
  ⟨Adds.refl sound _, cache⟩

/-- A comparison makes the diffs that are due; when it fails, an initial part of them. -/
theorem run_yields (sound : h.Sound) (steady : c.walker.source.Steady (c.layout.Usual h) known)
    (cache : ∀ e ∈ h.tally.cache.entries,
      ObjectId.isValid e.1 = true ∧ e.2 = c.layout.symbolsAt h e.1)
    {tags : List Tag} (names : ∀ tag ∈ tags, IsName (Tag.fileName tag.name)) :
    (c.run tags).Yields h
      (fun _ => c.Reached h (c.due (c.version known h) h {} tags))
      (c.Part h [] (c.due (c.version known h) h {} tags)) := by
  have start := start_reached sound cache
  rw [run]
  cases collided : (Tag.dropCollisions tags).2 with
  | cons tag _ => exact ⟨start.part _⟩
  | nil =>
      obtain ⟨distinct, -⟩ := pairwise_of_splitCollisions tags [] collided
      have compared : ∀ g, Quiet h g → (c.compareEach {} (needed (c.marked h tags))).Yields g
          (fun _ => c.Reached h (c.due (c.version known h) h {} tags))
          (c.Part h [] (c.due (c.version known h) h {} tags)) :=
        fun g same => compareEach_yields sound steady tags (start.quiet same) rfl
          (fun _ _ _ => rfl) names distinct (by simp)
      have todo : (c.toCompute tags).on h = (.ok (needed (c.marked h tags)), h) := by
        rw [toCompute, on_map, on_withMissing]
        rfl
      refine Yields.bind (Yields.of_on todo) ?_
      rintro _ _ ⟨rfl, rfl⟩
      split
      · rename_i nothing
        have finished := compared _ (quiet_lasting.refl _)
        rw [List.isEmpty_iff.mp nothing, compareEach, yields_pure] at finished
        exact (finished.yields (report_quiet _ _ _)).mono (fun _ _ after => after)
          fun _ after => after.whole
      · refine stage_yields _ _ (fun g same _ => (compared g same).bind fun _ k reached => ?_)
          (fun reached same => reached.quiet same) fun part same => part.quiet same
        rw [yields_get_bind]
        exact (reached.yields (report_quiet _ _ _)).mono (fun _ _ after => after)
          fun _ after => after.whole

/-- What is due: at every tag whose diff is missing, the difference to the version before it. -/
theorem mem_due_iff (c : Comparison) (T : Tag → Table) (h : Host) (tags : List Tag)
    (e : Bytes × Bytes) :
    ∀ first : Table, e ∈ c.due T h first tags ↔
      ∃ (i : Nat) (inside : i < tags.length),
        (h.look (c.layout.diff tags[i].name)).isOk = false ∧
        e = (Tag.fileName tags[i].name,
          rendering (c.order tags[i]) (versionBefore T first tags i) (T tags[i])) := by
  induction tags with
  | nil => simp [due]
  | cons tag rest ih =>
      intro first
      rw [due_cons, List.mem_append, ih]
      constructor
      · rintro (here | ⟨i, inside, missing, rfl⟩)
        · rw [dueAt] at here
          split at here
          · cases here
          · rename_i missing
            exact ⟨0, by simp, by simpa using missing, List.mem_singleton.mp here⟩
        · refine ⟨i + 1, by simpa using inside, missing, ?_⟩
          cases i <;> rfl
      · rintro ⟨i, inside, missing, rfl⟩
        cases i with
        | zero =>
            have missing : (h.look (c.layout.diff tag.name)).isOk = false := missing
            refine .inl ?_
            rw [dueAt, missing]
            exact List.mem_singleton.mpr rfl
        | succ i =>
            refine .inr ⟨i, by simpa using inside, missing, ?_⟩
            cases i <;> rfl

/-- However a comparison ends, it has made an initial part of the diffs that are due. -/
theorem run_ends (sound : h.Sound) (steady : c.walker.source.Steady (c.layout.Usual h) known)
    (cache : ∀ e ∈ h.tally.cache.entries,
      ObjectId.isValid e.1 = true ∧ e.2 = c.layout.symbolsAt h e.1)
    {tags : List Tag} (names : ∀ tag ∈ tags, IsName (Tag.fileName tag.name)) :
    (c.run tags).Ends h fun r g =>
      ∃ part, part <+: c.due (c.version known h) h {} tags ∧ c.Reached h part g ∧
        (r.isOk = true → part = c.due (c.version known h) h {} tags) ∧
        (part = [] ∨ tags.Pairwise fun s t => Tag.fileName s.name ≠ Tag.fileName t.name) := by
  cases collided : (Tag.dropCollisions tags).2 with
  | cons tag _ =>
      rw [run, collided]
      exact ⟨[], List.nil_prefix, start_reached sound cache, by simp [Except.isOk, Except.toBool], .inl rfl⟩
  | nil =>
      have distinct := (pairwise_of_splitCollisions tags [] collided).1
      refine (run_yields sound steady cache names).ends (fun _ g reached => ?_) fun e g part => ?_
      · exact ⟨_, List.prefix_rfl, reached, fun _ => rfl, .inr distinct⟩
      · obtain ⟨part, isPart, reached⟩ := part
        exact ⟨part, isPart, reached, by simp [Except.isOk, Except.toBool], .inr distinct⟩

/-- A comparison leaves every diff that is there as it is and makes the missing ones from the
versions of neighbouring tags.  If it is cut short, a missing diff is made like that or not at all.
Nothing else changes, apart from folders on the way. -/
theorem run_makes_missing_diffs (c : Comparison) (h : Host)
    (known : Tag → List FileEntry × Option Fault) (tags : List Tag) (sound : h.Sound)
    (steady : c.walker.source.Steady (c.layout.Usual h) known)
    (cache : ∀ e ∈ h.tally.cache.entries,
      ObjectId.isValid e.1 = true ∧ e.2 = c.layout.symbolsAt h e.1)
    (names : ∀ tag ∈ tags, IsName (Tag.fileName tag.name)) :
    (c.run tags).Ends h fun r g =>
      (∀ tag ∈ tags, ∀ n, h.look (c.layout.diff tag.name) = .ok n →
        g.look (c.layout.diff tag.name) = .ok n) ∧
      (∀ (i : Nat) (inside : i < tags.length), (h.look (c.layout.diff tags[i].name)).isOk = false →
        g.look (c.layout.diff tags[i].name) =
            .ok (.file (rendering (c.order tags[i]) (versionBefore (c.version known h) {} tags i)
              (c.version known h tags[i])) false) ∨
          r.isOk = false ∧ (g.look (c.layout.diff tags[i].name)).isOk = false) ∧
      ∀ k, (∀ tag ∈ tags, k ≠ h.locate (c.layout.diff tag.name)) →
        g.tree.get? k = h.tree.get? k ∨
          k <+: h.locate c.layout.diffs ∧ h.tree.get? k = none ∧ g.tree.get? k = some .folder := by
  refine (run_ends sound steady cache names).mono ?_
  rintro r g ⟨part, isPart, reached, whole, apart⟩
  have isDue : ∀ e ∈ part, e ∈ c.due (c.version known h) h {} tags := fun e member =>
    isPart.subset member
  refine ⟨fun tag member n found => reached.look_of_ok sound found, ?_, ?_⟩
  · intro i inside missing
    have isName := names tags[i] (List.getElem_mem inside)
    have entry := (mem_due_iff c (c.version known h) h tags _ {}).mpr ⟨i, inside, missing, rfl⟩
    by_cases made : Tag.fileName tags[i].name ∈ part.map Prod.fst
    · obtain ⟨e, member, place⟩ := List.mem_map.mp made
      obtain ⟨j, inside', -, rfl⟩ := (mem_due_iff c _ h tags e {}).mp (isDue e member)
      have same : j = i := by
        rcases apart with rfl | distinct
        · cases member
        · exact eq_of_fileName_eq distinct place
      subst same
      exact .inl (reached.look_of_mem member)
    · refine .inr ⟨?_, ?_⟩
      · cases success : r.isOk with
        | false => rfl
        | true =>
            rw [← whole success] at entry
            exact absurd (List.mem_map_of_mem entry) made
      · rw [Layout.diff, reached.isOk_look_of_not_made sound isName made]
        exact missing
  · intro k other
    refine reached.tree.old k fun e member same => ?_
    obtain ⟨e, isMade, rfl⟩ := List.mem_map.mp member
    obtain ⟨i, inside, -, rfl⟩ := (mem_due_iff c _ h tags e {}).mp (isDue e isMade)
    refine other tags[i] (List.getElem_mem inside) (same.trans ?_)
    rw [c.layout.locate_diff h (names tags[i] (List.getElem_mem inside))]

end

/-- A project in the middle of its work: of two tags the second has no diff yet. -/
def halfDone : Host where
  tree := ⟨[
    ([lit "db", lit "tags", List.replicate 40 97], .file (lit "alpha\tDefine\t1\t7\n") false),
    ([lit "db", lit "tags", List.replicate 40 98], .file (lit "beta\tDefine\t2\t8\n") false),
    ([lit "db", lit "diffs", lit "v1"], .file (lit "as it was\n") false),
    ([lit "db", lit "tags"], .folder),
    ([lit "db", lit "diffs"], .folder),
    ([lit "db"], .folder)]⟩

def halfDoneSource : MemorySource where
  trees := [(lit "v1", [⟨lit "a.c", List.replicate 40 97⟩]),
            (lit "v2", [⟨lit "b.c", List.replicate 40 98⟩])]

/-- The comparison of its tags. -/
def halfDoneComparison : Comparison where
  layout := ⟨lit "/db"⟩
  walker := .whole (.memory halfDoneSource)

def halfDoneTags : List Tag := [{ name := lit "v1" }, { name := lit "v2" }]

theorem run_makes_missing_diffs_halfDone :
    (halfDoneComparison.run halfDoneTags).Ends halfDone fun r g =>
      r.isOk = true ∧
      g.look (lit "/db/diffs/v1") = .ok (.file (lit "as it was\n") false) ∧
      g.look (lit "/db/diffs/v2") = .ok (.file
        (lit "r\talpha\tDefine\ta.c\t1\t7\na\tbeta\tDefine\tb.c\t2\t8\n") false) := by
  have sound : halfDone.Sound := by decide +kernel
  have names : ∀ tag ∈ halfDoneTags, IsName (Tag.fileName tag.name) := by
    intro tag member
    simp only [halfDoneTags, List.mem_cons, List.not_mem_nil, or_false] at member
    rcases member with rfl | rfl
    · exact ⟨⟨by decide, by decide, by decide⟩, by decide⟩
    · exact ⟨⟨by decide, by decide, by decide⟩, by decide⟩
  let T := halfDoneComparison.version (Source.answer halfDoneSource) halfDone
  have before : versionBefore T {} halfDoneTags 1 =
      ⟨[(⟨lit "alpha", .define⟩, [⟨lit "a.c", 1, lit "7"⟩])]⟩ := by decide +kernel
  have after : T halfDoneTags[1] = ⟨[(⟨lit "beta", .define⟩, [⟨lit "b.c", 2, lit "8"⟩])]⟩ := by
    decide +kernel
  have difference : rendering (halfDoneComparison.order halfDoneTags[1])
      (versionBefore T {} halfDoneTags 1) (T halfDoneTags[1]) =
        lit "r\talpha\tDefine\ta.c\t1\t7\na\tbeta\tDefine\tb.c\t2\t8\n" := by
    rw [before, after]
    change rendering .asFound _ _ = _
    simp only [rendering, Enumeration.asFound, id, Table.diff, Table.exclusive, Table.ids,
      List.map_cons, List.map_nil, List.mergeSort_singleton]
    decide +kernel
  have success : (halfDoneComparison.run halfDoneTags).Ends halfDone fun r _ => r.isOk = true :=
    ⟨by decide +kernel⟩
  have made := run_makes_missing_diffs halfDoneComparison halfDone (Source.answer halfDoneSource)
    halfDoneTags sound (Source.memory_steady _ _) (by decide) names
  refine (success.and made).mono ?_
  rintro r g ⟨done, kept, new, -⟩
  refine ⟨done, ?_, ?_⟩
  · exact kept { name := lit "v1" } (by decide) _ (by decide +kernel)
  · rcases new 1 (by decide) (by decide +kernel) with there | ⟨failed, -⟩
    · rw [difference] at there
      exact there
    · rw [done] at failed
      cases failed

end Comparison

end SymbolHistory
