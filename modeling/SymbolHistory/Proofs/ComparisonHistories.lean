/-
# Proofs.ComparisonHistories -- comparisons one after another

Between comparisons symbol files are stored, and every comparison meets symbols
in an order of its own.  What it remembers makes no difference, so each does what
a new one would do that meets them in the same order.

The order makes no difference either, as long as no ids in the symbol files
clash (`run_meeting`): the tables that are compared are drawn from the symbol
files that were there when the comparison began (`Drawn`), and sorting their ids
undoes the order.  So each comparison does what any new one would do
(`run_like_new`).
-/
import SymbolHistory.Proofs.Enumerations
import SymbolHistory.Proofs.RememberedSymbols

set_option autoImplicit false

namespace SymbolHistory

open SymbolHistory.Path FileTree Run Host

/-! ## Tables from symbol files -/

namespace Layout

variable {l : Layout} {h : Host} {t : Table}

/-- A symbol file has a symbol with this id. -/
def Lists (l : Layout) (h : Host) (id : SymbolId) : Prop :=
  ∃ content, ∃ s ∈ l.symbolsAt h content, id = ⟨s.name, s.kind⟩

/-- No ids in symbol files clash. -/
def NoClash (l : Layout) (h : Host) : Prop :=
  ∀ a b c, l.Lists h a → l.Lists h b → l.Lists h c → ¬SymbolId.Clash a b c

/-- A table is that of some files, whose symbols are in their symbol files. -/
def Drawn (l : Layout) (h : Host) (t : Table) : Prop :=
  ∃ entries, t = Table.ofLoads (l.finds h entries)

theorem drawn_empty (l : Layout) (h : Host) : l.Drawn h {} := ⟨[], rfl⟩

theorem Drawn.distinct (drawn : l.Drawn h t) : t.Distinct := by
  obtain ⟨entries, rfl⟩ := drawn
  exact Table.distinct_ofLoads _

theorem Drawn.clear (drawn : l.Drawn h t) (clear : l.NoClash h) : t.Clear := by
  obtain ⟨entries, rfl⟩ := drawn
  have listed : ∀ id ∈ Version.ids (l.finds h entries), l.Lists h id := by
    intro id member
    obtain ⟨find, found, rfl⟩ := List.mem_map.mp (Version.mem_ids.mp member)
    obtain ⟨e, -, inFile⟩ := List.mem_flatMap.mp found
    obtain ⟨s, isSymbol, rfl⟩ := List.mem_map.mp inFile
    exact ⟨e.id, s, isSymbol, rfl⟩
  exact Table.clear_ofLoads_iff.mpr fun a inA b inB c inC =>
    clear a b c (listed a inA) (listed b inB) (listed c inC)

end Layout

namespace Comparison

variable {c : Comparison} {start h g k : Host}

/-- The same comparison with symbols met in another order. -/
def meeting (c : Comparison) (order : Tag → Enumeration) : Comparison := { c with order }

/-! ## While a comparison runs -/

/-- The symbol files are those of `h`, nothing is lost, and memory is faithful. -/
structure Hears (c : Comparison) (h k : Host) : Prop where
  sound : k.Sound
  adding : Adding h k
  faithful : c.Faithful k
  files : ∀ {id : Bytes}, ObjectId.isValid id = true →
    k.contentAt? (c.layout.tagStore.path id) = h.contentAt? (c.layout.tagStore.path id)

namespace Hears

theorem refl (sound : h.Sound) (faithful : c.Faithful h) : c.Hears h h :=
  ⟨sound, .refl h, faithful, fun _ => rfl⟩

theorem symbolsAt (hears : c.Hears h k) (id : Bytes) :
    c.layout.symbolsAt k id = c.layout.symbolsAt h id :=
  c.layout.symbolsAt_congr hears.files

theorem sameFiles (hears : c.Hears h k) (same : SameFiles k g) (faithful : c.Faithful g) :
    c.Hears h g := by
  refine ⟨same.sound hears.sound, hears.adding.trans (.of_sameFiles same), faithful,
    fun valid => ?_⟩
  rw [contentAt?, look_of_sameFiles same]
  exact hears.files valid

theorem quiet (hears : c.Hears h k) (same : Quiet k g) : c.Hears h g :=
  hears.sameFiles same.toSameFiles (hears.faithful.adding (.of_sameFiles same.toSameFiles)
    hears.sound (same.sound hears.sound) same.cache)

theorem yields {α : Type} {work : Run α} (hears : c.Hears h k) (keeps : work.Keeps Quiet) :
    work.Yields k (fun _ => c.Hears h) fun _ => True :=
  (keeps.yields k).mono (fun _ _ same => hears.quiet same) fun _ _ => trivial

/-- A diff was made where none was. -/
theorem put {file data : Bytes} (hears : c.Hears h k) (isName : IsName file)
    (missing : (k.look (join [c.layout.diffs, file])).isOk = false)
    (put : Changes (Puts (k.locate (join [c.layout.diffs, file])) data) k g)
    (found : g.look (join [c.layout.diffs, file]) = .ok (.file data false)) : c.Hears h g := by
  have adding : Adding k g := .of_lands hears.sound missing put found
  have place : k.locate (join [c.layout.diffs, file]) =
      k.locate c.layout.root ++ [Layout.diffsName, file] := by
    rw [k.locate_join _ isName, c.layout.locate_diffs, List.append_assoc]
    rfl
  have spares : c.layout.Spares [Layout.tagsName] k g := .of_puts put place (by decide)
  refine ⟨put.sound, hears.adding.trans adding,
    hears.faithful.adding adding hears.sound put.sound put.cache, fun valid => ?_⟩
  rw [← hears.files valid]
  exact contentAt?_congr hears.sound put.sound put.folder
    (spares.get?_eq (c.layout.locate_symbolFile k valid) (by decide))

end Hears

/-- The symbols that a symbol file gives are those in it. -/
theorem eq_symbolsAt_of_consult {id : Bytes} {found : List Symbol}
    (gives : ((c.consult id).on k).1 = .ok found) : found = c.layout.symbolsAt k id := by
  obtain ⟨-, success, failure⟩ := (c.layout.tagStore.read_ends id k).holds
  rw [consult, on_bind, on_attempt] at gives
  generalize (c.layout.tagStore.read id).on k = ended at gives success failure
  obtain ⟨outcome, m⟩ := ended
  cases outcome with
  | error f =>
      by_cases missing : f.isMissingFile = true
      · obtain ⟨valid, absent⟩ := failure f rfl missing
        simp only [missing, if_true] at gives
        rw [c.layout.symbolsAt_of_contentAt? valid absent]
        exact (Except.ok.inj gives).symm
      · simp only [missing] at gives
        cases gives
  | ok data =>
      obtain ⟨valid, content⟩ := success data rfl
      cases flaw : (Symbol.readAll ⟨data, none⟩).failure with
      | some f =>
          simp only [flaw] at gives
          cases gives
      | none =>
          simp only [flaw] at gives
          rw [c.layout.symbolsAt_of_contentAt? valid content]
          exact (Except.ok.inj gives).symm

theorem loadFile_hears (hears : c.Hears h k) (w : Window) (e : FileEntry) :
    (c.loadFile w e).Ends k fun r g =>
      c.Hears h g ∧ ∀ w', r = .ok w' → w' = c.loaded h w e := by
  rw [loadFile]
  refine (symbols_consults hears.faithful e.id).bind ?_ ?_
  · rintro found g ⟨gives, faithful, cache, rfl⟩
    have heard := hears.sameFiles (g := { k with tally := { k.tally with cache } })
      ⟨⟨rfl, rfl, rfl⟩, rfl⟩ faithful
    refine ⟨heard.quiet ⟨⟨⟨rfl, rfl, rfl⟩, rfl⟩, rfl⟩, fun w' done => ?_⟩
    cases done
    rw [loaded, ← hears.symbolsAt, ← eq_symbolsAt_of_consult gives.symm]
  · rintro f g ⟨-, faithful, cache, rfl⟩
    exact ⟨hears.sameFiles ⟨⟨rfl, rfl, rfl⟩, rfl⟩ faithful, fun w' done => by cases done⟩

/-- A version that is loaded is drawn from the symbol files. -/
theorem load_hears (careful : c.Careful start) (adding : Adding start h) (hears : c.Hears h k)
    {w : Window} (fresh : w.after = {}) (tag : Tag) :
    (c.load w tag).Yields k
      (fun w' g => c.Hears h g ∧ w'.before = w.before ∧ c.layout.Drawn h w'.after)
      fun _ => True := by
  rw [load, c.walker.walk_eq, Source.walk_eq]
  have listed : (c.walker.source.listing tag).Yields k (fun _ => c.Hears h) fun _ => True := by
    have quiet := hears.quiet (careful tag k (adding.trans hears.adding))
    exact Ends.yields (Q := fun _ g => c.Hears h g) ⟨quiet⟩ (fun _ _ hears => hears)
      fun _ _ => trivial
  have each : ∀ (w : Window) (e : FileEntry) (g : Host), c.Hears h g →
      (if c.walker.keeps e then c.loadFile w e else pure w).Ends g fun r k =>
        c.Hears h k ∧ (∀ w', r = .ok w' → w' = if c.walker.keeps e then c.loaded h w e else w) ∧
          ∀ f, r = .error f → True := by
    intro w e g hears
    cases c.walker.keeps e with
    | true =>
        refine (loadFile_hears hears w e).mono fun r k ended => ?_
        exact ⟨ended.1, ended.2, fun _ _ => trivial⟩
    | false =>
        refine ⟨hears, fun w' same => ?_, fun _ _ => trivial⟩
        cases same
        rfl
  have visited : ∀ answer : List FileEntry × Option Fault, ∀ g, c.Hears h g →
      (visitEntries (fun w e => if c.walker.keeps e then c.loadFile w e else pure w) w answer.1 >>=
        fun ended => pure (ended.1, ended.2.or answer.2)).Yields g
          (fun r g => c.Hears h g ∧ ∃ part : List FileEntry,
            r.1 = part.foldl (fun w e => if c.walker.keeps e then c.loaded h w e else w) w)
          fun _ => True := by
    intro answer g hears
    refine ((@visitEntries_yields _ _ _ _ (fun _ => True) Hears.quiet trivial each answer.1 w _ hears).mono
      (fun _ _ visited => visited) fun _ never => never.elim).bind ?_
    rintro ended g ⟨hears, ⟨part, folded, -⟩, -⟩
    exact (yields_pure _ _ _ _).mpr ⟨hears, part, folded⟩
  refine (listed.bind visited).bind ?_
  rintro ⟨w', ended⟩ g ⟨hears, part, folded⟩
  cases ended with
  | some f => exact ⟨trivial⟩
  | none =>
      refine (hears.yields (report_quiet _ _ _)).bind fun _ g hears => ?_
      refine (yields_pure _ _ _ _).mpr ⟨hears, ?_⟩
      obtain rfl : w' = _ := folded.trans (foldl_loaded c h part w)
      rw [fresh]
      exact ⟨rfl, part.filter c.walker.keeps, rfl⟩

/-- A diff is made where none is, or left. -/
theorem persist_hears (hears : c.Hears h k) {tag : Tag} (isName : IsName (Tag.fileName tag.name))
    (w : Window) : (c.persist w tag).Yields k (fun _ => c.Hears h) fun _ => True := by
  refine (persist_puts hears.sound isName w).mono ?_ fun _ _ => trivial
  rintro _ g (⟨-, same⟩ | ⟨missing, m, n, same, put, found, after⟩)
  · exact hears.quiet same
  · rw [← look_of_sameFiles same.toSameFiles] at missing
    exact ((hears.quiet same).put isName missing put found).quiet after

/-! ## In any order -/

theorem persist_meeting (order order' : Tag → Enumeration) {w : Window} {tag : Tag}
    (same : (w.met (order tag)).diff = (w.met (order' tag)).diff) :
    (c.meeting order).persist w tag = (c.meeting order').persist w tag := by
  unfold persist
  dsimp only [meeting]
  rw [same]

/-- Work after work that does the same on the hosts the first may leave. -/
theorem on_bind_congr {α β : Type} {x : Run α} {f f' : α → Run β} {P : α → Host → Prop}
    (yields : x.Yields k P fun _ => True) (same : ∀ a g, P a g → (f a).on g = (f' a).on g) :
    (x >>= f).on k = (x >>= f').on k := by
  have ended := yields.holds
  rw [on_bind, on_bind]
  generalize x.on k = outcome at ended ⊢
  obtain ⟨outcome, g⟩ := outcome
  cases outcome with
  | ok a => exact same a g ended
  | error f => rfl

/-- Tags are compared with the same result, whatever order symbols are met in. -/
theorem compareEach_meeting (careful : c.Careful start) (adding : Adding start h)
    (clear : c.layout.NoClash h) (order order' : Tag → Enumeration) (tags : List Tag) :
    ∀ {k : Host} {w : Window}, c.Hears h k → c.layout.Drawn h w.before → w.after = {} →
      (∀ tag ∈ tags, IsName (Tag.fileName tag.name)) →
      ((c.meeting order).compareEach w tags).on k = ((c.meeting order').compareEach w tags).on k := by
  induction tags with
  | nil => exact fun _ _ _ _ => rfl
  | cons tag rest ih =>
      intro k w hears drawn fresh names
      refine on_bind_congr (hears.yields checkpoint_quiet) fun _ k hears => ?_
      refine on_bind_congr (load_hears (c := c) careful adding hears fresh tag) ?_
      rintro w' k ⟨hears, before, drawn'⟩
      have drawn : c.layout.Drawn h w'.before := before ▸ drawn
      have same : ∀ order : Enumeration, (w'.met order).diff = w'.diff := fun order =>
        order.diff_met drawn.distinct drawn'.distinct (drawn.clear clear) (drawn'.clear clear)
      rw [persist_meeting order order' ((same _).trans (same _).symm)]
      have persisted : ((c.meeting order').persist w' tag).Yields k (fun _ => c.Hears h)
          fun _ => True := by
        have hears' : (c.meeting order').Hears h k :=
          ⟨hears.sound, hears.adding, hears.faithful, hears.files⟩
        refine (persist_hears hears' (names tag (by simp)) w').mono (fun _ _ after => ?_)
          fun _ _ => trivial
        exact ⟨after.sound, after.adding, after.faithful, after.files⟩
      refine on_bind_congr persisted fun _ k hears => ?_
      refine on_bind_congr (hears.yields advanceStage_quiet) fun _ k hears => ?_
      exact ih hears drawn' rfl fun t member => names t (by simp [member])

/-- A comparison comes to the same, whatever order symbols are met in. -/
theorem run_meeting (careful : c.Careful start) (adding : Adding start h) (sound : h.Sound)
    (faithful : c.Faithful h) (clear : c.layout.NoClash h) (order order' : Tag → Enumeration)
    {tags : List Tag} (names : ∀ tag ∈ tags, IsName (Tag.fileName tag.name)) :
    ((c.meeting order).run tags).on h = ((c.meeting order').run tags).on h := by
  have compared : ∀ {todo : List Tag} {k : Host}, todo ⊆ tags → Quiet h k →
      ((c.meeting order).compareEach {} todo).on k = ((c.meeting order').compareEach {} todo).on k :=
    fun subset same => compareEach_meeting careful adding clear order order' _
      ((Hears.refl sound faithful).quiet same) (c.layout.drawn_empty h) rfl
      fun tag member => names tag (subset member)
  have todo : ∀ order, ((c.meeting order).toCompute tags).Yields h
      (fun todo g => todo = needed (c.marked h tags) ∧ g = h) fun _ => True := by
    intro order
    refine Yields.of_on ?_
    rw [toCompute, on_map, on_withMissing]
    rfl
  rw [run, run]
  cases (Tag.dropCollisions tags).2 with
  | cons tag _ => exact on_bind_congr (P := fun _ _ => False) ⟨trivial⟩ fun _ _ never => never.elim
  | nil =>
      refine on_bind_congr (todo _) ?_
      rintro _ g ⟨rfl, rfl⟩
      split
      · rfl
      · rw [on_stage, on_stage, on_bind, on_bind, compared ?_ (startStage_quiet _ _ _)]
        exact (needed_sublist c _ tags).subset

/-! ## Histories -/

/-- What happens to an index whose versions are compared now and then. -/
inductive Event where
  /-- Versions are compared, with symbols met in this order. -/
  | compare (order : Tag → Enumeration) (tags : List Tag)
  /-- A symbol file is stored. -/
  | store (id data : Bytes)

def work (c : Comparison) : Event → Run Unit
  | .compare order tags => (c.meeting order).run tags
  | .store id data => discard (c.layout.tagStore.write id data)

/-- The host after some events, whether they succeeded or failed. -/
def after (c : Comparison) (events : List Event) (h : Host) : Host :=
  events.foldl (fun h event => ((c.work event).on h).2) h

/-- The host with a comparison that has done nothing yet and can remember some contents. -/
def anew (h : Host) (capacity : Nat) : Host :=
  { h with tally := { h.tally with comparing := {}, cache := ⟨capacity, []⟩ } }

/-- A comparison does the same on both, whatever order symbols are met in. -/
theorem run_meeting_twins (careful : c.Careful start) (order : Tag → Enumeration) (tags : List Tag) :
    Agree (c.Twins start) ((c.meeting order).run tags) ((c.meeting order).run tags) := by
  -- what makes two hosts twins does not speak of the order
  have same : (c.meeting order).Twins start = c.Twins start := by
    funext h g
    exact propext ⟨fun t => ⟨t.alike, t.sound, t.adding, t.first, t.second⟩,
      fun t => ⟨t.alike, t.sound, t.adding, t.first, t.second⟩⟩
  exact same ▸ run_twins (c := c.meeting order) careful tags

theorem work_twins (careful : c.Careful start) (event : Event) :
    Agree (c.Twins start) (c.work event) (c.work event) := by
  cases event with
  | compare order tags => exact run_meeting_twins careful order tags
  | store id data =>
      intro h g twins
      have left := c.layout.tagStore.write_adding twins.sound id data
      have right := c.layout.tagStore.write_adding (twins.alike.sound twins.sound) id data
      exact (twins.agreeAt (c.layout.tagStore.blind_write id data) left right).map _

/-- Memory is faithful at any time. -/
theorem after_twins (careful : c.Careful start) (events : List Event) (twins : c.Twins start h h) :
    c.Twins start (c.after events h) (c.after events h) := by
  induction events generalizing h with
  | nil => exact twins
  | cons event events ih => exact ih (work_twins careful event twins).2

/-- A project with a symbol file for one of two versions, whose comparison remembers one content. -/
def halfRead : Host where
  tree := ⟨[
    ([lit "db", lit "tags", List.replicate 40 97], .file (lit "alpha\tDefine\t1\t7\n") false),
    ([lit "db", lit "tags"], .folder),
    ([lit "db"], .folder)]⟩
  tally := { cache := ⟨1, []⟩ }

/-- The first comparison asks in vain for the second content, whose symbol file is stored later. -/
def halfReadEvents : List Event :=
  [.compare (fun _ => .asFound) [{ name := lit "v1" }],
    .store (List.replicate 40 98) (lit "beta\tDefine\t2\t8\n")]

end Comparison

end SymbolHistory
