/-
# Proofs.CountedDiffs -- what a comparison counts

A comparison visits the tags whose diff is missing and those right before one.  It
counts a diff for each that it makes, and of those it visits it counts the ones
whose diff is there (`run_counts`).  So all missing diffs are counted, but a diff
that is there is counted only right before a missing one, and if none is missing
no diff is counted at all (`countP_needed_present`).
-/
import SymbolHistory.Proofs.KeptTallies

set_option autoImplicit false

namespace SymbolHistory

open SymbolHistory.Path FileTree Run Host

namespace Comparison

def hasDiff (l : Layout) (h : Host) (tag : Tag) : Bool := (h.look (l.diff tag.name)).isOk

/-- The tags whose diff is there while the diff of the tag right after them is missing. -/
def lastPresent (l : Layout) (h : Host) (tags : List Tag) : Nat :=
  (tags.zip tags.tail).countP fun pair => hasDiff l h pair.1 && !hasDiff l h pair.2

variable {c : Comparison} {h g k : Host} {made : List (Bytes × Bytes)}
  {known : Tag → List FileEntry × Option Fault}

/-! ## The tags that are visited -/

theorem needed_marked_cons (c : Comparison) (h : Host) (tag : Tag) (rest : List Tag) :
    needed (c.marked h (tag :: rest)) =
      if !hasDiff c.layout h tag || (rest.head?.map fun next => !hasDiff c.layout h next).getD false
      then tag :: needed (c.marked h rest) else needed (c.marked h rest) := by
  rw [marked, List.map_cons, ← marked, needed, marked, List.head?_map, Option.map_map]
  rfl

/-- Every missing diff is of a tag that is visited. -/
theorem countP_needed_missing (c : Comparison) (h : Host) (tags : List Tag) :
    (needed (c.marked h tags)).countP (fun tag => !hasDiff c.layout h tag) =
      tags.countP fun tag => !hasDiff c.layout h tag := by
  induction tags with
  | nil => rfl
  | cons tag rest ih =>
      rw [needed_marked_cons, List.countP_cons]
      split
      · rw [List.countP_cons, ih]
      · rename_i unneeded
        rw [ih]
        simp only [Bool.or_eq_true, not_or, Bool.not_eq_true] at unneeded
        simp [unneeded.1]

/-- A diff that is there is of a tag that is visited if the next one is missing. -/
theorem countP_needed_present (c : Comparison) (h : Host) (tags : List Tag) :
    (needed (c.marked h tags)).countP (hasDiff c.layout h) = lastPresent c.layout h tags := by
  induction tags with
  | nil => rfl
  | cons tag rest ih =>
      rw [needed_marked_cons]
      cases rest with
      | nil =>
          cases there : hasDiff c.layout h tag <;> simp [lastPresent, marked, needed, there]
      | cons next rest =>
          rw [lastPresent, List.tail_cons, List.zip_cons_cons, List.countP_cons]
          rw [lastPresent, List.tail_cons] at ih
          rw [← ih]
          cases there : hasDiff c.layout h tag <;> cases after : hasDiff c.layout h next <;>
            simp [there, after]

theorem lastPresent_cons_cons (l : Layout) (h : Host) (tag next : Tag) (rest : List Tag) :
    lastPresent l h (tag :: next :: rest) =
      lastPresent l h (next :: rest) + if hasDiff l h tag && !hasDiff l h next then 1 else 0 := by
  rw [lastPresent, List.tail_cons, List.zip_cons_cons, List.countP_cons, lastPresent, List.tail_cons]

theorem lastPresent_le (l : Layout) (h : Host) (tags : List Tag) :
    lastPresent l h tags ≤ tags.countP (hasDiff l h) := by
  induction tags with
  | nil => exact Nat.le_refl 0
  | cons tag rest ih =>
      cases rest with
      | nil => exact Nat.zero_le _
      | cons next rest =>
          have here : (if hasDiff l h tag && !hasDiff l h next then 1 else 0) ≤
              if hasDiff l h tag then 1 else 0 := by
            cases hasDiff l h tag <;> cases hasDiff l h next <;> decide
          rw [lastPresent_cons_cons, List.countP_cons (l := next :: rest)]
          exact Nat.add_le_add ih here

/-- The diffs that are counted as there are all that are there exactly if a missing one comes right
after each. -/
theorem lastPresent_eq_iff (l : Layout) (h : Host) (tags : List Tag) :
    lastPresent l h tags = tags.countP (hasDiff l h) ↔
      ∀ (i : Nat) (inside : i < tags.length), hasDiff l h tags[i] = true →
        ∃ inside : i + 1 < tags.length, hasDiff l h tags[i + 1] = false := by
  induction tags with
  | nil => simp [lastPresent]
  | cons tag rest ih =>
      cases rest with
      | nil => cases there : hasDiff l h tag <;> simp [lastPresent, there]
      | cons next rest =>
          have first : lastPresent l h (tag :: next :: rest) = (tag :: next :: rest).countP (hasDiff l h) ↔
              (hasDiff l h tag = true → hasDiff l h next = false) ∧
                lastPresent l h (next :: rest) = (next :: rest).countP (hasDiff l h) := by
            have atMost := lastPresent_le l h (next :: rest)
            rw [lastPresent_cons_cons, List.countP_cons (l := next :: rest)]
            cases hasDiff l h tag <;> cases hasDiff l h next <;> simp
            omega
          rw [first, ih]
          constructor
          · rintro ⟨here, later⟩ i inside there
            cases i with
            | zero => exact ⟨by simp, here there⟩
            | succ i =>
                obtain ⟨inside', after⟩ := later i (by simpa using inside) there
                exact ⟨by simpa using inside', after⟩
          · intro all
            refine ⟨fun there => (all 0 (by simp) there).2, fun i inside there => ?_⟩
            obtain ⟨inside', after⟩ := all (i + 1) (by simpa using inside) there
            exact ⟨by simpa using inside', after⟩

/-! ## Counting -/

/-- Loading a version counts no diff. -/
theorem symbols_sameCounts (c : Comparison) (id : Bytes) : (c.symbols id).Keeps SameCounts := by
  refine Keeps.get_bind fun h => ?_
  split
  · exact ⟨rfl, rfl, rfl⟩
  · refine Keeps.bind sameCounts_lasting
      ((c.layout.tagStore.read_sameTally id).mono SameTally.counts).attempt (fun outcome => ?_) h
    cases outcome with
    | error f =>
        dsimp only
        split
        · exact Keeps.pure sameCounts_lasting _
        · exact Keeps.throw sameCounts_lasting _
    | ok data =>
        dsimp only
        split
        · exact Keeps.throw sameCounts_lasting _
        · exact Keeps.bind sameCounts_lasting (Keeps.of_modify fun _ => ⟨rfl, rfl, rfl⟩)
            fun _ => Keeps.pure sameCounts_lasting _

theorem load_sameCounts (c : Comparison) (w : Window) (tag : Tag) : (c.load w tag).Keeps SameCounts := by
  have file : ∀ (w : Window) (e : FileEntry), (c.loadFile w e).Keeps SameCounts := fun w e =>
    Keeps.bind sameCounts_lasting (c.symbols_sameCounts e.id) fun _ =>
      Keeps.bind sameCounts_lasting (Keeps.of_modify fun _ => ⟨rfl, rfl, rfl⟩) fun _ =>
        Keeps.pure sameCounts_lasting _
  have walked : (c.walker.walk tag w c.loadFile).Keeps SameCounts := by
    cases c.walker with
    | whole source => exact source.walk_keeps sameCounts_lasting SameTally.counts tag w file
    | filtered x =>
        refine x.source.walk_keeps sameCounts_lasting SameTally.counts tag w fun w e => ?_
        split
        · exact file w e
        · exact Keeps.pure sameCounts_lasting _
  refine Keeps.bind sameCounts_lasting walked fun ended => ?_
  obtain ⟨w, ended⟩ := ended
  cases ended with
  | some f => exact Keeps.throw sameCounts_lasting _
  | none =>
      exact Keeps.bind sameCounts_lasting ((report_sameTally _ _ _).mono SameTally.counts) fun _ =>
        Keeps.pure sameCounts_lasting _

/-- How many diffs were counted from `h` to `g`: made, and found to be there. -/
structure Counts (made present : Nat) (h g : Host) : Prop where
  symbols : g.tally.organizing.symbols = h.tally.organizing.symbols
  diffs : g.tally.comparing.diffs = h.tally.comparing.diffs + made
  skipped : g.tally.comparing.skipped = h.tally.comparing.skipped + present

theorem Counts.trans {made present made' present' : Nat} (first : Counts made present h g)
    (second : Counts made' present' g k) : Counts (made + made') (present + present') h k := by
  refine ⟨second.symbols.trans first.symbols, ?_, ?_⟩
  · rw [second.diffs, first.diffs, Nat.add_assoc]
  · rw [second.skipped, first.skipped, Nat.add_assoc]

theorem Counts.of_same (same : SameCounts h g) : Counts 0 0 h g := ⟨same.symbols, same.diffs, same.skipped⟩

/-- A tag that is visited is counted once. -/
theorem persist_counts {w : Window} {tag : Tag} (done : (c.persist w tag).on g = (.ok (), k)) :
    Counts (if hasDiff c.layout g tag then 0 else 1) (if hasDiff c.layout g tag then 1 else 0) g k := by
  obtain ⟨there, m, looked, rest⟩ := on_bind_ok done
  rw [on_isThere] at looked
  obtain ⟨isThere, rfl⟩ := Prod.mk.inj looked
  obtain rfl := Except.ok.inj isThere
  rw [hasDiff]
  cases missing : (g.look (c.layout.diff tag.name)).isOk with
  | true =>
      rw [missing, if_pos rfl] at rest
      obtain ⟨_, n, remembered, reported⟩ := on_bind_ok rest
      have same : n.tally = k.tally := ((report_sameTally _ _ _).after reported).symm
      rw [← (Prod.mk.inj remembered).2] at same
      exact ⟨by rw [← same], by rw [← same]; rfl, by rw [← same]; rfl⟩
  | false =>
      rw [missing, if_neg Bool.false_ne_true] at rest
      -- the diff is counted in both branches of the report on common symbols
      have counted : ∀ {n : Host} {f : Tally → Tally} {m : Metrics → Metrics} {words},
          (∀ t, (f t).organizing = t.organizing ∧ (f t).comparing.diffs = t.comparing.diffs + 1 ∧
            (f t).comparing.skipped = t.comparing.skipped) → SameTally g n →
          (Run.during (lit "write diff " ++ tag.name)
              (AtomicFile.writeAll (c.layout.diff tag.name)
                (Record.writeAll (w.met (c.order tag)).diff.records)) >>= fun _ =>
            Host.remember f >>= fun _ => Host.count m >>= fun _ =>
              Host.report .debug "wrote comparison" words).on n = (.ok (), k) → Counts 1 0 g k := by
        intro n f m words step same done
        obtain ⟨_, n₁, written, remembering⟩ := on_bind_ok done
        obtain ⟨_, n₂, remembered, counting⟩ := on_bind_ok remembering
        obtain ⟨_, n₃, counted, reported⟩ := on_bind_ok counting
        have before : n₁.tally = g.tally :=
          (((AtomicFile.writeAll_sameTally _ _).during _).after written).trans same
        have after : k.tally = n₂.tally :=
          ((report_sameTally _ _ _).after reported).trans ((count_sameTally m).after counted)
        rw [← (Prod.mk.inj remembered).2] at after
        have last : k.tally = f g.tally := by rw [after, ← before]
        obtain ⟨organizing, diffs, skipped⟩ := step g.tally
        exact ⟨by rw [last, organizing], by rw [last, diffs], by rw [last, skipped, Nat.add_zero]⟩
      dsimp only at rest
      split at rest
      · obtain ⟨_, n, reported, rest⟩ := on_bind_ok rest
        refine counted ?_ ((report_sameTally _ _ _).after reported) rest
        exact fun _ => ⟨rfl, rfl, rfl⟩
      · refine counted ?_ (sameTally_lasting.refl g) rest
        exact fun _ => ⟨rfl, rfl, rfl⟩

/-! ## All tags in turn -/

/-- Comparing tags counts each of them by whether its diff was there before. -/
theorem compareEach_counts (sound : h.Sound) (steady : c.walker.source.Steady (c.layout.Usual h) known)
    (tags : List Tag) :
    ∀ {g k : Host} {made : List (Bytes × Bytes)} {w : Window}, c.Reached h made g → w.after = {} →
      (∀ tag ∈ tags, IsName (Tag.fileName tag.name)) →
      tags.Pairwise (fun s t => Tag.fileName s.name ≠ Tag.fileName t.name) →
      (∀ tag ∈ tags, Tag.fileName tag.name ∉ made.map Prod.fst) →
      (c.compareEach w tags).on g = (.ok (), k) →
      Counts (tags.countP fun tag => !hasDiff c.layout h tag) (tags.countP (hasDiff c.layout h)) g k := by
  induction tags with
  | nil =>
      intro g k made w _ _ _ _ _ done
      obtain ⟨-, rfl⟩ := Prod.mk.inj done
      exact ⟨rfl, rfl, rfl⟩
  | cons tag rest ih =>
      intro g k made w reached fresh names distinct notMade done
      have isName := names tag List.mem_cons_self
      obtain ⟨apart, distinct⟩ := List.pairwise_cons.mp distinct
      have notHere := notMade tag List.mem_cons_self
      obtain ⟨_, g₁, checked, loading⟩ := on_bind_ok done
      obtain ⟨w', g₂, loaded, persisting⟩ := on_bind_ok loading
      obtain ⟨_, g₃, persisted, advancing⟩ := on_bind_ok persisting
      obtain ⟨_, g₄, advanced, comparing⟩ := on_bind_ok advancing
      have reached := reached.quiet (checkpoint_quiet.after checked)
      obtain ⟨reached, -⟩ := (load_yields sound steady reached tag fresh).of_ok loaded
      have seen : hasDiff c.layout g₂ tag = hasDiff c.layout h tag :=
        reached.isOk_look_of_not_made sound isName notHere
      -- the diffs made on the way are of other tags, so this one is there or not as at the start
      have before := sameCounts_lasting.trans (checkpoint_idle.after checked).counts
        ((c.load_sameCounts w tag).after loaded)
      have here := persist_counts persisted
      have reached := ((persist_yields sound reached isName notHere w').of_ok persisted).quiet
        (advanceStage_quiet.after advanced)
      have later := ih reached rfl (fun t member => names t (List.mem_cons_of_mem _ member)) distinct
        (fun t member isMade => ?_) comparing
      · rw [seen] at here
        have whole := (((Counts.of_same before).trans here).trans
          (.of_same ((changeStage_idle _).after advanced).counts)).trans later
        rw [List.countP_cons, List.countP_cons]
        convert whole using 1
        · cases hasDiff c.layout h tag <;> simp
          omega
        · cases hasDiff c.layout h tag <;> simp
          omega
      · rw [List.map_append, List.mem_append] at isMade
        rcases isMade with earlier | now
        · exact notMade t (List.mem_cons_of_mem _ member) earlier
        · rw [dueAt] at now
          split at now
          · cases now
          · exact apart t member (List.mem_singleton.mp now).symm

/-- A comparison counts the diffs it makes, which are all that were missing, and those that were
there right before a missing one. -/
theorem run_counts (sound : h.Sound) (steady : c.walker.source.Steady (c.layout.Usual h) known)
    (cache : ∀ e ∈ h.tally.cache.entries,
      ObjectId.isValid e.1 = true ∧ e.2 = c.layout.symbolsAt h e.1)
    {tags : List Tag} (names : ∀ tag ∈ tags, IsName (Tag.fileName tag.name))
    (done : (c.run tags).on h = (.ok (), g)) :
    Counts (tags.countP fun tag => !hasDiff c.layout h tag) (lastPresent c.layout h tags) h g := by
  rw [← countP_needed_missing, ← countP_needed_present]
  rw [run] at done
  cases collided : (Tag.dropCollisions tags).2 with
  | cons tag others =>
      rw [collided] at done
      obtain ⟨_, _, thrown, -⟩ := on_bind_ok done
      cases thrown
  | nil =>
      rw [collided] at done
      obtain ⟨distinct, -⟩ := pairwise_of_splitCollisions tags [] collided
      have visited : ∀ tag ∈ needed (c.marked h tags), tag ∈ tags := fun tag member =>
        (needed_sublist c h tags).subset member
      have compared : ∀ {m n : Host}, Idle h m → (c.compareEach {} (needed (c.marked h tags))).on m = (.ok (), n) →
          Counts ((needed (c.marked h tags)).countP fun tag => !hasDiff c.layout h tag)
            ((needed (c.marked h tags)).countP (hasDiff c.layout h)) m n := fun idle done =>
        compareEach_counts sound steady _ ((start_reached sound cache).quiet idle.toQuiet) rfl
          (fun tag member => names tag (visited tag member))
          (distinct.sublist (needed_sublist c h tags)) (by simp) done
      have todo : (c.toCompute tags).on h = (.ok (needed (c.marked h tags)), h) := by
        rw [toCompute, on_map, on_withMissing]
        rfl
      obtain ⟨todo', h', isTodo, rest⟩ := on_bind_ok done
      rw [todo] at isTodo
      obtain ⟨same, rfl⟩ := Prod.mk.inj isTodo
      obtain rfl := Except.ok.inj same
      split at rest
      · rename_i nothing
        rw [List.isEmpty_iff.mp nothing]
        exact .of_same ((report_sameTally _ _ _).after rest).counts
      · obtain ⟨m, n, begun, staged, ended⟩ := on_stage_ok rest
        obtain ⟨_, n', each, reporting⟩ := on_bind_ok staged
        have reported : SameCounts n' n := by
          obtain ⟨_, _, looked, reported⟩ := on_bind_ok reporting
          rw [← (Prod.mk.inj looked).2] at reported
          exact ((report_sameTally _ _ _).after reported).counts
        have whole := (((Counts.of_same begun.counts).trans (compared begun each)).trans
          (.of_same reported)).trans (.of_same ended.counts)
        simpa using whole

end Comparison

end SymbolHistory
