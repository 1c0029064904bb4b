/-
# Proofs.Collisions -- tags that would share a diff file

The diff of a tag with a proper name is one step below the folder of diffs, under
the tag's file name (`Layout.diff_eq`), so tags share a diff exactly when their
file names are the same.  `Tag.splitCollisions` reads the tags from the front, and
what it makes of an initial part stays as it is (`splitCollisions_append`): a tag
is kept if its file name is new and dropped if a tag that was kept has it.

A comparison looks for such tags before it does anything else.  Nothing that it
does later ends in a collision (`compareEach_throws`): work that is called off or
refused does not, and neither do symbol files or sources that cannot be read.
-/
import SymbolHistory.Proofs.Causes
import SymbolHistory.Proofs.Places
import SymbolHistory.Proofs.Walks

set_option autoImplicit false

namespace SymbolHistory

open Run

/-! ## Diffs as paths -/

namespace Path

open Host

/-- The shortest way cannot be made shorter. -/
theorem shortest_again (rooted : Bool) (ss : List Bytes) :
    shortest rooted (shortest rooted ss) = shortest rooted ss := by
  cases rooted with
  | true => exact shortest_shortest ss
  | false =>
      obtain ⟨ups, names, reached, down⟩ := foldl_walk_false ss
      have up : ∀ n, (List.replicate n parent).foldl (walk false) [] = List.replicate n parent := by
        intro n
        induction n with
        | zero => rfl
        | succ n ih =>
            rw [List.replicate_succ', List.foldl_append, ih, List.foldl_cons, List.foldl_nil,
              ← List.replicate_succ']
            cases n <;> simp [walk, List.replicate_succ]
      have whole : shortest false ss = List.replicate ups parent ++ names.reverse := by
        rw [shortest, reached, List.reverse_append, List.reverse_replicate]
      rw [whole, shortest, List.foldl_append, up, foldl_walk_names false fun s member =>
        down s (List.mem_reverse.mp member)]
      simp

/-- A path that ends in a name is already clean when another name is put below it. -/
theorem join_join_name (d : Bytes) {name below : Bytes} (first : IsName name) (second : IsName below) :
    join [join [d, name], below] = join [d, name] ++ slash :: below := by
  have folder : join [d, name] = ofSteps (isAbsolute d) (shortest (isAbsolute d) (steps d) ++ [name]) := by
    rw [join_pair d name first.notEmpty, clean, isAbsolute_below d first, steps_below d first,
      shortest_append_name _ _ first.notParent]
  have taken : steps (join [d, name]) = shortest (isAbsolute d) (steps d) ++ [name] := by
    rw [join_pair d name first.notEmpty, steps_clean, isAbsolute_below d first, steps_below d first,
      shortest_append_name _ _ first.notParent]
  have rooted : isAbsolute (join [d, name]) = isAbsolute d := by
    rw [join_pair d name first.notEmpty, isAbsolute_clean, isAbsolute_below d first]
  have named : join [d, name] ≠ [] := by
    rw [join_pair d name first.notEmpty]
    exact clean_ne_nil _
  rw [join_pair _ below second.notEmpty, if_neg named, clean, isAbsolute_append named, rooted,
    steps_slash, taken, steps_of_isStep second.toIsStep, shortest_append_name _ _ second.notParent,
    shortest_append_name _ _ first.notParent, shortest_again, folder]
  obtain ⟨t, ss, split⟩ : ∃ t ss, shortest (isAbsolute d) (steps d) ++ [name] = t :: ss :=
    List.exists_cons_of_ne_nil (by simp)
  rw [split]
  exact ofSteps_snoc (isAbsolute d) below

end Path

open SymbolHistory.Path (IsName slash here parent)

namespace Tag

/-- A tag's file name leads neither to its folder nor out of it. -/
theorem isName_fileName {name : Bytes} (nonempty : name ≠ []) (notHere : name ≠ here)
    (notParent : name ≠ parent) : IsName (fileName name) := by
  -- only a dot becomes a dot
  have dots : ∀ n, fileName name = List.replicate n 46 → name = List.replicate n 46 := by
    intro n same
    have length : name.length = n := by
      rw [← List.length_replicate (n := n) (a := (46 : UInt8)), ← same, fileName, List.length_map]
    refine List.eq_replicate_iff.mpr ⟨length, fun b member => ?_⟩
    have inside : (if b == 47 || b == 92 then 45 else b) ∈ fileName name :=
      List.mem_map_of_mem (f := fun b => if b == 47 || b == 92 then (45 : UInt8) else b) member
    have isDot := List.eq_of_mem_replicate (same ▸ inside)
    split at isDot
    · cases isDot
    · exact isDot
  refine ⟨⟨?_, ?_, fun same => notHere (dots 1 same)⟩, fun same => notParent (dots 2 same)⟩
  · intro member
    obtain ⟨b, -, isSlash⟩ := List.mem_map.mp member
    split at isSlash
    · cases isSlash
    · rename_i other
      exact other (by simp [isSlash, slash])
  · simpa [fileName] using nonempty

end Tag

namespace Layout

/-- A diff is in the folder of diffs. -/
theorem diff_eq (l : Layout) {tag : Bytes} (isName : IsName (Tag.fileName tag)) :
    l.diff tag = l.diffs ++ slash :: Tag.fileName tag :=
  Path.join_join_name l.root ⟨⟨by decide, by decide, by decide⟩, by decide⟩ isName

/-- Tags share a diff if they share a file name. -/
theorem diff_eq_diff_iff (l : Layout) {s t : Bytes} (isName : IsName (Tag.fileName s))
    (isName' : IsName (Tag.fileName t)) : l.diff s = l.diff t ↔ Tag.fileName s = Tag.fileName t := by
  rw [l.diff_eq isName, l.diff_eq isName', List.append_cancel_left_eq, List.cons.injEq]
  simp

end Layout

/-! ## Keeping the first -/

namespace Tag

abbrev file (t : Tag) : Bytes := fileName t.name

section

variable {taken : List Bytes} {t : Tag}

theorem splitCollisions_old (old : t.file ∈ taken) (rest : List Tag) :
    splitCollisions taken (t :: rest) =
      ((splitCollisions taken rest).1, t :: (splitCollisions taken rest).2) := by
  simp [splitCollisions, old]

theorem splitCollisions_new (new : t.file ∉ taken) (rest : List Tag) :
    splitCollisions taken (t :: rest) =
      (t :: (splitCollisions (t.file :: taken) rest).1, (splitCollisions (t.file :: taken) rest).2) := by
  simp [splitCollisions, new]

end

theorem splitCollisions_sublist (tags : List Tag) :
    ∀ taken, (splitCollisions taken tags).1.Sublist tags ∧ (splitCollisions taken tags).2.Sublist tags ∧
      ((splitCollisions taken tags).1 ++ (splitCollisions taken tags).2).Perm tags := by
  induction tags with
  | nil => exact fun taken => ⟨.refl _, .refl _, .refl _⟩
  | cons t rest ih =>
      intro taken
      by_cases old : t.file ∈ taken
      · obtain ⟨kept, dropped, perm⟩ := ih taken
        rw [splitCollisions_old old]
        exact ⟨kept.cons t, dropped.cons_cons t, List.perm_middle.trans (perm.cons t)⟩
      · obtain ⟨kept, dropped, perm⟩ := ih (t.file :: taken)
        rw [splitCollisions_new old]
        exact ⟨kept.cons_cons t, dropped.cons t, perm.cons t⟩

/-- Tags that are kept have new file names, each its own. -/
theorem splitCollisions_kept (tags : List Tag) :
    ∀ taken, ((splitCollisions taken tags).1.map file).Nodup ∧
      ∀ t ∈ (splitCollisions taken tags).1, t.file ∉ taken := by
  induction tags with
  | nil => exact fun taken => ⟨.nil, nofun⟩
  | cons t rest ih =>
      intro taken
      by_cases old : t.file ∈ taken
      · rw [splitCollisions_old old]
        exact ih taken
      · obtain ⟨distinct, new⟩ := ih (t.file :: taken)
        rw [splitCollisions_new old]
        constructor
        · rw [List.map_cons, List.nodup_cons]
          refine ⟨fun member => ?_, distinct⟩
          obtain ⟨u, inside, same⟩ := List.mem_map.mp member
          exact new u inside (by simp [same])
        · refine List.forall_mem_cons.mpr ⟨old, fun u member isTaken => ?_⟩
          exact new u member (List.mem_cons_of_mem _ isTaken)

/-- The file name of every tag is that of a tag that is kept, or taken before. -/
theorem exists_kept (tags : List Tag) :
    ∀ taken, ∀ t ∈ tags, t.file ∈ taken ∨ ∃ u ∈ (splitCollisions taken tags).1, u.file = t.file := by
  induction tags with
  | nil => exact nofun
  | cons s rest ih =>
      intro taken t member
      by_cases old : s.file ∈ taken
      · rw [splitCollisions_old old]
        rcases List.mem_cons.mp member with rfl | later
        · exact .inl old
        · exact ih taken t later
      · rw [splitCollisions_new old]
        rcases List.mem_cons.mp member with rfl | later
        · exact .inr ⟨t, by simp, rfl⟩
        · rcases ih (s.file :: taken) t later with isTaken | ⟨u, inside, same⟩
          · rcases List.mem_cons.mp isTaken with same | before
            · exact .inr ⟨s, by simp, same.symm⟩
            · exact .inl before
          · exact .inr ⟨u, by simp [inside], same⟩

/-- What becomes of some tags does not depend on those behind them, and of these only the file names
of tags that were kept. -/
theorem splitCollisions_append (tags more : List Tag) :
    ∀ taken, splitCollisions taken (tags ++ more) =
      let first := splitCollisions taken tags
      let second := splitCollisions ((first.1.map file).reverse ++ taken) more
      (first.1 ++ second.1, first.2 ++ second.2) := by
  induction tags with
  | nil => exact fun taken => rfl
  | cons t rest ih =>
      intro taken
      rw [List.cons_append]
      by_cases old : t.file ∈ taken
      · rw [splitCollisions_old old, splitCollisions_old old, ih]
        rfl
      · rw [splitCollisions_new old, splitCollisions_new old, ih]
        simp

/-- A tag is kept if no tag in front of it has its file name, and dropped if one that was kept has. -/
theorem dropCollisions_at (before : List Tag) (t : Tag) (after : List Tag) :
    (∃ kept dropped, dropCollisions (before ++ t :: after) =
        ((dropCollisions before).1 ++ t :: kept, (dropCollisions before).2 ++ dropped) ∧
      ∀ u ∈ before, u.file ≠ t.file) ∨
    (∃ kept dropped, dropCollisions (before ++ t :: after) =
        ((dropCollisions before).1 ++ kept, (dropCollisions before).2 ++ t :: dropped) ∧
      ∃ u ∈ (dropCollisions before).1, u.file = t.file) := by
  have split : dropCollisions (before ++ t :: after) = _ := splitCollisions_append before (t :: after) []
  dsimp only at split
  rw [List.append_nil] at split
  by_cases old : t.file ∈ ((splitCollisions [] before).1.map file).reverse
  · rw [splitCollisions_old old] at split
    refine .inr ⟨_, _, split, ?_⟩
    obtain ⟨u, member, same⟩ := List.mem_map.mp (List.mem_reverse.mp old)
    exact ⟨u, member, same⟩
  · rw [splitCollisions_new old] at split
    refine .inl ⟨_, _, split, fun u member same => ?_⟩
    obtain ⟨v, inside, isSame⟩ := (exists_kept before [] u member).resolve_left nofun
    exact old (List.mem_reverse.mpr (List.mem_map.mpr ⟨v, inside, isSame.trans same⟩))

/-- Nothing is dropped exactly if all file names are different. -/
theorem dropCollisions_nil_iff (tags : List Tag) :
    (dropCollisions tags).2 = [] ↔ (tags.map file).Nodup := by
  obtain ⟨kept, -, perm⟩ := splitCollisions_sublist tags []
  obtain ⟨distinct, -⟩ := splitCollisions_kept tags []
  constructor
  · intro none
    have all : (splitCollisions [] tags).2 = [] := none
    rw [all, List.append_nil] at perm
    exact (perm.map file).nodup_iff.mp distinct
  · intro nodup
    have nodup := (perm.map file).nodup_iff.mpr nodup
    rw [List.map_append, List.nodup_append] at nodup
    refine List.eq_nil_iff_forall_not_mem.mpr fun t member => ?_
    have inside : t ∈ tags := perm.subset (List.mem_append_right _ member)
    obtain ⟨u, isKept, same⟩ := (exists_kept tags [] t inside).resolve_left nofun
    exact nodup.2.2 _ (List.mem_map_of_mem isKept) _ (List.mem_map_of_mem member) same

end Tag

/-! ## What stops a comparison -/

/-- A failure that no collision is the cause of. -/
def Fault.Apart (f : Fault) : Prop := f.cause ≠ .nameCollision

theorem Fault.apart_covers : Fault.Covers Fault.Apart where
  canceled := nofun
  system _ _ error := by cases error <;> exact nofun
  during _ _ apart := apart

theorem Symbol.parse_apart {line : Bytes} {f : Fault} (failed : Symbol.parse line = .error f) :
    f.Apart := by
  unfold Symbol.parse at failed
  split at failed
  · rename_i number _ _
    cases read : Decimal.signed number with
    | ok n =>
        rw [read] at failed
        cases failed
    | error reason =>
        rw [read] at failed
        cases failed
        exact nofun
  · cases failed
    exact nofun

theorem Symbol.readLines_apart (lines : List Bytes) :
    ∀ (done : List Symbol) (f : Fault), (Symbol.readLines done lines).failure = some f → f.Apart := by
  induction lines with
  | nil => exact fun _ _ => nofun
  | cons line rest ih =>
      intro done f failed
      rw [Symbol.readLines] at failed
      split at failed
      · exact ih done f failed
      · split at failed
        · exact ih _ f failed
        · rename_i f' malformed
          cases failed
          exact parse_apart malformed

theorem Symbol.readAll_apart {data : Bytes} {f : Fault}
    (failed : (Symbol.readAll ⟨data, none⟩).failure = some f) : f.Apart := by
  refine Symbol.readLines_apart ((Bytes.lines data).map Bytes.Line.text) [] f ?_
  unfold readAll at failed
  dsimp only at failed
  split at failed
  · rename_i none
    cases none
  · exact failed

/-! ### Sources -/

theorem Process.find_apart {s : Shell.State} {name : Bytes} {f : Fault}
    (failed : Process.find s name = .error f) : f.Apart := by
  have found : ∀ {path found}, Process.ofFound s path found = .error f → f.Apart := by
    intro path found failed
    unfold Process.ofFound at failed
    split at failed
    · cases failed
    · split at failed
      · cases failed
        exact nofun
      · split at failed
        · cases failed
        · cases failed
        · cases failed
          exact Fault.apart_covers.system _ _ _
        · cases failed
          exact nofun
    · cases failed
      exact Fault.apart_covers.system _ _ _
    · cases failed
      exact nofun
  unfold Process.find at failed
  split at failed
  · exact found failed
  · exact found failed

theorem Process.run_apart (p : Process) : p.run.Throws Fault.Apart := by
  have launched : p.launch.Throws Fault.Apart := by
    refine Throws.get_bind fun h => (Throws.ofExcept fun f => find_apart).bind fun found => ?_
    refine (checkpoint_throws Fault.apart_covers).bind fun _ => ?_
    split
    · dsimp only
      split
      · exact (Throws.throw (Fault.apart_covers.system _ _ _)).bind fun _ => Throws.pure found
      · exact (Throws.throw (Fault.apart_covers.system _ _ _)).bind fun _ => Throws.pure found
      · exact Throws.pure found
    · exact Throws.pure found
  exact launched.bind fun found => Throws.get_bind fun h => (Throws.of_set _).bind fun _ => Throws.pure _

namespace GitSource

theorem parseFile_apart {record : Bytes} {f : Fault} (failed : parseFile record = .error f) : f.Apart := by
  unfold parseFile at failed
  split at failed
  · cases failed
    exact nofun
  · split at failed
    · split at failed <;> cases failed
    · cases failed
      exact nofun

theorem parseFiles_apart (records : List Bytes) {f : Fault} (failed : (parseFiles records).2 = some f) :
    f.Apart := by
  induction records with
  | nil => cases failed
  | cons record rest ih =>
      rw [parseFiles] at failed
      split at failed
      · rename_i f' malformed
        cases failed
        exact parseFile_apart malformed
      · exact ih failed

/-- What a listing of files ends with. -/
def Ended (answer : List FileEntry × Option Fault) : Prop := ∀ f, answer.2 = some f → f.Apart

theorem files_gives (g : GitSource) (tag : Tag) : (g.files tag).Gives Ended := by
  refine Gives.after fun o => ?_
  split
  · rename_i entries f malformed
    refine Gives.pure ?_
    rintro _ ⟨⟩
    exact Fault.apart_covers.within _ (parseFiles_apart _ (congrArg Prod.snd malformed))
  · refine Gives.pure fun f failed => ?_
    obtain ⟨_, -, rfl⟩ := Option.map_eq_some_iff.mp failed
    exact nofun

theorem files_throws (g : GitSource) (tag : Tag) : (g.files tag).Throws Fault.Apart := by
  refine ((Process.run_apart _).during Fault.apart_covers _).bind fun o => ?_
  split
  · exact Throws.pure _
  · exact Throws.pure _

end GitSource

namespace Source

theorem listing_gives (source : Source) (tag : Tag) :
    (source.listing tag).Gives GitSource.Ended := by
  cases source with
  | memory m =>
      unfold listing
      dsimp only
      cases found : m.entries tag with
      | ok entries => exact Gives.pure nofun
      | error f =>
          refine Gives.pure ?_
          rintro _ ⟨⟩
          unfold MemorySource.entries at found
          split at found
          · cases found
            exact nofun
          · split at found
            · cases found
              exact nofun
            · cases found
  | git g =>
      unfold listing
      refine Gives.bind (Gives.attempt (g.files_throws tag) (g.files_gives tag)) ?_
      rintro outcome ⟨answered, failed⟩
      cases outcome with
      | ok answer => exact Gives.pure (answered answer rfl)
      | error f =>
          refine Gives.pure ?_
          rintro _ ⟨⟩
          exact failed f rfl

theorem listing_throws (source : Source) (tag : Tag) : (source.listing tag).Throws Fault.Apart := by
  cases source with
  | memory m =>
      unfold listing
      dsimp only
      cases m.entries tag <;> exact Throws.pure _
  | git g =>
      unfold listing
      exact Throws.attempt_bind (g.files_throws tag) (fun _ => Throws.pure _) fun _ _ => Throws.pure _

end Source

section

variable {σ : Type} {visit : σ → FileEntry → Run σ}

/-- Visiting files never fails; it ends early for what stopped a visit. -/
theorem visitEntries_throws (entries : List FileEntry) :
    ∀ s, (visitEntries visit s entries).Throws Fault.Apart := by
  induction entries with
  | nil => exact fun s => Throws.pure _
  | cons e rest ih =>
      intro s
      refine Throws.bind (fun h f failed => ?_) fun outcome => ?_
      · rw [on_attempt] at failed
        cases failed
      · cases outcome with
        | ok s' => exact ih s'
        | error f => exact Throws.pure _

theorem visitEntries_gives (each : ∀ s e, (visit s e).Throws Fault.Apart) (entries : List FileEntry) :
    ∀ s, (visitEntries visit s entries).Gives fun r => ∀ f, r.2 = some f → f.Apart := by
  induction entries with
  | nil => exact fun s => Gives.pure nofun
  | cons e rest ih =>
      intro s
      have visited : (checkpoint >>= fun _ => visit s e).Throws Fault.Apart :=
        (checkpoint_throws Fault.apart_covers).bind fun _ => each s e
      refine Gives.bind (Gives.attempt (Q := fun _ => True) visited fun _ _ _ => trivial) ?_
      rintro outcome ⟨-, failed⟩
      cases outcome with
      | ok s' => exact ih s'
      | error f =>
          refine Gives.pure ?_
          rintro _ ⟨⟩
          exact failed f rfl

theorem Source.walk_throws (source : Source) (tag : Tag) (s : σ) :
    (source.walk tag s visit).Throws Fault.Apart := by
  rw [Source.walk_eq]
  exact (source.listing_throws tag).bind fun answer =>
    (visitEntries_throws answer.1 s).bind fun _ => Throws.pure _

theorem Source.walk_gives (each : ∀ s e, (visit s e).Throws Fault.Apart) (source : Source) (tag : Tag)
    (s : σ) : (source.walk tag s visit).Gives fun r => ∀ f, r.2 = some f → f.Apart := by
  rw [Source.walk_eq]
  refine Gives.bind (source.listing_gives tag) fun answer listed => ?_
  refine Gives.bind (visitEntries_gives each answer.1 s) fun ended visited => Gives.pure fun f failed => ?_
  cases stopped : ended.2 with
  | some f' =>
      rw [stopped] at failed
      cases failed
      exact visited f stopped
  | none =>
      rw [stopped] at failed
      exact listed f failed

end

/-! ### Comparing -/

namespace Host

theorem report_throws {P : Fault → Prop} (level : Journal.Level) (message : String)
    (attributes : List (String × Journal.Value)) : (report level message attributes).Throws P :=
  Throws.get_bind fun _ => Throws.of_modify _

theorem stage_throws {P : Fault → Prop} {α : Type} (name : String) (total : Int) {work : Run α}
    (throws : work.Throws P) : (stage name total work).Throws P :=
  (Throws.of_modify _).bind fun _ => throws.ensuring (Throws.of_modify _)

end Host

open Host

namespace Comparison

variable (c : Comparison)

theorem symbols_throws (id : Bytes) : (c.symbols id).Throws Fault.Apart := by
  refine Throws.get_bind fun h => ?_
  split
  · exact (Throws.of_modify _).bind fun _ => Throws.pure _
  · refine Throws.attempt_bind (c.layout.tagStore.read_throws Fault.apart_covers id fun _ => nofun) ?_ ?_
    · intro data
      dsimp only
      split
      · rename_i f failed
        exact Throws.throw (Fault.apart_covers.within _ (Symbol.readAll_apart failed))
      · exact (Throws.of_modify _).bind fun _ => Throws.pure _
    · intro f apart
      dsimp only
      split
      · exact Throws.pure _
      · exact Throws.throw apart

theorem load_throws (w : Window) (tag : Tag) : (c.load w tag).Throws Fault.Apart := by
  have each : ∀ w e, (if c.walker.keeps e then c.loadFile w e else pure w).Throws Fault.Apart := by
    intro w e
    split
    · exact (c.symbols_throws e.id).bind fun _ => (Throws.of_modify _).bind fun _ => Throws.pure _
    · exact Throws.pure w
  unfold load
  rw [c.walker.walk_eq]
  refine (Source.walk_throws _ tag w).bind_gives (Source.walk_gives each _ tag w) ?_
  rintro ⟨w', ended⟩ apart
  cases ended with
  | some f => exact Throws.throw (Fault.apart_covers.within _ (apart f rfl))
  | none => exact (report_throws _ _ _).bind fun _ => Throws.pure _

theorem persist_throws (w : Window) (tag : Tag) : (c.persist w tag).Throws Fault.Apart := by
  refine Throws.bind (Throws.get_bind fun _ => Throws.pure _) fun there => ?_
  split
  · exact (Throws.of_modify _).bind fun _ => report_throws _ _ _
  · have writes := (AtomicFile.writeAll_throws Fault.apart_covers (c.layout.diff tag.name)
      (Record.writeAll (w.met (c.order tag)).diff.records)).during Fault.apart_covers
        (lit "write diff " ++ tag.name)
    dsimp only
    split
    · exact (report_throws _ _ _).bind fun _ => writes.bind fun _ => (Throws.of_modify _).bind fun _ =>
        (Throws.of_modify _).bind fun _ => report_throws _ _ _
    · exact writes.bind fun _ => (Throws.of_modify _).bind fun _ =>
        (Throws.of_modify _).bind fun _ => report_throws _ _ _

/-- Comparing tags may be stopped, but not by a collision. -/
theorem compareEach_throws (tags : List Tag) :
    ∀ w, (c.compareEach w tags).Throws Fault.Apart := by
  induction tags with
  | nil => exact fun w => Throws.pure _
  | cons tag rest ih =>
      intro w
      exact (checkpoint_throws Fault.apart_covers).bind fun _ => (c.load_throws w tag).bind fun w' =>
        (c.persist_throws w' tag).bind fun _ => (Throws.of_modify _).bind fun _ => ih _

/-- Without tags that share a file name a comparison is not stopped by a collision. -/
theorem run_throws {tags : List Tag} (none : (Tag.dropCollisions tags).2 = []) :
    (c.run tags).Throws Fault.Apart := by
  unfold run
  rw [none]
  refine Throws.bind (Throws.map (Throws.mapM (fun tag => ?_) tags) needed) fun todo => ?_
  · exact Throws.bind (Throws.get_bind fun _ => Throws.pure _) fun _ => Throws.pure _
  · dsimp only
    split
    · exact report_throws _ _ _
    · exact stage_throws _ _ ((c.compareEach_throws todo {}).bind fun _ => Throws.get_bind fun _ =>
        report_throws _ _ _)

/-- Of the tags whose diffs would share a file all but the first are dropped, the others are kept,
and both stay in order.  The diffs of tags that are kept are different files right below the folder
of diffs.  A comparison fails for a collision exactly if two of its tags have the same diff, and then
nothing on the host has changed. -/
theorem collisions_dropped (h : Host) (tags : List Tag)
    (proper : ∀ t ∈ tags, t.name ≠ [] ∧ t.name ≠ here ∧ t.name ≠ parent) :
    let path := fun t : Tag => c.layout.diff t.name
    ((Tag.dropCollisions tags).1.Sublist tags ∧ (Tag.dropCollisions tags).2.Sublist tags ∧
      ((Tag.dropCollisions tags).1 ++ (Tag.dropCollisions tags).2).Perm tags) ∧
    ((Tag.dropCollisions tags).1.map path).Nodup ∧
    (∀ t ∈ tags, ∃ file, IsName file ∧ path t = c.layout.diffs ++ slash :: file) ∧
    (∀ before t after, tags = before ++ t :: after →
      (∃ kept dropped, Tag.dropCollisions tags =
          ((Tag.dropCollisions before).1 ++ t :: kept, (Tag.dropCollisions before).2 ++ dropped) ∧
        ∀ u ∈ before, path u ≠ path t) ∨
      (∃ kept dropped, Tag.dropCollisions tags =
          ((Tag.dropCollisions before).1 ++ kept, (Tag.dropCollisions before).2 ++ t :: dropped) ∧
        ∃ u ∈ (Tag.dropCollisions before).1, path u = path t)) ∧
    ((∃ f g, (c.run tags).on h = (.error f, g) ∧ f.cause = .nameCollision) ↔ ¬(tags.map path).Nodup) ∧
    (¬(tags.map path).Nodup → ∃ t ∈ (Tag.dropCollisions tags).2.head?,
      (c.run tags).on h = (.error (.nameCollision t.name), h)) := by
  intro path
  have named : ∀ t ∈ tags, IsName t.file := fun t member =>
    Tag.isName_fileName (proper t member).1 (proper t member).2.1 (proper t member).2.2
  have samePath : ∀ s ∈ tags, ∀ t ∈ tags, path s = path t ↔ s.file = t.file :=
    fun s inS t inT => c.layout.diff_eq_diff_iff (named s inS) (named t inT)
  -- paths are told apart like file names
  have distinct : ∀ some ⊆ tags, (some.map path).Nodup ↔ (some.map Tag.file).Nodup := by
    intro some subset
    unfold List.Nodup
    rw [List.pairwise_map, List.pairwise_map]
    constructor <;> refine List.Pairwise.imp_of_mem fun {s t} inS inT apart same => apart ?_
    · exact (samePath s (subset inS) t (subset inT)).mpr same
    · exact (samePath s (subset inS) t (subset inT)).mp same
  have sublists := Tag.splitCollisions_sublist tags []
  have stopped : ¬(tags.map path).Nodup → ∃ t ∈ (Tag.dropCollisions tags).2.head?,
      (c.run tags).on h = (.error (.nameCollision t.name), h) := by
    intro collide
    rw [distinct tags (List.Subset.refl _), ← Tag.dropCollisions_nil_iff] at collide
    obtain ⟨t, rest, dropped⟩ := List.exists_cons_of_ne_nil collide
    refine ⟨t, by rw [dropped]; rfl, ?_⟩
    rw [run, dropped]
    rfl
  refine ⟨sublists, ?_, ?_, ?_, ?_, stopped⟩
  · exact (distinct _ sublists.1.subset).mpr (Tag.splitCollisions_kept tags []).1
  · exact fun t member => ⟨t.file, named t member, c.layout.diff_eq (named t member)⟩
  · rintro before t after rfl
    have inside : t ∈ before ++ t :: after := by simp
    rcases Tag.dropCollisions_at before t after with ⟨kept, dropped, split, new⟩ | ⟨kept, dropped, split, u, member, same⟩
    · refine .inl ⟨kept, dropped, split, fun u member samePath' => new u member ?_⟩
      exact (samePath u (by simp [member]) t inside).mp samePath'
    · refine .inr ⟨kept, dropped, split, u, member, ?_⟩
      have inBefore : u ∈ before := (Tag.splitCollisions_sublist before []).1.subset member
      exact (samePath u (by simp [inBefore]) t inside).mpr same
  · constructor
    · rintro ⟨f, g, ended, isCollision⟩ nodup
      rw [distinct tags (List.Subset.refl _), ← Tag.dropCollisions_nil_iff] at nodup
      exact c.run_throws nodup h f (by rw [ended]) isCollision
    · intro collide
      obtain ⟨t, -, ended⟩ := stopped collide
      exact ⟨_, _, ended, rfl⟩

/-- Three spellings of a release, and another one. -/
def respelledTags : List Tag :=
  [{ name := lit "rel/1" }, { name := lit "v2" }, { name := lit "rel\\1" }, { name := lit "rel-1" }]

theorem collisions_dropped_respelled :
    (∀ t ∈ respelledTags, t.name ≠ [] ∧ t.name ≠ here ∧ t.name ≠ parent) ∧
    Tag.dropCollisions respelledTags =
      ([{ name := lit "rel/1" }, { name := lit "v2" }],
        [{ name := lit "rel\\1" }, { name := lit "rel-1" }]) ∧
    ∀ (source : Source) (order : Tag → Enumeration) (h : Host),
      ((Comparison.mk ⟨lit "/db"⟩ (.whole source) order).run respelledTags).on h =
        (.error (.nameCollision (lit "rel\\1")), h) := by
  have proper : ∀ t ∈ respelledTags, t.name ≠ [] ∧ t.name ≠ here ∧ t.name ≠ parent := by decide
  have collide : ¬(respelledTags.map fun t => (Layout.mk (lit "/db")).diff t.name).Nodup := by
    decide +kernel
  refine ⟨proper, by decide +kernel, fun source order h => ?_⟩
  obtain ⟨-, -, -, -, -, stopped⟩ :=
    collisions_dropped (Comparison.mk ⟨lit "/db"⟩ (.whole source) order) h respelledTags proper
  obtain ⟨t, dropped, ended⟩ := stopped collide
  rw [show (Tag.dropCollisions respelledTags).2.head? = some { name := lit "rel\\1" } by
    decide +kernel] at dropped
  cases dropped
  exact ended

end Comparison

end SymbolHistory
