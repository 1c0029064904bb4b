/-
# Proofs.SerialCrews -- writing groups one by one is one way to share a table

Reading a whole table first and then writing its groups in order is what a crew
does whose worker is done with a group before the next one is begun.  `collect`
reads up to the end of a group; the rest follows the groups of the table
(`steps_of_writeGroups`).  So whatever holds of every way to share a table holds
of splitting it (`shares_of_splitTable`).
-/
import Mathlib.Data.List.Chain
import SymbolHistory.Proofs.Crews

set_option autoImplicit false

namespace SymbolHistory

open SymbolHistory.Path FileTree Run Host

namespace Organizer

open TagTable (Entry Reader Sources)

/-! ## Groups of a table -/

/-- Groups that make up some entries, each of one file and different from its neighbours. -/
structure Partition (groups : List Group) (entries : List Entry) : Prop where
  whole : groups.flatMap Group.entries = entries
  nonempty : ∀ group ∈ groups, group.entries ≠ []
  own : ∀ group ∈ groups, ∀ e ∈ group.entries, e.file = group.file
  apart : groups.IsChain fun a b => a.file ≠ b.file

theorem partition_push {e : Entry} {gs : List Group} {entries : List Entry}
    (parts : Partition gs entries) : Partition (push e gs) (e :: entries) := by
  cases gs with
  | nil =>
      obtain rfl : entries = [] := parts.whole.symm
      exact ⟨by simp [push], by simp [push], by simp [push], by simp [push]⟩
  | cons g rest =>
      rw [push]
      split
      · rename_i same
        have same : g.file = e.file := eq_of_beq same
        refine ⟨?_, ?_, ?_, ?_⟩
        · rw [← parts.whole]
          simp
        · intro group member
          rcases List.mem_cons.mp member with rfl | later
          · simp
          · exact parts.nonempty group (List.mem_cons_of_mem _ later)
        · intro group member e' inside
          rcases List.mem_cons.mp member with rfl | later
          · rcases List.mem_cons.mp inside with rfl | before
            · rfl
            · exact (parts.own g List.mem_cons_self e' before).trans same
          · exact parts.own group (List.mem_cons_of_mem _ later) e' inside
        · have apart := parts.apart
          rw [List.isChain_cons] at apart ⊢
          exact ⟨fun group next => same ▸ apart.1 group next, apart.2⟩
      · rename_i other
        have other : e.file ≠ g.file := fun same => other (by simp [same])
        refine ⟨?_, ?_, ?_, ?_⟩
        · rw [List.flatMap_cons, parts.whole]
          rfl
        · intro group member
          rcases List.mem_cons.mp member with rfl | later
          · simp
          · exact parts.nonempty group later
        · intro group member e' inside
          rcases List.mem_cons.mp member with rfl | later
          · rw [List.mem_singleton.mp inside]
          · exact parts.own group later e' inside
        · exact List.isChain_cons_cons.mpr ⟨other, parts.apart⟩

theorem partition_groups (entries : List Entry) : Partition (groups entries) (known entries) := by
  rw [groups_eq, known]
  induction entries.filter fun e => e.kind != .unknown with
  | nil => exact ⟨rfl, by simp, by simp, by simp⟩
  | cons e entries ih => exact partition_push ih

/-- An entry of a group is an entry of the table, and the group is of its file. -/
theorem mem_of_mem_groups {entries : List Entry} {group : Group} (member : group ∈ groups entries) {e : Entry}
    (inside : e ∈ group.entries) : e ∈ entries ∧ e.file = group.file := by
  have parts := partition_groups entries
  have isKnown : e ∈ known entries := parts.whole ▸ List.mem_flatMap.mpr ⟨group, member, inside⟩
  exact ⟨(List.mem_filter.mp isKnown).1, parts.own group member e inside⟩

namespace Partition

variable {group : Group} {rest : List Group} {entries : List Entry}

theorem tail (parts : Partition (group :: rest) entries) :
    Partition rest (rest.flatMap Group.entries) :=
  ⟨rfl, fun g later => parts.nonempty g (List.mem_cons_of_mem _ later),
    fun g later => parts.own g (List.mem_cons_of_mem _ later), parts.apart.tail⟩

/-- The first entry is of the first group. -/
theorem head {gs : List Group} (parts : Partition gs entries) {e : Entry}
    (isFirst : entries.head? = some e) : ∃ group, gs.head? = some group ∧ e.file = group.file := by
  cases gs with
  | nil =>
      rw [← parts.whole] at isFirst
      cases isFirst
  | cons first gs =>
      obtain ⟨e', more, isMore⟩ := List.exists_cons_of_ne_nil (parts.nonempty first List.mem_cons_self)
      rw [← parts.whole, List.flatMap_cons, isMore] at isFirst
      cases isFirst
      exact ⟨first, rfl, parts.own first List.mem_cons_self e (by simp [isMore])⟩

/-- What comes after the first group begins with another file. -/
theorem turns (parts : Partition (group :: rest) entries) :
    ∀ e ∈ (rest.flatMap Group.entries).head?, e.file ≠ group.file := by
  intro e isFirst
  obtain ⟨next, isNext, isFile⟩ := parts.tail.head isFirst
  rw [isFile]
  exact ((List.isChain_cons.mp parts.apart).1 next isNext).symm

end Partition

/-! ## Up to the end of a group -/

/-- A crew that has come to an entry that begins a group, or to the end of the table. -/
structure Crew.Poised (o : Organizer) (s : Sources) (c : Crew) (r : Reader) (ahead : Option Entry) :
    Prop where
  sources : r.sources = some s
  reader : r.Matches o.Stored c.reader
  entry : Option.Rel (Entry.Matches o.Stored s) ahead c.ahead
  turns : ∀ e ∈ ahead, e.kind ≠ .unknown ∧ e.file ≠ c.last
  ended : ahead = none → r.readAll.1 = []

section

variable {o : Organizer} {workers : Nat} {h g k : Host} {s : Sources} {made : List (Bytes × Bytes)}

/-- The entries of the last file are collected until another file begins. -/
theorem collect (workers : Nat) (agree : s.Agree o.Stored (o.sources g)) (rest : List Entry) :
    ∀ {c : Crew} {r : Reader}, r.sources = some s → r.Matches o.Stored c.reader → c.ahead = none →
      r.readAll.1 = rest →
      ∃ c' r' ahead run, Relation.ReflTransGen (Step o workers) (c, g) (c', g) ∧
        c'.last = c.last ∧ c'.seen = c.seen ∧ c'.flying = c.flying ∧
        c'.current = c.current.map (fun group => ⟨group.file, group.entries ++ run⟩) ∧
        c'.Poised o s r' ahead ∧
        known (ahead.toList ++ r'.readAll.1) = (known rest).dropWhile (·.file == c.last) ∧
        List.Forall₂ (Entry.Matches o.Stored s) ((known rest).takeWhile (·.file == c.last)) run := by
  induction rest with
  | nil =>
      intro c r own same free all
      refine ⟨c, r, none, [], .refl, rfl, rfl, rfl, by simp, ?_, by simp [all, known], ?_⟩
      · exact ⟨own, same, by rw [free]; exact .none, by simp, fun _ => all⟩
      · simp [known]
  | cons e₀ rest ih =>
      intro c r own same free all
      obtain ⟨r', call, later⟩ := Reader.next_of_readAll all
      obtain ⟨entries, readers⟩ := Reader.next_matches agree (same.lookingIn _) own rfl
      have own' := r.sources_next.trans own
      rw [call] at entries readers own'
      cases delivered : o.deliver g c.reader with
      | mk first q =>
          rw [deliver] at delivered
          rw [delivered] at entries readers
          cases entries with
          | some matched =>
              rename_i e
              have fetched : Step o workers (c, g) ({ c with reader := q, ahead := some e }, g) :=
                .fetch free delivered
              by_cases unknown : e₀.kind = .unknown
              · obtain ⟨c', r', ahead, run, steps, facts⟩ :=
                  ih (c := { c with reader := q, ahead := none }) own' readers rfl later
                refine ⟨c', r', ahead, run, .head fetched (.head (.pass rfl ?_) steps), ?_⟩
                · rw [matched.kind, unknown]
                · rw [known_cons_of_unknown unknown]
                  exact facts
              · rw [known_cons_of_known unknown]
                by_cases same : e₀.file = c.last
                · obtain ⟨c', r', ahead, run, steps, last, seen, flying, current, poised, rest, all⟩ :=
                    ih (c := { c with
                      reader := q, ahead := none, current := c.current.map (·.add e) })
                      own' readers rfl later
                  have own : (e₀.file == c.last) = true := by simpa using same
                  simp only [List.dropWhile_cons, List.takeWhile_cons, own, if_true]
                  refine ⟨c', r', ahead, e :: run, .head fetched (.head (.join rfl ?_ ?_) steps), last,
                    seen, flying, ?_, poised, rest, .cons matched all⟩
                  · rw [matched.kind]
                    exact unknown
                  · exact matched.file.trans same
                  · rw [current, Option.map_map]
                    congr 1
                    funext group
                    simp [Group.add]
                · have other : (e₀.file == c.last) = false := by simpa using same
                  simp only [List.dropWhile_cons, List.takeWhile_cons, other, Bool.false_eq_true, if_false]
                  refine ⟨_, r', some e₀, [], .single fetched, rfl, rfl, rfl, by simp,
                    ⟨own', readers, .some matched, ?_, by simp⟩, ?_, .nil⟩
                  · intro e' isFirst
                    cases isFirst
                    exact ⟨unknown, same⟩
                  · rw [later]
                    exact known_cons_of_known unknown rest

/-! ## One group after another -/

theorem Crew.Poised.turnsOrEnds {c : Crew} {r : Reader} {ahead : Option Entry}
    (poised : c.Poised o s r ahead) (agree : s.Agree o.Stored (o.sources g)) :
    (∃ e, c.Turns e) ∨ c.Ends o g := by
  have entry := poised.entry
  cases there : c.ahead with
  | some e =>
      rw [there] at entry
      cases entry with
      | some matched =>
          obtain ⟨isKnown, other⟩ := poised.turns _ rfl
          exact .inl ⟨e, there, matched.kind ▸ isKnown, matched.file ▸ other⟩
  | none =>
      rw [there] at entry
      cases entry
      obtain ⟨entries, -⟩ := Reader.next_matches agree (poised.reader.lookingIn _) poised.sources rfl
      rw [Reader.next_of_readAll_nil (poised.ended rfl)] at entries
      refine .inr ⟨there, ?_⟩
      rw [deliver]
      cases delivered : (c.reader.lookingIn (o.sources g)).next.1 with
      | none => rfl
      | some e =>
          rw [delivered] at entries
          cases entries

/-- Whether a group is begun depends on the contents that were met. -/
theorem begins_congr {seen seen' : List Bytes} {file : Bytes}
    (same : ∀ file, file ≠ [] → (file ∈ seen ↔ file ∈ seen')) :
    o.Begins seen g file ↔ o.Begins seen' g file := by
  by_cases empty : file = []
  · have invalid : ¬ObjectId.isValid (base file) = true := by
      rw [empty]
      decide
    exact ⟨fun begins => absurd begins.1 invalid, fun begins => absurd begins.1 invalid⟩
  · rw [Begins, Begins, same file empty]

theorem steps_of_start (workers : Nat) {c : Crew} {e : Entry} {seen : List Bytes} {begun : Option Bytes}
    (turns : c.Turns e) (free : c.current = none)
    (same : ∀ file, file ≠ [] → (file ∈ seen ↔ file ∈ c.seen))
    (started : (o.start seen e.file).on g = (.ok begun, k)) :
    Relation.ReflTransGen (Step o workers) (c, g)
      ({ c with
          ahead := none, last := e.file, seen := e.file :: c.seen,
          current := begun.map fun _ => ⟨e.file, [e]⟩ }, k) := by
  have own := (start_yields o seen e.file g).holds
  have crew := (start_yields o c.seen e.file g).holds
  rw [started] at own
  cases started' : (o.start c.seen e.file).on g with
  | mk outcome m =>
      rw [started'] at crew
      cases outcome with
      | error f => exact crew.elim
      | ok begun' =>
          obtain ⟨quiet, own⟩ := own
          obtain ⟨quiet', crew⟩ := crew
          have agree : begun' = begun := by
            rcases own with ⟨rfl, begins⟩ | ⟨rfl, notBegun⟩
            · rcases crew with ⟨rfl, -⟩ | ⟨-, notBegun⟩
              · rfl
              · exact absurd ((begins_congr same).mp begins) notBegun
            · rcases crew with ⟨-, begins⟩ | ⟨rfl, -⟩
              · exact absurd ((begins_congr same).mpr begins) notBegun
              · rfl
          subst agree
          exact .head (.start turns free started') (.single (.other (quiet'.beside quiet)))

theorem steps_of_write {c : Crew} {group : Group} {m n : Host} (one : 0 < workers)
    (isCurrent : c.current = some group) (idle : c.flying = [])
    (complete : (∃ e, c.Turns e) ∨ c.Ends o g) (before : Quiet g m)
    (written : (o.writeTagFile group.id group.entries).on m = (.ok (), n)) (after : Quiet n k) :
    Relation.ReflTransGen (Step o workers) (c, g) ({ c with current := none }, k) := by
  have handed : Step o workers (c, g) ({ c with current := none, flying := group :: c.flying }, g) :=
    .handOver isCurrent complete (by simpa [idle] using one)
  have finished : Step o workers ({ c with current := none, flying := group :: c.flying }, m)
      ({ c with current := none, flying := (group :: c.flying).erase group }, n) :=
    .finish List.mem_cons_self written
  rw [List.erase_cons_head] at finished
  exact .head handed (.head (.other before) (.head finished (.single (.other after))))

/-- Entries of one content are the same however they were read. -/
theorem eq_of_forall₂ (agree : s.Agree o.Stored (o.sources h)) {id : Bytes}
    (valid : ObjectId.isValid id = true) {entries : List Entry} :
    ∀ {run : List Entry}, (∀ e ∈ entries, e.file = Layout.objectRef id) →
      List.Forall₂ (Entry.Matches o.Stored s) entries run → run = entries := by
  induction entries with
  | nil =>
      intro run _ matched
      cases matched
      rfl
  | cons e₀ entries ih =>
      intro run names matched
      cases matched with
      | cons first rest =>
          have own := first.file.trans (names e₀ List.mem_cons_self)
          rw [Fits.eq_of_matches agree first valid own,
            ih (fun e member => names e (List.mem_cons_of_mem _ member)) rest]

/-- The entry at hand is the first of the groups that are left. -/
theorem Crew.Poised.first {c : Crew} {r : Reader} {ahead : Option Entry} {e₀ : Entry}
    {rest : List Entry} (poised : c.Poised o s r ahead)
    (whole : e₀ :: rest = known (ahead.toList ++ r.readAll.1)) :
    ∃ e, Entry.Matches o.Stored s e₀ e ∧ c.Turns e ∧ known r.readAll.1 = rest := by
  cases ahead with
  | none =>
      rw [poised.ended rfl] at whole
      cases whole
  | some a =>
      obtain ⟨isKnown, other⟩ := poised.turns a rfl
      rw [Option.toList_some, List.singleton_append, known_cons_of_known isKnown] at whole
      obtain ⟨rfl, rfl⟩ := List.cons.inj whole
      have entry := poised.entry
      cases there : c.ahead with
      | none =>
          rw [there] at entry
          cases entry
      | some e =>
          rw [there] at entry
          cases entry with
          | some matched =>
              exact ⟨e, matched, ⟨there, matched.kind ▸ isKnown, matched.file ▸ other⟩, rfl⟩

/-- A crew that has come to the first of some groups, with no worker busy. -/
structure Crew.Awaits (o : Organizer) (s : Sources) (seen : List Bytes) (gs : List Group) (c : Crew)
    (r : Reader) (ahead : Option Entry) : Prop extends c.Poised o s r ahead where
  parts : Partition gs (known (ahead.toList ++ r.readAll.1))
  faithful : Faithful (ahead.toList ++ r.readAll.1)
  idle : c.flying = []
  met : ∀ file, file ≠ [] → (file ∈ seen ↔ file ∈ c.seen)

/-- A group is begun and collected up to its end. -/
theorem steps_of_group (workers : Nat) (sound : h.Sound) (agree : s.Agree o.Stored (o.sources h))
    {seen : List Bytes} {group : Group} {gs : List Group} {c : Crew} {r : Reader}
    {ahead : Option Entry} {begun : Option Bytes} (wrote : o.Wrote h made g)
    (awaits : c.Awaits o s seen (group :: gs) r ahead) (free : c.current = none)
    (started : (o.start seen group.file).on g = (.ok begun, k)) :
    ∃ c' r' ahead', Relation.ReflTransGen (Step o workers) (c, g) (c', k) ∧
      c'.Awaits o s (group.file :: seen) gs r' ahead' ∧ c'.current = begun.map fun _ => group := by
  obtain ⟨e₀, es, isEntries⟩ :=
    List.exists_cons_of_ne_nil (awaits.parts.nonempty group List.mem_cons_self)
  have own : ∀ e ∈ e₀ :: es, e.file = group.file :=
    isEntries ▸ awaits.parts.own group List.mem_cons_self
  have whole := awaits.parts.whole
  rw [List.flatMap_cons, isEntries, List.cons_append] at whole
  obtain ⟨e, matched, turns, left⟩ := awaits.first whole
  have isFile : e.file = group.file := matched.file.trans (own e₀ List.mem_cons_self)
  have begins := (start_yields o seen group.file g).holds
  rw [started] at begins
  obtain ⟨quiet, begins⟩ := begins
  obtain ⟨c', r', ahead', run, collected, -, seen', flying, current, poised, rest, all⟩ :=
    collect workers (agree.trans ((wrote.quiet quiet).agree sound)) r.readAll.1
      (c := { c with
        ahead := none, last := e.file, seen := e.file :: c.seen,
        current := begun.map fun _ => ⟨e.file, [e]⟩ }) awaits.sources awaits.reader rfl rfl
  have ownRun : ∀ e' ∈ es, e'.file = e.file := fun e' member =>
    (own e' (List.mem_cons_of_mem _ member)).trans isFile.symm
  obtain ⟨taken, dropped⟩ := run_append ownRun (isFile ▸ awaits.parts.turns)
  rw [left, dropped] at rest
  rw [left, taken] at all
  refine ⟨c', r', ahead', ?_, ⟨poised, rest ▸ awaits.parts.tail, ?_, flying.trans awaits.idle, ?_⟩, ?_⟩
  · exact (steps_of_start workers turns free awaits.met (isFile ▸ started)).trans collected
  · intro e' member
    rw [rest] at member
    refine awaits.faithful e' ?_
    rw [← whole]
    exact List.mem_cons_of_mem _ (List.mem_append_right _ member)
  · intro file nonempty
    rw [seen', List.mem_cons, List.mem_cons, awaits.met file nonempty, isFile]
  · rcases begins with ⟨rfl, valid, -, -⟩ | ⟨rfl, -⟩
    · -- the entries name a content, so they are those of the table
      have names : group.file = Layout.objectRef group.id := by
        have named := awaits.faithful e₀ (whole ▸ List.mem_cons_self)
        rw [own e₀ List.mem_cons_self] at named
        exact named valid
      obtain rfl := Fits.eq_of_matches agree matched valid (isFile.trans names)
      obtain rfl := eq_of_forall₂ agree valid
        (fun e' member => (own e' (List.mem_cons_of_mem _ member)).trans names) all
      rw [current, isFile]
      simp [← isEntries]
    · exact current

/-- A crew whose worker is done with each group before the next one is begun writes the groups of
the table in order. -/
theorem steps_of_writeGroups (sound : h.Sound) (agree : s.Agree o.Stored (o.sources h))
    (one : 0 < workers) (gs : List Group) :
    ∀ {seen : List Bytes} {made : List (Bytes × Bytes)} {g k : Host} {c : Crew} {r : Reader}
      {ahead : Option Entry}, o.Wrote h made g → c.Awaits o s seen gs r ahead → c.current = none →
      (o.writeGroups seen gs).on g = (.ok true, k) →
      ∃ c' : Crew, Relation.ReflTransGen (Step o workers) (c, g) (c', k) ∧ c'.Ends o k ∧
        c'.current = none ∧ c'.flying = [] := by
  induction gs with
  | nil =>
      intro seen made g k c r ahead wrote awaits free written
      cases written
      rcases awaits.turnsOrEnds (agree.trans (wrote.agree sound)) with ⟨e, here, isKnown, -⟩ | ends
      · have entry := awaits.entry
        rw [here] at entry
        cases entry with
        | some matched =>
            have none := awaits.parts.whole
            rw [Option.toList_some, List.singleton_append,
              known_cons_of_known (matched.kind ▸ isKnown)] at none
            cases none
      · exact ⟨c, .refl, ends, free, awaits.idle⟩
  | cons group gs ih =>
      intro seen made g k c r ahead wrote awaits free written
      rw [writeGroups] at written
      obtain ⟨begun, g₁, started, written⟩ := on_bind_ok written
      obtain ⟨c', r', ahead', steps, awaits', current⟩ :=
        steps_of_group workers sound agree wrote awaits free started
      have begins := (start_yields o seen group.file g).holds
      rw [started] at begins
      obtain ⟨quiet, begins⟩ := begins
      have wrote' : o.Wrote h made g₁ := wrote.quiet quiet
      rcases begins with ⟨rfl, begins⟩ | ⟨rfl, -⟩
      · have valid : ObjectId.isValid group.id = true := begins.1
        obtain ⟨lacks, notMade⟩ := (wrote.lacks_iff sound valid).mp begins.2.2
        obtain ⟨_, g₂, checked, written⟩ := on_bind_ok written
        obtain ⟨_, g₃, filed, written⟩ := on_bind_ok written
        obtain ⟨_, g₄, advanced, written⟩ := on_bind_ok written
        have quiet := checkpoint_quiet.after checked
        have quiet' := advanceStage_quiet.after advanced
        have filed' := (writeTagFile_yields sound (wrote'.quiet quiet) valid lacks notMade).holds
        rw [Group.id, filed] at filed'
        obtain ⟨text, -, wrote''⟩ := filed'
        have written' := steps_of_write one current awaits'.idle
          (awaits'.turnsOrEnds (agree.trans (wrote'.agree sound))) quiet filed quiet'
        have awaits'' : Crew.Awaits o s (group.file :: seen) gs { c' with current := none } r' ahead' :=
          { awaits' with }
        obtain ⟨c'', rest, ended⟩ := ih (wrote''.quiet quiet') awaits'' rfl written
        exact ⟨c'', (steps.trans written').trans rest, ended⟩
      · obtain ⟨outcome, g₂, checked, written⟩ := on_bind_ok written
        have quiet : Quiet g₁ g₂ := checkpoint_quiet.attempt.after checked
        cases outcome with
        | error f => cases written
        | ok _ =>
            obtain ⟨c'', rest, ended⟩ := ih (wrote'.quiet quiet) awaits' current written
            exact ⟨c'', steps.trans (.head (.other quiet) rest), ended⟩

/-- A crew comes to the first group that names a file: entries at the start of a table that name
none are passed over. -/
theorem steps_to_first (workers : Nat) (agree : s.Agree o.Stored (o.sources g)) {table : Input}
    (faithful : Faithful ((Reader.ofInput table (some s)).readAll).1) (front : List Entry)
    (gs : List Group) (seen : List Bytes) (parts : Partition gs (gs.flatMap Group.entries))
    (split : known ((Reader.ofInput table (some s)).readAll).1 = front ++ gs.flatMap Group.entries)
    (nameless : ∀ e ∈ front, e.file = []) (named : ∀ e ∈ (gs.flatMap Group.entries).head?, e.file ≠ [])
    (unmet : ∀ file ∈ seen, file = []) :
    ∃ c r ahead, Relation.ReflTransGen (Step o workers) ({ reader := .ofInput table none }, g) (c, g) ∧
      c.Awaits o s seen gs r ahead ∧ c.current = none := by
  obtain ⟨c, r, ahead, run, steps, -, seen', flying, current, poised, rest, -⟩ :=
    collect workers agree _ (c := { reader := .ofInput table none }) rfl
      (matches_start o.Stored table s) rfl rfl
  rw [split, (run_append nameless named).2] at rest
  refine ⟨c, r, ahead, steps, ⟨poised, rest ▸ parts, ?_, flying, ?_⟩, current⟩
  · intro e member
    rw [rest] at member
    exact faithful e (split ▸ List.mem_append_right _ member)
  · intro file nonempty
    rw [seen']
    exact ⟨fun met => absurd (unmet file met) nonempty, fun met => by cases met⟩

/-- Groups that name no file are passed over. -/
theorem on_writeGroups_nameless {seen : List Bytes} {group : Group} {rest : List Group}
    (nameless : group.file = []) (written : (o.writeGroups seen (group :: rest)).on g = (.ok true, k)) :
    ∃ m, Quiet g m ∧ (o.writeGroups (group.file :: seen) rest).on m = (.ok true, k) := by
  rw [writeGroups] at written
  obtain ⟨begun, g₁, started, written⟩ := on_bind_ok written
  have begins := (start_yields o seen group.file g).holds
  rw [started] at begins
  obtain ⟨quiet, ⟨-, valid, -⟩ | ⟨rfl, -⟩⟩ := begins
  · rw [nameless] at valid
    exact absurd valid (by decide)
  · obtain ⟨outcome, g₂, checked, written⟩ := on_bind_ok written
    have quiet' : Quiet g₁ g₂ := checkpoint_quiet.attempt.after checked
    cases outcome with
    | error f => cases written
    | ok _ => exact ⟨g₂, quiet_lasting.trans quiet quiet', written⟩

theorem steps_of_groups (sound : h.Sound) (one : 0 < workers) {table : Input} {gs : List Group}
    (faithful : Faithful (o.reading h table).1) (parts : Partition gs (known (o.reading h table).1))
    (wrote : o.Wrote h [] g) (written : (o.writeGroups [] gs).on g = (.ok true, k)) :
    ∃ c : Crew, Relation.ReflTransGen (Step o workers) ({ reader := .ofInput table none }, g) (c, k) ∧
      c.Ends o k ∧ c.current = none ∧ c.flying = [] := by
  have same : (o.sources h).Agree o.Stored (o.sources h) := ⟨rfl, fun _ _ => rfl⟩
  have agree := wrote.agree sound
  by_cases nameless : ∃ group, gs.head? = some group ∧ group.file = []
  · obtain ⟨group, isFirst, nameless⟩ := nameless
    obtain ⟨rest, rfl⟩ := List.head?_eq_some_iff.mp isFirst
    obtain ⟨m, quiet, written⟩ := on_writeGroups_nameless nameless written
    obtain ⟨c, r, ahead, steps, awaits, free⟩ := steps_to_first workers agree faithful group.entries
      rest [group.file] parts.tail parts.whole.symm (nameless ▸ parts.own group List.mem_cons_self)
      (nameless ▸ parts.turns) (by simpa using nameless)
    obtain ⟨c', more, ended⟩ :=
      steps_of_writeGroups sound same one _ (wrote.quiet quiet) awaits free written
    exact ⟨c', steps.trans (.head (.other quiet) more), ended⟩
  · have whole := parts.whole
    rw [← whole] at parts
    have named : ∀ e ∈ (gs.flatMap Group.entries).head?, e.file ≠ [] := by
      intro e isFirst empty
      obtain ⟨group, isHead, isFile⟩ := parts.head isFirst
      exact nameless ⟨group, isHead, isFile ▸ empty⟩
    obtain ⟨c, r, ahead, steps, awaits, free⟩ := steps_to_first workers agree faithful [] gs [] parts
      whole.symm (by simp) named (by simp)
    obtain ⟨c', more, ended⟩ := steps_of_writeGroups sound same one _ wrote awaits free written
    exact ⟨c', steps.trans more, ended⟩

theorem sources_of_sameFiles (same : SameFiles g k) : o.sources k = o.sources g := by
  simp only [sources, look_of_sameFiles same]

/-- Splitting a table is one way for some workers to share it. -/
theorem shares_of_splitTable (sound : h.Sound) (one : 0 < workers) {table : Input} {complete : Bool}
    (faithful : Faithful (o.reading h table).1)
    (done : (o.splitTable table).on h = (.ok complete, g)) :
    (∃ reader, o.Shares workers table h g reader) ∧
      complete = ((o.reading h table).2.badLine == 0) ∧ (o.reading h table).2.fault = none := by
  have split : (o.splitTable table).Yields h (fun complete g => True ∧
      (∃ k, (o.writeGroups [] (groups (o.reading h table).1)).on (begun h) = (.ok true, k) ∧
        Quiet k g) ∧ complete = ((o.reading h table).2.badLine == 0) ∧
      (o.reading h table).2.fault = none) fun _ => True := by
    refine splitTable_of_groups ((yields_on _ _).mono (fun finished k ended => ⟨trivial, ?_⟩)
      fun _ _ => trivial) ?_ fun _ _ => trivial
    · rintro rfl
      exact ⟨k, ended, quiet_lasting.refl k⟩
    · rintro k m ⟨k', written, same⟩ more
      exact ⟨k', written, quiet_lasting.trans same more⟩
  have ended := split.holds
  rw [done] at ended
  obtain ⟨-, ⟨k, written, after⟩, rest⟩ := ended
  have begins : Quiet h (begun h) := startStage_quiet _ _ h
  obtain ⟨c, steps, ends, free, idle⟩ := steps_of_groups sound one faithful (partition_groups _)
    ((Wrote.refl o sound).quiet begins) written
  have ends' : c.Ends o g := by
    rw [Crew.Ends, deliver, sources_of_sameFiles after.toSameFiles]
    exact ends
  exact ⟨⟨_, c, .head (.other begins) (steps.trans (.single (.other after))), ends', free, idle, rfl⟩,
    rest⟩

end

end Organizer

end SymbolHistory
