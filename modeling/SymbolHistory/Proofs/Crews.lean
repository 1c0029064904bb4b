/-
# Proofs.Crews -- splitting a table with several workers

A table can be split while it is read: one party reads entries and collects those
that stand together, and hands each group to a worker when the next one begins.
Workers write symbol files in any order, and the reader goes on meanwhile.  `Step`
is one step of one of them, in any interleaving.

What a step keeps is `Fits`: every content that was begun is owned exactly once,
by the group being collected, by a worker or by a symbol file, and what it is
owned with is the first run of its entries in the table.  None of it depends on
when a worker is done.  So every way to come to the end (`Shares`) leaves the same
symbol files (`made_of_shares`).
-/
import Mathlib.Data.List.Nodup
import Mathlib.Logic.Relation
import SymbolHistory.Proofs.Rereading

set_option autoImplicit false

namespace SymbolHistory

open SymbolHistory.Path FileTree Run Host

namespace Organizer

open TagTable (Entry Reader Sources)

/-! ## First runs -/

def known (entries : List Entry) : List Entry := entries.filter fun e => e.kind != .unknown

theorem known_append (xs ys : List Entry) : known (xs ++ ys) = known xs ++ known ys :=
  List.filter_append xs ys

theorem known_nil : known [] = [] := rfl

theorem known_cons_of_unknown {e : Entry} (unknown : e.kind = .unknown) (rest : List Entry) :
    known (e :: rest) = known rest := by
  simp [known, unknown]

theorem known_cons_of_known {e : Entry} (isKnown : e.kind ≠ .unknown) (rest : List Entry) :
    known (e :: rest) = e :: known rest := by
  simp [known, isKnown]

/-- A table names contents by the paths that were given out for them. -/
def Faithful (entries : List Entry) : Prop :=
  ∀ e ∈ known entries, ObjectId.isValid (base e.file) = true →
    e.file = Layout.objectRef (base e.file)

instance (entries : List Entry) : Decidable (Faithful entries) :=
  inferInstanceAs (Decidable (∀ e ∈ known entries, _ → _))

/-- The first entries of a file that stand together. -/
def firstRun (file : Bytes) (entries : List Entry) : List Entry :=
  (entries.dropWhile (·.file != file)).takeWhile (·.file == file)

/-- A run ends where another file begins. -/
theorem run_append {file : Bytes} {run rest : List Entry} (own : ∀ e ∈ run, e.file = file)
    (ended : ∀ e ∈ rest.head?, e.file ≠ file) :
    (run ++ rest).takeWhile (·.file == file) = run ∧
      (run ++ rest).dropWhile (·.file == file) = rest := by
  have all : ∀ e ∈ run, (e.file == file) = true := by simpa using own
  rw [List.takeWhile_append_of_pos all, List.dropWhile_append_of_pos all]
  cases rest with
  | nil => simp
  | cons e rest =>
      have other : (e.file == file) = false := by simpa using ended e rfl
      simp [other]

theorem firstRun_eq {file : Bytes} {front run rest : List Entry} (others : ∀ e ∈ front, e.file ≠ file)
    (own : ∀ e ∈ run, e.file = file) (nonempty : run ≠ [])
    (ended : ∀ e ∈ rest.head?, e.file ≠ file) : firstRun file (front ++ run ++ rest) = run := by
  obtain ⟨e, run, rfl⟩ := List.exists_cons_of_ne_nil nonempty
  have isOwn : (e.file != file) = false := by simpa using own e List.mem_cons_self
  rw [firstRun, List.append_assoc, List.dropWhile_append_of_pos (by simpa using others),
    List.cons_append, List.dropWhile_cons_of_neg (by simp [isOwn]), ← List.cons_append,
    (run_append own ended).1]

theorem firstRun_eq_nil {file : Bytes} {entries : List Entry} (none : ∀ e ∈ entries, e.file ≠ file) :
    firstRun file entries = [] := by
  rw [firstRun, List.dropWhile_eq_nil_iff.mpr (by simpa using none), List.takeWhile_nil]

/-- One more entry of a group. -/
def Group.add (group : Group) (e : Entry) : Group := ⟨group.file, group.entries ++ [e]⟩

/-- A group is being collected: its entries are the last ones, and the first of their file. -/
structure Group.Opens (group : Group) (entries : List Entry) : Prop where
  nonempty : group.entries ≠ []
  own : ∀ e ∈ group.entries, e.file = group.file
  ends : ∃ front, entries = front ++ group.entries ∧ ∀ e ∈ front, e.file ≠ group.file

/-- A group holds the first run of its file. -/
structure Group.Complete (group : Group) (entries : List Entry) : Prop where
  nonempty : group.entries ≠ []
  run : group.entries = firstRun group.file entries

namespace Group.Opens

variable {group : Group} {entries : List Entry}

theorem single {e : Entry} (others : ∀ e' ∈ entries, e'.file ≠ e.file) :
    Group.Opens ⟨e.file, [e]⟩ (entries ++ [e]) :=
  ⟨by simp, by simp, entries, rfl, others⟩

theorem add (opens : group.Opens entries) {e : Entry} (same : e.file = group.file) :
    (group.add e).Opens (entries ++ [e]) := by
  obtain ⟨front, rfl, others⟩ := opens.ends
  refine ⟨by simp [Group.add], fun e' member => ?_, front, ?_, others⟩
  · rcases List.mem_append.mp member with before | isNew
    · exact opens.own e' before
    · rw [List.mem_singleton.mp isNew]
      exact same
  · rw [Group.add, List.append_assoc]

theorem complete (opens : group.Opens entries) {rest : List Entry}
    (ended : ∀ e ∈ rest.head?, e.file ≠ group.file) : group.Complete (entries ++ rest) := by
  obtain ⟨front, rfl, others⟩ := opens.ends
  exact ⟨opens.nonempty, (firstRun_eq others opens.own opens.nonempty ended).symm⟩

end Group.Opens

/-! ## Steps -/

/-- Splitting between two steps. -/
structure Crew where
  /-- What is left of the table. -/
  reader : Reader
  /-- The entry that was delivered last, until it is dealt with. -/
  ahead : Option Entry := none
  /-- The file of the entry before that. -/
  last : Bytes := []
  /-- The files that groups were begun for. -/
  seen : List Bytes := []
  /-- The group being collected. -/
  current : Option Group := none
  /-- The groups that workers have. -/
  flying : List Group := []

/-- What the reader delivers on a host. -/
def deliver (o : Organizer) (g : Host) (r : Reader) : Option Entry × Reader :=
  (r.lookingIn (o.sources g)).next

/-- The entry at hand begins another group. -/
def Crew.Turns (c : Crew) (e : Entry) : Prop :=
  c.ahead = some e ∧ e.kind ≠ .unknown ∧ e.file ≠ c.last

/-- Nothing is left to read. -/
def Crew.Ends (o : Organizer) (c : Crew) (g : Host) : Prop :=
  c.ahead = none ∧ (o.deliver g c.reader).1 = none

/-- One step of the reader or of one of the workers. -/
inductive Step (o : Organizer) (workers : Nat) : Crew × Host → Crew × Host → Prop
  /-- The next entry is read, and looked up in the files as they are. -/
  | fetch {c : Crew} {g : Host} {e : Entry} {r : Reader} (free : c.ahead = none)
      (delivered : o.deliver g c.reader = (some e, r)) :
      Step o workers (c, g) ({ c with reader := r, ahead := some e }, g)
  /-- An entry of an unknown kind is passed over. -/
  | pass {c : Crew} {g : Host} {e : Entry} (here : c.ahead = some e) (unknown : e.kind = .unknown) :
      Step o workers (c, g) ({ c with ahead := none }, g)
  /-- An entry of the same file as the one before joins the group, if one is being collected. -/
  | join {c : Crew} {g : Host} {e : Entry} (here : c.ahead = some e) (isKnown : e.kind ≠ .unknown)
      (same : e.file = c.last) :
      Step o workers (c, g) ({ c with ahead := none, current := c.current.map (·.add e) }, g)
  /-- A group that is complete goes to a worker that has none. -/
  | handOver {c : Crew} {g : Host} {group : Group} (isCurrent : c.current = some group)
      (complete : (∃ e, c.Turns e) ∨ c.Ends o g) (free : c.flying.length < workers) :
      Step o workers (c, g) ({ c with current := none, flying := group :: c.flying }, g)
  /-- A group is begun, or not: its content may have a symbol file by now. -/
  | start {c : Crew} {g k : Host} {e : Entry} {begun : Option Bytes} (turns : c.Turns e)
      (free : c.current = none) (started : (o.start c.seen e.file).on g = (.ok begun, k)) :
      Step o workers (c, g)
        ({ c with
            ahead := none, last := e.file, seen := e.file :: c.seen,
            current := begun.map fun _ => ⟨e.file, [e]⟩ }, k)
  /-- A worker writes the symbol file of its group. -/
  | finish {c : Crew} {g k : Host} {group : Group} (member : group ∈ c.flying)
      (written : (o.writeTagFile group.id group.entries).on g = (.ok (), k)) :
      Step o workers (c, g) ({ c with flying := c.flying.erase group }, k)
  /-- Somebody reports or counts. -/
  | other {c : Crew} {g k : Host} (same : Quiet g k) : Step o workers (c, g) (c, k)

/-- Some workers have split a table, starting on `h`; the reader at its end. -/
def Shares (o : Organizer) (workers : Nat) (table : Input) (h g : Host) (reader : Reader) : Prop :=
  ∃ c : Crew, Relation.ReflTransGen (Step o workers) ({ reader := .ofInput table none }, h) (c, g) ∧
    c.Ends o g ∧ c.current = none ∧ c.flying = [] ∧ (o.deliver g c.reader).2 = reader

/-! ## What a step keeps -/

def Crew.groups (c : Crew) : List Group := c.flying ++ c.current.toList

/-- The contents that have a symbol file or are getting one. -/
def Crew.owned (c : Crew) (made : List (Bytes × Bytes)) : List Bytes :=
  made.map Prod.fst ++ c.groups.map Group.id

/-- What is read of the table `whole` after `past`, by a reader that looks in `s`. -/
def Crew.Follows (o : Organizer) (s : Sources) (whole : List Entry × Reader) (past : List Entry)
    (c : Crew) : Prop :=
  ∃ (r : Reader) (ahead : Option Entry), r.sources = some s ∧ r.Matches o.Stored c.reader ∧
    Option.Rel (Entry.Matches o.Stored s) ahead c.ahead ∧
    whole = (past ++ ahead.toList ++ r.readAll.1, r.readAll.2)

/-- What splitting that began on `h` has come to on `g`, when the entries `past` of the table
`whole` are dealt with and the symbol files `made` are written. -/
structure Fits (o : Organizer) (h : Host) (s : Sources) (whole : List Entry × Reader)
    (past : List Entry) (made : List (Bytes × Bytes)) (c : Crew) (g : Host) : Prop where
  wrote : o.Wrote h made g
  follows : c.Follows o s whole past
  /-- The file of the last entry. -/
  last : c.last = ((known past).getLast?.map Entry.file).getD []
  /-- The group being collected ends with that entry. -/
  opens : ∀ group ∈ c.current, group.file = c.last ∧ group.Opens (known past)
  /-- Workers have whole groups. -/
  complete : ∀ group ∈ c.flying, group.Complete (known whole.1)
  /-- Symbol files come from whole groups. -/
  stems : ∀ e ∈ made, ∃ group : Group, group.file = Layout.objectRef e.1 ∧ group.id = e.1 ∧
    group.Complete (known whole.1) ∧ o.textOf? h group = some e.2
  /-- Groups name contents as they were given out. -/
  named : ∀ group ∈ c.groups, group.file = Layout.objectRef group.id
  /-- A content is owned once. -/
  nodup : (c.owned made).Nodup
  /-- Contents that are owned had no symbol file. -/
  owner : ∀ id ∈ c.owned made, ObjectId.isValid id = true ∧ o.Lacks h id ∧
    Layout.objectRef id ∈ c.seen
  /-- A content that was met and had no symbol file is owned. -/
  settled : ∀ file ∈ c.seen, ObjectId.isValid (base file) = true → o.Lacks h (base file) →
    base file ∈ c.owned made
  /-- Every file that was met is remembered. -/
  seen : ∀ e ∈ known past, e.file ∈ c.seen ∨ e.file = []

section

variable {o : Organizer} {h g k : Host} {s : Sources} {whole : List Entry × Reader}
  {past : List Entry} {made : List (Bytes × Bytes)} {c : Crew}

/-- What is delivered now matches what is delivered where nothing has changed. -/
theorem deliver_matches (sound : h.Sound) (agree : s.Agree o.Stored (o.sources h))
    (wrote : o.Wrote h made g) {r q : Reader} (own : r.sources = some s)
    (same : r.Matches o.Stored q) :
    Option.Rel (Entry.Matches o.Stored s) r.next.1 (o.deliver g q).1 ∧
      r.next.2.Matches o.Stored (o.deliver g q).2 :=
  Reader.next_matches (agree.trans (wrote.agree sound)) (same.lookingIn _) own rfl

namespace Crew.Follows

/-- The entry at hand is the next one of the table. -/
theorem take (follows : c.Follows o s whole past) {e : Entry} (here : c.ahead = some e) :
    ∃ e₀ rest, Entry.Matches o.Stored s e₀ e ∧ whole.1 = past ++ e₀ :: rest ∧
      ∀ c' : Crew, c'.reader = c.reader → c'.ahead = none → c'.Follows o s whole (past ++ [e₀]) := by
  obtain ⟨r, ahead, own, same, isAhead, rfl⟩ := follows
  rw [here] at isAhead
  cases isAhead with
  | some matched =>
      rename_i e₀
      refine ⟨e₀, r.readAll.1, matched, by simp, fun c' sameReader free => ?_⟩
      refine ⟨r, none, own, sameReader ▸ same, ?_, by simp⟩
      rw [free]
      exact .none

/-- At the end the whole table has been dealt with. -/
theorem ended (sound : h.Sound) (agree : s.Agree o.Stored (o.sources h)) (wrote : o.Wrote h made g)
    (follows : c.Follows o s whole past) (ends : c.Ends o g) :
    whole.1 = past ∧ whole.2.Matches o.Stored (o.deliver g c.reader).2 := by
  obtain ⟨r, ahead, own, same, isAhead, rfl⟩ := follows
  rw [ends.1] at isAhead
  obtain ⟨delivered, after⟩ := deliver_matches sound agree wrote own same
  rw [ends.2] at delivered
  cases isAhead
  cases call : r.next with
  | mk first r' =>
      rw [call] at delivered after
      cases delivered
      rw [Reader.readAll_of_none call]
      exact ⟨by simp, after⟩

end Crew.Follows

namespace Fits

theorem fetch (sound : h.Sound) (agree : s.Agree o.Stored (o.sources h))
    (fits : o.Fits h s whole past made c g) {e : Entry} {q : Reader} (free : c.ahead = none)
    (delivered : o.deliver g c.reader = (some e, q)) :
    o.Fits h s whole past made { c with reader := q, ahead := some e } g := by
  obtain ⟨r, ahead, own, same, isAhead, isWhole⟩ := fits.follows
  rw [free] at isAhead
  obtain ⟨entries, readers⟩ := deliver_matches sound agree fits.wrote own same
  rw [delivered] at entries readers
  have sources := r.sources_next
  cases isAhead
  cases call : r.next with
  | mk first r' =>
      rw [call] at entries readers sources
      cases entries with
      | some matched =>
          rw [Reader.readAll_of_some call] at isWhole
          refine { fits with follows := ⟨r', _, sources.trans own, readers, .some matched, ?_⟩ }
          rw [isWhole]
          simp

theorem pass (fits : o.Fits h s whole past made c g) {e : Entry} (here : c.ahead = some e)
    (unknown : e.kind = .unknown) :
    ∃ past, o.Fits h s whole past made { c with ahead := none } g := by
  obtain ⟨e₀, rest, matched, -, follows⟩ := fits.follows.take here
  have same : known (past ++ [e₀]) = known past := by
    rw [known_append, known_cons_of_unknown (matched.kind ▸ unknown), known_nil, List.append_nil]
  refine ⟨past ++ [e₀], { fits with follows := follows _ rfl rfl, last := ?_, opens := ?_, seen := ?_ }⟩
  · rw [same]
    exact fits.last
  · rw [same]
    exact fits.opens
  · rw [same]
    exact fits.seen

/-- The entry at hand is as it was where nothing has changed, if it names a content. -/
theorem eq_of_matches (agree : s.Agree o.Stored (o.sources h)) {e e₀ : Entry} {id : Bytes}
    (matched : Entry.Matches o.Stored s e₀ e) (valid : ObjectId.isValid id = true)
    (names : e.file = Layout.objectRef id) : e = e₀ := by
  refine matched.placed ⟨id, valid, ?_⟩
  rw [← matched.file, names, Sources.path, ← agree.base]
  rfl

theorem last_seen (fits : o.Fits h s whole past made c g) : c.last ∈ c.seen ∨ c.last = [] := by
  rw [fits.last]
  cases isLast : (known past).getLast? with
  | none => exact .inr rfl
  | some e => exact fits.seen e (List.mem_of_getLast? isLast)

theorem join (agree : s.Agree o.Stored (o.sources h)) (fits : o.Fits h s whole past made c g)
    {e : Entry} (here : c.ahead = some e) (isKnown : e.kind ≠ .unknown) (same : e.file = c.last) :
    ∃ past, o.Fits h s whole past made
      { c with ahead := none, current := c.current.map (·.add e) } g := by
  obtain ⟨e₀, rest, matched, -, follows⟩ := fits.follows.take here
  have more : known (past ++ [e₀]) = known past ++ [e₀] := by
    rw [known_append, known_cons_of_known (matched.kind ▸ isKnown), known_nil]
  -- the groups keep their files, and so their contents
  have files : ∀ group ∈ ({ c with ahead := none, current := c.current.map (·.add e) } : Crew).groups,
      ∃ old ∈ c.groups, group.file = old.file := by
    intro group member
    rcases List.mem_append.mp member with flies | isCurrent
    · exact ⟨group, List.mem_append_left _ flies, rfl⟩
    · obtain ⟨old, isOld, rfl⟩ := Option.map_eq_some_iff.mp (Option.mem_toList.mp isCurrent)
      exact ⟨old, List.mem_append_right _ (Option.mem_toList.mpr isOld), rfl⟩
  have owned : ({ c with ahead := none, current := c.current.map (·.add e) } : Crew).owned made =
      c.owned made := by
    cases current : c.current <;> simp [Crew.owned, Crew.groups, current, Group.add, Group.id]
  refine ⟨past ++ [e₀], { fits with
    follows := follows _ rfl rfl, last := ?_, opens := ?_, named := ?_, nodup := owned ▸ fits.nodup,
    owner := owned ▸ fits.owner, settled := owned ▸ fits.settled, seen := ?_ }⟩
  · rw [more, List.getLast?_concat]
    exact (matched.file ▸ same).symm
  · intro group isCurrent
    obtain ⟨old, isOld, rfl⟩ := Option.map_eq_some_iff.mp isCurrent
    obtain ⟨isLast, opens⟩ := fits.opens old isOld
    have inGroups : old ∈ c.groups := List.mem_append_right _ (Option.mem_toList.mpr isOld)
    have valid := (fits.owner old.id (List.mem_append_right _ (List.mem_map_of_mem inGroups))).1
    have names : e.file = Layout.objectRef old.id := by
      rw [same, ← isLast, fits.named old inGroups]
    obtain rfl := eq_of_matches agree matched valid names
    rw [more]
    exact ⟨isLast, opens.add (same.trans isLast.symm)⟩
  · intro group member
    obtain ⟨old, isOld, sameFile⟩ := files group member
    rw [Group.id, sameFile]
    exact fits.named old isOld
  · intro e' member
    rw [more] at member
    rcases List.mem_append.mp member with before | isNew
    · exact fits.seen e' before
    · rw [List.mem_singleton.mp isNew, ← matched.file, same]
      exact fits.last_seen

/-- A group is complete when the next one begins or nothing is left. -/
theorem completed (sound : h.Sound) (agree : s.Agree o.Stored (o.sources h))
    (fits : o.Fits h s whole past made c g) {group : Group} (isCurrent : c.current = some group)
    (complete : (∃ e, c.Turns e) ∨ c.Ends o g) : group.Complete (known whole.1) := by
  obtain ⟨isLast, opens⟩ := fits.opens group isCurrent
  rcases complete with ⟨e, here, isKnown, other⟩ | ends
  · obtain ⟨e₀, rest, matched, parts, -⟩ := fits.follows.take here
    have split : known whole.1 = known past ++ e₀ :: known rest := by
      rw [parts, known_append, known_cons_of_known (matched.kind ▸ isKnown)]
    rw [split]
    refine opens.complete fun e' isNext => ?_
    cases isNext
    rw [isLast, ← matched.file]
    exact other
  · obtain ⟨parts, -⟩ := fits.follows.ended sound agree fits.wrote ends
    rw [parts, ← List.append_nil (known past)]
    exact opens.complete (by simp)

theorem handOver (sound : h.Sound) (agree : s.Agree o.Stored (o.sources h))
    (fits : o.Fits h s whole past made c g) {group : Group} (isCurrent : c.current = some group)
    (complete : (∃ e, c.Turns e) ∨ c.Ends o g) :
    o.Fits h s whole past made { c with current := none, flying := group :: c.flying } g := by
  have sameGroups : ({ c with current := none, flying := group :: c.flying } : Crew).groups.Perm
      c.groups := by
    simp only [Crew.groups, isCurrent, Option.toList_none, List.append_nil, Option.toList_some]
    exact (List.perm_append_singleton group c.flying).symm
  have sameOwned : (({ c with current := none, flying := group :: c.flying } : Crew).owned made).Perm
      (c.owned made) := (sameGroups.map _).append_left _
  refine { fits with
    opens := by simp, complete := ?_, named := fun group' member => ?_,
    nodup := sameOwned.nodup_iff.mpr fits.nodup, owner := fun id member => ?_,
    settled := fun file met valid lacks => ?_ }
  · intro group' member
    rcases List.mem_cons.mp member with rfl | before
    · exact fits.completed sound agree isCurrent complete
    · exact fits.complete group' before
  · exact fits.named group' (sameGroups.mem_iff.mp member)
  · exact fits.owner id (sameOwned.mem_iff.mp member)
  · exact sameOwned.mem_iff.mpr (fits.settled file met valid lacks)

/-- A group that is begun is the first of its content. -/
theorem begin (agree : s.Agree o.Stored (o.sources h)) (fits : o.Fits h s whole past made c g)
    (sound : h.Sound) (faithful : Faithful whole.1) {e : Entry} (turns : c.Turns e)
    (free : c.current = none) (begins : o.Begins c.seen g e.file) (same : Quiet g k) :
    ∃ past, o.Fits h s whole past made
      { c with
        ahead := none, last := e.file, seen := e.file :: c.seen, current := some ⟨e.file, [e]⟩ } k := by
  obtain ⟨here, isKnown, -⟩ := turns
  obtain ⟨valid, new, lacking⟩ := begins
  obtain ⟨lacks, notMade⟩ := (fits.wrote.lacks_iff sound valid).mp lacking
  obtain ⟨e₀, rest, matched, parts, follows⟩ := fits.follows.take here
  have first : ∀ rest, known (e₀ :: rest) = e₀ :: known rest :=
    known_cons_of_known (matched.kind ▸ isKnown)
  have names : e.file = Layout.objectRef (base e.file) := by
    rw [matched.file]
    refine faithful e₀ ?_ (matched.file ▸ valid)
    rw [parts, known_append, first]
    simp
  obtain rfl := eq_of_matches agree matched valid names
  have more : known (past ++ [e]) = known past ++ [e] := by rw [known_append, first, known_nil]
  have nonempty : e.file ≠ [] := by
    intro empty
    rw [empty] at valid
    exact absurd valid (by decide)
  -- an earlier entry of the file would have made it known
  have others : ∀ e' ∈ known past, e'.file ≠ e.file := by
    intro e' member same
    rcases fits.seen e' member with met | empty
    · exact new (same ▸ met)
    · exact nonempty (same ▸ empty)
  have fresh : base e.file ∉ c.owned made := by
    intro member
    have met := (fits.owner _ member).2.2
    rw [← names] at met
    exact new met
  have groups : c.groups = c.flying := by
    simp [Crew.groups, free]
  have grown : ({ c with
      ahead := none, last := e.file, seen := e.file :: c.seen,
      current := some ⟨e.file, [e]⟩ } : Crew).owned made = c.owned made ++ [base e.file] := by
    simp [Crew.owned, Crew.groups, Group.id, free]
  refine ⟨past ++ [e], {
    wrote := fits.wrote.quiet same, follows := follows _ rfl rfl, last := ?_, opens := ?_,
    complete := fits.complete, stems := fits.stems, named := ?_, nodup := ?_, owner := ?_,
    settled := ?_, seen := ?_ }⟩
  · rw [more, List.getLast?_concat]
    rfl
  · intro group isCurrent
    cases isCurrent
    rw [more]
    exact ⟨rfl, .single others⟩
  · intro group member
    rcases List.mem_append.mp member with flies | isCurrent
    · exact fits.named group (groups ▸ flies)
    · obtain rfl := Option.some.inj (Option.mem_toList.mp isCurrent)
      exact names
  · rw [grown]
    exact List.nodup_append.mpr ⟨fits.nodup, List.nodup_singleton _, fun a old b isNew same =>
      fresh (List.mem_singleton.mp isNew ▸ same ▸ old)⟩
  · intro id member
    rw [grown] at member
    rcases List.mem_append.mp member with old | isNew
    · obtain ⟨valid, lacks, met⟩ := fits.owner id old
      exact ⟨valid, lacks, List.mem_cons_of_mem _ met⟩
    · rw [List.mem_singleton.mp isNew]
      exact ⟨valid, lacks, names ▸ List.mem_cons_self⟩
  · intro file met valid lacks
    rw [grown]
    rcases List.mem_cons.mp met with rfl | before
    · exact List.mem_append_right _ (List.mem_singleton_self _)
    · exact List.mem_append_left _ (fits.settled file before valid lacks)
  · intro e' member
    rw [more] at member
    rcases List.mem_append.mp member with before | isNew
    · exact (fits.seen e' before).imp_left (List.mem_cons_of_mem _)
    · rw [List.mem_singleton.mp isNew]
      exact .inl List.mem_cons_self

/-- A group that is not begun is of no content, or its content is owned already. -/
theorem skip (fits : o.Fits h s whole past made c g) (sound : h.Sound) {e : Entry}
    (turns : c.Turns e) (free : c.current = none) (notBegun : ¬o.Begins c.seen g e.file)
    (same : Quiet g k) :
    ∃ past, o.Fits h s whole past made
      { c with ahead := none, last := e.file, seen := e.file :: c.seen, current := none } k := by
  obtain ⟨here, isKnown, -⟩ := turns
  obtain ⟨e₀, rest, matched, -, follows⟩ := fits.follows.take here
  have more : known (past ++ [e₀]) = known past ++ [e₀] := by
    rw [known_append, known_cons_of_known (matched.kind ▸ isKnown), known_nil]
  have groups : ({ c with
      ahead := none, last := e.file, seen := e.file :: c.seen, current := none } : Crew).groups =
        c.groups := by
    simp [Crew.groups, free]
  have owned : ({ c with
      ahead := none, last := e.file, seen := e.file :: c.seen, current := none } : Crew).owned made =
        c.owned made := by
    rw [Crew.owned, groups, Crew.owned]
  refine ⟨past ++ [e₀], {
    wrote := fits.wrote.quiet same, follows := follows _ rfl rfl, last := ?_, opens := by simp,
    complete := fits.complete, stems := fits.stems, named := groups ▸ fits.named,
    nodup := owned ▸ fits.nodup, owner := ?_, settled := ?_, seen := ?_ }⟩
  · rw [more, List.getLast?_concat]
    exact matched.file
  · intro id member
    obtain ⟨valid, lacks, met⟩ := fits.owner id (owned ▸ member)
    exact ⟨valid, lacks, List.mem_cons_of_mem _ met⟩
  · intro file met valid lacks
    rw [owned]
    rcases List.mem_cons.mp met with rfl | before
    · by_cases old : e.file ∈ c.seen
      · exact fits.settled _ old valid lacks
      · by_contra unowned
        refine notBegun ⟨valid, old, (fits.wrote.lacks_iff sound valid).mpr ⟨lacks, fun isMade => ?_⟩⟩
        exact unowned (List.mem_append_left _ isMade)
    · exact fits.settled file before valid lacks
  · intro e' member
    rw [more] at member
    rcases List.mem_append.mp member with before | isNew
    · exact (fits.seen e' before).imp_left (List.mem_cons_of_mem _)
    · rw [List.mem_singleton.mp isNew, ← matched.file]
      exact .inl List.mem_cons_self

/-- A worker that is done passes its content on to the symbol file. -/
theorem finish (fits : o.Fits h s whole past made c g) (sound : h.Sound) {group : Group}
    (member : group ∈ c.flying)
    (written : (o.writeTagFile group.id group.entries).on g = (.ok (), k)) :
    ∃ made, o.Fits h s whole past made { c with flying := c.flying.erase group } k := by
  have inGroups : group ∈ c.groups := List.mem_append_left _ member
  have isOwned : group.id ∈ c.groups.map Group.id := List.mem_map_of_mem inGroups
  obtain ⟨valid, lacks, -⟩ := fits.owner group.id (List.mem_append_right _ isOwned)
  have notMade : group.id ∉ made.map Prod.fst := fun isMade =>
    List.disjoint_of_nodup_append fits.nodup isMade isOwned
  have yields := (writeTagFile_yields sound fits.wrote valid lacks notMade).holds
  rw [written] at yields
  obtain ⟨text, isText, wrote⟩ := yields
  have split : c.groups.Perm
      (group :: ({ c with flying := c.flying.erase group } : Crew).groups) :=
    (List.perm_cons_erase member).append_right _
  have sameOwned : (({ c with flying := c.flying.erase group } : Crew).owned
      (made ++ [(group.id, text)])).Perm (c.owned made) := by
    rw [Crew.owned, List.map_append, List.append_assoc]
    exact ((split.map Group.id).symm).append_left _
  refine ⟨made ++ [(group.id, text)], {
    wrote := wrote, follows := fits.follows, last := fits.last, opens := fits.opens,
    complete := fun group' later => fits.complete group' (List.mem_of_mem_erase later), stems := ?_,
    named := fun group' later => fits.named group' (split.mem_iff.mpr (List.mem_cons_of_mem _ later)),
    nodup := sameOwned.nodup_iff.mpr fits.nodup,
    owner := fun id isOwned => fits.owner id (sameOwned.mem_iff.mp isOwned),
    settled := fun file met valid lacks => sameOwned.mem_iff.mpr (fits.settled file met valid lacks),
    seen := fits.seen }⟩
  intro e isMade
  rcases List.mem_append.mp isMade with before | isNew
  · exact fits.stems e before
  · rw [List.mem_singleton.mp isNew]
    exact ⟨group, fits.named group inGroups, rfl, fits.complete group member, isText⟩

theorem quiet (fits : o.Fits h s whole past made c g) (same : Quiet g k) :
    o.Fits h s whole past made c k := { fits with wrote := fits.wrote.quiet same }

/-- Every step keeps the books right. -/
theorem step {workers : Nat} {c' : Crew} (sound : h.Sound) (agree : s.Agree o.Stored (o.sources h))
    (faithful : Faithful whole.1)
    (fits : o.Fits h s whole past made c g) (step : Step o workers (c, g) (c', k)) :
    ∃ past made, o.Fits h s whole past made c' k := by
  cases step with
  | fetch free delivered => exact ⟨past, made, fits.fetch sound agree free delivered⟩
  | pass here unknown =>
      obtain ⟨past, fits⟩ := fits.pass here unknown
      exact ⟨past, made, fits⟩
  | join here isKnown same =>
      obtain ⟨past, fits⟩ := fits.join agree here isKnown same
      exact ⟨past, made, fits⟩
  | handOver isCurrent complete free =>
      exact ⟨past, made, fits.handOver sound agree isCurrent complete⟩
  | start turns free started =>
      rename_i e begun
      have yields := (start_yields o c.seen e.file g).holds
      rw [started] at yields
      obtain ⟨same, ⟨rfl, begins⟩ | ⟨rfl, notBegun⟩⟩ := yields
      · obtain ⟨past, fits⟩ := fits.begin agree sound faithful turns free begins same
        exact ⟨past, made, fits⟩
      · obtain ⟨past, fits⟩ := fits.skip sound turns free notBegun same
        exact ⟨past, made, fits⟩
  | finish member written =>
      obtain ⟨made, fits⟩ := fits.finish sound member written
      exact ⟨past, made, fits⟩
  | other same => exact ⟨past, made, fits.quiet same⟩

end Fits

theorem matches_start (fixed : Bytes → Prop) (table : Input) (s : Sources) :
    (Reader.ofInput table (some s)).Matches fixed (.ofInput table none) :=
  ⟨rfl, rfl, rfl, rfl, rfl, fun _ isCursor => by cases isCursor⟩

/-- The books at the start. -/
theorem fits_start (o : Organizer) (sound : h.Sound) (s : Sources) (table : Input) :
    o.Fits h s (Reader.ofInput table (some s)).readAll [] [] { reader := .ofInput table none } h where
  wrote := .refl o sound
  follows := ⟨.ofInput table (some s), none, rfl, matches_start _ _ _, .none, by simp⟩
  last := rfl
  opens := by simp
  complete := by simp
  stems := by simp
  named := by simp [Crew.groups]
  nodup := by simp [Crew.owned, Crew.groups]
  owner := by simp [Crew.owned, Crew.groups]
  settled := by simp
  seen := by simp [known]

/-- The books are right after any number of steps. -/
theorem fits_of_steps {workers : Nat} {table : Input} {a : Crew × Host} (sound : h.Sound)
    (agree : s.Agree o.Stored (o.sources h))
    (faithful : Faithful ((Reader.ofInput table (some s)).readAll).1)
    (steps : Relation.ReflTransGen (Step o workers) ({ reader := .ofInput table none }, h) a) :
    ∃ past made, o.Fits h s (Reader.ofInput table (some s)).readAll past made a.1 a.2 := by
  induction steps with
  | refl => exact ⟨[], [], fits_start o sound s table⟩
  | tail _ step ih =>
      obtain ⟨past, made, fits⟩ := ih
      exact fits.step sound agree faithful step

/-- A symbol file that is made comes from the first run of its content. -/
structure Made (o : Organizer) (h : Host) (entries : List Entry) (id text : Bytes) : Prop where
  valid : ObjectId.isValid id = true
  lacks : o.Lacks h id
  nonempty : firstRun (Layout.objectRef id) entries ≠ []
  text : o.textOf? h ⟨Layout.objectRef id, firstRun (Layout.objectRef id) entries⟩ = some text

/-- However workers share a table, the symbol files are those of the first runs of its contents:
none depends on their number or on the order in which they are done. -/
theorem made_of_shares {workers : Nat} {table : Input} {reader : Reader} (sound : h.Sound)
    (agree : s.Agree o.Stored (o.sources h))
    (faithful : Faithful ((Reader.ofInput table (some s)).readAll).1)
    (shares : o.Shares workers table h g reader) :
    (∃ made, o.Wrote h made g ∧
      (∀ e ∈ made, o.Made h (known ((Reader.ofInput table (some s)).readAll).1) e.1 e.2) ∧
      ∀ e ∈ known ((Reader.ofInput table (some s)).readAll).1,
        o.Settled h made (base e.file)) ∧
    reader.stop = ((Reader.ofInput table (some s)).readAll).2.stop := by
  obtain ⟨c, steps, ends, free, idle, rfl⟩ := shares
  obtain ⟨past, made, fits⟩ := fits_of_steps sound agree faithful steps
  obtain ⟨all, readers⟩ := fits.follows.ended sound agree fits.wrote ends
  have owned : c.owned made = made.map Prod.fst := by
    simp [Crew.owned, Crew.groups, free, idle]
  refine ⟨⟨made, fits.wrote, fun e isMade => ?_, fun e member valid lacks => ?_⟩, readers.stop⟩
  · obtain ⟨valid, lacks, -⟩ := fits.owner e.1 (owned ▸ List.mem_map_of_mem isMade)
    obtain ⟨group, isFile, -, ⟨nonempty, run⟩, text⟩ := fits.stems e isMade
    have isGroup : group = ⟨Layout.objectRef e.1, firstRun (Layout.objectRef e.1)
        (known ((Reader.ofInput table (some s)).readAll).1)⟩ := by
      rw [← isFile, ← run]
    rw [isGroup] at nonempty text
    exact ⟨valid, lacks, nonempty, text⟩
  · rw [all] at member
    rcases fits.seen e member with met | empty
    · exact owned ▸ fits.settled e.file met valid lacks
    · rw [empty] at valid
      exact absurd valid (by decide)

end

end Organizer

end SymbolHistory
