/-
# Proofs.LineLookups -- the line that a table's entry is placed at

An entry that names its place by a line's text is looked up in its file from the
line on where the last such entry was found (`standing`), as long as the entries
before it that are looked up lie in the same file.  The reader keeps a cursor for
this, in one file at a time; `Positions` says where searches stand in all files,
and each entry moves it on (`Positions.place`).

So the line of an entry is what a search of the whole file in a circle finds
(`text_found_in_circle`).  An entry that is not found does nothing to those after it, except
that its file is now the one that is read.
-/
import SymbolHistory.Proofs.LineSearches
import SymbolHistory.Proofs.PatternLines
import SymbolHistory.Proofs.TableParts

set_option autoImplicit false

namespace SymbolHistory

namespace TagTable

/-! ## What was looked up before -/

/-- The lines of a file.  A file that cannot be read has none. -/
def Sources.lines (s : Sources) (path : Bytes) : List Bytes :=
  (Bytes.lines ((s.content path).getD [])).map Bytes.Line.text

/-- The path in which an entry's line is looked up, with the line found. -/
def lookup? (s : Sources) (e : Entry) : Option (Bytes × Nat) :=
  match Address.ofExpression e.expression with
  | .text _ => some (s.path e.file, e.line.toNat)
  | _ => none

/-- The line from which on a file is searched after the entries `past`: the last one found in it
since another file was searched, 0 if there is none. -/
def standing (s : Sources) (path : Bytes) (past : List Entry) : Nat :=
  let run := (past.filterMap (lookup? s)).reverse.takeWhile fun found => found.1 == path
  ((run.find? fun found => found.2 != 0).map Prod.snd).getD 0

section

variable {s : Sources} {e : Entry} {text : Bytes}

/-- An entry that is looked up moves the search in its file on, and ends those in others. -/
theorem standing_text (address : Address.ofExpression e.expression = .text text) (path : Bytes)
    (past : List Entry) :
    standing s path (past ++ [e]) =
      if path = s.path e.file then Cursor.after (standing s path past) e.line.toNat else 0 := by
  have found : [e].filterMap (lookup? s) = [(s.path e.file, e.line.toNat)] := by
    simp only [List.filterMap_cons, List.filterMap_nil, lookup?, address]
  rw [standing, List.filterMap_append, found, List.reverse_append, List.reverse_singleton,
    List.singleton_append, List.takeWhile_cons]
  by_cases own : path = s.path e.file
  · subst own
    by_cases missed : e.line.toNat = 0 <;> simp [Cursor.after, missed, standing]
  · simp [own, Ne.symm own]

/-- An entry that is not looked up leaves the searches as they are. -/
theorem standing_other (address : ∀ text, Address.ofExpression e.expression ≠ .text text)
    (path : Bytes) (past : List Entry) : standing s path (past ++ [e]) = standing s path past := by
  have nothing : [e].filterMap (lookup? s) = [] := by
    simp only [List.filterMap_cons, List.filterMap_nil, lookup?]
  rw [standing, List.filterMap_append, nothing, List.append_nil, standing]

end

/-! ## Where searches stand -/

/-- The cursor with which a search of a path goes on. -/
def cursorAt (s : Sources) (c : Option Cursor) (path : Bytes) : Cursor :=
  (searchIn path c).getD (.start path (s.content path))

/-- A search of any file goes on after the line that `position` gives. -/
structure Positions (s : Sources) (c : Option Cursor) (position : Bytes → Nat) : Prop where
  lines : ∀ path, (cursorAt s c path).lines = s.lines path
  stands : ∀ path, (cursorAt s c path).Stands (position path)

theorem Positions.begin (s : Sources) : Positions s none fun _ => 0 :=
  ⟨fun _ => rfl, fun path => Cursor.start_stands path _⟩

section

variable {s : Sources} {c : Option Cursor} {position : Bytes → Nat}

theorem cursorAt_path (s : Sources) (c : Option Cursor) (path : Bytes) :
    (cursorAt s c path).path = path := by
  have same := Reader.path_cursorFor
    { ahead := [], failure := none, sources := some s, cursor := c } s path
  rwa [cursorFor_eq_getD] at same

/-- With a cursor for one file, searches of the others begin anew. -/
theorem cursorAt_some (s : Sources) (d : Cursor) (path : Bytes) :
    cursorAt s (some d) path = if d.path = path then d else .start path (s.content path) := by
  rw [cursorAt, searchIn, Option.filter_some]
  by_cases own : d.path = path <;> simp [own]

/-- With a cursor that stands at a line of its file, searches of the others begin anew. -/
theorem Positions.single {d : Cursor} {p : Nat} (lines : d.lines = s.lines d.path)
    (stands : d.Stands p) : Positions s (some d) fun path => if path = d.path then p else 0 := by
  constructor
  · intro path
    rw [cursorAt_some]
    by_cases own : d.path = path
    · rw [if_pos own, lines, own]
    · rw [if_neg own]
      rfl
  · intro path
    rw [cursorAt_some]
    by_cases own : d.path = path
    · rw [if_pos own, if_pos own.symm]
      exact stands
    · rw [if_neg own, if_neg (Ne.symm own)]
      exact Cursor.start_stands path _

/-- The line at which an entry's text is found when searches stand at `position`. -/
def foundAt (s : Sources) (position : Bytes → Nat) (e : Entry) (text : Bytes) : Nat :=
  Cursor.search (s.lines (s.path e.file)) text (position (s.path e.file))

/-- An entry's text is looked up with the cursor for its file, which is then the one there is. -/
theorem place_text {e : Entry} {text : Bytes} (c : Option Cursor)
    (address : Address.ofExpression e.expression = .text text) :
    place s c e =
      ({ e with line := Int.ofNat ((cursorAt s c (s.path e.file)).find text).1 },
        some ((cursorAt s c (s.path e.file)).find text).2) := by
  simp only [place, Reader.resolve, address, cursorFor_eq_getD, cursorAt]

theorem place_path {e : Entry} {text : Bytes} (c : Option Cursor)
    (address : Address.ofExpression e.expression = .text text) :
    (place s c e).2.map Cursor.path = some (s.path e.file) := by
  rw [place_text c address, Option.map_some, (Cursor.find_kept _ text).1, cursorAt_path]

/-- An entry's text is looked up where searches stand, which then stand after it. -/
theorem Positions.place {e : Entry} {text : Bytes} (stands : Positions s c position)
    (address : Address.ofExpression e.expression = .text text) :
    (place s c e).1 = { e with line := Int.ofNat (foundAt s position e text) } ∧
      Positions s (place s c e).2 fun path =>
        if path = s.path e.file then
          Cursor.after (position (s.path e.file)) (foundAt s position e text)
        else 0 := by
  obtain ⟨found, after⟩ := Cursor.find_spec (stands.stands (s.path e.file)) text
  obtain ⟨samePath, sameLines⟩ := (cursorAt s c (s.path e.file)).find_kept text
  rw [cursorAt_path] at samePath
  rw [stands.lines] at found after sameLines
  rw [place_text c address]
  refine ⟨by rw [found]; rfl, ?_⟩
  have next := Positions.single (s := s) (sameLines.trans (by rw [samePath])) after
  rwa [samePath] at next

/-- An entry without a text moves no search on. -/
theorem place_other {e : Entry} (address : ∀ text, Address.ofExpression e.expression ≠ .text text)
    (c : Option Cursor) : place s c e = ((place s none e).1, c) := by
  rw [place, place, Reader.resolve, Reader.resolve]
  cases other : Address.ofExpression e.expression with
  | text text => exact absurd other (address text)
  | number _ => rfl
  | other => rfl

/-- What is found depends on where searches stand, not on how far a file has been read. -/
theorem placeAll_positions (es : List Entry) : ∀ {c d : Option Cursor} {position : Bytes → Nat},
    Positions s c position → Positions s d position → (placeAll s c es).1 = (placeAll s d es).1 := by
  induction es with
  | nil => exact fun _ _ => rfl
  | cons e es ih =>
      intro c d position stands stands'
      rw [placeAll, placeAll]
      by_cases address : ∃ text, Address.ofExpression e.expression = .text text
      · obtain ⟨text, address⟩ := address
        obtain ⟨first, later⟩ := stands.place address
        obtain ⟨first', later'⟩ := stands'.place address
        rw [first, first', ih later later']
      · have noText := not_exists.mp address
        rw [place_other noText c, place_other noText d, ih stands stands']

/-- An entry that quotes a line is placed by a search of its file, from wherever searches stand. -/
theorem line_of_mem_placeAll {e : Entry} {text : Bytes}
    (address : Address.ofExpression e.expression = .text text) (es : List Entry) :
    ∀ {c : Option Cursor} {position : Bytes → Nat}, Positions s c position →
      e ∈ (placeAll s c es).1 → ∃ p, e.line = Cursor.search (s.lines (s.path e.file)) text p := by
  induction es with
  | nil => exact fun _ member => by cases member
  | cons x es ih =>
      intro c position stands member
      rw [placeAll] at member
      by_cases quotes : ∃ t, Address.ofExpression x.expression = .text t
      · obtain ⟨t, quoted⟩ := quotes
        obtain ⟨found, later⟩ := stands.place quoted
        rcases List.mem_cons.mp member with rfl | member
        · rw [found] at address ⊢
          obtain rfl : t = text := Address.text.inj (quoted.symm.trans address)
          exact ⟨_, rfl⟩
        · exact ih later member
      · have noText := not_exists.mp quotes
        rw [place_other noText c] at member
        rcases List.mem_cons.mp member with rfl | member
        · have same := congrArg Entry.expression (place_unplaced s none x)
          exact absurd ((congrArg Address.ofExpression same).symm.trans address) (noText text)
        · exact ih stands member

end

/-! ## One entry after another -/

/-- A reader, the entries it has delivered, and what it is then. -/
inductive HasRead (r : Reader) : List Entry → Reader → Prop
  | start : HasRead r [] r
  | next {past : List Entry} {q q' : Reader} {e : Entry} :
      HasRead r past q → q.next = (some e, q') → HasRead r (past ++ [e]) q'

theorem Reader.next_eq_of_fst {r : Reader} {e : Entry} (delivers : r.next.1 = some e) :
    r.next = (some e, r.next.2) := Prod.ext delivers rfl

theorem HasRead.following {r q : Reader} {past : List Entry} {e : Entry} (read : HasRead r past q)
    (delivers : q.next.1 = some e) : HasRead r (past ++ [e]) q.next.2 :=
  read.next (Reader.next_eq_of_fst delivers)

section

variable {table : Input} {s : Sources} {past : List Entry} {r r' : Reader} {e : Entry}

/-- Searches stand where the entries that have been delivered were found. -/
theorem HasRead.positions (read : HasRead (.ofInput table (some s)) past r) :
    r.sources = some s ∧ Positions s r.cursor fun path => standing s path past := by
  induction read with
  | start => exact ⟨rfl, .begin s⟩
  | next _ called ih =>
      rename_i past q q' e _
      obtain ⟨own, stands⟩ := ih
      obtain ⟨own', entry, cursor⟩ := Reader.next_place own called
      refine ⟨own', ?_⟩
      by_cases address : ∃ text, Address.ofExpression e.expression = .text text
      · obtain ⟨text, address⟩ := address
        obtain ⟨found, later⟩ := stands.place (e := e.unplaced) address
        have line : e.line.toNat = foundAt s (fun path => standing s path past) e.unplaced text := by
          rw [entry, found]
          rfl
        have onward : (fun path => standing s path (past ++ [e])) = fun path =>
            if path = s.path e.file then
              Cursor.after (standing s (s.path e.file) past)
                (foundAt s (fun path => standing s path past) e.unplaced text)
            else 0 := by
          funext path
          rw [standing_text address, line]
          by_cases own : path = s.path e.file
          · rw [own]
          · rw [if_neg own, if_neg own]
        rw [cursor, onward]
        exact later
      · have noText := not_exists.mp address
        rw [cursor, place_other (e := e.unplaced) noText]
        simp only [standing_other noText]
        exact stands

/-- Entries after the same lines of a table are the same when searches stand at the same lines. -/
theorem readAll_positions {q : Reader} {position : Bytes → Nat} (same : r.Matches (fun _ => False) q)
    (own : r.sources = some s) (own' : q.sources = some s) (stands : Positions s r.cursor position)
    (stands' : Positions s q.cursor position) : r.readAll.1 = q.readAll.1 := by
  have texts := Reader.readAll_unplaced (s := s) (t := s) ⟨rfl, fun _ => False.elim⟩ _ rfl same own own'
  rw [Reader.readAll_place _ own rfl, Reader.readAll_place _ own' rfl, texts]
  exact placeAll_positions _ stands stands'

/-- The line of an entry that names its place by a text is the first that matches in the circle of
the file's lines after the last one found in it, as long as no other file was searched since.  There
is none exactly if the file cannot be read or has no such line; what is read after that is what would
be read had the file been opened and not been searched. -/
theorem text_found_in_circle {pattern : Bytes} (read : HasRead (.ofInput table (some s)) past r)
    (delivered : r.next = (some e, r'))
    (isPattern : e.expression = lit "/^" ++ pattern ++ lit "$/") :
    e.line = Cursor.search (s.lines (s.path e.file)) (unescape pattern)
        (standing s (s.path e.file) past) ∧
      (e.line = 0 ↔ s.content (s.path e.file) = none ∨
        ∀ line ∈ s.lines (s.path e.file), Cursor.isMatch (unescape pattern) line = false) ∧
      (e.line = 0 → r'.readAll.1 =
        ({ r' with cursor := some (r.cursorFor s (s.path e.file)) } : Reader).readAll.1) := by
  have address : Address.ofExpression e.expression = .text (unescape pattern) := by
    rw [isPattern, ofExpression_quoted]
  obtain ⟨own, stands⟩ := read.positions
  obtain ⟨own', entry, cursor⟩ := Reader.next_place own delivered
  obtain ⟨found, later⟩ := stands.place (e := e.unplaced) address
  have line : e.line = Cursor.search (s.lines (s.path e.file)) (unescape pattern)
      (standing s (s.path e.file) past) := by
    rw [entry, found]
    rfl
  refine ⟨line, ?_, fun missed => ?_⟩
  · rw [line, Int.natCast_eq_zero, Cursor.search_eq_zero_iff]
    constructor
    · exact .inr
    · rintro (unreadable | unmatched)
      · rw [Sources.lines, unreadable]
        intro line member
        cases member
      · exact unmatched
  · have nothing : foundAt s (fun path => standing s path past) e.unplaced (unescape pattern) = 0 :=
      Int.ofNat.inj ((line.symm.trans missed : _))
    have searched : r.cursorFor s (s.path e.file) = cursorAt s r.cursor (s.path e.file) :=
      cursorFor_eq_getD r s _
    have samePath := cursorAt_path s r.cursor (s.path e.file)
    have opened := Positions.single (s := s) (d := cursorAt s r.cursor (s.path e.file))
      (by rw [samePath, stands.lines]) (stands.stands _)
    rw [nothing] at later
    rw [samePath] at opened
    refine readAll_positions ⟨rfl, rfl, rfl, rfl, ?_, fun _ _ => False.elim⟩ own' own'
      (cursor ▸ later) (searched ▸ opened)
    rw [cursor, place_path (e := e.unplaced) r.cursor address]
    exact congrArg some (Reader.path_cursorFor r s _)

/-- A file with one line twice, the second time with a carriage return. -/
def circleSources : Sources :=
  ⟨lit "src", fun path =>
    if path = lit "src/a.c" then some (lit "int dup;\nint b;\n\nint dup;\r\n") else none⟩

/-- A table with entries in order, one that is not in the file, and one of another file. -/
def circleTable : Bytes :=
  lit "b\ta.c\t/^int b;$/;\"\tv\nx\ta.c\t/^int x;$/;\"\tv\nd\ta.c\t/^int dup;$/;\"\tv\n" ++
    lit "y\tb.c\t/^int y;$/;\"\tv\nd\ta.c\t/^int dup;$/;\"\tv\n"

/-- After a line that was found and one that was not, the doubled line is found the second time. -/
theorem text_found_in_circle_doubled :
    ∃ past r e r', HasRead (.ofInput ⟨circleTable, none⟩ (some circleSources)) past r ∧
      r.next = (some e, r') ∧ e.expression = lit "/^" ++ lit "int dup;" ++ lit "$/" ∧
      past.map Entry.line = [2, 0] ∧ e.line = 4 ∧ r'.readAll.1.map Entry.line = [0, 1] := by
  let r₀ := Reader.ofInput ⟨circleTable, none⟩ (some circleSources)
  let r₁ := r₀.next.2
  let r₂ := r₁.next.2
  -- one evaluation of the reader for its entries
  have entries : r₀.next.1 = some ⟨lit "b", lit "a.c", lit "/^int b;$/", 2, .variable, []⟩ ∧
      r₁.next.1 = some ⟨lit "x", lit "a.c", lit "/^int x;$/", 0, .variable, []⟩ ∧
      r₂.next.1 = some ⟨lit "d", lit "a.c", lit "/^int dup;$/", 4, .variable, []⟩ ∧
      r₂.next.2.readAll.1.map Entry.line = [0, 1] := by
    decide +kernel
  obtain ⟨first, second, doubled, others⟩ := entries
  have read := HasRead.start.following first |>.following second
  have delivered := Reader.next_eq_of_fst doubled
  refine ⟨_, r₂, _, _, read, delivered, by decide +kernel, by decide, ?_, others⟩
  rw [(text_found_in_circle read delivered
    (by decide +kernel : _ = lit "/^" ++ lit "int dup;" ++ lit "$/")).1]
  decide +kernel

end

end TagTable

end SymbolHistory
