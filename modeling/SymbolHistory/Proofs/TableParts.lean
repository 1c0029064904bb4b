/-
# Proofs.TableParts -- tables that are put one after another

A table that is read to its end has the entries of its lines, and their places
are filled in one by one: `placeAll` does that on entries alone, with the search
that is going on.  Entries of other files only break that search off, so the
places of a file's entries depend on nothing before the first of them
(`placeAll_agree`).

So the first run of a file in texts that were put together is its first run in
the text where the file comes up first, unless the next text goes on with it
(`firstRun_of_parts`).
-/
import Mathlib.Data.List.Forall2
import SymbolHistory.Proofs.SerialCrews

set_option autoImplicit false

namespace SymbolHistory

open SymbolHistory.Path FileTree Run Host

/-! ## Lines of texts put together -/

namespace Bytes

/-- Every line of the text has its newline. -/
def Ended (s : Bytes) : Prop := s = [] ∨ s.getLast? = some 10

instance (s : Bytes) : Decidable s.Ended := inferInstanceAs (Decidable (_ ∨ _))

/-- A text whose lines all have their newlines is put together line by line. -/
@[elab_as_elim]
theorem Ended.induction {motive : Bytes → Prop} {s : Bytes} (ended : s.Ended) (nil : motive [])
    (line : ∀ a b : Bytes, 10 ∉ a → b.Ended → motive b → motive (a ++ 10 :: b)) : motive s := by
  rcases ended with rfl | last
  · exact nil
  · have broken : 10 ∈ s := List.mem_of_getLast? last
    obtain ⟨a, b, whole, oneLine⟩ := List.eq_append_cons_of_mem broken
    have rest : Ended b := by
      rw [whole, List.getLast?_append, List.getLast?_cons] at last
      cases isLast : b.getLast? with
      | none => exact .inl (List.getLast?_eq_none_iff.mp isLast)
      | some c =>
          rw [isLast] at last
          exact .inr (isLast.trans last)
    have later := rest.induction nil line
    exact whole ▸ line a b oneLine rest later
  termination_by s.length
  decreasing_by
    simp only [*, List.length_append, List.length_cons]
    omega

theorem lines_append {u : Bytes} (ended : u.Ended) (v : Bytes) :
    lines (u ++ v) = lines u ++ lines v := by
  refine ended.induction rfl fun a b oneLine _ later => ?_
  rw [List.append_assoc, List.cons_append, lines_cons oneLine, lines_cons oneLine, later,
    List.cons_append]

/-- Only the last of some texts may lack its newline. -/
theorem lines_flatten {parts : List Bytes} (ended : ∀ p ∈ parts.dropLast, p.Ended) :
    lines parts.flatten = parts.flatMap lines := by
  induction parts with
  | nil => rfl
  | cons p parts ih =>
      cases parts with
      | nil => simp
      | cons q parts =>
          rw [List.dropLast_cons_cons] at ended
          have later := ih fun r member => ended r (List.mem_cons_of_mem _ member)
          rw [List.flatten_cons, lines_append (ended p List.mem_cons_self), later]
          rfl

end Bytes

namespace TagTable

theorem entriesOf_append (xs ys : List Bytes.Line) :
    entriesOf (xs ++ ys) = entriesOf xs ++ entriesOf ys := List.filterMap_append

theorem entriesOf_flatMap (parts : List Bytes) :
    entriesOf (parts.flatMap Bytes.lines) = parts.flatMap fun p => entriesOf (Bytes.lines p) :=
  List.filterMap_flatMap

/-- A line describes the table or has an entry. -/
def readable (l : Bytes.Line) : Bool :=
  (Reader.lineText l).head? == some headerMark || (Entry.decode (Reader.lineText l)).isSome

/-- Every line of a table can be read. -/
def Whole (table : Bytes) : Prop := ∀ l ∈ Bytes.lines table, readable l = true

instance (table : Bytes) : Decidable (Whole table) :=
  inferInstanceAs (Decidable (∀ l ∈ Bytes.lines table, readable l = true))

namespace Reader

/-- A call that is not cut short has passed readable lines, or stands at the first that is not. -/
theorem advance_readable (lines : List Bytes.Line) : ∀ r : Reader, r.failure = none →
    match advance r lines with
    | (none, r') => r'.badLine = 0 ↔ ∀ l ∈ lines, readable l = true
    | (some _, r') => ∃ front, lines = front ++ r'.ahead ∧ ∀ l ∈ front, readable l = true := by
  induction lines with
  | nil =>
      intro r intact
      simp [advance, finish, intact, badLine]
  | cons l rest ih =>
      intro r intact
      have uncut : ¬(!l.ended && r.failure.isSome) = true := by simp [intact]
      rw [advance, if_neg uncut]
      by_cases header : ((lineText l).head? == some headerMark) = true
      · have here : readable l = true := by rw [readable, header, Bool.true_or]
        rw [if_pos header]
        have later := ih { r with ahead := rest, passed := r.passed + 1 } intact
        revert later
        rcases advance { r with ahead := rest, passed := r.passed + 1 } rest with ⟨_ | e, r'⟩
        · intro later
          simpa [here] using later
        · rintro ⟨front, isRest, readables⟩
          exact ⟨l :: front, by rw [isRest]; rfl, List.forall_mem_cons.mpr ⟨here, readables⟩⟩
      · rw [if_neg header]
        cases decoded : Entry.decode (lineText l) with
        | none =>
            have bad : readable l = false := by
              rw [readable, decoded, Option.isSome_none, Bool.or_false]
              simpa using header
            simp [badLine, bad]
        | some e =>
            have here : readable l = true := by
              rw [readable, decoded, Option.isSome_some, Bool.or_true]
            obtain ⟨-, ahead, -⟩ := resolve_spec { r with ahead := rest, passed := r.passed + 1 } e
            exact ⟨[l], congrArg (l :: ·) ahead.symm, by simpa using here⟩

theorem readAll_badLine (n : Nat) : ∀ r : Reader, r.ahead.length < n → r.failure = none →
    r.stop = none → (r.readAll.2.badLine = 0 ↔ ∀ l ∈ r.ahead, readable l = true) := by
  induction n with
  | zero => intro r room; omega
  | succ n ih =>
      intro r room intact open_
      have readables := advance_readable r.ahead r intact
      obtain ⟨_, -, -, -, ended⟩ := advance_spec r.ahead r
      have step : r.next = advance r r.ahead := by rw [next, open_]
      cases call : advance r r.ahead with
      | mk delivered r' =>
          rw [call] at readables ended step
          cases delivered with
          | none =>
              rw [readAll_of_none step]
              exact readables
          | some e =>
              obtain ⟨front, isAhead, passed⟩ := readables
              obtain ⟨-, -, -, failure, stop⟩ := ended
              have shorter := shorter_of_next step
              rw [readAll_of_some step, ih r' (by omega) (failure.trans intact) (stop.trans open_),
                isAhead, List.forall_mem_append]
              exact ⟨fun rest => ⟨passed, rest⟩, fun all => all.2⟩

/-- A table is read to its end exactly when every line of it can be read. -/
theorem badLine_eq_zero_iff (table : Bytes) (sources : Option Sources) :
    (ofInput ⟨table, none⟩ sources).readAll.2.badLine = 0 ↔ Whole table :=
  readAll_badLine _ (ofInput ⟨table, none⟩ sources) (Nat.lt_succ_self _) rfl rfl

end Reader

/-! ## Places -/

/-- An entry with its place filled in, and the search that goes on. -/
def place (s : Sources) (c : Option Cursor) (e : Entry) : Entry × Option Cursor :=
  let r : Reader := { ahead := [], failure := none, sources := some s, cursor := c }
  ((r.resolve e).1, (r.resolve e).2.cursor)

/-- Entries with their places filled in one after another. -/
def placeAll (s : Sources) : Option Cursor → List Entry → List Entry × Option Cursor
  | c, [] => ([], c)
  | c, e :: es =>
    let first := place s c e
    let rest := placeAll s first.2 es
    (first.1 :: rest.1, rest.2)

theorem placeAll_append (s : Sources) (xs ys : List Entry) : ∀ c,
    placeAll s c (xs ++ ys) =
      ((placeAll s c xs).1 ++ (placeAll s (placeAll s c xs).2 ys).1,
        (placeAll s (placeAll s c xs).2 ys).2) := by
  induction xs with
  | nil => exact fun _ => rfl
  | cons x xs ih =>
      intro c
      rw [List.cons_append, placeAll, placeAll, ih]
      rfl

theorem place_unplaced (s : Sources) (c : Option Cursor) (e : Entry) :
    (place s c e).1.unplaced = e.unplaced :=
  (Reader.resolve_spec { ahead := [], failure := none, sources := some s, cursor := c } e).1

theorem placeAll_unplaced (s : Sources) (es : List Entry) : ∀ c,
    (placeAll s c es).1.map Entry.unplaced = es.map Entry.unplaced := by
  induction es with
  | nil => exact fun _ => rfl
  | cons e es ih =>
      intro c
      rw [placeAll, List.map_cons, List.map_cons, place_unplaced, ih]

namespace Reader

variable {s : Sources} {r : Reader}

theorem resolve_place (own : r.sources = some s) (e : Entry) :
    (r.resolve e).1 = (place s r.cursor e).1 ∧ (r.resolve e).2.cursor = (place s r.cursor e).2 := by
  rw [place, resolve, resolve, own]
  cases Address.ofExpression e.expression <;> exact ⟨rfl, rfl⟩

theorem advance_place (lines : List Bytes.Line) : ∀ {r : Reader} {e : Entry},
    r.sources = some s → (advance r lines).1 = some e →
      e = (place s r.cursor e.unplaced).1 ∧
        (advance r lines).2.cursor = (place s r.cursor e.unplaced).2 := by
  induction lines with
  | nil =>
      intro r e _ delivered
      cases delivered
  | cons l rest ih =>
      intro r e own delivered
      rw [advance] at delivered ⊢
      split at delivered
      · cases delivered
      · rename_i uncut
        rw [if_neg uncut]
        split at delivered
        · rename_i header
          rw [if_pos header]
          exact ih (r := { r with ahead := rest, passed := r.passed + 1 }) own delivered
        · rename_i header
          rw [if_neg header]
          cases decoded : Entry.decode (lineText l) with
          | none =>
              rw [decoded] at delivered
              cases delivered
          | some f =>
              rw [decoded] at delivered
              have filled := resolve_place (r := { r with ahead := rest, passed := r.passed + 1 }) own f
              obtain ⟨entry, -⟩ := resolve_spec { r with ahead := rest, passed := r.passed + 1 } f
              obtain rfl := Option.some.inj delivered
              rw [entry, decode_unplaced decoded]
              exact filled

/-- An entry that is delivered has its place filled in by the search that is going on. -/
theorem next_place {e : Entry} {r' : Reader} (own : r.sources = some s)
    (called : r.next = (some e, r')) :
    r'.sources = some s ∧ e = (place s r.cursor e.unplaced).1 ∧
      r'.cursor = (place s r.cursor e.unplaced).2 := by
  have kept := r.sources_next
  rw [called] at kept
  refine ⟨kept.trans own, ?_⟩
  rw [next] at called
  cases stop : r.stop with
  | some _ =>
      rw [stop] at called
      cases called
  | none =>
      rw [stop] at called
      have filled := advance_place r.ahead (e := e) own (congrArg Prod.fst called)
      rwa [show advance r r.ahead = (some e, r') from called] at filled

/-- What a reader delivers are entries of lines with their places filled in. -/
theorem readAll_place (entries : List Entry) : ∀ {r : Reader}, r.sources = some s →
    r.readAll.1 = entries → entries = (placeAll s r.cursor (entries.map Entry.unplaced)).1 := by
  induction entries with
  | nil => exact fun _ _ => rfl
  | cons e rest ih =>
      intro r own all
      obtain ⟨r', called, all⟩ := next_of_readAll all
      obtain ⟨own', filled⟩ := next_place own called
      have later := ih own' all
      rw [filled.2] at later
      rw [List.map_cons, placeAll, ← filled.1, ← later]

end Reader

/-- What is read of a table that can be read to its end. -/
theorem readAll_eq {table : Bytes} (whole : Whole table) (s : Sources) :
    (Reader.ofInput ⟨table, none⟩ (some s)).readAll.1 =
      (placeAll s none (entriesOf (Bytes.lines table))).1 := by
  obtain ⟨n, -, -, -, entries, all⟩ := Reader.readAll_spec ⟨table, none⟩ (some s)
  have isAll := all ((Reader.badLine_eq_zero_iff table (some s)).mpr whole) rfl
  rw [isAll, List.take_length] at entries
  have placed := Reader.readAll_place _ (r := Reader.ofInput ⟨table, none⟩ (some s)) rfl rfl
  rw [entries] at placed
  exact placed

/-! ## Searches -/

/-- The search in one file, if it is going on. -/
def searchIn (p : Bytes) (c : Option Cursor) : Option Cursor := c.filter fun d => d.path == p

theorem searchIn_other {p : Bytes} {c : Cursor} (other : c.path ≠ p) : searchIn p (some c) = none := by
  rw [searchIn, Option.filter_some, if_neg (by simpa using other)]

/-- A search goes on from where it is in its file, or begins. -/
theorem cursorFor_eq_getD (r : Reader) (s : Sources) (p : Bytes) :
    r.cursorFor s p = (searchIn p r.cursor).getD (.start p (s.content p)) := by
  rw [Reader.cursorFor]
  cases r.cursor with
  | none => rfl
  | some c =>
      rw [searchIn, Option.filter_some]
      by_cases own : (c.path == p) = true
      · simp only [own, if_true, Option.getD_some]
      · simp only [own, Bool.false_eq_true, if_false, Option.getD_none]

section

variable {s t : Sources} {p : Bytes}

/-- Where the file has one content, searches of it that have come equally far find the same; an
entry of another file ends both. -/
theorem place_agree (agree : s.Agree (· = p) t) {c d : Option Cursor}
    (same : searchIn p d = searchIn p c) (e : Entry) :
    Entry.Matches (· = p) s (place s c e).1 (place t d e).1 ∧
      searchIn p (place t d e).2 = searchIn p (place s c e).2 := by
  have samePath : t.path e.file = s.path e.file := by simp only [Sources.path, agree.base]
  rw [place, place]
  unfold Reader.resolve
  cases Address.ofExpression e.expression with
  | other => exact ⟨⟨rfl, fun _ => rfl⟩, same⟩
  | number n => exact ⟨⟨rfl, fun _ => rfl⟩, same⟩
  | text line =>
      dsimp only
      rw [samePath]
      by_cases own : s.path e.file = p
      · rw [cursorFor_eq_getD, cursorFor_eq_getD, own, same, agree.content p rfl]
        exact ⟨⟨rfl, fun _ => rfl⟩, rfl⟩
      · refine ⟨⟨rfl, fun isOwn => absurd isOwn own⟩, ?_⟩
        rw [searchIn_other, searchIn_other]
        · rwa [Reader.path_find, Reader.path_cursorFor]
        · rwa [Reader.path_find, Reader.path_cursorFor]

theorem placeAll_agree (agree : s.Agree (· = p) t) (es : List Entry) : ∀ {c d : Option Cursor},
    searchIn p d = searchIn p c →
      List.Forall₂ (Entry.Matches (· = p) s) (placeAll s c es).1 (placeAll t d es).1 := by
  induction es with
  | nil => exact fun _ => .nil
  | cons e es ih =>
      intro c d same
      obtain ⟨first, later⟩ := place_agree agree same e
      exact .cons first (ih later)

/-- Entries of other files leave no search in the file. -/
theorem searchIn_placeAll {es : List Entry} (others : ∀ e ∈ es, s.path e.file ≠ p) :
    ∀ {c : Option Cursor}, searchIn p c = none → searchIn p (placeAll s c es).2 = none := by
  induction es with
  | nil => exact fun ended => ended
  | cons e es ih =>
      intro c ended
      refine ih (fun f member => others f (List.mem_cons_of_mem _ member)) ?_
      have other := others e List.mem_cons_self
      rw [place, Reader.resolve]
      cases Address.ofExpression e.expression with
      | other => exact ended
      | number n => exact ended
      | text line =>
          apply searchIn_other
          rwa [Reader.path_find, Reader.path_cursorFor]

end

end TagTable

/-! ## First runs -/

namespace Organizer

open TagTable (Entry Reader Sources Whole entriesOf placeAll)

/-- Entries with one text have known kinds and files in common. -/
theorem files_of_unplaced {xs ys : List Entry}
    (same : xs.map Entry.unplaced = ys.map Entry.unplaced) :
    (known xs).map Entry.file = (known ys).map Entry.file := by
  have files : ∀ zs : List Entry,
      (known zs).map Entry.file = (known (zs.map Entry.unplaced)).map Entry.file := by
    intro zs
    induction zs with
    | nil => rfl
    | cons z zs ih =>
        rw [List.map_cons]
        by_cases unknown : z.kind = .unknown
        · rw [known_cons_of_unknown unknown, known_cons_of_unknown (e := z.unplaced) unknown, ih]
        · rw [known_cons_of_known unknown, known_cons_of_known (e := z.unplaced) unknown,
            List.map_cons, List.map_cons, ih]
          rfl
  rw [files xs, files ys, same]

theorem known_matches {fixed : Bytes → Prop} {s : Sources} {xs ys : List Entry}
    (same : List.Forall₂ (Entry.Matches fixed s) xs ys) :
    List.Forall₂ (Entry.Matches fixed s) (known xs) (known ys) := by
  induction same with
  | nil => exact .nil
  | cons first rest ih =>
      rename_i x y xs ys
      by_cases unknown : x.kind = .unknown
      · rw [known_cons_of_unknown unknown, known_cons_of_unknown (first.kind.trans unknown)]
        exact ih
      · rw [known_cons_of_known unknown, known_cons_of_known (by rwa [first.kind])]
        exact .cons first ih

/-- Readings that agree on the entries of a file have the same first run of it. -/
theorem firstRun_matches {s : Sources} {file : Bytes} {xs ys : List Entry}
    (same : List.Forall₂ (Entry.Matches (· = s.path file) s) xs ys) :
    firstRun file xs = firstRun file ys := by
  have equal : ∀ {e f : Entry}, Entry.Matches (· = s.path file) s e f → e.file = file → f = e :=
    fun first isFile => first.placed (congrArg s.path isFile)
  have run : ∀ {xs ys : List Entry}, List.Forall₂ (Entry.Matches (· = s.path file) s) xs ys →
      xs.takeWhile (·.file == file) = ys.takeWhile (·.file == file) := by
    intro xs ys same
    induction same with
    | nil => rfl
    | cons first rest ih =>
        rename_i x y xs ys
        by_cases isFile : x.file = file
        · rw [equal first isFile, List.takeWhile_cons, List.takeWhile_cons, ih]
        · rw [List.takeWhile_cons_of_neg (by simpa using isFile),
            List.takeWhile_cons_of_neg (by simpa [first.file] using isFile)]
  rw [firstRun, firstRun]
  apply run
  induction same with
  | nil => exact .nil
  | cons first rest ih =>
      rename_i x y xs ys
      by_cases isFile : x.file = file
      · rw [List.dropWhile_cons_of_neg (by simpa using isFile),
          List.dropWhile_cons_of_neg (by simpa [first.file] using isFile)]
        exact .cons first rest
      · rw [List.dropWhile_cons_of_pos (by simpa using isFile),
          List.dropWhile_cons_of_pos (by simpa [first.file] using isFile)]
        exact ih

/-- A table has the same first run of a file wherever the file has the same content. -/
theorem firstRun_agree {s t : Sources} {file table : Bytes} (agree : s.Agree (· = s.path file) t)
    (whole : Whole table) :
    firstRun file (known (Reader.ofInput ⟨table, none⟩ (some s)).readAll.1) =
      firstRun file (known (Reader.ofInput ⟨table, none⟩ (some t)).readAll.1) := by
  rw [TagTable.readAll_eq whole, TagTable.readAll_eq whole]
  exact firstRun_matches (known_matches (TagTable.placeAll_agree agree _ rfl))

/-- A first run is not touched by entries before it and by entries of another file after it. -/
theorem firstRun_between {file : Bytes} {before part after : List Entry}
    (absent : ∀ e ∈ before, e.file ≠ file) (named : firstRun file part ≠ [])
    (next : ∀ e ∈ after.head?, e.file ≠ file) :
    firstRun file (before ++ part ++ after) = firstRun file part := by
  have skipped : ∀ e ∈ before, (e.file != file) = true := by simpa using absent
  rw [firstRun, firstRun, List.append_assoc, List.dropWhile_append_of_pos skipped,
    List.dropWhile_append]
  have found : part.dropWhile (·.file != file) ≠ [] := by
    intro missing
    rw [firstRun, missing] at named
    exact named rfl
  rw [if_neg (by simpa using found), List.takeWhile_append]
  split
  · rename_i all
    have ends : after.takeWhile (·.file == file) = [] := by
      cases after with
      | nil => rfl
      | cons e after => exact List.takeWhile_cons_of_neg (by simpa using next e rfl)
    rw [ends, List.append_nil]
    exact (List.takeWhile_sublist _).eq_of_length all |>.symm
  · rfl

/-- The first run of a file in texts that were put together is that of the first text with the
file, wherever the places were looked up. -/
theorem firstRun_of_parts {s t : Sources} {file part : Bytes} {before after : List Bytes}
    (agree : s.Agree (· = s.path file) t)
    (ended : ∀ u ∈ (before ++ part :: after).dropLast, u.Ended)
    (whole : ∀ u ∈ before ++ part :: after, Whole u)
    (absent : ∀ u ∈ before, ∀ e ∈ entriesOf (Bytes.lines u), s.path e.file ≠ s.path file)
    (named : firstRun file (known (Reader.ofInput ⟨part, none⟩ (some t)).readAll.1) ≠ [])
    (next : ∀ e ∈ (known (after.flatMap fun u => entriesOf (Bytes.lines u))).head?, e.file ≠ file) :
    firstRun file (known (Reader.ofInput ⟨(before ++ part :: after).flatten, none⟩
        (some s)).readAll.1) =
      firstRun file (known (Reader.ofInput ⟨part, none⟩ (some t)).readAll.1) := by
  have lines : Bytes.lines (before ++ part :: after).flatten = before.flatMap Bytes.lines ++
      Bytes.lines part ++ after.flatMap Bytes.lines := by
    rw [Bytes.lines_flatten ended, List.flatMap_append, List.flatMap_cons, List.append_assoc]
  have all : Whole (before ++ part :: after).flatten := by
    intro l member
    rw [Bytes.lines_flatten ended] at member
    obtain ⟨u, isPart, inside⟩ := List.mem_flatMap.mp member
    exact whole u isPart l inside
  have own : Whole part := whole part (by simp)
  let front := before.flatMap fun u => entriesOf (Bytes.lines u)
  let back := after.flatMap fun u => entriesOf (Bytes.lines u)
  have others : ∀ e ∈ front, s.path e.file ≠ s.path file := by
    intro e member
    obtain ⟨u, isPart, inside⟩ := List.mem_flatMap.mp member
    exact absent u isPart e inside
  -- the three parts are read one after another, each from where the search of the last one stands
  obtain ⟨xs, c, isFront⟩ : ∃ xs c, placeAll s none front = (xs, c) := ⟨_, _, rfl⟩
  obtain ⟨ys, d, isPart⟩ : ∃ ys d, placeAll s c (entriesOf (Bytes.lines part)) = (ys, d) := ⟨_, _, rfl⟩
  obtain ⟨zs, _, isBack⟩ : ∃ zs n, placeAll s d back = (zs, n) := ⟨_, _, rfl⟩
  have read : (Reader.ofInput ⟨(before ++ part :: after).flatten, none⟩ (some s)).readAll.1 =
      xs ++ ys ++ zs := by
    rw [TagTable.readAll_eq all, lines, TagTable.entriesOf_append, TagTable.entriesOf_append,
      TagTable.entriesOf_flatMap, TagTable.entriesOf_flatMap, TagTable.placeAll_append,
      TagTable.placeAll_append, isFront, isPart, isBack]
  have begins : TagTable.searchIn (s.path file) c = none := by
    have ended := TagTable.searchIn_placeAll others (c := none) rfl
    rwa [isFront] at ended
  have same : firstRun file (known ys) = firstRun file
      (known (Reader.ofInput ⟨part, none⟩ (some t)).readAll.1) := by
    have placed := TagTable.placeAll_agree agree (entriesOf (Bytes.lines part)) (c := c) (d := none)
      begins.symm
    rw [isPart] at placed
    rw [TagTable.readAll_eq (whole part (by simp))]
    exact firstRun_matches (known_matches placed)
  have frontFiles := files_of_unplaced (TagTable.placeAll_unplaced s front none)
  have backFiles := files_of_unplaced (TagTable.placeAll_unplaced s back d)
  rw [isFront] at frontFiles
  rw [isBack] at backFiles
  rw [← same] at named ⊢
  rw [read, known_append, known_append]
  refine firstRun_between (fun e member isFile => ?_) named fun e isNext => ?_
  · have inFront : e.file ∈ (known front).map Entry.file := frontFiles ▸ List.mem_map_of_mem member
    obtain ⟨f, inside, sameFile⟩ := List.mem_map.mp inFront
    exact others f (List.mem_of_mem_filter inside) (congrArg s.path (sameFile.trans isFile))
  · have isHead : ((known back).map Entry.file).head? = some e.file := by
      rw [← backFiles, List.head?_map, Option.mem_def.mp isNext]
      rfl
    rw [List.head?_map, Option.map_eq_some_iff] at isHead
    obtain ⟨f, isHead, sameFile⟩ := isHead
    rw [← sameFile]
    exact next f isHead

end Organizer

end SymbolHistory
