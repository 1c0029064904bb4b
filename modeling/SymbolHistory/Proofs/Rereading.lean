/-
# Proofs.Rereading -- a table that is read while files change

A table is read entry by entry, and the places of symbols are looked up in the
files as they are at that moment.  Two readings of one table may so differ in
line numbers.  Where they look up the same contents they do not: `Reader.Matches`
relates two readers that have come equally far, and a step leads matching readers
to matching ones (`next_matches`).  The entries of a file that both see with one
content are equal.

Work that spares the stored contents never makes such a difference for them
(`agree_of_spares`).
-/
import Mathlib.Data.Option.Basic
import SymbolHistory.Proofs.LineSearches
import SymbolHistory.Proofs.Organizing

set_option autoImplicit false

namespace SymbolHistory

open SymbolHistory.Path FileTree Run Host

namespace TagTable

/-- Two places to look for files that have the same contents at some paths. -/
structure Sources.Agree (fixed : Bytes → Prop) (s t : Sources) : Prop where
  base : t.base = s.base
  content : ∀ p, fixed p → t.content p = s.content p

theorem Sources.Agree.trans {fixed : Bytes → Prop} {s t u : Sources} (first : s.Agree fixed t)
    (second : t.Agree fixed u) : s.Agree fixed u :=
  ⟨second.base.trans first.base, fun p isFixed =>
    (second.content p isFixed).trans (first.content p isFixed)⟩

/-- Two entries of one line of a table, looked up in sources below one folder. -/
structure Entry.Matches (fixed : Bytes → Prop) (s : Sources) (e f : Entry) : Prop where
  unplaced : f.unplaced = e.unplaced
  placed : fixed (s.path e.file) → f = e

namespace Entry.Matches

variable {fixed : Bytes → Prop} {s : Sources} {e f : Entry}

theorem file (same : Matches fixed s e f) : f.file = e.file := by
  have files : f.unplaced.file = e.unplaced.file := congrArg Entry.file same.unplaced
  exact files

theorem kind (same : Matches fixed s e f) : f.kind = e.kind := by
  have kinds : f.unplaced.kind = e.unplaced.kind := congrArg Entry.kind same.unplaced
  exact kinds

end Entry.Matches

namespace Reader

/-- Two readers that have come equally far in one table. -/
structure Matches (fixed : Bytes → Prop) (r q : Reader) : Prop where
  ahead : q.ahead = r.ahead
  failure : q.failure = r.failure
  passed : q.passed = r.passed
  stop : q.stop = r.stop
  path : q.cursor.map Cursor.path = r.cursor.map Cursor.path
  cursor : ∀ c, r.cursor = some c → fixed c.path → q.cursor = some c

/-- The reader with places to look for files. -/
def lookingIn (r : Reader) (s : Sources) : Reader := { r with sources := some s }

variable {fixed : Bytes → Prop} {s t : Sources} {r q : Reader}

theorem Matches.refl (fixed : Bytes → Prop) (r : Reader) : r.Matches fixed r :=
  ⟨rfl, rfl, rfl, rfl, rfl, fun _ isCursor _ => isCursor⟩

theorem Matches.lookingIn (same : r.Matches fixed q) (t : Sources) :
    r.Matches fixed (q.lookingIn t) :=
  ⟨same.ahead, same.failure, same.passed, same.stop, same.path, same.cursor⟩

theorem path_cursorFor (r : Reader) (s : Sources) (path : Bytes) :
    (r.cursorFor s path).path = path := by
  rw [cursorFor]
  split
  · split
    · rename_i same
      exact eq_of_beq same
    · rfl
  · rfl

theorem path_find (c : Cursor) (text : Bytes) : (c.find text).2.path = c.path :=
  (c.find_kept text).1

/-- Readers that match search the same lines of a file with one content. -/
theorem cursorFor_eq (agree : s.Agree fixed t) (same : r.Matches fixed q) {path : Bytes}
    (isFixed : fixed path) : q.cursorFor t path = r.cursorFor s path := by
  have paths := same.path
  rw [cursorFor, cursorFor, agree.content path isFixed]
  cases there : r.cursor with
  | none =>
      rw [there, Option.map_none, Option.map_eq_none_iff] at paths
      rw [paths]
  | some c =>
      rw [there, Option.map_some, Option.map_eq_some_iff] at paths
      obtain ⟨d, there', samePath⟩ := paths
      rw [there']
      by_cases own : c.path = path
      · have equal := same.cursor c there (own ▸ isFixed)
        rw [there'] at equal
        rw [Option.some.inj equal]
      · have other : (c.path == path) = false := beq_eq_false_iff_ne.mpr own
        simp only [samePath, other, Bool.false_eq_true, if_false]

/-- Looking up a place keeps readers matching. -/
theorem resolve_matches (agree : s.Agree fixed t) (same : r.Matches fixed q)
    (own : r.sources = some s) (own' : q.sources = some t) (e : Entry) :
    Entry.Matches fixed s (r.resolve e).1 (q.resolve e).1 ∧
      (r.resolve e).2.Matches fixed (q.resolve e).2 := by
  have samePath : t.path e.file = s.path e.file := by simp only [Sources.path, agree.base]
  rw [resolve, resolve, own, own']
  cases Address.ofExpression e.expression with
  | other => exact ⟨⟨rfl, fun _ => rfl⟩, same⟩
  | number n => exact ⟨⟨rfl, fun _ => rfl⟩, same⟩
  | text line =>
      have found : fixed (s.path e.file) →
          q.cursorFor t (s.path e.file) = r.cursorFor s (s.path e.file) := cursorFor_eq agree same
      dsimp only
      rw [samePath]
      refine ⟨⟨rfl, fun isFixed => ?_⟩, same.ahead, same.failure, same.passed, same.stop, ?_, ?_⟩
      · rw [found isFixed]
      · simp only [Option.map_some, path_find, path_cursorFor]
      · intro c isCursor isFixed
        obtain rfl := Option.some.inj isCursor
        rw [path_find, path_cursorFor] at isFixed
        rw [found isFixed]

/-- Readers that match differ in where they look and how far they have searched. -/
theorem Matches.exists_eq (same : r.Matches fixed q) :
    ∃ sources cursor, q = { r with sources := sources, cursor := cursor } := by
  refine ⟨q.sources, q.cursor, ?_⟩
  rw [← same.ahead, ← same.failure, ← same.passed, ← same.stop]

theorem Matches.finish (same : r.Matches fixed q) : r.finish.Matches fixed q.finish := by
  have path := same.path
  have cursor := same.cursor
  obtain ⟨_, _, rfl⟩ := same.exists_eq
  simp only [Reader.finish]
  cases r.failure with
  | some f => exact ⟨rfl, rfl, rfl, rfl, path, cursor⟩
  | none => exact ⟨rfl, rfl, rfl, rfl, path, cursor⟩

theorem advance_matches (agree : s.Agree fixed t) (lines : List Bytes.Line) :
    ∀ {r q : Reader}, r.Matches fixed q → r.sources = some s → q.sources = some t →
      Option.Rel (Entry.Matches fixed s) (advance r lines).1 (advance q lines).1 ∧
        (advance r lines).2.Matches fixed (advance q lines).2 := by
  induction lines with
  | nil => exact fun same _ _ => ⟨.none, same.finish⟩
  | cons l rest ih =>
      intro r q same own own'
      have finished := same.finish
      have path := same.path
      have cursor := same.cursor
      obtain ⟨sources, searched, rfl⟩ := same.exists_eq
      have further : Reader.Matches fixed { r with ahead := rest, passed := r.passed + 1 }
          { r with
            ahead := rest, passed := r.passed + 1, sources := sources, cursor := searched } :=
        ⟨rfl, rfl, rfl, rfl, path, cursor⟩
      rw [advance, advance]
      by_cases cut : (!l.ended && r.failure.isSome) = true
      · rw [if_pos cut, if_pos cut]
        exact ⟨.none, finished⟩
      · rw [if_neg cut, if_neg cut]
        by_cases header : ((lineText l).head? == some headerMark) = true
        · rw [if_pos header, if_pos header]
          exact ih further own own'
        · rw [if_neg header, if_neg header]
          cases Entry.decode (lineText l) with
          | none => exact ⟨.none, rfl, rfl, rfl, rfl, path, cursor⟩
          | some e =>
              obtain ⟨entries, readers⟩ := resolve_matches agree further own own' e
              exact ⟨.some entries, readers⟩

/-- A step leads matching readers to matching ones. -/
theorem next_matches (agree : s.Agree fixed t) (same : r.Matches fixed q)
    (own : r.sources = some s) (own' : q.sources = some t) :
    Option.Rel (Entry.Matches fixed s) r.next.1 q.next.1 ∧ r.next.2.Matches fixed q.next.2 := by
  rw [next, next, same.stop, same.ahead]
  cases r.stop with
  | some _ => exact ⟨.none, same⟩
  | none => exact advance_matches agree _ same own own'

/-! ## One entry after another -/

theorem readAllFrom_done (fuel : Nat) :
    ∀ (done : List Entry) (r : Reader), readAllFrom fuel done r =
      (done.reverse ++ (readAllFrom fuel [] r).1, (readAllFrom fuel [] r).2) := by
  induction fuel with
  | zero => intro done r; simp [readAllFrom]
  | succ fuel ih =>
      intro done r
      rw [readAllFrom, readAllFrom]
      split
      · simp
      · rename_i e r' _
        rw [ih (e :: done), ih [e]]
        simp

/-- An entry takes at least one line. -/
theorem shorter_of_next {e : Entry} {r' : Reader} (delivered : r.next = (some e, r')) :
    r'.ahead.length < r.ahead.length := by
  cases stop : r.stop with
  | some _ =>
      rw [next, stop] at delivered
      cases delivered
  | none =>
      obtain ⟨n, inside, -, -, ended⟩ := advance_spec r.ahead r
      rw [next, stop] at delivered
      dsimp only at delivered
      rw [delivered] at ended
      obtain ⟨-, positive, ahead, -⟩ := ended
      rw [ahead, List.length_drop]
      omega

theorem readAllFrom_fuel (fuel : Nat) :
    ∀ {more : Nat} {r : Reader}, r.ahead.length < fuel → r.ahead.length < more →
      readAllFrom fuel [] r = readAllFrom more [] r := by
  induction fuel with
  | zero => intro more r room; omega
  | succ fuel ih =>
      intro more r room room'
      obtain ⟨more, rfl⟩ : ∃ n, more = n + 1 := ⟨more - 1, by omega⟩
      rw [readAllFrom, readAllFrom]
      cases call : r.next with
      | mk delivered r' =>
          cases delivered with
          | none => rfl
          | some e =>
              have := shorter_of_next call
              dsimp only
              rw [readAllFrom_done fuel, readAllFrom_done more,
                ih (by omega) (by omega : r'.ahead.length < more)]

theorem readAll_of_some {e : Entry} {r' : Reader} (delivered : r.next = (some e, r')) :
    r.readAll = (e :: r'.readAll.1, r'.readAll.2) := by
  have shorter := shorter_of_next delivered
  rw [readAll, readAllFrom, delivered]
  dsimp only
  rw [readAllFrom_done, readAllFrom_fuel _ shorter (Nat.lt_succ_self _), ← readAll]
  rfl

theorem readAll_of_none {r' : Reader} (delivered : r.next = (none, r')) : r.readAll = ([], r') := by
  rw [readAll, readAllFrom, delivered]
  rfl

theorem next_of_readAll {e : Entry} {rest : List Entry} (all : r.readAll.1 = e :: rest) :
    ∃ r', r.next = (some e, r') ∧ r'.readAll.1 = rest := by
  cases call : r.next with
  | mk first r' =>
      cases first with
      | none =>
          rw [readAll_of_none call] at all
          cases all
      | some e' =>
          rw [readAll_of_some call] at all
          obtain ⟨rfl, rfl⟩ := List.cons.inj all
          exact ⟨r', rfl, rfl⟩

theorem next_of_readAll_nil (all : r.readAll.1 = []) : r.next.1 = none := by
  cases call : r.next with
  | mk first r' =>
      cases first with
      | none => rfl
      | some e =>
          rw [readAll_of_some call] at all
          cases all

/-- The places to look for files stay the same. -/
theorem sources_next (r : Reader) : r.next.2.sources = r.sources := by
  have advanced : ∀ (lines : List Bytes.Line) (r : Reader), (advance r lines).2.sources = r.sources := by
    intro lines
    induction lines with
    | nil =>
        intro r
        rw [advance, finish]
        cases r.failure <;> rfl
    | cons l rest ih =>
        intro r
        rw [advance]
        split
        · rw [finish]
          cases r.failure <;> rfl
        · dsimp only
          split
          · exact ih _
          · split
            · rfl
            · rw [resolve]
              split <;> rfl
  rw [next]
  split
  · rfl
  · exact advanced _ r

/-- Readers that match deliver the same entries, but for the places of their symbols. -/
theorem readAll_unplaced (agree : s.Agree fixed t) (entries : List Entry) :
    ∀ {r q : Reader}, r.readAll.1 = entries → r.Matches fixed q → r.sources = some s →
      q.sources = some t → q.readAll.1.map Entry.unplaced = entries.map Entry.unplaced := by
  induction entries with
  | nil =>
      intro r q all same own own'
      obtain ⟨delivered, -⟩ := next_matches agree same own own'
      rw [next_of_readAll_nil all] at delivered
      cases call : q.next with
      | mk first q' =>
          rw [call] at delivered
          cases delivered
          rw [readAll_of_none call]
  | cons e rest ih =>
      intro r q all same own own'
      obtain ⟨r', called, all⟩ := next_of_readAll all
      have kept := r.sources_next
      have kept' := q.sources_next
      obtain ⟨delivered, after⟩ := next_matches agree same own own'
      rw [called] at delivered after kept
      cases call : q.next with
      | mk first q' =>
          rw [call] at delivered after kept'
          cases delivered with
          | some matched =>
              rw [readAll_of_some call, List.map_cons, List.map_cons, matched.unplaced,
                ih all after (kept.trans own) (kept'.trans own')]

end Reader

end TagTable

/-! ## Stored contents -/

namespace Layout

variable {l : Layout} {id : Bytes}

theorem base_objectRef (valid : ObjectId.isValid id = true) : base (objectRef id) = id := by
  obtain ⟨⟨noSlash, nonempty, -⟩, -⟩ := ObjectId.isName_of_isValid valid
  have ends : (objectRef id).reverse.dropWhile (· == slash) = (objectRef id).reverse := by
    cases parts : id.reverse with
    | nil => exact absurd (List.reverse_eq_nil_iff.mp parts) nonempty
    | cons b rest =>
        have other : b ≠ slash := fun same => noSlash (by
          rw [← same, ← List.mem_reverse, parts]
          exact List.mem_cons_self)
        rw [objectRef, List.reverse_append, parts, List.cons_append, List.dropWhile_cons_of_neg]
        simpa using other
  have named : (objectRef id).isEmpty = false := by simp [objectRef, objectsName]
  simp only [base, named, ends, List.reverse_reverse, Bool.false_eq_true, if_false]
  rw [objectRef, List.append_assoc, List.singleton_append, splitLast_slash _ noSlash]

/-- A stored content is found under the name that tables give it. -/
theorem locate_objectRef (l : Layout) (h : Host) (valid : ObjectId.isValid id = true) :
    h.locate (join [l.root, objectRef id]) = h.locate l.root ++ [objectsName, id] := by
  have isName := ObjectId.isName_of_isValid valid
  have objects : IsName objectsName := ⟨⟨by decide, by decide, by decide⟩, by decide⟩
  have nonempty : objectRef id ≠ [] := by simp [objectRef, objectsName]
  let folder := if l.root = [] then objectsName else l.root ++ slash :: objectsName
  have whole : (if l.root = [] then objectRef id else l.root ++ slash :: objectRef id) =
      folder ++ slash :: id := by
    by_cases empty : l.root = [] <;> simp [folder, empty, objectRef]
  have named : folder ≠ [] := by
    by_cases empty : l.root = [] <;> simp [folder, empty, objectsName, lit]
  have inFolder : h.locate folder = h.locate l.root ++ [objectsName] :=
    h.locate_append (isAbsolute_below _ objects) (steps_below _ objects) objects.notParent
  rw [join_pair _ _ nonempty, locate_clean, whole,
    h.locate_append (isAbsolute_append named _) (by rw [steps_slash, steps_of_isStep isName.toIsStep])
      isName.notParent, inFolder, List.append_assoc, List.singleton_append]

end Layout

namespace Organizer

variable {o : Organizer} {h g : Host}

/-- A path that tables lead to for a stored content. -/
def Stored (o : Organizer) (p : Bytes) : Prop :=
  ∃ id, ObjectId.isValid id = true ∧ p = join [o.layout.root, Layout.objectRef id]

/-- Whoever spares the stored contents leaves what is looked up in them. -/
theorem agree_of_spares (sound : h.Sound) {apart : List Bytes} (isApart : Layout.objectsName ∈ apart)
    (spares : o.layout.Spares apart h g) : (o.sources h).Agree o.Stored (o.sources g) := by
  refine ⟨rfl, ?_⟩
  rintro _ ⟨id, valid, rfl⟩
  exact contentAt?_congr sound spares.sound spares.folder
    (spares.get?_eq (o.layout.locate_objectRef h valid) isApart)

theorem Wrote.agree {made : List (Bytes × Bytes)} (sound : h.Sound) (wrote : o.Wrote h made g) :
    (o.sources h).Agree o.Stored (o.sources g) :=
  agree_of_spares sound (by decide) wrote.spares

end Organizer

end SymbolHistory
