/-
# Proofs.TableReading -- which part of a table is read

A reader that stops early has passed some lines of the table: the entries it
delivered are those of the lines it passed, up to the line numbers it filled in
(`readAll_spec`).  This holds for a table with a malformed line and for one whose
reading fails after some bytes, because a line that is cut short is not passed
(`take_lines_of_prefix`).

What was not read matters to one group only: entries after the stop either begin
a new group or go on with the last group before it (`groups_append`), which is
then `Cut`.
-/
import SymbolHistory.Organizer
import SymbolHistory.Proofs.Places

set_option autoImplicit false

namespace SymbolHistory

/-! ## Lines of a text that is cut short -/

namespace Bytes

/-- A separator in `v` does not change the pieces of `u` before the last. -/
theorem splitOn_append (sep : UInt8) (u v : Bytes) :
    ∃ last, (splitOn sep u).getLast? = some last ∧
      splitOn sep (u ++ v) = (splitOn sep u).dropLast ++ splitOn sep (last ++ v) := by
  induction u with
  | nil => exact ⟨[], rfl, rfl⟩
  | cons b u ih =>
      obtain ⟨last, isLast, split⟩ := ih
      by_cases same : b = sep
      · subst same
        refine ⟨last, ?_, ?_⟩
        · rw [splitOn_sep, List.getLast?_cons, isLast]
          rfl
        · rw [List.cons_append, splitOn_sep, splitOn_sep, split,
            List.dropLast_cons_of_ne_nil (splitOn_ne_nil b u)]
          rfl
      · obtain ⟨head, tail, before, after⟩ := splitOn_cons same u
        obtain ⟨head', tail', before', after'⟩ := splitOn_cons same (u ++ v)
        rw [before] at isLast split
        rw [before'] at split
        rw [after, List.cons_append, after']
        cases tail with
        | nil =>
            obtain rfl : head = last := by simpa using isLast
            obtain ⟨head'', tail'', before'', after''⟩ := splitOn_cons same (head ++ v)
            refine ⟨b :: head, rfl, ?_⟩
            rw [List.cons_append, after'']
            simp only [List.dropLast_singleton, List.nil_append, before''] at split ⊢
            obtain ⟨rfl, rfl⟩ := List.cons.inj split
            rfl
        | cons t tail =>
            refine ⟨last, by simpa using isLast, ?_⟩
            rw [List.dropLast_cons_cons, List.cons_append] at split ⊢
            obtain ⟨rfl, rfl⟩ := List.cons.inj split
            rfl

theorem lines_cons {u : Bytes} (oneLine : 10 ∉ u) (v : Bytes) :
    lines (u ++ 10 :: v) = ⟨u, true⟩ :: lines v := by
  have pieces : splitOn 10 (u ++ 10 :: v) = u :: splitOn 10 v := by
    rw [splitOn_append_sep, splitOn_of_not_mem oneLine, List.singleton_append]
  obtain ⟨last, isLast⟩ : ∃ last, (splitOn 10 v).getLast? = some last :=
    ⟨_, List.getLast?_eq_some_getLast (splitOn_ne_nil 10 v)⟩
  rw [lines, lines, pieces, List.dropLast_cons_of_ne_nil (splitOn_ne_nil 10 v), List.getLast?_cons,
    isLast, List.map_cons, Option.getD_some]
  cases last <;> rfl

theorem not_mem_of_mem_lines {s : Bytes} {l : Line} (member : l ∈ lines s) : 10 ∉ l.text := by
  have pieces : l.text ∈ splitOn 10 s := by
    rw [lines] at member
    split at member
    · rename_i b rest isLast
      rcases List.mem_append.mp member with front | last
      · obtain ⟨piece, inside, rfl⟩ := List.mem_map.mp front
        exact List.dropLast_subset _ inside
      · rw [List.mem_singleton.mp last]
        exact List.mem_of_getLast? isLast
    · obtain ⟨piece, inside, rfl⟩ := List.mem_map.mp member
      exact List.dropLast_subset _ inside
  exact not_mem_of_mem_splitOn pieces

theorem withoutTail_subset (tail s : Bytes) : withoutTail tail s ⊆ s := by
  rw [withoutTail]
  split
  · exact List.take_subset _ _
  · exact List.Subset.refl s

/-- The first piece of a text is its beginning. -/
theorem prefix_of_splitAtMost {sep : UInt8} {n : Nat} {s first : Bytes} {rest : List Bytes}
    (split : splitAtMost sep n s = first :: rest) : first <+: s := by
  cases n with
  | zero =>
      rw [splitAtMost] at split
      obtain ⟨rfl, -⟩ := List.cons.inj split
      exact List.prefix_rfl
  | succ n =>
      rw [splitAtMost] at split
      split at split
      · obtain ⟨rfl, -⟩ := List.cons.inj split
        exact List.prefix_rfl
      · rename_i head tail cut
        rw [← (List.cons.inj split).1]
        rw [cutByte, List.span_eq_takeWhile_dropWhile] at cut
        split at cut
        · cases cut
        · rename_i front b back parts
          cases cut
          rw [← (Prod.mk.inj parts).1]
          exact List.takeWhile_prefix _

def endedLines (s : Bytes) : List Line := (splitOn 10 s).dropLast.map fun p => Line.mk p true

theorem lines_eq (s : Bytes) :
    lines s = endedLines s ∨ ∃ text, lines s = endedLines s ++ [⟨text, false⟩] := by
  rw [lines, endedLines]
  split
  · exact .inr ⟨_, rfl⟩
  · exact .inl rfl

/-- Lines that were ended are lines of every longer text. -/
theorem endedLines_prefix {s full : Bytes} (part : s <+: full) : endedLines s <+: lines full := by
  obtain ⟨v, rfl⟩ := part
  obtain ⟨last, -, split⟩ := splitOn_append 10 s v
  have front : endedLines s <+: endedLines (s ++ v) := by
    rw [endedLines, endedLines, split, List.dropLast_append_of_ne_nil (splitOn_ne_nil 10 _),
      List.map_append]
    exact List.prefix_append _ _
  rcases lines_eq (s ++ v) with same | ⟨text, same⟩
  · rwa [same]
  · rw [same]
    exact front.trans (List.prefix_append _ _)

/-- As far as the lines of a part are ended, they are the lines of the whole. -/
theorem take_lines_of_prefix {s full : Bytes} (part : s <+: full) {n : Nat}
    (inside : n ≤ (lines s).length) (ended : ∀ l ∈ (lines s).take n, l.ended = true) :
    (lines s).take n = (lines full).take n := by
  have front : (lines s).take n = (endedLines s).take n ∧ n ≤ (endedLines s).length := by
    rcases lines_eq s with same | ⟨text, same⟩
    · rw [same] at inside ⊢
      exact ⟨rfl, inside⟩
    · rw [same] at inside ended ⊢
      rw [List.length_append, List.length_singleton] at inside
      by_cases short : n ≤ (endedLines s).length
      · exact ⟨List.take_append_of_le_length short, short⟩
      · rw [List.take_of_length_le (by simp; omega)] at ended
        have cut := ended ⟨text, false⟩ (by simp)
        cases cut
  obtain ⟨rest, whole⟩ := endedLines_prefix part
  rw [front.1, ← whole, List.take_append_of_le_length front.2]

end Bytes

/-! ## Entries of the lines passed -/

namespace TagTable

/-- The entries in some lines; lines that describe the table and malformed lines have none. -/
def entriesOf (lines : List Bytes.Line) : List Entry :=
  lines.filterMap fun l =>
    if (Reader.lineText l).head? == some headerMark then none else Entry.decode (Reader.lineText l)

/-- An entry as it stands in its line, before its place is looked up. -/
def Entry.unplaced (e : Entry) : Entry := { e with line := 0 }

namespace Reader

/-- A line that is cut short by a failure is not passed. -/
def Passable (r : Reader) (l : Bytes.Line) : Prop := r.failure.isSome = true → l.ended = true

theorem decode_unplaced {line : Bytes} {e : Entry} (decoded : Entry.decode line = some e) :
    e.unplaced = e := by
  rw [Entry.decode] at decoded
  split at decoded
  · split at decoded
    · cases decoded
    · split at decoded
      · cases decoded
        rfl
      · cases decoded
        rfl
  · cases decoded

/-- Looking up a place changes the line number and where the search goes on, nothing else. -/
theorem resolve_spec (r : Reader) (e : Entry) :
    (r.resolve e).1.unplaced = e.unplaced ∧ (r.resolve e).2.ahead = r.ahead ∧
      (r.resolve e).2.failure = r.failure ∧ (r.resolve e).2.passed = r.passed ∧
      (r.resolve e).2.stop = r.stop := by
  rw [resolve]
  split <;> exact ⟨rfl, rfl, rfl, rfl, rfl⟩

/-- One call passes some lines: those before the entry it delivers have none. -/
theorem advance_spec (lines : List Bytes.Line) :
    ∀ r : Reader, ∃ n, n ≤ lines.length ∧ (∀ l ∈ lines.take n, r.Passable l) ∧
      (advance r lines).2.passed = r.passed + n ∧
      match (advance r lines).1 with
      | none => entriesOf (lines.take n) = [] ∧
          ((advance r lines).2.badLine = 0 → r.failure = none → n = lines.length)
      | some e => entriesOf (lines.take n) = [e.unplaced] ∧ 0 < n ∧
          (advance r lines).2.ahead = lines.drop n ∧
          (advance r lines).2.failure = r.failure ∧ (advance r lines).2.stop = r.stop := by
  induction lines with
  | nil =>
      intro r
      refine ⟨0, Nat.le_refl 0, by simp, ?_, rfl, fun _ _ => rfl⟩
      rw [advance, finish]
      cases r.failure <;> rfl
  | cons l rest ih =>
      intro r
      rw [advance]
      by_cases cut : (!l.ended && r.failure.isSome) = true
      · rw [if_pos cut]
        refine ⟨0, Nat.zero_le _, by simp, ?_, rfl, fun _ intact => ?_⟩
        · rw [finish]
          cases r.failure <;> rfl
        · rw [intact] at cut
          simp at cut
      · rw [if_neg cut]
        have passable : r.Passable l := by
          intro fails
          simpa [fails] using cut
        by_cases header : ((lineText l).head? == some headerMark) = true
        · rw [if_pos header]
          obtain ⟨n, inside, passables, passed, ended⟩ := ih { r with ahead := rest, passed := r.passed + 1 }
          refine ⟨n + 1, Nat.succ_le_succ inside, ?_, by rw [passed]; exact Nat.add_right_comm _ _ _, ?_⟩
          · intro k member
            rcases List.mem_cons.mp member with rfl | later
            · exact passable
            · exact passables k later
          · have none : entriesOf ((l :: rest).take (n + 1)) = entriesOf (rest.take n) := by
              simp only [entriesOf, List.take_succ_cons, List.filterMap_cons, header, if_true]
            rw [none]
            split at ended
            · exact ⟨ended.1, fun good intact => by rw [ended.2 good intact, List.length_cons]⟩
            · exact ⟨ended.1, Nat.succ_pos n, ended.2.2⟩
        · rw [if_neg header]
          have one : ∀ k ∈ (l :: rest).take 1, r.Passable k := by
            intro k member
            rw [List.mem_singleton.mp member]
            exact passable
          cases decoded : Entry.decode (lineText l) with
          | none =>
              refine ⟨1, by simp, one, rfl, ?_, fun good _ => absurd good (Nat.succ_ne_zero _)⟩
              simp only [entriesOf, List.take_succ_cons, List.take_zero, List.filterMap_cons,
                List.filterMap_nil, if_neg header, decoded]
          | some e =>
              obtain ⟨entry, ahead, failure, passed, stop⟩ :=
                resolve_spec { r with ahead := rest, passed := r.passed + 1 } e
              refine ⟨1, by simp, one, passed, ?_, Nat.one_pos, ahead, failure, stop⟩
              rw [entry, decode_unplaced decoded]
              simp only [entriesOf, List.take_succ_cons, List.take_zero, List.filterMap_cons,
                List.filterMap_nil, if_neg header, decoded]

theorem readAllFrom_spec (fuel : Nat) :
    ∀ (done : List Entry) (r : Reader), r.ahead.length < fuel → r.stop = none →
      ∃ n, n ≤ r.ahead.length ∧ (∀ l ∈ r.ahead.take n, r.Passable l) ∧
        (readAllFrom fuel done r).2.passed = r.passed + n ∧
        (readAllFrom fuel done r).1.map Entry.unplaced =
          done.reverse.map Entry.unplaced ++ entriesOf (r.ahead.take n) ∧
        ((readAllFrom fuel done r).2.badLine = 0 → r.failure = none → n = r.ahead.length) := by
  induction fuel with
  | zero => intro done r room; omega
  | succ fuel ih =>
      intro done r room open_
      obtain ⟨n, inside, passables, passed, ended⟩ := advance_spec r.ahead r
      have step : r.next = advance r r.ahead := by rw [next, open_]
      rw [readAllFrom, step]
      cases call : advance r r.ahead with
      | mk delivered r' =>
          rw [call] at passed ended
          cases delivered with
          | none =>
              refine ⟨n, inside, passables, passed, ?_, ended.2⟩
              rw [ended.1, List.append_nil]
          | some e =>
              obtain ⟨one, positive, ahead, failure, stop⟩ := ended
              have shorter : r'.ahead.length < fuel := by
                rw [ahead, List.length_drop]
                omega
              obtain ⟨m, inside', passables', passed', entries, whole'⟩ :=
                ih (e :: done) r' shorter (stop.trans open_)
              have whole : r.ahead.take (n + m) = r.ahead.take n ++ r'.ahead.take m := by
                rw [ahead, List.take_add]
              refine ⟨n + m, ?_, ?_, ?_, ?_, ?_⟩
              · rw [ahead, List.length_drop] at inside'
                omega
              · intro l member
                rw [whole] at member
                rcases List.mem_append.mp member with first | later
                · exact passables l first
                · exact fun fails => passables' l later (failure.symm ▸ fails)
              · rw [passed', passed, Nat.add_assoc]
              · rw [entries, whole, entriesOf, entriesOf, List.filterMap_append, ← entriesOf,
                  ← entriesOf, one]
                simp
              · intro good intact
                have := whole' good (failure.trans intact)
                rw [ahead, List.length_drop] at this
                omega

/-- What a reader delivers: the entries of the lines it passed, and these are all lines unless one
is malformed or the reading fails. -/
theorem readAll_spec (input : Input) (sources : Option Sources) :
    ∃ n, n ≤ (Bytes.lines input.data).length ∧
      (input.failure.isSome = true → ∀ l ∈ (Bytes.lines input.data).take n, l.ended = true) ∧
      ((ofInput input sources).readAll).2.passed = n ∧
      ((ofInput input sources).readAll).1.map Entry.unplaced =
        entriesOf ((Bytes.lines input.data).take n) ∧
      (((ofInput input sources).readAll).2.badLine = 0 → input.failure = none →
        n = (Bytes.lines input.data).length) := by
  obtain ⟨n, inside, passables, passed, entries, whole⟩ := readAllFrom_spec
    ((ofInput input sources).ahead.length + 1) [] (ofInput input sources) (Nat.lt_succ_self _) rfl
  refine ⟨n, inside, fun fails l member => passables l member fails, ?_, entries, whole⟩
  rw [readAll, passed]
  exact Nat.zero_add n

end Reader

/-- A table `full` of which `input` delivers as much as can be read: all of it, or the bytes before
a failure. -/
def Delivers (input : Input) (full : Bytes) : Prop :=
  input = ⟨full, none⟩ ∨ ∃ n f, input = Input.failingAfter n f full

/-- The entries of a table that come after the lines its reader passed. -/
def unread (full : Bytes) (r : Reader) : List Entry :=
  entriesOf ((Bytes.lines full).drop r.passed)

/-- What was read and what was not are the entries of the whole table. -/
theorem read_append_unread {input : Input} {full : Bytes} (delivers : Delivers input full)
    (sources : Option Sources) :
    ((Reader.ofInput input sources).readAll).1.map Entry.unplaced ++
      unread full ((Reader.ofInput input sources).readAll).2 = entriesOf (Bytes.lines full) := by
  obtain ⟨n, inside, ended, passed, entries, -⟩ := Reader.readAll_spec input sources
  have same : (Bytes.lines input.data).take n = (Bytes.lines full).take n := by
    rcases delivers with rfl | ⟨m, f, rfl⟩
    · rfl
    · exact Bytes.take_lines_of_prefix (List.take_prefix _ _) inside (ended rfl)
  rw [unread, passed, entries, same, entriesOf, entriesOf, ← List.filterMap_append,
    List.take_append_drop, entriesOf]

end TagTable

/-! ## Groups -/

namespace Organizer

open TagTable (Entry)

/-- An entry joins the group before it is put, or begins one. -/
def push (e : Entry) : List Group → List Group
  | g :: rest => if g.file == e.file then ⟨e.file, e :: g.entries⟩ :: rest else ⟨e.file, [e]⟩ :: g :: rest
  | [] => [⟨e.file, [e]⟩]

theorem groups_eq (entries : List Entry) :
    groups entries = (entries.filter fun e => e.kind != .unknown).foldr push [] := by
  rw [groups]
  congr 1
  funext e gs
  cases gs <;> rfl

/-- The last group of `gs` goes on with the first of `hs`. -/
def Joins (gs hs joined : List Group) : Prop :=
  ∃ front last first rest, gs = front ++ [last] ∧ hs = first :: rest ∧ last.file = first.file ∧
    joined = front ++ ⟨last.file, last.entries ++ first.entries⟩ :: rest

theorem foldr_push (known : List Entry) (gs : List Group) :
    known.foldr push gs = known.foldr push [] ++ gs ∨
      Joins (known.foldr push []) gs (known.foldr push gs) := by
  induction known with
  | nil => exact .inl rfl
  | cons e known ih =>
      rw [List.foldr_cons, List.foldr_cons]
      rcases ih with apart | ⟨front, last, first, rest, own, rfl, same, joined⟩
      · rw [apart]
        cases known.foldr push [] with
        | cons g own =>
            refine .inl ?_
            rw [List.cons_append, push, push]
            split <;> rfl
        | nil =>
            cases gs with
            | nil => exact .inl rfl
            | cons first rest =>
                rw [List.nil_append, push]
                split
                · rename_i same
                  refine .inr ⟨[], ⟨e.file, [e]⟩, first, rest, rfl, rfl, ?_, rfl⟩
                  exact (beq_iff_eq.mp same).symm
                · exact .inl rfl
      · rw [own, joined]
        cases front with
        | cons g front =>
            rw [List.cons_append, List.cons_append, push, push]
            refine .inr ?_
            split
            · exact ⟨⟨e.file, e :: g.entries⟩ :: front, last, first, rest, rfl, rfl, same, rfl⟩
            · exact ⟨⟨e.file, [e]⟩ :: g :: front, last, first, rest, rfl, rfl, same, rfl⟩
        | nil =>
            rw [List.nil_append, List.nil_append, push, push]
            refine .inr ?_
            by_cases joins : (last.file == e.file) = true
            · rw [if_pos joins, if_pos joins]
              refine ⟨[], ⟨e.file, e :: last.entries⟩, first, rest, rfl, rfl, ?_, rfl⟩
              exact (beq_iff_eq.mp joins).symm.trans same
            · rw [if_neg joins, if_neg joins]
              exact ⟨[⟨e.file, [e]⟩], last, first, rest, rfl, rfl, same, rfl⟩

/-- More entries make more groups, and may go on with the last one. -/
theorem groups_append (xs ys : List Entry) :
    groups (xs ++ ys) = groups xs ++ groups ys ∨ Joins (groups xs) (groups ys) (groups (xs ++ ys)) := by
  simp only [groups_eq, List.filter_append, List.foldr_append]
  exact foldr_push _ _

/-- A group without the places of its entries. -/
def Group.unplaced (g : Group) : Group := ⟨g.file, g.entries.map Entry.unplaced⟩

/-- Places do not matter to the grouping. -/
theorem groups_map_unplaced (entries : List Entry) :
    groups (entries.map Entry.unplaced) = (groups entries).map Group.unplaced := by
  have pushed : ∀ (e : Entry) (gs : List Group),
      push e.unplaced (gs.map Group.unplaced) = (push e gs).map Group.unplaced := by
    intro e gs
    cases gs with
    | nil => rfl
    | cons g rest =>
        rw [List.map_cons, push, push]
        change (if (g.file == e.file) = true then _ else _) = _
        split <;> rfl
  rw [groups_eq, groups_eq, List.filter_map]
  change ((entries.filter fun e => e.kind != .unknown).map Entry.unplaced).foldr push [] = _
  induction entries.filter fun e => e.kind != .unknown with
  | nil => rfl
  | cons e known ih => rw [List.map_cons, List.foldr_cons, ih, pushed, List.foldr_cons]

/-- The last group of the entries read and the first of those that were not name one file. -/
def Cut (read unread : List Entry) (file : Bytes) : Prop :=
  (groups read).getLast?.map (·.file) = some file ∧ (groups unread).head?.map (·.file) = some file

instance (read unread : List Entry) (file : Bytes) : Decidable (Cut read unread file) :=
  inferInstanceAs (Decidable (_ ∧ _))

/-- A group that was read is a group of the table, unless it is cut. -/
theorem mem_groups_append {xs : List Entry} {g : Group} (member : g ∈ groups xs) (ys : List Entry) :
    g ∈ groups (xs ++ ys) ∨ (groups xs).getLast? = some g ∧ Cut xs ys g.file := by
  rcases groups_append xs ys with apart | ⟨front, last, first, rest, own, more, same, joined⟩
  · rw [apart]
    exact .inl (List.mem_append_left _ member)
  · rw [own] at member
    rcases List.mem_append.mp member with inFront | isLast
    · rw [joined]
      exact .inl (List.mem_append_left _ inFront)
    · obtain rfl := List.mem_singleton.mp isLast
      refine .inr ⟨by rw [own, List.getLast?_concat], ?_, ?_⟩
      · rw [own, List.getLast?_concat]
        rfl
      · rw [more, same]
        rfl

end Organizer

end SymbolHistory
