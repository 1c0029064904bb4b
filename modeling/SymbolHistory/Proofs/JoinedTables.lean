/-
# Proofs.JoinedTables -- a table read without sources, and two read as one

Without sources no place is looked up, so an entry says what its own line says.
What is read of a table then depends on its lines one by one, up to the first
malformed one (`readAll_unsourced`), and a table after a newline is read as if it
stood alone, with its lines counted on (`readAll_joined`).

The combined table is made by putting tables one after another, and its meaning
rests on this.
-/
import SymbolHistory.Proofs.TableParts

set_option autoImplicit false

namespace SymbolHistory

namespace Bytes

theorem Ended.ended_of_mem_lines {s : Bytes} (ended : s.Ended) : ∀ l ∈ lines s, l.ended = true := by
  refine ended.induction (List.forall_mem_nil _) fun a b oneLine _ later => ?_
  rw [lines_cons oneLine]
  exact List.forall_mem_cons.mpr ⟨rfl, later⟩

/-- A text whose lines all have their newlines has as many lines as newlines. -/
theorem Ended.length_lines {s : Bytes} (ended : s.Ended) : (lines s).length = s.count 10 := by
  refine ended.induction rfl fun a b oneLine _ later => ?_
  rw [lines_cons oneLine, List.length_cons, later, List.count_append, List.count_cons_self,
    List.count_eq_zero.mpr oneLine, Nat.zero_add]

end Bytes

namespace TagTable

/-- The entry with the line number that stands in its address, if one does. -/
def Entry.numbered (e : Entry) : Entry :=
  match Address.ofExpression e.expression with
  | .number n => { e with line := n }
  | _ => e

/-- The lines that can be judged: one that a failure cuts short cannot. -/
def heard (failure : Option Fault) (lines : List Bytes.Line) : List Bytes.Line :=
  lines.takeWhile fun l => l.ended || failure.isNone

/-- How a table ends, or a failure that waits there. -/
def Stop.atEnd : Option Fault → Stop
  | some f => .failed (.during (lit "tagfile read") f)
  | none => .finished

/-- Why the reading of some lines stops, if lines were passed before them. -/
def stopOf (failure : Option Fault) (passed : Nat) (lines : List Bytes.Line) : Stop :=
  if (heard failure lines).all readable then .atEnd failure
  else .malformed (passed + ((heard failure lines).takeWhile readable).length + 1)

/-- What is read of some lines without sources. -/
def saidBy (failure : Option Fault) (lines : List Bytes.Line) : List Entry :=
  (entriesOf ((heard failure lines).takeWhile readable)).map Entry.numbered

namespace Reader

variable {r : Reader}

theorem resolve_unsourced (unsourced : r.sources = none) (e : Entry) : r.resolve e = (e.numbered, r) := by
  rw [resolve, Entry.numbered, unsourced]
  cases Address.ofExpression e.expression <;> rfl

/-! ## One line after another -/

section

variable {l : Bytes.Line} {rest : List Bytes.Line} (step : r.next = advance r (l :: rest))
  (whole : (!l.ended && r.failure.isSome) = false)

include step whole

/-- A line that describes the table is passed. -/
theorem readAll_header (running : r.stop = none)
    (header : ((lineText l).head? == some headerMark) = true) :
    r.readAll = readAll { r with ahead := rest, passed := r.passed + 1 } := by
  have same : r.next = next { r with ahead := rest, passed := r.passed + 1 } := by
    rw [step, next]
    simp only [running, advance, whole, header, Bool.false_eq_true, if_false, if_true]
  cases call : r.next with
  | mk delivered r' =>
      cases delivered with
      | none => rw [readAll_of_none call, readAll_of_none (same.symm.trans call)]
      | some e => rw [readAll_of_some call, readAll_of_some (same.symm.trans call)]

variable (header : ¬((lineText l).head? == some headerMark) = true)

include header

theorem readAll_malformed (decoded : Entry.decode (lineText l) = none) :
    r.readAll.1 = [] ∧ r.readAll.2.stop = some (.malformed (r.passed + 1)) := by
  have stopped : (advance r (l :: rest)).1 = none ∧
      (advance r (l :: rest)).2.stop = some (.malformed (r.passed + 1)) := by
    simp only [advance, whole, header, decoded, Bool.false_eq_true, if_false, and_self]
  rw [readAll_of_none (step.trans (Prod.ext stopped.1 rfl))]
  exact ⟨rfl, stopped.2⟩

theorem readAll_entry (unsourced : r.sources = none) {e : Entry}
    (decoded : Entry.decode (lineText l) = some e) :
    r.readAll.1 = e.numbered :: (readAll { r with ahead := rest, passed := r.passed + 1 }).1 ∧
      r.readAll.2 = (readAll { r with ahead := rest, passed := r.passed + 1 }).2 := by
  have placed := resolve_unsourced (r := { r with ahead := rest, passed := r.passed + 1 }) unsourced e
  have delivered : advance r (l :: rest) =
      (some e.numbered, { r with ahead := rest, passed := r.passed + 1 }) := by
    simp only [advance, whole, header, decoded, placed, Bool.false_eq_true, if_false]
  rw [readAll_of_some (step.trans delivered)]
  exact ⟨rfl, rfl⟩

end

theorem stop_finish (r : Reader) : r.finish.stop = some (.atEnd r.failure) := by
  rw [finish]
  cases r.failure <;> rfl

/-- Without sources a line says what is read, and no more is remembered than its number. -/
theorem readAll_unsourced (lines : List Bytes.Line) :
    ∀ r : Reader, r.ahead = lines → r.sources = none → r.stop = none →
      r.readAll.1 = saidBy r.failure lines ∧
        r.readAll.2.stop = some (stopOf r.failure r.passed lines) := by
  induction lines with
  | nil =>
      intro r ahead _ running
      have atOnce : r.next = (none, r.finish) := by rw [next, running, ahead, advance]
      rw [readAll_of_none atOnce]
      exact ⟨rfl, r.stop_finish⟩
  | cons l rest ih =>
      intro r ahead unsourced running
      have step : r.next = advance r (l :: rest) := by rw [next, running, ahead]
      cases whole : !l.ended && r.failure.isSome with
      | true =>
          have unheard : heard r.failure (l :: rest) = [] := by
            refine List.takeWhile_cons_of_neg ?_
            revert whole
            cases l.ended <;> cases r.failure <;> simp
          have atOnce : advance r (l :: rest) = (none, r.finish) := by
            simp only [advance, whole, if_true]
          rw [readAll_of_none (step.trans atOnce), saidBy, stopOf, unheard]
          exact ⟨rfl, r.stop_finish⟩
      | false =>
          have isHeard : heard r.failure (l :: rest) = l :: heard r.failure rest := by
            refine List.takeWhile_cons_of_pos ?_
            revert whole
            cases l.ended <;> cases r.failure <;> simp
          -- once this line was passed, the others are counted on from it
          have counted : readable l = true →
              stopOf r.failure (r.passed + 1) rest = stopOf r.failure r.passed (l :: rest) := by
            intro here
            rw [stopOf, stopOf, isHeard, List.all_cons, here, Bool.true_and,
              List.takeWhile_cons_of_pos here, List.length_cons]
            simp only [Nat.add_assoc, Nat.add_comm 1]
          obtain ⟨entries, stop⟩ :=
            ih { r with ahead := rest, passed := r.passed + 1 } rfl unsourced running
          by_cases header : ((lineText l).head? == some headerMark) = true
          · have here : readable l = true := by rw [readable, header, Bool.true_or]
            rw [readAll_header step whole running header, entries, stop, counted here]
            refine ⟨?_, rfl⟩
            rw [saidBy, saidBy, isHeard, List.takeWhile_cons_of_pos here, entriesOf, entriesOf,
              List.filterMap_cons, if_pos header]
          · cases decoded : Entry.decode (lineText l) with
            | none =>
                have bad : ¬readable l = true := by
                  rw [readable, decoded, Option.isSome_none, Bool.or_false]
                  exact header
                obtain ⟨none, stopped⟩ := readAll_malformed step whole header decoded
                rw [none, stopped, saidBy, stopOf, isHeard, List.takeWhile_cons_of_neg bad,
                  List.all_cons, Bool.eq_false_iff.mpr bad, Bool.false_and]
                exact ⟨rfl, rfl⟩
            | some e =>
                have here : readable l = true := by
                  rw [readable, decoded, Option.isSome_some, Bool.or_true]
                obtain ⟨more, same⟩ := readAll_entry step whole header unsourced decoded
                rw [more, same, entries, stop, counted here]
                refine ⟨?_, rfl⟩
                rw [saidBy, saidBy, isHeard, List.takeWhile_cons_of_pos here, entriesOf, entriesOf,
                  List.filterMap_cons, if_neg header, decoded]
                rfl

theorem readAll_ofInput (u : Input) :
    (ofInput u none).readAll.1 = saidBy u.failure (Bytes.lines u.data) ∧
      (ofInput u none).readAll.2.stop = some (stopOf u.failure 0 (Bytes.lines u.data)) :=
  readAll_unsourced _ (ofInput u none) rfl rfl rfl

end Reader

/-! ## One table after another -/

theorem heard_append {failure : Option Fault} {xs : List Bytes.Line} (ended : ∀ l ∈ xs, l.ended = true)
    (ys : List Bytes.Line) : heard failure (xs ++ ys) = xs ++ heard failure ys :=
  List.takeWhile_append_of_pos fun l member => by rw [ended l member, Bool.true_or]

theorem heard_none (lines : List Bytes.Line) : heard none lines = lines :=
  List.takeWhile_eq_self_iff.mpr fun l _ => by rw [Option.isNone_none, Bool.or_true]

variable {failure : Option Fault} {passed : Nat} {xs ys : List Bytes.Line}

/-- Lines behind readable ones say what they do alone, and are counted on. -/
theorem read_append_of_readable (ended : ∀ l ∈ xs, l.ended = true) (good : ∀ l ∈ xs, readable l = true) :
    saidBy failure (xs ++ ys) = saidBy none xs ++ saidBy failure ys ∧
      stopOf failure passed (xs ++ ys) = stopOf failure (passed + xs.length) ys := by
  constructor
  · rw [saidBy, saidBy, saidBy, heard_append ended, heard_none, List.takeWhile_append_of_pos good,
      List.takeWhile_eq_self_iff.mpr good, entriesOf_append, List.map_append]
  · rw [stopOf, stopOf, heard_append ended, List.takeWhile_append_of_pos good, List.all_append,
      List.all_eq_true.mpr good, Bool.true_and, List.length_append]
    simp only [Nat.add_assoc]

/-- Lines behind a malformed one say nothing. -/
theorem read_append_of_malformed (ended : ∀ l ∈ xs, l.ended = true) (bad : ¬∀ l ∈ xs, readable l = true) :
    saidBy failure (xs ++ ys) = saidBy none xs ∧
      stopOf failure passed (xs ++ ys) = stopOf none passed xs := by
  have short : ¬(xs.takeWhile readable).length = xs.length := fun same =>
    bad (List.takeWhile_eq_self_iff.mp ((List.takeWhile_sublist readable).eq_of_length same))
  have front : (xs ++ heard failure ys).takeWhile readable = xs.takeWhile readable := by
    rw [List.takeWhile_append, if_neg short]
  have bad' : xs.all readable = false := Bool.eq_false_iff.mpr fun all => bad (List.all_eq_true.mp all)
  constructor
  · rw [saidBy, saidBy, heard_append ended, heard_none, front]
  · rw [stopOf, stopOf, heard_append ended, heard_none, front, List.all_append, bad', Bool.false_and]
    rfl

namespace Reader

variable {r : Reader} {lines : List Bytes.Line}

theorem badLine_of_stop (stop : r.stop = some (stopOf failure passed lines)) :
    r.badLine = if (heard failure lines).all readable then 0
      else passed + ((heard failure lines).takeWhile readable).length + 1 := by
  rw [badLine, stop, stopOf]
  cases (heard failure lines).all readable <;> cases failure <;> rfl

theorem fault_of_stop (stop : r.stop = some (stopOf failure passed lines)) :
    r.fault = if (heard failure lines).all readable then failure.map (.during (lit "tagfile read"))
      else none := by
  rw [fault, stop, stopOf]
  cases (heard failure lines).all readable <;> cases failure <;> rfl

theorem stops_of_advance (lines : List Bytes.Line) : ∀ r : Reader, (advance r lines).1 = none →
    ∃ why, (advance r lines).2.stop = some why := by
  induction lines with
  | nil => exact fun r _ => ⟨_, r.stop_finish⟩
  | cons l rest ih =>
      intro r nothing
      rw [advance] at nothing ⊢
      split
      · exact ⟨_, r.stop_finish⟩
      · rename_i whole
        rw [if_neg whole] at nothing
        split
        · rename_i header
          rw [if_pos header] at nothing
          exact ih _ nothing
        · rename_i header
          rw [if_neg header] at nothing
          cases decoded : Entry.decode (lineText l) with
          | none => exact ⟨_, rfl⟩
          | some e =>
              rw [decoded] at nothing
              cases nothing

theorem next_of_stop {why : Stop} (stop : r.stop = some why) : r.next = (none, r) := by
  rw [next, stop]

/-- Once a call has delivered nothing, no call changes anything. -/
theorem next_of_nothing (nothing : r.next.1 = none) : r.next.2.next = (none, r.next.2) := by
  cases stop : r.stop with
  | some why =>
      have still := next_of_stop stop
      rw [still]
      exact still
  | none =>
      have step : r.next = advance r r.ahead := by rw [next, stop]
      rw [step] at nothing ⊢
      obtain ⟨why, stops⟩ := stops_of_advance r.ahead r nothing
      exact next_of_stop stops

end Reader

/-- A table whose lines are ended and another one behind it, read as one table without sources: if
the first is read to its end, its entries are followed by those of the second, which stops as it
does alone, with its lines counted on; if the first has a malformed line, that is where the reading
stops.  A reader that has delivered nothing once never goes on. -/
theorem readAll_joined (table : Bytes) (ended : table.Ended) (more : Input) :
    let first := (Reader.ofInput ⟨table, none⟩ none).readAll
    let second := (Reader.ofInput more none).readAll
    let both := (Reader.ofInput ⟨table ++ more.data, more.failure⟩ none).readAll
    (first.2.stop = some .finished →
      both.1 = first.1 ++ second.1 ∧
      both.2.badLine = (if second.2.badLine = 0 then 0 else second.2.badLine + table.count 10) ∧
      both.2.fault = second.2.fault) ∧
    (first.2.badLine ≠ 0 →
      both.1 = first.1 ∧ both.2.badLine = first.2.badLine ∧ both.2.fault = none) ∧
    (first.2.stop = some .finished ∨ first.2.badLine ≠ 0) ∧
    ∀ r : Reader, r.next.1 = none → ∀ n,
      let later := (fun q : Reader => q.next.2)^[n] r.next.2
      later.next.1 = none ∧ later.next.2.fault = r.next.2.fault ∧
        later.next.2.badLine = r.next.2.badLine := by
  intro first second both
  obtain ⟨entries₁, stop₁⟩ := Reader.readAll_ofInput ⟨table, none⟩
  obtain ⟨entries₂, stop₂⟩ := Reader.readAll_ofInput more
  obtain ⟨entries, stop⟩ := Reader.readAll_ofInput ⟨table ++ more.data, more.failure⟩
  have allEnded := ended.ended_of_mem_lines
  rw [Bytes.lines_append ended] at entries stop
  have judged : first.2.stop = some .finished ↔ ∀ l ∈ Bytes.lines table, readable l = true := by
    rw [stop₁, stopOf, heard_none, ← List.all_eq_true]
    cases (Bytes.lines table).all readable <;> simp [Stop.atEnd]
  have bad_iff : first.2.badLine ≠ 0 ↔ ¬∀ l ∈ Bytes.lines table, readable l = true := by
    rw [Reader.badLine_of_stop stop₁, heard_none, ← List.all_eq_true]
    cases (Bytes.lines table).all readable <;> simp
  refine ⟨fun finished => ?_, fun malformed => ?_, ?_, fun r nothing n => ?_⟩
  · obtain ⟨said, stops⟩ := @read_append_of_readable more.failure 0 _ (Bytes.lines more.data) allEnded
      (judged.mp finished)
    rw [stops] at stop
    refine ⟨by rw [entries, said, ← entries₁, ← entries₂], ?_, ?_⟩
    · rw [Reader.badLine_of_stop stop, Reader.badLine_of_stop stop₂, ended.length_lines]
      split
      · rfl
      · rw [if_neg (Nat.succ_ne_zero _)]
        omega
    · rw [Reader.fault_of_stop stop, Reader.fault_of_stop stop₂]
  · obtain ⟨said, stops⟩ := @read_append_of_malformed more.failure 0 _ (Bytes.lines more.data) allEnded
      (bad_iff.mp malformed)
    rw [stops, ← stop₁] at stop
    have alike : both.2.badLine = first.2.badLine ∧ both.2.fault = first.2.fault := by
      simp only [both, first, Reader.badLine, Reader.fault, stop, and_self]
    refine ⟨by rw [entries, said, ← entries₁], alike.1, alike.2.trans ?_⟩
    rw [Reader.fault_of_stop stop₁]
    split <;> rfl
  · rw [judged, bad_iff]
    exact em _
  · have settled := Reader.next_of_nothing nothing
    have same : (fun q : Reader => q.next.2)^[n] r.next.2 = r.next.2 :=
      Function.iterate_fixed (congrArg Prod.snd settled) n
    simp only [same, settled, and_self]

/-- A table with a line that describes it. -/
def headedTable : Bytes := lit "!_TAG_FILE_SORTED\t0\t//\nalpha\ta.c\t1;\"\tf\n"

/-- A table whose second line is malformed. -/
def brokenTable : Bytes := lit "beta\tb.c\t2;\"\tv\njunk\ngamma\tb.c\t3;\"\tv\n"

theorem readAll_joined_broken :
    let read := fun table : Bytes => (Reader.ofInput ⟨table, none⟩ none).readAll
    headedTable.Ended ∧ brokenTable.Ended ∧
    (read headedTable).2.stop = some .finished ∧ (read brokenTable).2.badLine ≠ 0 ∧
    (read (headedTable ++ brokenTable)).1 = (read headedTable).1 ++ (read brokenTable).1 ∧
    (read (headedTable ++ brokenTable)).2.badLine = 4 ∧
    (read (brokenTable ++ headedTable)).1 = (read brokenTable).1 ∧
    (read (brokenTable ++ headedTable)).2.badLine = 2 ∧
    (read brokenTable).2.next.2.next.1 = none := by
  intro read
  have ended : headedTable.Ended := by decide +kernel
  have ended' : brokenTable.Ended := by decide +kernel
  have finished : (read headedTable).2.stop = some .finished := by decide +kernel
  have second : (read brokenTable).2.badLine = 2 := by decide +kernel
  have lines : headedTable.count 10 = 2 := by decide +kernel
  have malformed : (read brokenTable).2.badLine ≠ 0 := by rw [second]; decide
  obtain ⟨onward, -⟩ := readAll_joined headedTable ended ⟨brokenTable, none⟩
  obtain ⟨-, atBad, -, settled⟩ := readAll_joined brokenTable ended' ⟨headedTable, none⟩
  obtain ⟨entries, bad, -⟩ := onward finished
  obtain ⟨entries', bad', -⟩ := atBad malformed
  have again := (settled (read brokenTable).2 (by decide +kernel) 0).1
  refine ⟨ended, ended', finished, malformed, entries, ?_, entries', bad'.trans second, again⟩
  rw [show (Reader.ofInput ⟨brokenTable, none⟩ none).readAll.2.badLine = 2 from second, lines] at bad
  exact bad

end TagTable

end SymbolHistory
