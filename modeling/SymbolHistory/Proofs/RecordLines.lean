/-
# Proofs.RecordLines -- which records a diff file gives back

A diff file has no escapes.  Its writer takes any record, its reader ends a line
at a newline, drops a carriage return there and refuses lines that are too long.
So a list of records is read back exactly when each of them is `Plain`
(`readAll_writeAll_iff`): no earlier record can make up for a later one, because
what a record is read from begins where the one before it ended.
-/
import Mathlib.Algebra.Group.Int.Defs
import Mathlib.Algebra.Group.Nat.Defs
import SymbolHistory.History.Record
import SymbolHistory.Proofs.FieldLines

set_option autoImplicit false

namespace SymbolHistory

namespace Bytes

/-- A text that does not end in a byte has none of it to lose at its end. -/
theorem withoutTail_of_getLast? {b : UInt8} {s : Bytes} (ending : s.getLast? ≠ some b) :
    withoutTail [b] s = s := by
  rw [withoutTail, endsWith, if_neg]
  rcases List.eq_nil_or_concat s with rfl | ⟨front, c, rfl⟩
  · exact Bool.false_ne_true
  · simpa using fun same : b = c => ending (by simp [same])

theorem withoutReturn_return (s : Bytes) : withoutReturn (s ++ [13]) = s := withoutTail_append [13] s

theorem withoutReturn_of_getLast? {s : Bytes} (ending : s.getLast? ≠ some 13) :
    withoutReturn s = s := withoutTail_of_getLast? ending

theorem withoutReturn_cons_ne_nil {b : UInt8} (other : b ≠ 13) (s : Bytes) :
    withoutReturn (b :: s) ≠ [] := by
  obtain ⟨front, last, same⟩ : ∃ front last, b :: s = front ++ [last] :=
    ⟨_, _, (List.dropLast_concat_getLast (List.cons_ne_nil b s)).symm⟩
  rw [same]
  by_cases isReturn : last = 13
  · subst isReturn
    rw [withoutReturn_return]
    rintro rfl
    exact other (List.cons.inj same).1
  · rw [withoutReturn_concat isReturn]
    simp

end Bytes

namespace Record

/-- The record keeps to its line, and to its fields there. -/
structure Plain (r : Record) : Prop where
  name : 9 ∉ r.id.name ∧ 10 ∉ r.id.name
  file : 9 ∉ r.place.file ∧ 10 ∉ r.place.file
  extra : 10 ∉ r.place.extra
  ending : r.place.extra.getLast? ≠ some 13
  short : (r.format ++ [10]).length ≤ 2 ^ 20

/-- Its line number is one of 64 signed bits. -/
def Wide (r : Record) : Prop := -2 ^ 63 ≤ r.place.line ∧ r.place.line < 2 ^ 63

instance (r : Record) : Decidable r.Plain :=
  decidable_of_iff ((9 ∉ r.id.name ∧ 10 ∉ r.id.name) ∧ (9 ∉ r.place.file ∧ 10 ∉ r.place.file) ∧
      10 ∉ r.place.extra ∧ r.place.extra.getLast? ≠ some 13 ∧ (r.format ++ [10]).length ≤ 2 ^ 20)
    ⟨fun ⟨name, file, extra, ending, short⟩ => ⟨name, file, extra, ending, short⟩,
      fun ⟨name, file, extra, ending, short⟩ => ⟨name, file, extra, ending, short⟩⟩

instance (r : Record) : Decidable r.Wide := inferInstanceAs (Decidable (_ ∧ _))

/-! ## One line -/

/-- The fields of a record before its extra text. -/
def fields (r : Record) : List Bytes :=
  [[r.action.letter], r.id.name, r.id.kind.name, r.place.file, Decimal.ofInt r.place.line]

theorem format_eq (r : Record) : r.format = Bytes.join [Symbol.tab] (r.fields ++ [r.place.extra]) := rfl

/-- The line of a record is its fields, each with a tab behind it, and the extra text. -/
theorem format_append (r : Record) :
    r.format = r.fields.flatMap (fun f => f ++ [Symbol.tab]) ++ r.place.extra := by
  simp [format_eq, fields, Bytes.join]

theorem parse_format {r : Record} (wide : r.Wide) (name : 9 ∉ r.id.name) (file : 9 ∉ r.place.file) :
    parse r.format = .ok r := by
  have clean : ∀ f ∈ r.fields, Symbol.tab ∉ f := by
    simp only [fields, List.forall_mem_cons, List.not_mem_nil, false_implies, implies_true, and_true]
    refine ⟨?_, name, SymbolKind.not_mem_name (by decide) _, file,
      Decimal.not_mem_ofInt_of_control (by decide) _⟩
    cases r.action <;> decide
  have split : Bytes.splitAtMost Symbol.tab 5 r.format = r.fields ++ [r.place.extra] :=
    Bytes.splitAtMost_join r.place.extra clean
  have number : Decimal.signed (Decimal.ofInt r.place.line) = .ok r.place.line :=
    Decimal.signed_ofInt wide.1 wide.2
  rw [parse, split, fields]
  simp only [List.cons_append, List.nil_append, number, SymbolKind.ofName_name]
  cases r with
  | mk action id place => cases action <;> rfl

/-- What a record is read from holds its texts, and no tab stands in its name or file. -/
theorem parts_of_parse {text : Bytes} {r : Record} (parsed : parse text = .ok r) :
    (9 ∉ r.id.name ∧ 9 ∉ r.place.file) ∧
      r.id.name ⊆ text ∧ r.place.file ⊆ text ∧ r.place.extra ⊆ text := by
  obtain ⟨whole, clean⟩ := Bytes.splitAtMost_spec Symbol.tab 5 text
  unfold parse at parsed
  split at parsed
  · rename_i mark name kind file number extra split
    rw [split] at whole clean
    have isRecord : r.id.name = name ∧ r.place.file = file ∧ r.place.extra = extra := by
      dsimp only at parsed
      split at parsed
      · obtain ⟨action, -, parsed⟩ := exists_of_bind_ok parsed
        obtain ⟨n, -, parsed⟩ := exists_of_bind_ok parsed
        cases parsed
        exact ⟨rfl, rfl, rfl⟩
      · cases parsed
    obtain ⟨rfl, rfl, rfl⟩ := isRecord
    refine ⟨⟨clean _ (by simp), clean _ (by simp)⟩, ?_⟩
    rw [← whole]
    refine ⟨?_, ?_, ?_⟩ <;>
    · intro b member
      simp [Bytes.join, member]
  · cases parsed

theorem newline_not_mem_format {r : Record} (name : 10 ∉ r.id.name) (file : 10 ∉ r.place.file)
    (extra : 10 ∉ r.place.extra) : 10 ∉ r.format := by
  rw [format_append]
  intro bad
  rcases List.mem_append.mp bad with field | last
  · obtain ⟨f, isField, inside⟩ := List.mem_flatMap.mp field
    have clean : ∀ f ∈ r.fields, 10 ∉ f := by
      simp only [fields, List.forall_mem_cons, List.not_mem_nil, false_implies, implies_true, and_true]
      refine ⟨?_, name, SymbolKind.not_mem_name (by decide) _, file,
        Decimal.not_mem_ofInt_of_control (by decide) _⟩
      cases r.action <;> decide
    rcases List.mem_append.mp inside with isText | isTab
    · exact clean f isField isText
    · exact absurd isTab (by decide)
  · exact extra last

/-- A line ends like its extra text, or with the tab before that. -/
theorem getLast?_format {r : Record} (ending : r.place.extra.getLast? ≠ some 13) :
    r.format.getLast? ≠ some 13 := by
  rw [format_append, List.getLast?_append]
  cases isLast : r.place.extra.getLast? with
  | none =>
      have isTab : (r.fields.flatMap fun f => f ++ [Symbol.tab]).getLast? = some Symbol.tab := by
        simp only [fields, List.flatMap_cons, List.flatMap_nil, List.append_nil, ← List.append_assoc,
          List.getLast?_concat]
      rw [isTab]
      decide
  | some b =>
      rw [isLast] at ending
      exact ending

theorem tooLong_eq_false_iff {l : Bytes.Line} :
    tooLong l = false ↔ (l.text ++ [10]).length ≤ 2 ^ 20 := by
  rw [tooLong, decide_eq_false_iff_not, Nat.not_lt, List.length_append]
  rfl

/-! ## Whole files -/

/-- What was read before comes before what is read from the rest. -/
theorem readLines_done (ls : List Bytes.Line) : ∀ done,
    readLines done ls = ⟨done.reverse ++ (readLines [] ls).items, (readLines [] ls).failure⟩ := by
  induction ls with
  | nil =>
      intro done
      simp [readLines]
  | cons l ls ih =>
      intro done
      rw [readLines, readLines]
      split
      · simp
      · dsimp only
        split
        · exact ih done
        · cases parse (Bytes.withoutReturn l.text) with
          | error f => simp
          | ok r =>
              dsimp only
              rw [ih (r :: done), ih [r]]
              simp

/-- Where the first line is not blank, a record is read from it or nothing is read. -/
theorem readLines_cons_iff {l : Bytes.Line} {ls : List Bytes.Line} {r : Record} {rs : List Record}
    (visible : Bytes.withoutReturn l.text ≠ []) :
    readLines [] (l :: ls) = ⟨r :: rs, none⟩ ↔
      tooLong l = false ∧ parse (Bytes.withoutReturn l.text) = .ok r ∧
        readLines [] ls = ⟨rs, none⟩ := by
  rw [readLines]
  cases long : tooLong l with
  | true => simp
  | false =>
      rw [if_neg Bool.false_ne_true, if_neg (by simpa using visible)]
      cases parsed : parse (Bytes.withoutReturn l.text) with
      | error f => simp
      | ok r' =>
          dsimp only
          rw [readLines_done ls [r']]
          cases readLines [] ls
          simp [and_assoc]

/-- A file that begins with the line of a record gives the record back exactly when it is plain. -/
theorem readLines_format_iff {r : Record} (wide : r.Wide) (v : Bytes) (rs : List Record) :
    readLines [] (Bytes.lines (r.format ++ 10 :: v)) = ⟨r :: rs, none⟩ ↔
      r.Plain ∧ readLines [] (Bytes.lines v) = ⟨rs, none⟩ := by
  have letter : r.action.letter ≠ 10 ∧ r.action.letter ≠ 13 := by cases r.action <;> decide
  obtain ⟨text, start⟩ : ∃ text, r.format = r.action.letter :: text :=
    ⟨_, (format_append r).trans rfl⟩
  have visible : Bytes.withoutReturn r.format ≠ [] := by
    rw [start]
    exact Bytes.withoutReturn_cons_ne_nil letter.2 text
  constructor
  · intro read
    -- of a record on several lines only the first line would be read, and it lacks what is behind it
    have unbroken : 10 ∉ r.format := by
      intro broken
      obtain ⟨l, after, whole, oneLine⟩ := List.eq_append_cons_of_mem broken
      have begins : Bytes.withoutReturn l ≠ [] := by
        cases l with
        | nil => exact absurd (List.cons.inj (start.symm.trans whole)).1 letter.1
        | cons b l =>
            rw [start] at whole
            rw [← (List.cons.inj whole).1]
            exact Bytes.withoutReturn_cons_ne_nil letter.2 l
      rw [whole, List.append_assoc, List.cons_append, Bytes.lines_cons oneLine,
        readLines_cons_iff begins] at read
      obtain ⟨-, name, file, extra⟩ := parts_of_parse read.2.1
      have absent : ∀ {s : Bytes}, s ⊆ Bytes.withoutReturn l → 10 ∉ s := fun inside bad =>
        oneLine (Bytes.withoutTail_subset _ _ (inside bad))
      exact newline_not_mem_format (absent name) (absent file) (absent extra) broken
    rw [Bytes.lines_cons unbroken, readLines_cons_iff visible] at read
    obtain ⟨fits, parsed, later⟩ := read
    obtain ⟨⟨nameTab, fileTab⟩, name, file, extra⟩ := parts_of_parse parsed
    have absent : ∀ {s : Bytes}, s ⊆ Bytes.withoutReturn r.format → 10 ∉ s := fun inside bad =>
      unbroken (Bytes.withoutTail_subset _ _ (inside bad))
    refine ⟨⟨⟨nameTab, absent name⟩, ⟨fileTab, absent file⟩, absent extra, ?_, ?_⟩, later⟩
    · intro ending
      obtain ⟨front, isExtra⟩ := List.getLast?_eq_some_iff.mp ending
      let shorter : Record := { r with place := { r.place with extra := front } }
      have returned : r.format = shorter.format ++ [13] := by
        rw [format_append, format_append, isExtra, List.append_assoc]
        rfl
      have other : parse (Bytes.withoutReturn r.format) = .ok shorter := by
        rw [returned, Bytes.withoutReturn_return]
        exact parse_format wide nameTab fileTab
      have same : r.place.extra = front :=
        congrArg (fun x : Record => x.place.extra) (Except.ok.inj (parsed.symm.trans other))
      rw [isExtra] at same
      simp at same
    · exact tooLong_eq_false_iff.mp fits
  · rintro ⟨plain, later⟩
    have oneLine : 10 ∉ r.format := newline_not_mem_format plain.name.2 plain.file.2 plain.extra
    have kept : Bytes.withoutReturn r.format = r.format :=
      Bytes.withoutReturn_of_getLast? (getLast?_format plain.ending)
    rw [Bytes.lines_cons oneLine, readLines_cons_iff visible, kept]
    exact ⟨tooLong_eq_false_iff.mpr plain.short,
      parse_format wide plain.name.1 plain.file.1, later⟩

/-- A diff file gives back the records it was written from exactly when each keeps to its line and
fields. -/
theorem readAll_writeAll_iff {rs : List Record} (wide : ∀ r ∈ rs, r.Wide) :
    readAll ⟨writeAll rs, none⟩ = ⟨rs, none⟩ ↔ ∀ r ∈ rs, r.Plain := by
  have unfailing : readAll ⟨writeAll rs, none⟩ = readLines [] (Bytes.lines (writeAll rs)) := by
    rw [readAll]
    cases (readLines [] (Bytes.lines (writeAll rs))).failure <;> rfl
  rw [unfailing]
  clear unfailing
  induction rs with
  | nil => exact ⟨fun _ r none => absurd none List.not_mem_nil, fun _ => rfl⟩
  | cons r rs ih =>
      have together : writeAll (r :: rs) = r.format ++ 10 :: writeAll rs := by
        rw [writeAll, List.flatMap_cons, List.append_assoc]
        rfl
      have later := ih fun r' member => wide r' (List.mem_cons_of_mem _ member)
      rw [together, readLines_format_iff (wide r List.mem_cons_self), List.forall_mem_cons]
      exact and_congr_right fun _ => later

/-- Tabs and a return inside the extra text are kept, and so are an empty name and file. -/
def awkward : List Record :=
  [⟨.add, ⟨lit "max", .define⟩, ⟨lit "a b.c", -1, lit "\t(a,\rb)\t"⟩⟩,
    ⟨.remove, ⟨[], .unknown⟩, ⟨[], 2 ^ 63 - 1, []⟩⟩]

/-- The second record ends in a return, which its reader takes for the end of the line. -/
def returned : List Record :=
  [⟨.add, ⟨lit "max", .define⟩, ⟨lit "a.c", 1, []⟩⟩,
    ⟨.remove, ⟨lit "min", .define⟩, ⟨lit "a.c", 2, lit "\r"⟩⟩]

theorem readAll_writeAll_iff_awkward :
    ((∀ r ∈ awkward, r.Wide) ∧ readAll ⟨writeAll awkward, none⟩ = ⟨awkward, none⟩) ∧
      (∀ r ∈ returned, r.Wide) ∧ readAll ⟨writeAll returned, none⟩ ≠ ⟨returned, none⟩ := by
  refine ⟨⟨by decide +kernel, ?_⟩, by decide +kernel, ?_⟩
  · exact (readAll_writeAll_iff (by decide +kernel)).mpr (by decide +kernel)
  · intro same
    exact absurd ((readAll_writeAll_iff (by decide +kernel)).mp same) (by decide +kernel)

end Record

end SymbolHistory
