/-
# Proofs.SavedCounts -- the symbols that are known of are read back

What is known about the last run is a document of texts, counts and a moment.
Texts and counts are read back as they were written.  Of the moment it is enough
that it is one word: whatever the word is read as, it is the last line, so the
document either says what was written or cannot be read (`symbols_of_parse`).
-/
import SymbolHistory.Project.Meta
import SymbolHistory.Proofs.SavedSettings

set_option autoImplicit false

namespace SymbolHistory

namespace Toml

/-! ## Words -/

/-- A byte that neither ends a word nor begins anything else. -/
def isPlain (b : UInt8) : Bool := !endsWord b && b != 34 && b != 39 && b != 91 && b != 123

/-- A text that is read as a word. -/
structure Plain (s : Bytes) : Prop where
  bytes : ∀ b ∈ s, isPlain b = true
  nonempty : s ≠ []

/-- What a word is read as, if it is one. -/
def wordValue (s : Bytes) : Option Value := (word (s ++ [10])).map Prod.fst

variable {s : Bytes}

theorem Plain.word_line (plain : Plain s) (rest : Bytes) :
    word (s ++ 10 :: rest) = (wordValue s).map (·, 10 :: rest) := by
  have inside : ∀ b ∈ s, (!endsWord b) = true := by
    intro b member
    have isPlain := plain.bytes b member
    simp only [Toml.isPlain, Bool.and_eq_true] at isPlain
    exact isPlain.1.1.1.1
  have cut : ∀ rest, (s ++ 10 :: rest).span (fun b => !endsWord b) = (s, 10 :: rest) :=
    fun rest => Bytes.span_append inside (by simp [endsWord])
  rw [wordValue, word, word, cut, cut]
  simp [Function.comp_def]

theorem Plain.first (plain : Plain s) : ∃ b tail, s = b :: tail ∧ isPlain b = true := by
  obtain ⟨b, tail, rfl⟩ := List.exists_cons_of_ne_nil plain.nonempty
  exact ⟨b, tail, rfl, plain.bytes b List.mem_cons_self⟩

theorem Plain.solid (plain : Plain s) (rest : Bytes) : Solid (s ++ 10 :: rest) := by
  obtain ⟨b, tail, rfl, isPlain⟩ := plain.first
  intro b' first
  obtain rfl : b = b' := Option.some.inj first
  simp only [Toml.isPlain, endsWord, Bool.and_eq_true, Bool.not_eq_true', Bool.or_eq_false_iff,
    beq_eq_false_iff_ne, bne_iff_ne] at isPlain
  grind

/-- A word is read at the end of a line as what it is read as alone. -/
theorem Plain.value_line (plain : Plain s) (fuel : Nat) (rest : Bytes) :
    value (fuel + 1) (s ++ 10 :: rest) = (wordValue s).map (·, 10 :: rest) := by
  have read := plain.word_line rest
  obtain ⟨b, tail, rfl, isPlain⟩ := plain.first
  simp only [Toml.isPlain, Bool.and_eq_true, bne_iff_ne] at isPlain
  rw [List.cons_append] at read ⊢
  rw [value]
  · exact read
  all_goals grind

theorem Plain.spells (plain : Plain s) {v : Value} (said : wordValue s = some v) : Spells s v where
  solid := plain.solid
  reads fuel rest enough := by
    obtain ⟨fuel, rfl⟩ : ∃ n, fuel = n + 1 := ⟨fuel - 1, by omega⟩
    rw [plain.value_line, said]
    rfl

/-- A line whose word is nothing ends the reading. -/
theorem Plain.unread_line (plain : Plain s) (unsaid : wordValue s = none) {n : String} (bare : Bare (lit n))
    (indent fuel : Nat) (st : State) (rest : Bytes) :
    documentLines (fuel + 1) st (line indent n s ++ rest) = none := by
  have parts : line indent n s ++ rest =
      List.replicate indent 32 ++ (lit n ++ 32 :: 61 :: 32 :: (s ++ 10 :: rest)) := by
    simp [line, show lit " = " = [32, 61, 32] from by decide]
  have skipped : skipSpaces (32 :: 61 :: 32 :: (s ++ 10 :: rest)) = 61 :: 32 :: (s ++ 10 :: rest) := rfl
  have named := @name_bare (lit n) (32 :: 61 :: 32 :: (s ++ 10 :: rest)) bare (by simp [isBare, Bytes.isDigit])
    (by rw [skipped]; simp) (lit n ++ 32 :: 61 :: 32 :: (s ++ 10 :: rest)).length
  have valued := skipSpaces_solid (plain.solid rest) 1
  have unassigned : assignment st (lit n ++ 32 :: 61 :: 32 :: (s ++ 10 :: rest)) = none := by
    rw [assignment, named, skipped]
    change (value _ (skipSpaces (List.replicate 1 32 ++ (s ++ 10 :: rest)))).bind _ = _
    rw [valued, plain.value_line, unsaid]
    rfl
  have solid := bare.solid (32 :: 61 :: 32 :: (s ++ 10 :: rest))
  rw [parts, documentLines, skipLines_solid solid]
  obtain ⟨b, tail, cons, isBare⟩ := bare.cons
  have other := isBare_solid isBare
  rw [cons] at unassigned ⊢
  simp only [List.cons_append, Option.bind_eq_bind, Option.bind_some] at unassigned ⊢
  split
  case h_4 => rw [unassigned]; rfl
  all_goals grind

end Toml

namespace Timestamp

theorem isPlain_of_isDigit {b : UInt8} (isDigit : Bytes.isDigit b = true) : Toml.isPlain b = true := by
  simp only [Bytes.isDigit, Bool.and_eq_true, decide_eq_true_eq] at isDigit
  simp only [Toml.isPlain, Toml.endsWord, Bool.and_eq_true, Bool.not_eq_true', Bool.or_eq_false_iff,
    beq_eq_false_iff_ne, bne_iff_ne]
  and_intros <;> grind

theorem isPlain_padded (width n : Nat) : ∀ b ∈ padded width n, Toml.isPlain b = true := by
  simp only [padded, List.forall_mem_append]
  refine ⟨fun b member => ?_, fun b member => isPlain_of_isDigit (Decimal.isDigit_of_mem_ofNat member)⟩
  rw [List.eq_of_mem_replicate member]
  decide +kernel

theorem isPlain_fractionText (n : Nat) : ∀ b ∈ fractionText n, Toml.isPlain b = true := by
  rw [fractionText]
  split
  · exact fun b member => absurd member List.not_mem_nil
  · refine List.forall_mem_cons.mpr ⟨by decide +kernel, fun b member => isPlain_padded 9 n b ?_⟩
    exact List.mem_reverse.mp ((List.dropWhile_sublist _).subset (List.mem_reverse.mp member))

theorem isPlain_zoneText (offset : Int) : ∀ b ∈ zoneText offset, Toml.isPlain b = true := by
  rw [zoneText]
  split
  · decide +kernel
  · simp only [List.forall_mem_append]
    refine ⟨⟨⟨?_, isPlain_padded _ _⟩, by decide +kernel⟩, isPlain_padded _ _⟩
    split <;> decide +kernel

/-- A moment is written as one word. -/
theorem plain_format (t : Timestamp) : Toml.Plain t.format where
  bytes := by
    have digits := isPlain_padded
    have dash : ∀ b ∈ lit "-", Toml.isPlain b = true := by decide +kernel
    have letter : ∀ b ∈ lit "T", Toml.isPlain b = true := by decide +kernel
    have colon : ∀ b ∈ lit ":", Toml.isPlain b = true := by decide +kernel
    unfold format
    simp only [List.forall_mem_append]
    refine ⟨⟨⟨⟨⟨⟨⟨⟨⟨⟨⟨⟨⟨?_, digits _ _⟩, dash⟩, digits _ _⟩, dash⟩, digits _ _⟩, letter⟩, digits _ _⟩, colon⟩,
      digits _ _⟩, colon⟩, digits _ _⟩, isPlain_fractionText _⟩, isPlain_zoneText _⟩
    split <;> decide +kernel
  nonempty := by
    unfold format
    simp [lit]

end Timestamp

namespace IndexMeta

open Toml

/-- The settings of the document but the last. -/
def settings (m : IndexMeta) : List Setting :=
  [.text "initial_ver" m.initialVersion, .text "latest_ver" m.latestVersion, .count "tags" m.tags,
    .count "objects" m.objects, .count "symbols" m.symbols, .count "diffs" m.diffs, .text? "run_id" m.runId]

theorem write_eq (m : IndexMeta) :
    m.write = m.settings.flatMap (Setting.line 0) ++ line 0 "updated_at" m.updatedAt.format := by
  unfold write
  simp only [settings, List.flatMap_cons, List.flatMap_nil, Setting.line_text, Setting.line_text?,
    Setting.line_count, List.append_nil, List.append_assoc]

/-- The counts are natural, and none takes more than 64 signed bits. -/
structure Fits (m : IndexMeta) : Prop where
  tags : 0 ≤ m.tags ∧ m.tags < Decimal.signedLimit
  objects : 0 ≤ m.objects ∧ m.objects < Decimal.signedLimit
  symbols : 0 ≤ m.symbols ∧ m.symbols < Decimal.signedLimit
  diffs : 0 ≤ m.diffs ∧ m.diffs < Decimal.signedLimit

variable {m m' : IndexMeta}

theorem readable_settings (fits : m.Fits) : ∀ f ∈ m.settings, f.Readable := by
  simp only [settings, List.forall_mem_cons]
  exact ⟨Setting.readable_text (by decide +kernel) _, Setting.readable_text (by decide +kernel) _,
    Setting.readable_count (by decide +kernel) fits.tags.1 fits.tags.2,
    Setting.readable_count (by decide +kernel) fits.objects.1 fits.objects.2,
    Setting.readable_count (by decide +kernel) fits.symbols.1 fits.symbols.2,
    Setting.readable_count (by decide +kernel) fits.diffs.1 fits.diffs.2,
    Setting.readable_text? (by decide +kernel) _, fun f member => absurd member List.not_mem_nil⟩

theorem apart_settings (m : IndexMeta) (written : Option (Bytes × Value)) :
    Apart ((m.settings ++ [Setting.mk "updated_at" written]).map Setting.name) := by
  have names : Apart ["initial_ver", "latest_ver", "tags", "objects", "symbols", "diffs", "run_id", "updated_at"] := by
    decide +kernel
  exact names

/-- A document that can be read says what was written, and of the moment it says something. -/
theorem parse_write_eq (fits : m.Fits) {t : List (Bytes × Value)} (read : Toml.parse m.write = some t) :
    ∃ v, t = entries (m.settings ++ [Setting.mk "updated_at" (some (m.updatedAt.format, v))]) := by
  have apart := apart_settings m none
  have names := apart.nodup_lit
  rw [List.map_map, List.map_append, List.nodup_append] at names
  have front := leads_settings hole_top 0 m.settings [] (readable_settings fits) names.1 fun _ _ => rfl
  have bare : Bare (lit "updated_at") := by decide +kernel
  have plain := m.updatedAt.plain_format
  have unmarked : Bytes.withoutHead [0xEF, 0xBB, 0xBF] m.write = m.write := by
    have first : lit "initial_ver" = 105 :: lit "nitial_ver" := by decide
    simp [write_eq, settings, Setting.line_text, stringLine, line, first, Bytes.withoutHead, Bytes.after?]
  have lines : ∃ st, documentLines (m.write.length + 1) ⟨[], []⟩ m.write = some st ∧
      entriesToValues st.root = t := by
    rw [Toml.parse, unmarked] at read
    simp only [Option.bind_eq_bind] at read
    split at read
    · cases read
    · exact Option.bind_eq_some_iff.mp read |>.imp fun st both => ⟨both.1, Option.some.inj both.2⟩
  obtain ⟨st, done, rfl⟩ := lines
  rw [write_eq] at done
  -- the front is read whatever follows; only the last line depends on how the moment is read
  cases said : wordValue m.updatedAt.format with
  | none =>
      obtain ⟨k, short, leads⟩ := front
      obtain ⟨fuel, enough⟩ : ∃ n, (m.settings.flatMap (Setting.line 0) ++
          line 0 "updated_at" m.updatedAt.format).length + 1 = n + 1 + k := by
        refine ⟨(m.settings.flatMap (Setting.line 0) ++ line 0 "updated_at" m.updatedAt.format).length - k, ?_⟩
        rw [List.length_append]
        omega
      have unread := plain.unread_line said bare 0 fuel ⟨[] ++ items m.settings, []⟩ []
      rw [List.append_nil] at unread
      rw [enough, leads, unread] at done
      cases done
  | some v =>
      have fresh : ([] ++ items m.settings : Entries).get? (lit "updated_at") = none :=
        get?_items_eq_none fun inside => names.2.2 _ inside _ (List.mem_singleton_self _) rfl
      have last := leads_line hole_top bare (plain.spells said) fresh 0
      rw [(front.trans last).document] at done
      obtain rfl := Option.some.inj done
      refine ⟨v, ?_⟩
      simp only [List.nil_append, entriesToValues_append, items, entriesToValues_values]
      simp [entries, Setting.entry?, entriesToValues, Item.toValue]

/-- The symbols that are read back are those that were written. -/
theorem symbols_of_parse (fits : m.Fits) (read : parse m.write = .ok m') : m'.symbols = m.symbols := by
  rw [parse] at read
  obtain ⟨t, document, known⟩ : ∃ t, Toml.parse m.write = some t ∧ ofDocument t = some m' := by
    cases said : (Toml.parse m.write).bind ofDocument with
    | none =>
        rw [said] at read
        cases read
    | some m'' =>
        rw [said] at read
        cases read
        exact Option.bind_eq_some_iff.mp said
  obtain ⟨v, rfl⟩ := parse_write_eq fits document
  have symbols := Config.integerField_count (apart_settings m (some (m.updatedAt.format, v))) (n := "symbols")
    (i := m.symbols) (by simp [settings])
  simp only [ofDocument, Option.bind_eq_bind, Option.bind_eq_some_iff] at known
  obtain ⟨_, -, _, -, _, -, _, -, n, found, _, -, _, -, _, -, same⟩ := known
  rw [symbols] at found
  obtain rfl := Option.some.inj same
  exact (Option.some.inj found).symm

end IndexMeta

end SymbolHistory
