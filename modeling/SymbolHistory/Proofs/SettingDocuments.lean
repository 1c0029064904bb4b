/-
# Proofs.SettingDocuments -- a document is read line by line

`Leads` says what reading some lines does to the tables read so far, whatever
lines follow; so what a document says is put together from what its lines say
(`Leads.trans`).  A line with a value adds it to the table that is being filled
(`leads_line`), a heading adds a new one (`leads_heading`), and a run of lines
adds all its settings in order (`leads_settings`).  Names are looked up in a table
without regard to case, which finds the setting meant as long as no two names
differ in case only (`lookup_entries`).
-/
import Mathlib.Data.List.Nodup
import SymbolHistory.Proofs.SettingValues

set_option autoImplicit false

namespace SymbolHistory

namespace Toml

/-! ## Names -/

/-- Names that need no quotes. -/
structure Bare (name : Bytes) : Prop where
  bytes : ∀ b ∈ name, isBare b = true
  nonempty : name ≠ []

instance (name : Bytes) : Decidable (Bare name) :=
  decidable_of_iff (name.all isBare = true ∧ name ≠ [])
    ⟨fun h => ⟨by simpa using h.1, h.2⟩, fun h => ⟨by simpa using h.bytes, h.nonempty⟩⟩

theorem Bare.cons {n : Bytes} (bare : Bare n) : ∃ b tail, n = b :: tail ∧ isBare b = true := by
  obtain ⟨b, tail, rfl⟩ := List.exists_cons_of_ne_nil bare.nonempty
  exact ⟨b, tail, rfl, bare.bytes b List.mem_cons_self⟩

theorem isBare_solid {b : UInt8} (bare : isBare b = true) :
    b ≠ 32 ∧ b ≠ 9 ∧ b ≠ 10 ∧ b ≠ 13 ∧ b ≠ 35 ∧ b ≠ 34 ∧ b ≠ 39 ∧ b ≠ 91 := by
  refine ⟨?_, ?_, ?_, ?_, ?_, ?_, ?_, ?_⟩
  all_goals
    rintro rfl
    exact absurd bare (by decide)

theorem Bare.solid {n : Bytes} (bare : Bare n) (rest : Bytes) : Solid (n ++ rest) := by
  obtain ⟨b, tail, rfl, isBare⟩ := bare.cons
  intro c first
  obtain rfl : b = c := Option.some.inj first
  have other := isBare_solid isBare
  exact ⟨other.1, other.2.1, other.2.2.1, other.2.2.2.1, other.2.2.2.2.1⟩

theorem Bare.legible {n : Bytes} (bare : Bare n) : Legible n := by
  apply legible_of_ascii
  intro b member
  have isBare := bare.bytes b member
  simp only [Toml.isBare, Bytes.isDigit, Bool.or_eq_true, Bool.and_eq_true, decide_eq_true_eq, beq_iff_eq] at isBare
  grind

/-- A name without quotes ends where a byte stands that cannot belong to it. -/
theorem name_bare {n rest : Bytes} (bare : Bare n) (stops : ∀ b ∈ rest.head?, isBare b = false)
    (last : (skipSpaces rest).head? ≠ some 46) (fuel : Nat) :
    name (fuel + 1) (n ++ rest) = some ([n], skipSpaces rest) := by
  have skipped := skipSpaces_solid (bare.solid rest) 0
  have part : namePart (n ++ rest) = some (n, rest) := by
    have cut := Bytes.span_append bare.bytes stops
    obtain ⟨b, tail, rfl, isBare⟩ := bare.cons
    have other := isBare_solid isBare
    unfold namePart
    split
    case h_5 => rw [cut]; rfl
    all_goals grind
  rw [List.replicate_zero, List.nil_append] at skipped
  rw [name, skipped, part]
  simp only [Option.bind_eq_bind, Option.bind_some]
  split
  · rename_i more isDot
    simp [isDot] at last
  · rfl

/-! ## Lines -/

/-- Reading these bytes takes the tables read so far from one state to another. -/
def Leads (s : Bytes) (before after : State) : Prop :=
  ∃ k ≤ s.length, ∀ (fuel : Nat) (rest : Bytes),
    documentLines (fuel + k) before (s ++ rest) = documentLines fuel after rest

theorem Leads.refl (st : State) : Leads [] st st := ⟨0, Nat.le_refl _, fun _ _ => rfl⟩

theorem Leads.trans {s t : Bytes} {st st' st'' : State} (first : Leads s st st') (second : Leads t st' st'') :
    Leads (s ++ t) st st'' := by
  obtain ⟨k, short, front⟩ := first
  obtain ⟨m, short', back⟩ := second
  refine ⟨m + k, by rw [List.length_append]; omega, fun fuel rest => ?_⟩
  rw [List.append_assoc, ← Nat.add_assoc, front, back]

/-- The whole document has been read when nothing follows. -/
theorem Leads.document {s : Bytes} {st st' : State} (leads : Leads s st st') :
    documentLines (s.length + 1) st s = some st' := by
  obtain ⟨k, short, reads⟩ := leads
  obtain ⟨fuel, enough⟩ : ∃ n, s.length + 1 = n + 1 + k := ⟨s.length - k, by omega⟩
  have read := reads (fuel + 1) []
  rw [List.append_nil] at read
  rw [enough, read]
  rfl

theorem lineEnd_newline (rest : Bytes) : lineEnd (10 :: rest) = some rest := rfl

/-- A line with a value, without the blanks in front. -/
theorem assignment_line {n s : Bytes} {v : Value} (bare : Bare n) (spells : Spells s v) {st : State} {root : Entries}
    (put : Entries.update (Entries.put (.value v) [n]) st.current st.root = some root) (rest : Bytes) :
    assignment st (n ++ (lit " = " ++ (s ++ 10 :: rest))) = some ({ st with root }, rest) := by
  have equals : lit " = " ++ (s ++ 10 :: rest) = 32 :: 61 :: 32 :: (s ++ 10 :: rest) := rfl
  have skipped : skipSpaces (32 :: 61 :: 32 :: (s ++ 10 :: rest)) = 61 :: 32 :: (s ++ 10 :: rest) := rfl
  have value := skipSpaces_solid (spells.solid rest) 1
  have named := @name_bare n (32 :: 61 :: 32 :: (s ++ 10 :: rest)) bare (by simp [isBare, Bytes.isDigit])
    (by rw [skipped]; simp) (n ++ 32 :: 61 :: 32 :: (s ++ 10 :: rest)).length
  have read := spells.reads ((n ++ 32 :: 61 :: 32 :: (s ++ 10 :: rest)).length + 1) rest
    (by simp only [List.length_append, List.length_cons]; omega)
  rw [equals, assignment, named, skipped]
  change (Toml.value _ (skipSpaces (List.replicate 1 32 ++ (s ++ 10 :: rest)))).bind _ = _
  rw [value, read]
  simp only [Option.bind_eq_bind, Option.bind_some, lineEnd_newline, put]
  rfl

/-- What `es` becomes when the table that is being filled is `es`. -/
structure Hole (hole : Entries → State) : Prop where
  current : ∀ es es', (hole es').current = (hole es).current
  update : ∀ (f : Entries → Option Entries) (es es' : Entries), f es = some es' →
    Entries.update f (hole es).current (hole es).root = some (hole es').root

theorem hole_top : Hole (fun es => ⟨es, []⟩) where
  current _ _ := rfl
  update _ _ _ done := done

theorem get?_append (es : Entries) (n k : Bytes) (i : Item) :
    Entries.get? (es ++ [(n, i)]) k = (es.get? k).or (if n == k then some i else none) := by
  rw [Entries.get?, List.find?_append, Entries.get?, List.find?_singleton]
  cases es.find? (fun e => e.1 == k) with
  | some e => rfl
  | none => cases n == k <;> rfl

theorem any_eq_isSome (es : Entries) (n : Bytes) : es.any (fun e => e.1 == n) = (es.get? n).isSome := by
  rw [Entries.get?, Option.isSome_map, List.isSome_find?]

theorem set_fresh {es : Entries} {n : Bytes} (fresh : es.get? n = none) (i : Item) : es.set n i = es ++ [(n, i)] := by
  rw [Entries.set, any_eq_isSome, fresh]
  rfl

/-- Changing the table that was headed last. -/
theorem set_last {es : Entries} {n : Bytes} (fresh : es.get? n = none) (i j : Item) :
    Entries.set (es ++ [(n, i)]) n j = es ++ [(n, j)] := by
  have absent : ∀ e ∈ es, (e.1 == n) = false := by
    have none := any_eq_isSome es n
    rw [fresh, Option.isSome_none, List.any_eq_false] at none
    exact fun e member => Bool.eq_false_iff.mpr (none e member)
  have kept : es.map (fun e => if e.1 == n then (n, j) else e) = es := by
    rw [List.map_congr_left fun e member => by rw [absent e member, if_neg Bool.false_ne_true], List.map_id']
  rw [Entries.set, any_eq_isSome, get?_append, fresh, List.map_append, kept]
  simp

theorem hole_heading {before : Entries} {n : Bytes} (fresh : before.get? n = none) :
    Hole (fun es => ⟨before ++ [(n, .table .heading es)], [n]⟩) where
  current _ _ := rfl
  update f es es' done := by
    have there : Entries.get? (before ++ [(n, .table .heading es)]) n = some (.table .heading es) := by
      rw [get?_append, fresh, beq_self_eq_true]
      rfl
    rw [Entries.update, there]
    simp only [Entries.update, done, Option.bind_eq_bind, Option.bind_some, set_last fresh]
    rfl

theorem put_fresh {es : Entries} {n : Bytes} (fresh : es.get? n = none) (v : Value) :
    Entries.put (.value v) [n] es = some (es ++ [(n, .value v)]) := by
  rw [Entries.put, fresh, set_fresh fresh]
  rfl

/-- A line with a value adds it to the table that is being filled. -/
theorem leads_line {hole : Entries → State} (isHole : Hole hole) {n : String} {s : Bytes} {v : Value}
    (bare : Bare (lit n)) (spells : Spells s v) {es : Entries} (fresh : es.get? (lit n) = none) (indent : Nat) :
    Leads (line indent n s) (hole es) (hole (es ++ [(lit n, .value v)])) := by
  refine ⟨1, ?_, fun fuel rest => ?_⟩
  · simp only [line, List.length_append, List.length_singleton]
    omega
  have put := isHole.update _ es _ (put_fresh fresh v)
  have parts : line indent n s ++ rest =
      List.replicate indent 32 ++ (lit n ++ (lit " = " ++ (s ++ 10 :: rest))) := by simp [line]
  have taken := assignment_line bare spells put rest
  have after : State.mk (hole (es ++ [(lit n, .value v)])).root (hole es).current =
      hole (es ++ [(lit n, .value v)]) := by
    rw [← isHole.current es (es ++ [(lit n, .value v)])]
  have solid := bare.solid (lit " = " ++ (s ++ 10 :: rest))
  rw [after] at taken
  rw [parts, documentLines, skipLines_solid solid]
  obtain ⟨b, tail, cons, isBare⟩ := bare.cons
  have other := isBare_solid isBare
  rw [cons] at taken ⊢
  simp only [List.cons_append, Option.bind_eq_bind, Option.bind_some] at taken ⊢
  split
  case h_4 => rw [taken]; rfl
  all_goals grind

/-- A heading adds a table that has nothing in it yet. -/
theorem leads_heading {n : String} (bare : Bare (lit n)) {st : State} (fresh : st.root.get? (lit n) = none) :
    Leads (heading n) st ⟨st.root ++ [(lit n, .table .heading [])], [lit n]⟩ := by
  refine ⟨1, ?_, fun fuel rest => ?_⟩
  · simp [heading, show lit "]\n" = [93, 10] from by decide]
    omega
  have parts : heading n ++ rest = 10 :: 91 :: (lit n ++ 93 :: 10 :: rest) := by
    simp [heading, show lit "]\n" = [93, 10] from by decide, show lit "\n[" = [10, 91] from by decide]
  have named := @name_bare (lit n) (93 :: 10 :: rest) bare (by simp [isBare, Bytes.isDigit]) (by simp [skipSpaces])
    (lit n ++ 93 :: 10 :: rest).length
  have opened : openTable (lit n) st.root = some (st.root ++ [(lit n, .table .heading [])]) := by
    rw [openTable, fresh, set_fresh fresh]
  have headed : heading? false st (lit n ++ 93 :: 10 :: rest) =
      some (⟨st.root ++ [(lit n, .table .heading [])], [lit n]⟩, rest) := by
    rw [heading?, named]
    change (Entries.update (openTable (lit n)) [] st.root).bind _ = _
    rw [Entries.update, opened]
    rfl
  have solid := skipLines_solid (s := 91 :: (lit n ++ 93 :: 10 :: rest)) (by simp [Solid]) 0
  rw [List.replicate_zero, List.nil_append] at solid
  have passed : skipLines ((10 :: 91 :: (lit n ++ 93 :: 10 :: rest)).length + 1)
      (10 :: 91 :: (lit n ++ 93 :: 10 :: rest)) = some (91 :: (lit n ++ 93 :: 10 :: rest)) :=
    solid (lit n ++ 93 :: 10 :: rest).length.succ
  rw [parts, documentLines, passed]
  obtain ⟨b, tail, cons, isBare⟩ := bare.cons
  have other := isBare_solid isBare
  rw [cons] at headed ⊢
  simp only [List.cons_append, Option.bind_eq_bind, Option.bind_some] at headed ⊢
  split
  case h_3 same =>
    cases same
    rw [headed]
    rfl
  all_goals grind

/-! ## Settings -/

/-- A setting of a table: its name, and how it is written and what it says unless it is left out. -/
structure Setting where
  name : String
  written : Option (Bytes × Value)

namespace Setting

def line (indent : Nat) (f : Setting) : Bytes :=
  match f.written with
  | none => []
  | some (s, _) => Toml.line indent f.name s

/-- What a setting says. -/
def entry? (f : Setting) : Option (Bytes × Value) := f.written.map fun p => (lit f.name, p.2)

/-- A setting that is read back at the end of a line. -/
structure Readable (f : Setting) : Prop where
  bare : Bare (lit f.name)
  spells : ∀ s v, f.written = some (s, v) → Spells s v

/-- A setting that can be read back where it is written: its text may stand in a document. -/
structure Sound (f : Setting) : Prop extends f.Readable where
  legible : ∀ s v, f.written = some (s, v) → Legible s

def text (n : String) (s : Bytes) : Setting := ⟨n, some (quoted s, .string s)⟩

/-- A text that may be left out. -/
def text? (n : String) (s : Bytes) : Setting := ⟨n, if s.isEmpty then none else some (quoted s, .string s)⟩

/-- A list of texts that may be left out. -/
def list? (n : String) (items : List Bytes) : Setting :=
  ⟨n, if items.isEmpty then none
    else some (lit "[" ++ Bytes.join (lit ", ") (items.map quoted) ++ lit "]", .array (items.map .string))⟩

def count (n : String) (i : Int) : Setting := ⟨n, some (Decimal.ofInt i, .integer i)⟩

variable {n : String}

theorem line_text (n : String) (s : Bytes) (indent : Nat) : (text n s).line indent = stringLine indent n s := rfl

theorem line_text? (n : String) (s : Bytes) (indent : Nat) : (text? n s).line indent = stringLine? indent n s := by
  cases s <;> rfl

theorem line_list? (n : String) (items : List Bytes) (indent : Nat) :
    (list? n items).line indent = listLine? indent n items := by
  cases items <;> rfl

theorem line_count (n : String) (i : Int) (indent : Nat) : (count n i).line indent = integerLine indent n i := rfl

theorem readable_text (bare : Bare (lit n)) (s : Bytes) : (text n s).Readable where
  bare := bare
  spells t v written := by
    obtain ⟨rfl, rfl⟩ := Prod.ext_iff.mp (Option.some.inj written)
    exact spells_quoted s

theorem sound_text (bare : Bare (lit n)) {s : Bytes} (valid : Utf8.valid s = true) : (text n s).Sound where
  toReadable := readable_text bare s
  legible t v written := by
    obtain ⟨rfl, rfl⟩ := Prod.ext_iff.mp (Option.some.inj written)
    exact legible_quoted valid

theorem readable_text? (bare : Bare (lit n)) (s : Bytes) : (text? n s).Readable where
  bare := bare
  spells t v written := by
    cases s with
    | nil => cases written
    | cons b s => exact (readable_text bare (b :: s)).spells t v written

theorem sound_text? (bare : Bare (lit n)) {s : Bytes} (valid : Utf8.valid s = true) : (text? n s).Sound where
  toReadable := readable_text? bare s
  legible t v written := by
    cases s with
    | nil => cases written
    | cons b s => exact (sound_text bare valid).legible t v written

theorem sound_list? (bare : Bare (lit n)) {items : List Bytes} (valid : ∀ s ∈ items, Utf8.valid s = true) :
    (list? n items).Sound where
  bare := bare
  spells t v written := by
    cases items with
    | nil => cases written
    | cons s items =>
        obtain ⟨rfl, rfl⟩ := Prod.ext_iff.mp (Option.some.inj written)
        exact spells_list (List.cons_ne_nil s items)
  legible t v written := by
    cases items with
    | nil => cases written
    | cons s items =>
        obtain ⟨rfl, rfl⟩ := Prod.ext_iff.mp (Option.some.inj written)
        exact legible_list valid

theorem readable_count (bare : Bare (lit n)) {i : Int} (natural : 0 ≤ i) (small : i < Decimal.signedLimit) :
    (count n i).Readable where
  bare := bare
  spells t v written := by
    obtain ⟨rfl, rfl⟩ := Prod.ext_iff.mp (Option.some.inj written)
    obtain ⟨m, rfl⟩ := Int.eq_ofNat_of_zero_le natural
    exact spells_integer (Int.ofNat_lt.mp small)

theorem sound_count (bare : Bare (lit n)) {i : Int} (natural : 0 ≤ i) (small : i < Decimal.signedLimit) :
    (count n i).Sound where
  toReadable := readable_count bare natural small
  legible t v written := by
    obtain ⟨rfl, rfl⟩ := Prod.ext_iff.mp (Option.some.inj written)
    obtain ⟨m, rfl⟩ := Int.eq_ofNat_of_zero_le natural
    exact legible_ofNat m

theorem Sound.legible_line {f : Setting} (sound : f.Sound) (indent : Nat) : Legible (f.line indent) := by
  unfold line
  split
  · exact legible_nil
  · rename_i s v written
    have blanks : Legible (List.replicate indent 32) := legible_of_ascii fun b member => by
      rw [List.eq_of_mem_replicate member]
      decide
    exact (((blanks.append sound.bare.legible).append (legible_of_ascii (by decide +kernel))).append
      (sound.legible s v written)).append (legible_of_ascii (by decide +kernel))

end Setting

theorem legible_settings {settings : List Setting} (sound : ∀ f ∈ settings, f.Sound) (indent : Nat) :
    Legible (settings.flatMap (Setting.line indent)) := by
  induction settings with
  | nil => exact legible_nil
  | cons f settings ih =>
      rw [List.flatMap_cons]
      exact ((sound f List.mem_cons_self).legible_line indent).append
        (ih fun g member => sound g (List.mem_cons_of_mem _ member))

theorem legible_heading {n : String} (bare : Bare (lit n)) : Legible (heading n) :=
  ((legible_of_ascii (by decide +kernel)).append bare.legible).append (legible_of_ascii (by decide +kernel))

def entries (settings : List Setting) : List (Bytes × Value) := settings.filterMap Setting.entry?

theorem entries_cons (f : Setting) (settings : List Setting) :
    entries (f :: settings) = f.entry?.toList ++ entries settings := by
  rw [entries, List.filterMap_cons]
  cases f.entry? <;> rfl

/-- Settings as they stand in a table that is being read. -/
def items (settings : List Setting) : Entries := (entries settings).map fun e => (e.1, .value e.2)

/-- Lines add their settings to the table that is being filled. -/
theorem leads_settings {hole : Entries → State} (isHole : Hole hole) (indent : Nat) (settings : List Setting) :
    ∀ es : Entries, (∀ f ∈ settings, f.Readable) → (settings.map fun f => lit f.name).Nodup →
      (∀ f ∈ settings, es.get? (lit f.name) = none) →
      Leads (settings.flatMap (Setting.line indent)) (hole es)
        (hole (es ++ items settings)) := by
  induction settings with
  | nil =>
      intro es _ _ _
      simpa [items, entries] using Leads.refl (hole es)
  | cons f settings ih =>
      intro es readable apart fresh
      rw [List.map_cons, List.nodup_cons] at apart
      have others : ∀ g ∈ settings, g.Readable := fun g member => readable g (List.mem_cons_of_mem _ member)
      have free := fresh f List.mem_cons_self
      rw [List.flatMap_cons]
      cases written : f.written with
      | none =>
          have rest := ih es others apart.2 fun g member => fresh g (List.mem_cons_of_mem _ member)
          simpa [items, entries_cons, Setting.line, Setting.entry?, written] using rest
      | some p =>
          obtain ⟨s, v⟩ := p
          have first := leads_line isHole (readable f List.mem_cons_self).bare
            ((readable f List.mem_cons_self).spells s v written) free indent
          have rest := ih (es ++ [(lit f.name, .value v)]) others apart.2 fun g member => by
            have other : (lit f.name == lit g.name) = false := by
              rw [beq_eq_false_iff_ne]
              exact fun same => apart.1 (same ▸ List.mem_map_of_mem member)
            rw [get?_append, fresh g (List.mem_cons_of_mem _ member), other]
            rfl
          have both := first.trans rest
          simpa [items, entries_cons, Setting.line, Setting.entry?, written] using both

/-! ## Looking settings up -/

theorem entriesToValues_append (es es' : Entries) :
    entriesToValues (es ++ es') = entriesToValues es ++ entriesToValues es' := by
  induction es with
  | nil => rfl
  | cons e es ih =>
      obtain ⟨k, i⟩ := e
      rw [List.cons_append, entriesToValues, ih, entriesToValues, List.cons_append]

theorem entriesToValues_values (entries : List (Bytes × Value)) :
    entriesToValues (entries.map fun e => (e.1, .value e.2)) = entries := by
  induction entries with
  | nil => rfl
  | cons e entries ih => rw [List.map_cons, entriesToValues, ih, Item.toValue]

/-- No two names are the same but for their case. -/
structure Apart (names : List String) : Prop where
  nodup : names.Nodup
  same : ∀ a ∈ names, ∀ b ∈ names, lit a = lit b ∨ LetterCase.sameText (lit a) (lit b) = true → a = b

instance (names : List String) : Decidable (Apart names) :=
  decidable_of_iff (names.Nodup ∧ ∀ a ∈ names, ∀ b ∈ names,
    lit a = lit b ∨ LetterCase.sameText (lit a) (lit b) = true → a = b) ⟨fun h => ⟨h.1, h.2⟩, fun h => ⟨h.1, h.2⟩⟩

/-- Names that are apart are written differently. -/
theorem Apart.nodup_lit {names : List String} (apart : Apart names) : (names.map lit).Nodup :=
  List.Nodup.map_on (fun a inside b inside' same => apart.same a inside b inside' (.inl same)) apart.nodup

/-- A search that no other setting's name passes finds the setting meant, or nothing if it was left out. -/
theorem find?_entries {p : Bytes → Bool} {f : Setting} (settings : List Setting) : (settings.map Setting.name).Nodup →
    (∀ g ∈ settings, p (lit g.name) = true → g.name = f.name) → f ∈ settings →
    (entries settings).find? (fun e => p e.1) = if p (lit f.name) then f.entry? else none := by
  induction settings with
  | nil => exact fun _ _ member => absurd member List.not_mem_nil
  | cons g settings ih =>
      intro nodup only member
      rw [List.map_cons, List.nodup_cons] at nodup
      have only' : ∀ g ∈ settings, p (lit g.name) = true → g.name = f.name :=
        fun g member => only g (List.mem_cons_of_mem _ member)
      rcases List.mem_cons.mp member with rfl | inside
      · have none : (entries settings).find? (fun e => p e.1) = none := by
          rw [List.find?_eq_none]
          intro e found passes
          obtain ⟨g, inside, entry⟩ := List.mem_filterMap.mp found
          obtain ⟨q, -, rfl⟩ := Option.map_eq_some_iff.mp entry
          exact nodup.1 (List.mem_map.mpr ⟨g, inside, only' g inside passes⟩)
        cases written : f.written with
        | none => simp [entries_cons, Setting.entry?, written, none]
        | some q => cases passes : p (lit f.name) <;> simp [entries_cons, Setting.entry?, written, none, passes]
      · have other : p (lit g.name) = false := by
          rw [Bool.eq_false_iff]
          intro passes
          exact nodup.1 (List.mem_map.mpr ⟨f, inside, (only g List.mem_cons_self passes).symm⟩)
        have rest := ih nodup.2 only' inside
        cases written : g.written with
        | none => simpa [entries_cons, Setting.entry?, written] using rest
        | some q => simpa [entries_cons, Setting.entry?, written, other] using rest

/-- A setting is found under its name, or nothing if it was left out. -/
theorem lookup_entries {settings : List Setting} (apart : Apart (settings.map Setting.name)) {n : String}
    {written : Option (Bytes × Value)} (member : ⟨n, written⟩ ∈ settings) :
    lookup (entries settings) (lit n) = written.map Prod.snd := by
  have only : ∀ g ∈ settings, lit g.name = lit n ∨ LetterCase.sameText (lit g.name) (lit n) = true → g.name = n :=
    fun g inside => apart.same _ (List.mem_map_of_mem inside) _ (List.mem_map_of_mem member)
  have exact := find?_entries (p := fun m => m == lit n) settings apart.nodup
    (fun g inside same => only g inside (.inl (beq_iff_eq.mp same))) member
  have loose := find?_entries (p := fun m => LetterCase.sameText m (lit n)) settings apart.nodup
    (fun g inside same => only g inside (.inr same)) member
  rw [beq_self_eq_true, if_pos rfl] at exact
  rw [lookup, exact, loose, Setting.entry?]
  cases written with
  | none => simp
  | some q => rfl

/-! ## Whole documents -/

/-- A headed table of a document: its name and its settings. -/
abbrev Section := String × List Setting

def sectionLines (s : Section) : Bytes := heading s.1 ++ s.2.flatMap (Setting.line 2)

/-- A headed table that can be read back where it is written. -/
structure SoundSection (s : Section) : Prop where
  bare : Bare (lit s.1)
  settings : ∀ f ∈ s.2, f.Sound
  apart : Apart (s.2.map Setting.name)

theorem legible_sections {sections : List Section} (sound : ∀ s ∈ sections, SoundSection s) :
    Legible (sections.flatMap sectionLines) := by
  induction sections with
  | nil => exact legible_nil
  | cons s sections ih =>
      have first := sound s List.mem_cons_self
      rw [List.flatMap_cons]
      exact ((legible_heading first.bare).append (legible_settings first.settings 2)).append
        (ih fun t member => sound t (List.mem_cons_of_mem _ member))

/-- Headed tables are added one after the other, each with its settings. -/
theorem leads_sections (sections : List Section) : ∀ st : State, (∀ s ∈ sections, SoundSection s) →
    (sections.map fun s => lit s.1).Nodup → (∀ s ∈ sections, st.root.get? (lit s.1) = none) →
    ∃ current, Leads (sections.flatMap sectionLines) st
      ⟨st.root ++ sections.map fun s => (lit s.1, .table .heading (items s.2)), current⟩ := by
  induction sections with
  | nil =>
      intro st _ _ _
      exact ⟨st.current, by simpa using Leads.refl st⟩
  | cons s sections ih =>
      intro st sound apart fresh
      rw [List.map_cons, List.nodup_cons] at apart
      obtain ⟨bare, settings, names⟩ := sound s List.mem_cons_self
      have free := fresh s List.mem_cons_self
      have head := leads_heading bare free
      have body := leads_settings (hole_heading free) 2 s.2 [] (fun f inside => (settings f inside).toReadable) (by simpa [Function.comp_def] using names.nodup_lit) fun _ _ => rfl
      obtain ⟨current, rest⟩ := ih ⟨st.root ++ [(lit s.1, .table .heading (items s.2))], [lit s.1]⟩
        (fun t member => sound t (List.mem_cons_of_mem _ member)) apart.2 fun t member => by
          have other : (lit s.1 == lit t.1) = false := by
            rw [beq_eq_false_iff_ne]
            exact fun same => apart.1 (same ▸ List.mem_map_of_mem member)
          rw [get?_append, fresh t (List.mem_cons_of_mem _ member), other]
          rfl
      refine ⟨current, ?_⟩
      have all := (head.trans body).trans rest
      simpa [sectionLines] using all

theorem get?_items_eq_none {settings : List Setting} {n : Bytes} (absent : n ∉ settings.map fun f => lit f.name) :
    (items settings).get? n = none := by
  have other : (items settings).any (fun e => e.1 == n) = false := by
    rw [List.any_eq_false]
    intro e member same
    obtain ⟨g, found, rfl⟩ := List.mem_map.mp member
    obtain ⟨f, inside, entry⟩ := List.mem_filterMap.mp found
    obtain ⟨q, -, rfl⟩ := Option.map_eq_some_iff.mp entry
    exact absent (List.mem_map.mpr ⟨f, inside, beq_iff_eq.mp same⟩)
  rwa [any_eq_isSome, Option.isSome_eq_false_iff, Option.isNone_iff_eq_none] at other

/-- A document that was written says what its settings and its headed tables say. -/
theorem parse_document {settings : List Setting} {sections : List Section} (sound : ∀ f ∈ settings, f.Sound)
    (soundSections : ∀ s ∈ sections, SoundSection s)
    (apart : Apart (settings.map Setting.name ++ sections.map Prod.fst))
    (noMark : (settings.flatMap (Setting.line 0) ++ sections.flatMap sectionLines).head? ≠ some 0xEF) :
    parse (settings.flatMap (Setting.line 0) ++ sections.flatMap sectionLines) =
      some (entries settings ++ sections.map fun s => (lit s.1, .table (entries s.2))) := by
  have names := apart.nodup_lit
  rw [List.map_append, List.map_map, List.map_map, List.nodup_append] at names
  have top := leads_settings hole_top 0 settings [] (fun f member => (sound f member).toReadable) names.1 fun _ _ => rfl
  obtain ⟨current, headed⟩ := leads_sections sections ⟨items settings, []⟩ soundSections names.2.1 fun s member =>
    get?_items_eq_none fun inside => names.2.2 _ inside _ (List.mem_map_of_mem member) rfl
  have read := (top.trans headed).document
  have legible := (legible_settings sound 0).append (legible_sections soundSections)
  generalize settings.flatMap (Setting.line 0) ++ sections.flatMap sectionLines = doc at *
  have unmarked : Bytes.withoutHead [0xEF, 0xBB, 0xBF] doc = doc := by
    cases doc with
    | nil => rfl
    | cons b rest =>
        have other : (0xEF : UInt8) ≠ b := fun same => noMark (congrArg some same.symm)
        simp [Bytes.withoutHead, Bytes.after?, other]
  have valid := Utf8.valid_iff.mpr legible.characters
  have noZero : doc.elem 0 = false := by simpa using legible.noZero
  have tables : ∀ sections : List Section,
      entriesToValues (sections.map fun s => (lit s.1, .table .heading (items s.2))) =
        sections.map fun s => (lit s.1, .table (entries s.2)) := by
    intro sections
    induction sections with
    | nil => rfl
    | cons s sections ih =>
        rw [List.map_cons, entriesToValues, ih, Item.toValue, items, entriesToValues_values, List.map_cons]
  rw [parse, valid, noZero, unmarked]
  change (documentLines (doc.length + 1) ⟨[], []⟩ doc).bind _ = _
  rw [read]
  change some (entriesToValues (items settings ++ _)) = _
  rw [entriesToValues_append, tables, items, entriesToValues_values]

end Toml

end SymbolHistory
