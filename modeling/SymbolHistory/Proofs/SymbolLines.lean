/-
# Proofs.SymbolLines -- a symbol file has one line per symbol

The extra text of a symbol is put together from lines of its source, and no step
on the way makes a newline (`newline_not_mem_extraText`).  Names come from lines
of a table.  So a symbol file that was written from entries has exactly one line
for each of them (`lines_writeAll`).
-/
import Mathlib.Data.Option.Basic
import SymbolHistory.Organizer
import SymbolHistory.Proofs.Characters
import SymbolHistory.Proofs.Decimals
import SymbolHistory.Proofs.TableReading

set_option autoImplicit false

namespace SymbolHistory

/-! ## Parts of texts -/

namespace Bytes

/-- A byte that was passed stood in the text. -/
theorem mem_passed {b c : UInt8} {passed s : Bytes} (member : b ∈ c :: passed ∨ b ∈ s) :
    b ∈ passed ∨ b ∈ c :: s := by
  simp only [List.mem_cons] at member ⊢
  rcases member with (isHere | before) | later
  · exact .inr (.inl isHere)
  · exact .inl before
  · exact .inr (.inr later)

theorem eq_of_after? {head s rest : Bytes} (found : after? head s = some rest) : s = head ++ rest := by
  rw [after?] at found
  split at found
  · rename_i starts
    obtain ⟨tail, rfl⟩ := List.isPrefixOf_iff_prefix.mp starts
    rw [← Option.some.inj found, List.drop_left]
  · cases found

theorem eq_of_cutFrom {mark : Bytes} (s : Bytes) :
    ∀ {passed p q : Bytes}, cutFrom mark passed s = some (p, q) →
      passed.reverse ++ s = p ++ mark ++ q := by
  induction s with
  | nil =>
      intro passed p q found
      rw [cutFrom] at found
      split at found
      · rename_i rest starts
        obtain ⟨rfl, rfl⟩ := Prod.mk.inj (Option.some.inj found)
        rw [eq_of_after? starts, List.append_assoc]
      · cases found
  | cons b s ih =>
      intro passed p q found
      rw [cutFrom] at found
      split at found
      · rename_i rest starts
        obtain ⟨rfl, rfl⟩ := Prod.mk.inj (Option.some.inj found)
        rw [eq_of_after? starts, List.append_assoc]
      · rw [← ih found, List.reverse_cons, List.append_assoc, List.singleton_append]

/-- The two parts of a text that is cut. -/
theorem eq_of_cut {mark s p q : Bytes} (found : cut mark s = some (p, q)) : s = p ++ mark ++ q :=
  eq_of_cutFrom s found

theorem mem_replaceFrom {old new : Bytes} {b : UInt8} (fuel : Nat) :
    ∀ {out s : Bytes}, b ∈ replaceFrom old new fuel out s → b ∈ out ∨ b ∈ new ∨ b ∈ s := by
  induction fuel with
  | zero =>
      intro out s member
      rw [replaceFrom, List.mem_append, List.mem_reverse] at member
      exact member.imp id .inr
  | succ fuel ih =>
      intro out s member
      rw [replaceFrom] at member
      split at member
      · rw [List.mem_append, List.mem_reverse] at member
        exact member.imp id .inr
      · rename_i head rest found
        rw [eq_of_cut found]
        rcases ih member with before | isNew | after
        · simp only [List.mem_append, List.mem_reverse] at before ⊢
          rcases before with isNew | early | earlier
          · exact .inr (.inl isNew)
          · exact .inr (.inr (.inl (.inl early)))
          · exact .inl earlier
        · exact .inr (.inl isNew)
        · exact .inr (.inr (List.mem_append_right _ after))

/-- Taking a word out of a text adds nothing. -/
theorem replace_nil_subset (old s : Bytes) : replace old [] s ⊆ s := by
  intro b member
  rcases mem_replaceFrom s.length member with impossible | impossible | inside
  · cases impossible
  · cases impossible
  · exact inside

end Bytes

namespace Utf8

theorem trim_subset (s : Bytes) : trim s ⊆ s := by
  intro b member
  obtain ⟨p, kept, inside⟩ := List.mem_flatMap.mp member
  have isPiece : p ∈ pieces s := by
    rw [List.mem_reverse] at kept
    have kept := (List.dropWhile_suffix _).subset kept
    rw [List.mem_reverse] at kept
    exact (List.dropWhile_suffix _).subset kept
  rw [← flatMap_pieces s]
  exact List.mem_flatMap.mpr ⟨p, isPiece, inside⟩

end Utf8

/-! ## Extra texts -/

namespace SourceText

theorem newline_not_mem {data line : Bytes} (member : line ∈ ofContent data) : 10 ∉ line := by
  rw [ofContent] at member
  split at member
  · cases member
  · obtain ⟨piece, isPiece, rfl⟩ := List.mem_map.mp member
    exact fun bad => Bytes.not_mem_of_mem_splitOn isPiece (Bytes.withoutTail_subset _ _ bad)

theorem window_subset (src : SourceText) (line : Int) (n : Nat) : src.window line n ⊆ src := by
  unfold window
  split
  · exact fun l member => List.drop_subset _ _ (List.take_subset _ _ member)
  · exact List.nil_subset _

end SourceText

namespace Signature

variable {b : UInt8} {s : Bytes} {src : SourceText}

theorem mem_squeeze (member : b ∈ squeeze s) : b = 32 ∨ b ∈ s := by
  induction s with
  | nil => cases member
  | cons c s ih =>
      have later : b ∈ squeeze s → b = 32 ∨ b ∈ c :: s := fun inside =>
        (ih inside).imp id (List.mem_cons_of_mem c)
      rw [squeeze, List.foldr_cons, ← squeeze] at member
      split at member
      · split at member
        · exact later member
        · rcases List.mem_cons.mp member with isSpace | inside
          · exact .inl isSpace
          · exact later inside
      · rcases List.mem_cons.mp member with rfl | inside
        · exact .inr List.mem_cons_self
        · exact later inside

theorem closeUpOpen_subset (s : Bytes) : closeUpOpen s ⊆ s := by
  induction s with
  | nil => exact List.Subset.refl _
  | cons c s ih =>
      rw [closeUpOpen, List.foldr_cons, ← closeUpOpen]
      split
      · split
        · rename_i d rest after
          rw [after] at ih
          split
          · exact List.cons_subset_cons c fun x member => ih (List.mem_cons_of_mem d member)
          · rw [after]
            exact List.cons_subset_cons c ih
        · exact List.cons_subset_cons c (List.nil_subset _)
      · exact List.cons_subset_cons c ih

theorem closeUpClose_subset (s : Bytes) : closeUpClose s ⊆ s := by
  induction s with
  | nil => exact List.Subset.refl _
  | cons c s ih =>
      rw [closeUpClose]
      split
      · exact fun x member => List.mem_cons_of_mem c (ih member)
      · exact List.cons_subset_cons c ih

theorem newline_not_mem_fixWhitespace (clean : 10 ∉ s) : 10 ∉ fixWhitespace s := by
  intro member
  rcases mem_squeeze (closeUpOpen_subset _ (closeUpClose_subset _ member)) with isSpace | inside
  · cases isSpace
  · exact clean inside

theorem mem_collectArguments (s : Bytes) :
    ∀ {depth : Int} {out : Bytes}, b ∈ (collectArguments depth out s).1 → b ∈ out ∨ b ∈ s := by
  induction s with
  | nil => exact fun member => .inl member
  | cons c s ih =>
      intro depth out member
      have past : b ∈ out ∨ b ∈ s → b ∈ out ∨ b ∈ c :: s := .imp_right (List.mem_cons_of_mem c)
      rw [collectArguments] at member
      split at member
      · have inside := ih member
        split at inside
        · exact past inside
        · exact Bytes.mem_passed inside
      · split at member
        · split at member
          · exact Bytes.mem_passed (.inl member)
          · exact Bytes.mem_passed (ih member)
        · have inside := ih member
          split at inside
          · exact past inside
          · exact Bytes.mem_passed inside

theorem mem_collectValue (s : Bytes) :
    ∀ {started : Bool} {out : Bytes}, b ∈ (collectValue started out s).1 → b ∈ out ∨ b ∈ s := by
  induction s with
  | nil => exact fun member => .inl member
  | cons c s ih =>
      intro started out member
      have past : b ∈ out ∨ b ∈ s → b ∈ out ∨ b ∈ c :: s := .imp_right (List.mem_cons_of_mem c)
      rw [collectValue] at member
      split at member
      · exact Bytes.mem_passed (ih member)
      · split at member
        · exact .inl member
        · have inside := ih member
          split at inside
          · exact Bytes.mem_passed inside
          · exact past inside

theorem newline_not_mem_window (clean : ∀ l ∈ src, 10 ∉ l) (line : Int) (n : Nat) :
    10 ∉ (src.window line n).flatten := by
  intro member
  obtain ⟨l, isLine, inside⟩ := List.mem_flatten.mp member
  exact clean l (src.window_subset line n isLine) inside

theorem newline_not_mem_arguments (clean : ∀ l ∈ src, 10 ∉ l) (line : Int) :
    10 ∉ arguments src line := by
  rw [arguments]
  split
  · decide
  · apply newline_not_mem_fixWhitespace
    have collected : 10 ∉ (collectArguments 0 [] (src.window line bodyLines).flatten).1 := by
      intro member
      rcases mem_collectArguments _ member with impossible | inside
      · cases impossible
      · exact newline_not_mem_window clean line bodyLines inside
    simp only [List.mem_append, List.mem_reverse, not_or]
    refine ⟨collected, ?_⟩
    split <;> decide

theorem newline_not_mem_initializer (clean : ∀ l ∈ src, 10 ∉ l) (line : Int) :
    10 ∉ initializer src line := by
  rw [initializer]
  split
  · decide
  · have collected : 10 ∉ (collectValue false [] (src.window line bodyLines).flatten).1 := by
      intro member
      rcases mem_collectValue _ member with impossible | inside
      · cases impossible
      · exact newline_not_mem_window clean line bodyLines inside
    rw [List.mem_cons, not_or]
    refine ⟨by decide, newline_not_mem_fixWhitespace fun member => ?_⟩
    have member := Utf8.trim_subset _ member
    rw [List.mem_append, List.mem_reverse] at member
    rcases member with inside | ending
    · exact collected inside
    · split at ending
      · cases ending
      · exact absurd ending (by decide)

/-! ## Return types -/

theorem endAtBoundary_subset (s : Bytes) :
    ∀ {after : Option UInt8} {name : Bytes}, endAtBoundary after s = some name → name ⊆ s := by
  induction s with
  | nil => exact fun found => by cases found
  | cons c s ih =>
      intro after name found
      rw [endAtBoundary] at found
      split at found
      · rw [← Option.some.inj found]
        exact fun x member => List.mem_reverse.mp member
      · exact fun x member => List.mem_cons_of_mem c (ih found member)

theorem nameAt_subset {name : Bytes} (found : nameAt s = some name) : name ⊆ s := by
  unfold nameAt at found
  split at found
  · cases found
  · split at found
    · rw [List.span_eq_takeWhile_dropWhile] at found
      intro x member
      have inside := endAtBoundary_subset _ found member
      exact (List.takeWhile_prefix _).subset (List.mem_reverse.mp inside)
    · cases found

theorem newline_not_mem_unqualifiedAt {form : TypeForm} {isConst : Bool} {t : ReturnType}
    (clean : 10 ∉ s) (found : unqualifiedAt form isConst s = some t) : 10 ∉ t.text := by
  obtain ⟨lead, isLead, found⟩ := List.exists_of_findSome?_eq_some found
  have clear : 10 ∉ lead := by
    cases form <;> simp only [TypeForm.leads, List.mem_cons, List.not_mem_nil, or_false] at isLead
    · rcases isLead with rfl | rfl | rfl <;> decide
    · rcases isLead with rfl | rfl <;> decide
    · subst isLead
      decide
  obtain ⟨rest, after, found⟩ := Option.bind_eq_some_iff.mp found
  obtain ⟨name, isName, found⟩ := Option.bind_eq_some_iff.mp found
  cases found
  have named : 10 ∉ name := fun bad => clean (by
    rw [Bytes.eq_of_after? after]
    exact List.mem_append_right _ (nameAt_subset isName bad))
  have const : 10 ∉ (if isConst then lit "const " else []) := by split <;> decide
  simp only [ReturnType.text, List.mem_append, not_or]
  exact ⟨⟨const, clear, named⟩, fun bad => absurd (List.eq_of_mem_replicate bad) (by decide)⟩

theorem newline_not_mem_findType {form : TypeForm} {t : ReturnType} (s : Bytes) :
    ∀ {before : Option UInt8}, 10 ∉ s → findType form before s = some t → 10 ∉ t.text := by
  induction s with
  | nil => exact fun _ found => by cases found
  | cons c s ih =>
      intro before clean found
      rw [findType] at found
      split at found
      · rename_i t' here
        obtain rfl := Option.some.inj found
        rw [typeAt] at here
        split at here
        · cases here
        · rcases (Option.orElse_eq_some _ _ _).mp here with qualified | ⟨-, plain⟩
          · obtain ⟨rest, after, found⟩ := Option.bind_eq_some_iff.mp qualified
            refine newline_not_mem_unqualifiedAt (fun bad => clean ?_) found
            rw [Bytes.eq_of_after? after]
            exact List.mem_append_right _ bad
          · exact newline_not_mem_unqualifiedAt clean plain
      · exact ih (fun bad => clean (List.mem_cons_of_mem c bad)) found

theorem newline_not_mem_lineType {t : Bytes} (clean : 10 ∉ s) (found : lineType s = some t) :
    10 ∉ t := by
  rw [lineType] at found
  split at found
  · rw [← Option.some.inj found]
    decide
  · obtain ⟨type, isType, rfl⟩ := Option.map_eq_some_iff.mp found
    have bare : 10 ∉ Bytes.replace (lit "inline") [] (Bytes.replace (lit "static") [] s) := fun bad =>
      clean (Bytes.replace_nil_subset _ _ (Bytes.replace_nil_subset _ _ bad))
    rcases (Option.orElse_eq_some _ _ _).mp isType with aggregate | ⟨-, others⟩
    · exact newline_not_mem_findType _ bare aggregate
    · rcases (Option.orElse_eq_some _ _ _).mp others with isSigned | ⟨-, plain⟩
      · exact newline_not_mem_findType _ bare isSigned
      · exact newline_not_mem_findType _ bare plain

theorem newline_not_mem_lookBack {lines : List Bytes} (clean : ∀ l ∈ lines, 10 ∉ l) :
    10 ∉ lookBack lines := by
  induction lines with
  | nil => decide
  | cons line earlier ih =>
      have here : 10 ∉ line := clean line List.mem_cons_self
      rw [lookBack, List.span_eq_takeWhile_dropWhile]
      dsimp only
      split
      · split
        · rename_i t found
          exact newline_not_mem_lineType here found
        · exact ih fun l member => clean l (List.mem_cons_of_mem _ member)
      · cases found : lineType (125 :: (line.reverse.takeWhile (· != 125)).reverse) with
        | none => exact fun bad => absurd bad (by decide)
        | some t =>
            refine newline_not_mem_lineType (fun bad => ?_) found
            rcases List.mem_cons.mp bad with impossible | inside
            · exact absurd impossible (by decide)
            · have inside := (List.takeWhile_prefix _).subset (List.mem_reverse.mp inside)
              exact here (List.mem_reverse.mp inside)

theorem beforeCall_subset {name : Bytes} (s : Bytes) :
    ∀ {passed : Bytes} {best : Option Bytes} {front : Bytes},
      beforeCall name passed best s = some front → (∀ p ∈ best, p ⊆ passed) →
        ∀ x ∈ front, x ∈ passed ∨ x ∈ s := by
  induction s with
  | nil => exact fun found old x member => .inl (old _ found member)
  | cons c s ih =>
      intro passed best front found old x member
      rw [beforeCall] at found
      have later := ih found (by
        intro p isBest
        split at isBest
        · cases isBest
          exact List.subset_cons_self c passed
        · exact List.Subset.trans (old p isBest) (List.subset_cons_self c passed)) x member
      exact Bytes.mem_passed later

theorem newline_not_mem_returnType {name t : Bytes} {line : Int} (clean : ∀ l ∈ src, 10 ∉ l)
    (found : returnType name src line = .ok t) : 10 ∉ t := by
  unfold returnType at found
  split at found
  · cases found; decide
  split at found
  · cases found; decide
  split at found
  · cases found
  simp only at found
  split at found
  · cases found; decide
  · rename_i own earlier upTo
    have inside : own :: earlier ⊆ src := by
      rw [← upTo]
      exact fun l member => List.take_subset _ _ (List.mem_reverse.mp member)
    split at found
    · cases found; decide
    · rename_i front isFront
      have before : 10 ∉ Utf8.trim front.reverse := by
        intro bad
        have bad := List.mem_reverse.mp (Utf8.trim_subset _ bad)
        rcases beforeCall_subset own isFront (fun p isNone => by cases isNone) 10 bad with
          impossible | isOwn
        · cases impossible
        · exact clean own (inside List.mem_cons_self) isOwn
      split at found
      · rename_i t' isType
        cases found
        exact newline_not_mem_lineType before isType
      · cases found
        exact newline_not_mem_lookBack fun l member =>
          clean l (inside (List.mem_cons_of_mem _ (List.take_subset _ _ member)))

/-- The extra text of a symbol stays on one line. -/
theorem newline_not_mem_extraText {kind : SymbolKind} {name extra : Bytes} {line : Int}
    (clean : ∀ l ∈ src, 10 ∉ l) (found : extraText kind name src line = .ok extra) :
    10 ∉ extra := by
  cases kind with
  | unknown => cases found; decide
  | define => cases found; decide
  | «variable» =>
      cases found
      exact newline_not_mem_initializer clean line
  | function =>
      rw [extraText] at found
      cases isType : returnType name src line with
      | error f =>
          rw [isType] at found
          cases found
      | ok t =>
          rw [isType] at found
          cases found
          simp only [List.mem_append, not_or]
          exact ⟨⟨newline_not_mem_returnType clean isType, by decide⟩,
            newline_not_mem_arguments clean line⟩

end Signature

/-! ## Lines of symbol files -/

namespace TagTable

theorem newline_not_mem_name_of_decode {line : Bytes} {e : Entry}
    (decoded : Entry.decode line = some e) (oneLine : 10 ∉ line) : 10 ∉ e.name := by
  rw [Entry.decode] at decoded
  split at decoded
  · rename_i name file rest parts
    have front : name <+: line := Bytes.prefix_of_splitAtMost parts
    split at decoded
    · cases decoded
    · split at decoded
      · cases decoded
        exact fun bad => oneLine (front.subset bad)
      · cases decoded
        exact fun bad => oneLine (front.subset bad)
  · cases decoded

/-- An entry stands in a line of the table. -/
theorem exists_decode_of_mem_readAll {input : Input} {sources : Option Sources} {e : Entry}
    (member : e ∈ (Reader.ofInput input sources).readAll.1) :
    ∃ line, 10 ∉ line ∧ Entry.decode line = some e.unplaced := by
  obtain ⟨n, -, -, -, entries, -⟩ := Reader.readAll_spec input sources
  have isEntry : e.unplaced ∈ entriesOf ((Bytes.lines input.data).take n) := by
    rw [← entries]
    exact List.mem_map_of_mem member
  obtain ⟨l, isLine, found⟩ := List.mem_filterMap.mp isEntry
  split at found
  · cases found
  · exact ⟨Reader.lineText l, fun bad => Bytes.not_mem_of_mem_lines (List.take_subset _ _ isLine)
      (Bytes.withoutTail_subset _ _ bad), found⟩

/-- The name of an entry stands on one line. -/
theorem newline_not_mem_entry_name {table : Bytes} {sources : Option Sources} {e : Entry}
    (member : e ∈ ((Reader.ofInput ⟨table, none⟩ sources).readAll).1) : 10 ∉ e.name := by
  obtain ⟨line, oneLine, decoded⟩ := exists_decode_of_mem_readAll member
  have clean : 10 ∉ e.unplaced.name := newline_not_mem_name_of_decode decoded oneLine
  exact clean

end TagTable

namespace Symbol

theorem newline_not_mem_format {s : Symbol} (name : 10 ∉ s.name) (extra : 10 ∉ s.extra) :
    10 ∉ s.format := by
  have kind : 10 ∉ s.kind.name := by cases s.kind <;> decide
  have number : 10 ∉ Decimal.ofInt s.line := Decimal.not_mem_ofInt (by decide) (by decide) s.line
  have parts : s.format = s.name ++ tab :: (s.kind.name ++ tab :: (Decimal.ofInt s.line ++ tab :: s.extra)) := by
    simp [format, Bytes.join]
  have notTab : (10 : UInt8) ≠ tab := by decide
  rw [parts]
  simp only [List.mem_append, List.mem_cons, not_or]
  exact ⟨name, notTab, kind, notTab, number, notTab, extra⟩

/-- A symbol file has one line per symbol. -/
theorem lines_writeAll {symbols : List Symbol} (oneLine : ∀ s ∈ symbols, 10 ∉ s.format) :
    Bytes.lines (writeAll symbols) = symbols.map fun s => ⟨s.format, true⟩ := by
  induction symbols with
  | nil => rfl
  | cons s symbols ih =>
      rw [writeAll, List.flatMap_cons, ← writeAll, List.append_assoc, List.singleton_append,
        Bytes.lines_cons (oneLine s List.mem_cons_self),
        ih fun s member => oneLine s (List.mem_cons_of_mem _ member), List.map_cons]

end Symbol

namespace Organizer

/-- A symbol has what its entry says, and the text that the content adds. -/
theorem symbolOf_eq_ok {src : SourceText} {e : TagTable.Entry} {s : Symbol}
    (understood : symbolOf src e = .ok s) :
    ∃ extra, Signature.extraText e.kind e.name src e.line = .ok extra ∧
      s = { name := e.name, kind := e.kind, line := e.line, extra := extra } := by
  rw [symbolOf] at understood
  cases found : Signature.extraText e.kind e.name src e.line with
  | error f =>
      rw [found] at understood
      cases understood
  | ok extra =>
      rw [found] at understood
      cases understood
      exact ⟨extra, rfl, rfl⟩

theorem newline_not_mem_symbolOf {data : Bytes} {e : TagTable.Entry} {s : Symbol} (name : 10 ∉ e.name)
    (understood : symbolOf (SourceText.ofContent data) e = .ok s) : 10 ∉ s.format := by
  obtain ⟨extra, found, rfl⟩ := symbolOf_eq_ok understood
  exact Symbol.newline_not_mem_format name
    (Signature.newline_not_mem_extraText (fun l => SourceText.newline_not_mem) found)

end Organizer

end SymbolHistory
