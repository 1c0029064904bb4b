/-
# Proofs.ReturnTypes -- the type that a function's return type names

A return type is read from one text: what stands before the function's name in its
line, or one of the lines before that (`returnType_eq`).  The type's name is the
first that can be read there, and a name ends where a word does, unless the word
ends in a dollar sign (`isWord_nameAt`).  The text is not read as it stands:
keywords are cut out of it, and the name of the function cuts it off.

So a return type names a word of a line wherever none of these cuts goes through a
word (`returnType_names`), and a fragment where one does
(`returnType_names_fragment`).
-/
import SymbolHistory.Proofs.CheckedPositions
import SymbolHistory.Proofs.Words

set_option autoImplicit false

namespace SymbolHistory

namespace Signature

variable {s p q w ident text : Bytes} {form : TypeForm} {t : ReturnType}

/-! ## Identifiers -/

/-- Bytes that make an identifier. -/
structure IsIdentifier (w : Bytes) : Prop where
  starts : w.head?.any isNameStart = true
  bytes : ∀ b ∈ w, isNameByte b = true

/-- A text that names a type: perhaps a qualifier and another word, the name, and stars. -/
def Names (ident text : Bytes) : Prop :=
  IsIdentifier ident ∧ ∃ qualifier ∈ [[], lit "const "],
    ∃ lead ∈ [[], lit "struct ", lit "enum ", lit "union ", lit "signed ", lit "unsigned "],
    ∃ stars : Nat, text = qualifier ++ lead ++ ident ++ List.replicate stars 42

/-- The type that a text names is the last word before the stars. -/
theorem Names.eq_last (names : Names ident text) :
    (text.rdropWhile (· == 42)).rtakeWhile isNameByte = ident := by
  obtain ⟨isIdentifier, qualifier, isQualifier, lead, isLead, stars, rfl⟩ := names
  have spaced : ∀ qualifier ∈ [[], lit "const "],
      ∀ lead ∈ [[], lit "struct ", lit "enum ", lit "union ", lit "signed ", lit "unsigned "],
      (qualifier ++ lead).rtakeWhile isNameByte = [] := by decide
  have nonempty : ident ≠ [] := by
    rintro rfl
    cases isIdentifier.starts
  have noStar : ∀ whole : qualifier ++ lead ++ ident ≠ [],
      ¬ (qualifier ++ lead ++ ident).getLast whole == 42 := by
    intro whole isStar
    rw [List.getLast_append_of_ne_nil whole nonempty] at isStar
    have isName := isIdentifier.bytes _ (List.getLast_mem nonempty)
    rw [eq_of_beq isStar] at isName
    cases isName
  have unstarred : (qualifier ++ lead ++ ident ++ List.replicate stars 42).rdropWhile (· == 42) =
      qualifier ++ lead ++ ident := by
    induction stars with
    | zero => rw [List.replicate_zero, List.append_nil, List.rdropWhile_eq_self_iff.mpr noStar]
    | succ stars ih => rw [List.replicate_succ', ← List.append_assoc, List.rdropWhile_concat_pos _ _ _ rfl, ih]
  rw [unstarred, List.rtakeWhile, List.reverse_append,
    List.takeWhile_append_of_pos fun b member => isIdentifier.bytes b (List.mem_reverse.mp member),
    List.reverse_append, List.reverse_reverse, ← List.rtakeWhile, spaced _ isQualifier _ isLead, List.nil_append]

/-- A dollar sign stands at no end of a word, and only in words that start as identifiers do. -/
def DollarsInside (s : Bytes) : Prop :=
  ∀ w, IsWord w s → 36 ∈ w → w.head?.any (fun b => isNameStart b && b != 36) = true ∧ w.getLast? ≠ some 36

instance (s : Bytes) : Decidable (DollarsInside s) :=
  decidable_of_iff (∀ w ∈ words s, 36 ∈ w →
    w.head?.any (fun b => isNameStart b && b != 36) = true ∧ w.getLast? ≠ some 36)
    (by simp only [DollarsInside, mem_words])

theorem any_isWordByte_of_isNameByte {b : Option UInt8} (other : b.any isNameByte = false) :
    b.any isWordByte = false := by
  cases b with
  | none => rfl
  | some b => exact (Bool.or_eq_false_iff.mp other).1

theorem isWordByte_of_isNameByte {b : UInt8} (isName : isNameByte b = true) (other : b ≠ 36) :
    isWordByte b = true := by
  simpa [isNameByte, other] using isName

theorem isNameByte_of_isNameStart {b : UInt8} (starts : isNameStart b = true) : isNameByte b = true := by
  simp only [isNameStart, isNameByte, Bool.or_eq_true, Bool.and_eq_true] at starts ⊢
  exact starts.imp And.left id

theorem endAtBoundary_front {after : Option UInt8} {bs : Bytes} (found : endAtBoundary after bs = some ident) :
    ident <+: bs.reverse ∧ ident ≠ [] := by
  induction bs generalizing after with
  | nil => cases found
  | cons b before ih =>
      rw [endAtBoundary] at found
      split at found
      · cases found
        exact ⟨List.prefix_rfl, by simp⟩
      · obtain ⟨front, nonempty⟩ := ih found
        rw [List.reverse_cons]
        exact ⟨front.trans (List.prefix_append _ _), nonempty⟩

theorem endAtBoundary_last {after : Option UInt8} {b : UInt8} (before : Bytes) (isWord : isWordByte b = true)
    (stops : after.any isWordByte = false) : endAtBoundary after (b :: before) = some (b :: before).reverse := by
  rw [endAtBoundary, if_pos]
  simp [isBoundary, isWord, stops]

/-- The search for a boundary ends at the latest behind the first byte. -/
theorem exists_endAtBoundary {after : Option UInt8} {bs : Bytes} (starts : bs.getLast?.any isWordByte = true)
    (stops : after.any isWordByte = false) : ∃ ident, endAtBoundary after bs = some ident := by
  induction bs generalizing after with
  | nil => cases starts
  | cons b before ih =>
      cases isWord : isWordByte b with
      | true => exact ⟨_, endAtBoundary_last before isWord stops⟩
      | false =>
          cases before with
          | nil => simp [isWord] at starts
          | cons c before =>
              rw [endAtBoundary, if_neg (by simp [isBoundary, isWord, stops])]
              exact ih (by simpa using starts) isWord

theorem nameAt_cons (b : UInt8) (s : Bytes) : nameAt (b :: s) = if isNameStart b then
    endAtBoundary ((b :: s).dropWhile isNameByte).head? ((b :: s).takeWhile isNameByte).reverse else none := by
  rw [nameAt, List.span_eq_takeWhile_dropWhile]

theorem isIdentifier_of_nameAt (found : nameAt s = some ident) :
    IsIdentifier ident ∧ s.head?.any isNameStart = true := by
  cases s with
  | nil => cases found
  | cons b s =>
      rw [nameAt_cons] at found
      split at found
      · rename_i starts
        obtain ⟨front, nonempty⟩ := endAtBoundary_front found
        rw [List.reverse_reverse] at front
        refine ⟨⟨?_, fun c member => List.mem_takeWhile_imp (front.subset member)⟩, starts⟩
        rw [List.takeWhile_cons_of_pos (isNameByte_of_isNameStart starts)] at front
        obtain ⟨c, rest, rfl⟩ := List.exists_cons_of_ne_nil nonempty
        obtain ⟨rfl, -⟩ := List.cons_prefix_cons.mp front
        exact starts
      · cases found

/-- A name takes all identifier bytes, unless the last of them is a dollar sign. -/
theorem nameAt_eq_takeWhile (last : (s.takeWhile isNameByte).getLast? ≠ some 36)
    (found : nameAt s = some ident) : ident = s.takeWhile isNameByte := by
  cases s with
  | nil => cases found
  | cons b s =>
      rw [nameAt_cons] at found
      split at found
      · cases run : (b :: s).takeWhile isNameByte using List.reverseRecOn with
        | nil =>
            rw [run] at found
            cases found
        | append_singleton front c =>
            rw [run, List.getLast?_concat] at last
            have isName : isNameByte c = true := List.mem_takeWhile_imp (run ▸ List.mem_concat_self)
            have isWord := isWordByte_of_isNameByte isName fun dollar => last (congrArg some dollar)
            rw [run, List.reverse_concat,
              endAtBoundary_last _ isWord (any_isWordByte_of_isNameByte (head?_dropWhile _))] at found
            rw [← Option.some.inj found, List.reverse_cons, List.reverse_reverse]
      · cases found

/-- A name is a whole word if its left neighbour is no part of one. -/
theorem isWord_nameAt (inside : DollarsInside (p ++ s)) (left : p.getLast?.any isNameByte = false)
    (found : nameAt s = some ident) : IsWord ident (p ++ s) := by
  obtain ⟨isIdentifier, starts⟩ := isIdentifier_of_nameAt found
  have isWord : IsWord (s.takeWhile isNameByte) (p ++ s) := by
    refine ⟨?_, fun c => List.mem_takeWhile_imp, p, s.dropWhile isNameByte,
      by rw [List.append_assoc, List.takeWhile_append_dropWhile], left, head?_dropWhile s⟩
    cases s with
    | nil => cases found
    | cons b s =>
        rw [List.takeWhile_cons_of_pos (isNameByte_of_isNameStart starts)]
        exact List.cons_ne_nil _ _
  rwa [nameAt_eq_takeWhile (fun dollar => (inside _ isWord (List.mem_of_getLast? dollar)).2 dollar) found]

theorem exists_nameAt (starts : s.head?.any (fun b => isNameStart b && b != 36) = true) :
    ∃ ident, nameAt s = some ident := by
  cases s with
  | nil => cases starts
  | cons b s =>
      obtain ⟨isStart, other⟩ := Bool.and_eq_true_iff.mp starts
      have isName := isNameByte_of_isNameStart isStart
      rw [nameAt_cons, if_pos isStart]
      refine exists_endAtBoundary ?_ (any_isWordByte_of_isNameByte (head?_dropWhile _))
      rw [List.getLast?_reverse, List.takeWhile_cons_of_pos isName]
      exact isWordByte_of_isNameByte isName (bne_iff_ne.mp other)

/-! ## Types in a text -/

/-- What a type puts before its name. -/
def ReturnType.qualifier (t : ReturnType) : Bytes := if t.isConst then lit "const " else []

theorem unqualifiedAt_parts {isConst : Bool} (found : unqualifiedAt form isConst s = some t) :
    t.isConst = isConst ∧ ∃ lead ∈ form.leads, ∃ ident rest,
      t.name = lead ++ ident ∧ s = lead ++ rest ∧ nameAt rest = some ident := by
  obtain ⟨lead, member, found⟩ := List.exists_of_findSome?_eq_some found
  obtain ⟨rest, follows, found⟩ := Option.bind_eq_some_iff.mp found
  obtain ⟨ident, named, found⟩ := Option.bind_eq_some_iff.mp found
  cases found
  exact ⟨rfl, lead, member, ident, rest, rfl, Bytes.eq_of_after? follows, named⟩

theorem typeAt_parts {before : Option UInt8} (found : typeAt form before s = some t) :
    isBoundary before s.head? = true ∧ ∃ lead ∈ form.leads, ∃ ident rest,
      t.name = lead ++ ident ∧ s = t.qualifier ++ lead ++ rest ∧ nameAt rest = some ident := by
  rw [typeAt] at found
  split at found
  · cases found
  · rename_i boundary
    refine ⟨by simpa using boundary, ?_⟩
    cases qualified : (Bytes.after? (lit "const ") s).bind (unqualifiedAt form true) with
    | some t' =>
        rw [qualified] at found
        cases found
        obtain ⟨after, follows, unqualified⟩ := Option.bind_eq_some_iff.mp qualified
        obtain ⟨isConst, lead, member, ident, rest, name, rfl, named⟩ := unqualifiedAt_parts unqualified
        refine ⟨lead, member, ident, rest, name, ?_, named⟩
        rw [Bytes.eq_of_after? follows, ReturnType.qualifier, isConst, if_pos rfl, List.append_assoc]
    | none =>
        rw [qualified] at found
        obtain ⟨isConst, lead, member, ident, rest, name, rfl, named⟩ := unqualifiedAt_parts found
        refine ⟨lead, member, ident, rest, name, ?_, named⟩
        rw [ReturnType.qualifier, isConst]
        rfl

/-- A plain type can be read wherever a word starts as an identifier. -/
theorem typeAt_plain_ne_none {before : Option UInt8} (left : before.any isNameByte = false)
    (starts : s.head?.any (fun b => isNameStart b && b != 36) = true) : typeAt .plain before s ≠ none := by
  obtain ⟨ident, named⟩ := exists_nameAt starts
  have boundary : isBoundary before s.head? = true := by
    cases s with
    | nil => cases starts
    | cons b s =>
        obtain ⟨isStart, other⟩ := Bool.and_eq_true_iff.mp starts
        have isWord := isWordByte_of_isNameByte (isNameByte_of_isNameStart isStart) (bne_iff_ne.mp other)
        simp [isBoundary, any_isWordByte_of_isNameByte left, isWord]
  have unqualified : unqualifiedAt .plain false s ≠ none := by
    simp [unqualifiedAt, TypeForm.leads, Bytes.after?, named]
  rw [typeAt, if_neg (by simp [boundary])]
  cases (Bytes.after? (lit "const ") s).bind (unqualifiedAt .plain true) with
  | some t => exact Option.some_ne_none t
  | none => exact unqualified

/-- The type found is the first that can be read. -/
theorem findType_parts (passed s : Bytes) (found : findType form passed.getLast? s = some t) :
    ∃ p q, s = p ++ q ∧ typeAt form (passed ++ p).getLast? q = some t ∧
      ∀ a b, p = a ++ b → b ≠ [] → typeAt form (passed ++ a).getLast? (b ++ q) = none := by
  induction s generalizing passed with
  | nil => cases found
  | cons c s ih =>
      rw [findType] at found
      split at found
      · rename_i own
        cases found
        refine ⟨[], c :: s, rfl, by rw [List.append_nil]; exact own, fun a b parts nonempty => ?_⟩
        exact absurd (List.append_eq_nil_iff.mp parts.symm).2 nonempty
      · rename_i own
        have last : some c = (passed ++ [c]).getLast? := by simp
        rw [last] at found
        obtain ⟨p, q, rfl, own', earlier⟩ := ih _ found
        refine ⟨c :: p, q, rfl, by simpa using own', fun a b parts nonempty => ?_⟩
        rcases List.cons_eq_append_iff.mp parts with ⟨rfl, rfl⟩ | ⟨a, rfl, rfl⟩
        · rw [List.append_nil]
          exact own
        · simpa using earlier a b rfl nonempty

/-- Where something stands before a type's name, it ends in a space. -/
theorem last_of_lead {lead : Bytes} (member : lead ∈ form.leads) (nonempty : t.qualifier ++ lead ≠ []) :
    (t.qualifier ++ lead).getLast? = some 32 := by
  have ends : ∀ lead ∈ form.leads, lead = [] ∨ lead.getLast? = some 32 := by
    cases form <;> decide
  rcases ends lead member with rfl | ends
  · rw [List.append_nil] at nonempty ⊢
    unfold ReturnType.qualifier at nonempty ⊢
    split at nonempty
    · rename_i isConst
      rw [if_pos isConst]
      decide
    · exact absurd rfl nonempty
  · rw [List.getLast?_append, ends, Option.some_or]

theorem plain_of_lead (member : [] ∈ form.leads) : form = .plain := by
  revert member
  cases form <;> decide

/-- Inside a word with a dollar sign a plain type is read only if none was read at the word's start. -/
theorem left_of_plain (inside : DollarsInside (p ++ q)) (boundary : isBoundary p.getLast? q.head? = true)
    (starts : q.head?.any isNameStart = true)
    (earlier : ∀ a b, p = a ++ b → b ≠ [] → typeAt .plain a.getLast? (b ++ q) = none) :
    p.getLast?.any isNameByte = false := by
  by_contra goesOn
  rw [Bool.not_eq_false] at goesOn
  cases p using List.reverseRecOn with
  | nil => cases goesOn
  | append_singleton p c =>
      cases q with
      | nil => cases starts
      | cons b q =>
          rw [List.getLast?_concat, Option.any_some] at goesOn
          have isStart : isNameByte b = true := isNameByte_of_isNameStart starts
          -- the two neighbours are not both word bytes, so one of them is the dollar sign
          have dollar : 36 ∈ [c, b] := by
            by_contra other
            simp only [List.mem_cons, List.not_mem_nil, or_false, not_or] at other
            simp [isBoundary, isWordByte_of_isNameByte goesOn (Ne.symm other.1),
              isWordByte_of_isNameByte isStart (Ne.symm other.2)] at boundary
          have isWord : IsWord (p.rtakeWhile isNameByte ++ [c, b] ++ q.takeWhile isNameByte) (p ++ [c, b] ++ q) :=
            isWord_around (List.cons_ne_nil _ _) (by simp [goesOn, isStart])
          have whole : p ++ [c, b] ++ q = p ++ [c] ++ b :: q := by simp
          obtain ⟨first, -⟩ := inside _ (whole ▸ isWord) (List.mem_append_left _ (List.mem_append_right _ dollar))
          refine typeAt_plain_ne_none (s := p.rtakeWhile isNameByte ++ [c] ++ b :: q) (getLast?_rdropWhile p) ?_
            (earlier (p.rdropWhile isNameByte) (p.rtakeWhile isNameByte ++ [c]) ?_ (by simp))
          · simpa [List.append_assoc, any_head?_append] using first
          · rw [← List.append_assoc, List.rdropWhile_append_rtakeWhile]

/-- A type that is found names a word. -/
theorem isWord_findType (found : findType form none s = some t) : ∃ lead ∈ form.leads, ∃ ident,
    t.name = lead ++ ident ∧ IsIdentifier ident ∧ (DollarsInside s → IsWord ident s) := by
  obtain ⟨p, q, rfl, own, earlier⟩ := findType_parts [] s found
  rw [List.nil_append] at own
  obtain ⟨boundary, lead, member, ident, rest, name, rfl, named⟩ := typeAt_parts own
  obtain ⟨isIdentifier, starts⟩ := isIdentifier_of_nameAt named
  refine ⟨lead, member, ident, name, isIdentifier, fun inside => ?_⟩
  suffices left : (p ++ (t.qualifier ++ lead)).getLast?.any isNameByte = false by
    rw [← List.append_assoc] at inside ⊢
    exact isWord_nameAt inside left named
  by_cases nothing : t.qualifier ++ lead = []
  · rw [nothing, List.append_nil]
    obtain rfl : lead = [] := (List.append_eq_nil_iff.mp nothing).2
    obtain rfl := plain_of_lead member
    rw [nothing, List.nil_append] at inside boundary earlier
    exact left_of_plain inside boundary starts earlier
  · rw [any_getLast?_append, if_neg nothing, last_of_lead member nothing]
    decide

/-! ## What one text says -/

/-- The keywords that are read over stand in no longer word, and a dollar sign at no end of one. -/
structure Plain (s : Bytes) : Prop where
  static : Spares (lit "static") s
  inline : Spares (lit "inline") s
  dollars : DollarsInside s

instance (s : Bytes) : Decidable (Plain s) :=
  decidable_of_iff (Spares (lit "static") s ∧ Spares (lit "inline") s ∧ DollarsInside s)
    ⟨fun ⟨static, inline, dollars⟩ => ⟨static, inline, dollars⟩,
      fun ⟨static, inline, dollars⟩ => ⟨static, inline, dollars⟩⟩

/-- A text without the keywords that are read over. -/
def bare (s : Bytes) : Bytes := Bytes.replace (lit "inline") [] (Bytes.replace (lit "static") [] s)

theorem isWord_bare (plain : Plain s) (isWord : IsWord w (bare s)) : IsWord w s := by
  have static : (lit "static").all isNameByte = true := by decide
  have inline : (lit "inline").all isNameByte = true := by decide
  have once : ∀ w, IsWord w (Bytes.replace (lit "static") [] s) → IsWord w s := fun w =>
    isWord_replace (by decide) (List.all_eq_true.mp static) plain.static
  exact once w (isWord_replace (by decide) (List.all_eq_true.mp inline)
    (fun w isWord => plain.inline w (once w isWord)) isWord)

/-- A type found without the keywords names a word of the text as it stands. -/
theorem names_of_findType (found : findType form none (bare s) = some t) :
    ∃ ident, Names ident t.text ∧ (Plain s → IsWord ident s) := by
  obtain ⟨lead, member, ident, name, isIdentifier, isWord⟩ := isWord_findType found
  have known : form.leads ⊆
      [[], lit "struct ", lit "enum ", lit "union ", lit "signed ", lit "unsigned "] := by
    cases form <;> decide
  have qualified : t.qualifier ∈ [[], lit "const "] := by
    unfold ReturnType.qualifier
    split
    · exact List.mem_cons_of_mem _ List.mem_cons_self
    · exact List.mem_cons_self
  refine ⟨ident, ⟨isIdentifier, t.qualifier, qualified, lead, known member, t.pointers, ?_⟩, fun plain =>
    isWord_bare plain (isWord fun w isWord => plain.dollars w (isWord_bare plain isWord))⟩
  rw [ReturnType.text, name, ReturnType.qualifier, List.append_assoc _ lead]

theorem lineType_names (found : lineType s = some text) :
    text = lit "int" ∨ ∃ ident, Names ident text ∧ (Plain s → IsWord ident s) := by
  rw [lineType] at found
  dsimp only at found
  split at found
  · cases found
    exact .inl rfl
  · right
    obtain ⟨t, isType, rfl⟩ := Option.map_eq_some_iff.mp found
    change (findType .aggregate none (bare s) <|> findType .signed none (bare s) <|>
      findType .plain none (bare s)) = some t at isType
    cases aggregate : findType .aggregate none (bare s) with
    | some t' =>
        rw [aggregate] at isType
        cases isType
        exact names_of_findType aggregate
    | none =>
        cases signed : findType .signed none (bare s) with
        | some t' =>
            rw [aggregate, signed] at isType
            cases isType
            exact names_of_findType signed
        | none =>
            rw [aggregate, signed] at isType
            have plain : findType .plain none (bare s) = some t := isType
            exact names_of_findType plain

/-! ## Looking back -/

/-- The lines that are looked at for a function's type: its own, and those before it, nearest first. -/
def linesBack (src : SourceText) (line : Int) : List Bytes :=
  (src.take line.toNat).reverse.take returnTypeLines

/-- The texts that the lines before a function's own are read as, as far as the nearest closing brace. -/
def textsBack : List Bytes → List Bytes
  | [] => []
  | l :: earlier =>
    let (tail, front) := l.reverse.span (· != 125)
    if front.isEmpty then l :: textsBack earlier else [125 :: tail.reverse]

/-- The texts that are looked at for the type of the function `name`: what stands before the name in
the first line, if it is called there, and the lines behind it. -/
def textsOf (name : Bytes) : List Bytes → List Bytes
  | [] => []
  | own :: earlier =>
    match beforeCall name [] none own with
    | none => []
    | some before => Utf8.trim before.reverse :: textsBack earlier

theorem lookBack_eq (lines : List Bytes) :
    lookBack lines = ((textsBack lines).findSome? lineType).getD (lit "int") := by
  induction lines with
  | nil => rfl
  | cons l earlier ih =>
      rw [lookBack, textsBack]
      dsimp only
      split
      · rw [List.findSome?_cons, ih]
        cases lineType l <;> rfl
      · rw [List.findSome?_singleton]

/-- A return type is read from the first text that says one. -/
theorem returnType_eq {name : Bytes} (src : SourceText) {line : Int} (valid : Utf8.valid name = true)
    (positive : 0 < line) (inside : line ≤ src.length) : returnType name src line = .ok (
      match textsOf name (linesBack src line) with
      | [] => lit "unknown_t"
      | texts => (texts.findSome? lineType).getD (lit "int")) := by
  rw [returnType, if_neg (by omega), if_neg (by omega), valid, linesBack]
  cases upTo : (src.take line.toNat).reverse with
  | nil => rfl
  | cons own earlier =>
      simp only [Bool.not_true, Bool.false_eq_true, if_false, returnTypeLines, List.take_succ_cons, textsOf]
      cases beforeCall name [] none own with
      | none => rfl
      | some before =>
          dsimp only
          rw [List.findSome?_cons, lookBack_eq]
          cases lineType (Utf8.trim before.reverse) <;> rfl

/-- What was passed before the last call stands at the front. -/
theorem beforeCall_front {name : Bytes} (s : Bytes) : ∀ (passed : Bytes) {before : Bytes} {best : Option Bytes},
    (∀ b, best = some b → b.reverse <+: passed.reverse ++ s) →
    beforeCall name passed best s = some before → before.reverse <+: passed.reverse ++ s := by
  induction s with
  | nil => exact fun _ _ _ isBest found => isBest _ found
  | cons c s ih =>
      intro passed before best isBest found
      have whole : passed.reverse ++ c :: s = (c :: passed).reverse ++ s := by simp
      rw [beforeCall] at found
      rw [whole] at isBest ⊢
      refine ih _ (fun b isBest' => ?_) found
      split at isBest'
      · cases isBest'
        exact ⟨c :: s, whole⟩
      · exact isBest b isBest'

/-- The texts before a function's own line have only words of the lines. -/
theorem isWord_textsBack {lines : List Bytes} (member : text ∈ textsBack lines) :
    ∃ l ∈ lines, ∀ w, IsWord w text → IsWord w l := by
  induction lines with
  | nil => cases member
  | cons l earlier ih =>
      rw [textsBack] at member
      rcases span_brace l with ⟨-, none⟩ | ⟨front, tail, rfl, -, spanned⟩
      · simp only [none, List.isEmpty_nil, if_true] at member
        rcases List.mem_cons.mp member with rfl | later
        · exact ⟨text, List.mem_cons_self, fun w isWord => isWord⟩
        · obtain ⟨l', isLine, words⟩ := ih later
          exact ⟨l', List.mem_cons_of_mem _ isLine, words⟩
      · simp only [spanned, List.isEmpty_cons, Bool.false_eq_true, if_false, List.reverse_reverse] at member
        obtain rfl := List.mem_singleton.mp member
        refine ⟨_, List.mem_cons_self, fun w isWord => ?_⟩
        exact (isWord_append (.inr rfl)).mpr (.inr isWord)

/-- Neither the name of the function nor what is read over goes through a word on the way to the type. -/
structure Intact (name : Bytes) (lines : List Bytes) : Prop where
  whole : ∀ own before, lines.head? = some own → beforeCall name [] none own = some before →
    Apart before.reverse (own.drop before.length)
  plain : ∀ text, (textsOf name lines).find? (fun s => (lineType s).isSome) = some text → Plain text

theorem isWord_textsOf {name : Bytes} {lines : List Bytes} (intact : Intact name lines)
    (member : text ∈ textsOf name lines) : ∃ l ∈ lines, ∀ w, IsWord w text → IsWord w l := by
  cases lines with
  | nil => cases member
  | cons own earlier =>
      rw [textsOf] at member
      split at member
      · cases member
      · rename_i before found
        rcases List.mem_cons.mp member with rfl | back
        · refine ⟨own, List.mem_cons_self, fun w isWord => ?_⟩
          obtain ⟨rest, rfl⟩ := beforeCall_front own [] (fun b none => by cases none) found
          have apart := intact.whole _ before rfl found
          rw [← List.length_reverse, List.drop_left] at apart
          exact (isWord_append apart).mpr (.inl (isWord_trim isWord))
        · obtain ⟨l, isLine, words⟩ := isWord_textsBack back
          exact ⟨l, List.mem_cons_of_mem _ isLine, words⟩

/-- The first text that says a type names one. -/
theorem textsOf_names {name : Bytes} {lines : List Bytes}
    (said : (textsOf name lines).findSome? lineType = some text) :
    text = lit "int" ∨ ∃ ident, Names ident text ∧ (Intact name lines → ∃ l ∈ lines, IsWord ident l) := by
  obtain ⟨front, s, rest, texts, isType, silent⟩ := List.findSome?_eq_some_iff.mp said
  have first : (textsOf name lines).find? (fun s => (lineType s).isSome) = some s := by
    rw [texts, List.find?_append, List.find?_eq_none.mpr (by simpa using silent), Option.none_or,
      List.find?_cons_of_pos (by rw [isType]; rfl)]
  rcases lineType_names isType with rfl | ⟨ident, names, isWord⟩
  · exact .inl rfl
  · refine .inr ⟨ident, names, fun intact => ?_⟩
    obtain ⟨l, isLine, words⟩ := isWord_textsOf intact (List.mem_of_find?_eq_some first)
    exact ⟨l, isLine, words ident (isWord (intact.plain s first))⟩

/-- A return type is one of two defaults or names a type.  The name is a word of one of the lines up
to the function's own if no word was cut on the way. -/
theorem returnType_names (name : Bytes) (src : SourceText) (line : Int) :
    match returnType name src line with
    | .error f => f = badName name ∧ Utf8.valid name = false ∧ 0 < line ∧ line ≤ src.length
    | .ok text => text = lit "int" ∨ text = lit "unknown_t" ∨ ∃ ident, Names ident text ∧
        (Intact name (linesBack src line) → ∃ l ∈ linesBack src line, IsWord ident l) := by
  cases found : returnType name src line with
  | error f =>
      obtain ⟨inside, broken, rfl⟩ := returnType_eq_error_iff.mp found
      exact ⟨rfl, broken, inside⟩
  | ok text =>
      dsimp only
      by_cases inside : 0 < line ∧ line ≤ src.length
      · have valid : Utf8.valid name = true := by
          by_contra broken
          rw [returnType_eq_error_iff.mpr ⟨inside, Bool.not_eq_true _ ▸ broken, rfl⟩] at found
          cases found
        rw [returnType_eq src valid inside.1 inside.2] at found
        obtain rfl := Except.ok.inj found
        split
        · exact .inr (.inl rfl)
        · cases said : (textsOf name (linesBack src line)).findSome? lineType with
          | none => exact .inl rfl
          | some text => exact (textsOf_names said).imp id .inr
      · rw [returnType] at found
        by_cases positive : 0 < line
        · rw [if_neg (by omega), if_pos (by omega)] at found
          exact .inr (.inl (Except.ok.inj found).symm)
        · rw [if_pos (by omega)] at found
          exact .inl (Except.ok.inj found).symm

theorem returnType_names_intact :
    let src : SourceText := [lit "static inline const struct foo_ops *", lit "get_ops(void)"]
    Intact (lit "get_ops") (linesBack src 2) ∧
    returnType (lit "get_ops") src 2 = .ok (lit "const struct foo_ops*") ∧
    ∃ ident, Names ident (lit "const struct foo_ops*") ∧ ∃ l ∈ linesBack src 2, IsWord ident l := by
  intro src
  have value : returnType (lit "get_ops") src 2 = .ok (lit "const struct foo_ops*") := by decide +kernel
  have intact : Intact (lit "get_ops") (linesBack src 2) := by
    constructor
    · intro own before first called
      have own' : (linesBack src 2).head? = some (lit "get_ops(void)") := by decide +kernel
      obtain rfl := Option.some.inj (own'.symm.trans first)
      have called' : beforeCall (lit "get_ops") [] none (lit "get_ops(void)") = some [] := by decide +kernel
      obtain rfl := Option.some.inj (called'.symm.trans called)
      decide
    · intro text first
      have first' : (textsOf (lit "get_ops") (linesBack src 2)).find? (fun s => (lineType s).isSome) =
          some (lit "static inline const struct foo_ops *") := by decide +kernel
      obtain rfl := Option.some.inj (first'.symm.trans first)
      decide +kernel
  have named := returnType_names (lit "get_ops") src 2
  rw [value] at named
  rcases named with int | unknown | ⟨ident, names, words⟩
  · exact absurd int (by decide)
  · exact absurd unknown (by decide)
  · exact ⟨intact, value, ident, names, words intact⟩

/-- The return type of a function on a line by itself names a type, but no word of the line. -/
def NamesNoWord (name line text : Bytes) : Prop :=
  returnType name [line] 1 = .ok text ∧ text ≠ lit "int" ∧ text ≠ lit "unknown_t" ∧
    ∀ ident, Names ident text → ∀ l ∈ linesBack [line] 1, ¬ IsWord ident l

/-- A keyword inside a word, a name that begins inside one, and a dollar sign at the end of one: each
makes a return type that names no word of the line. -/
theorem returnType_names_fragment :
    NamesNoWord (lit "get_key") (lit "struct static_key *get_key(void)") (lit "struct _key*") ∧
    NamesNoWord (lit "foo") (lit "myfoo(void)") (lit "my") ∧
    NamesNoWord (lit "f") (lit "foo$ f(void)") (lit "foo") := by
  refine ⟨?_, ?_, ?_⟩ <;>
  · refine ⟨by decide +kernel, by decide, by decide, fun ident names => ?_⟩
    rw [← names.eq_last]
    decide +kernel

end Signature

end SymbolHistory
