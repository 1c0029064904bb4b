/-
# Proofs.AnsweredRequests -- requests and answers in step

Contents are asked for over one stream: a line with an id goes in, and a header
comes out, with a counted body if there is one.  What follows an answer is only
found at the right place if every answer has been read to its last byte, whatever
came of it.

`Serves` says what the program at the other end does, and that nothing it has
printed is unread.  Reading an id keeps that (`readBlob_serves`), whether the id
is a content's, another object's, nobody's or no id at all.  So any ids can be
read one after the other and each comes to what it comes to alone (`answers_in_step`).
The program of the version archives is such a program (`serves_repository`).
-/
import SymbolHistory.Proofs.Characters
import SymbolHistory.Proofs.Decimals
import SymbolHistory.Proofs.Places
import SymbolHistory.Proofs.TableReading
import SymbolHistory.Proofs.Work
import SymbolHistory.Source.Git

set_option autoImplicit false

namespace SymbolHistory

/-! ## Words on a line -/

namespace Utf8

/-- Visible characters below 128, at least one. -/
structure IsWord (w : Bytes) : Prop where
  visible : ∀ b ∈ w, 32 < b ∧ b < 128
  nonempty : w ≠ []

theorem pieces_append {w : Bytes} (ascii : ∀ b ∈ w, b < 128) (rest : Bytes) :
    pieces (w ++ rest) = w.map (fun b => .char b.toNat [b]) ++ pieces rest := by
  induction w with
  | nil => rfl
  | cons b w ih =>
      have one : first b (w ++ rest) = .char b.toNat [b] := if_pos (ascii b List.mem_cons_self)
      rw [List.cons_append, pieces_cons, one, List.map_cons, List.cons_append]
      exact congrArg _ (ih fun c member => ascii c (List.mem_cons_of_mem _ member))

theorem isSpace_visible {b : UInt8} (visible : 32 < b ∧ b < 128) : isSpace b.toNat = false := by
  have low : 32 < b.toNat := UInt8.lt_iff_toNat_lt.mp visible.1
  have high : b.toNat < 128 := UInt8.lt_iff_toNat_lt.mp visible.2
  simp only [isSpace, Bool.or_eq_false_iff, Bool.and_eq_false_iff, decide_eq_false_iff_not,
    beq_eq_false_iff_ne]
  omega

/-- Going backwards over a word puts its bytes before what has been gathered. -/
theorem foldr_visible {w : Bytes} (visible : ∀ b ∈ w, 32 < b ∧ b < 128) (acc : Bytes × List Bytes) :
    (w.map fun b => Piece.char b.toNat [b]).foldr (fun p acc =>
      if isSpacePiece p then ([], if acc.1.isEmpty then acc.2 else acc.1 :: acc.2)
      else (p.bytes ++ acc.1, acc.2)) acc = (w ++ acc.1, acc.2) := by
  induction w with
  | nil => rfl
  | cons b w ih =>
      have seen := isSpace_visible (visible b List.mem_cons_self)
      rw [List.map_cons, List.foldr_cons, ih fun c member => visible c (List.mem_cons_of_mem _ member)]
      simp [isSpacePiece, seen, Piece.bytes]

theorem IsWord.ascii {w : Bytes} (word : IsWord w) : ∀ b ∈ w, b < 128 :=
  fun b member => (word.visible b member).2

theorem IsWord.not_mem {w : Bytes} (word : IsWord w) {b : UInt8} (low : b ≤ 32) : b ∉ w :=
  fun member => UInt8.not_le.mpr (word.visible b member).1 low

/-- A word is its own only field. -/
theorem fields_word {w : Bytes} (word : IsWord w) : fields w = [w] := by
  have all : pieces w = w.map fun b => .char b.toNat [b] := by
    simpa [pieces, piecesFrom] using pieces_append word.ascii []
  rw [fields, all, foldr_visible word.visible]
  simp [word.nonempty]

/-- A word and a space are the first field. -/
theorem fields_cons {w : Bytes} (word : IsWord w) (rest : Bytes) :
    fields (w ++ 32 :: rest) = w :: fields rest := by
  have space : pieces (32 :: rest) = .char 32 [32] :: pieces rest :=
    pieces_append (w := [32]) (by decide +kernel) rest
  rw [fields, pieces_append word.ascii, space, List.foldr_append, List.foldr_cons,
    foldr_visible word.visible]
  simp [isSpacePiece, isSpace, word.nonempty, fields]

end Utf8

theorem Decimal.isWord_ofNat (n : Nat) : Utf8.IsWord (Decimal.ofNat n) where
  visible b member := by
    have digit := Decimal.isDigit_of_mem_ofNat member
    simp only [Bytes.isDigit, Bool.and_eq_true, decide_eq_true_eq] at digit
    exact ⟨UInt8.lt_of_lt_of_le (by decide) digit.1, UInt8.lt_of_le_of_lt digit.2 (by decide)⟩
  nonempty := (Decimal.ofNat_spec n).2.1

theorem ObjectId.isWord_of_isValid {id : Bytes} (valid : isValid id = true) : Utf8.IsWord id where
  visible b member := by
    simp only [isValid, Bool.and_eq_true, List.all_eq_true] at valid
    have digit := valid.2 b member
    simp only [isHexDigit, Bytes.isDigit, Bool.or_eq_true, Bool.and_eq_true, decide_eq_true_eq] at digit
    grind
  nonempty := by
    rintro rfl
    exact absurd valid (by decide)

namespace GitSource

/-! ## The program at the other end -/

/-- An object that is served: a word for its kind, and a content that a slice of memory can hold. -/
structure Served where
  kind : Bytes
  content : Bytes
  word : Utf8.IsWord kind
  fits : (content.length : Int) < maxBody

/-- The line before a content. -/
def headline (id : Bytes) (o : Served) : Bytes :=
  id ++ 32 :: (o.kind ++ 32 :: Decimal.ofNat o.content.length)

/-- What is printed for an id that is asked for. -/
def answer (objects : Bytes → Option Served) (id : Bytes) : Bytes :=
  match objects id with
  | none => id ++ lit " missing" ++ [10]
  | some o => headline id o ++ [10] ++ o.content ++ [10]

/-- The requests for some ids, one line each. -/
def requests (ids : List Bytes) : Bytes := ids.flatMap (· ++ [10])

/-- The program answers every line that asks for an id, after all that it has printed, and goes on
waiting.  All that it has printed has been read. -/
structure Serves (objects : Bytes → Option Served) (l : Process.Live) : Prop where
  prints : ∀ ids : List Bytes, (∀ id ∈ ids, ObjectId.isValid id = true) →
    (l.feed (requests ids)).outcome.printed = l.outcome.printed ++ ids.flatMap (answer objects)
  waits : ∀ ids : List Bytes, (∀ id ∈ ids, ObjectId.isValid id = true) →
    (l.feed (requests ids)).isOver = false
  waiting : l.isOver = false
  inStep : l.taken = l.outcome.printed.length

variable {objects : Bytes → Option Served} {l : Process.Live}

theorem feed_take_feed (l : Process.Live) (a b : Bytes) (n : Nat) :
    (((l.feed a).take n).feed b).outcome = (l.feed (a ++ b)).outcome := by
  simp only [Process.Live.feed, Process.Live.take, List.append_assoc]

theorem take_take (l : Process.Live) (m n : Nat) : (l.take m).take n = l.take (m + n) := by
  simp only [Process.Live.take, Nat.add_assoc]

/-- What the program prints for an id is what there is to read after asking for it. -/
theorem Serves.unread (serves : Serves objects l) {id : Bytes} (valid : ObjectId.isValid id = true) :
    (l.feed (id ++ [10])).unread = answer objects id := by
  have printed := serves.prints [id] (by simpa using valid)
  simp only [requests, List.flatMap_cons, List.flatMap_nil, List.append_nil] at printed
  rw [Process.Live.unread, printed]
  exact (congrArg (List.drop · _) serves.inStep).trans (List.drop_left ..)

/-- After an answer has been read, the program serves as before. -/
theorem Serves.answered (serves : Serves objects l) {id : Bytes} (valid : ObjectId.isValid id = true)
    {n : Nat} (all : n = (answer objects id).length) : Serves objects ((l.feed (id ++ [10])).take n) := by
  have one := serves.prints [id] (by simpa using valid)
  simp only [requests, List.flatMap_cons, List.flatMap_nil, List.append_nil] at one
  have more : ∀ {ids : List Bytes}, (∀ i ∈ ids, ObjectId.isValid i = true) →
      ∀ i ∈ id :: ids, ObjectId.isValid i = true := fun valids => by simpa [valid] using valids
  refine ⟨fun ids valids => ?_, fun ids valids => ?_, ?_, ?_⟩
  · have printed := serves.prints (id :: ids) (more valids)
    rw [feed_take_feed]
    simp only [requests, List.flatMap_cons] at printed ⊢
    rw [printed, Process.Live.take, one, List.append_assoc]
  · have open_ := serves.waits (id :: ids) (more valids)
    simp only [requests, List.flatMap_cons] at open_ ⊢
    rw [Process.Live.isOver, feed_take_feed]
    exact open_
  · have open_ := serves.waits [id] (by simpa using valid)
    simp only [requests, List.flatMap_cons, List.flatMap_nil, List.append_nil] at open_
    exact open_
  · simp only [Process.Live.take, one, List.length_append, all]
    exact congrArg (· + _) serves.inStep

/-! ## Reading one id -/

/-- What reading an id comes to. -/
def reply (objects : Bytes → Option Served) (id : Bytes) : Except Fault Bytes :=
  if ObjectId.isValid id then
    match objects id with
    | none => .error (.blobNotFound id)
    | some o =>
      if o.kind = lit "blob" then .ok o.content
      else .error (.during (lit "cat-file " ++ ObjectId.brief id)
        (.other (lit "object is a " ++ o.kind ++ lit ", not a blob")))
  else .error (.invalidId id)

theorem span_line {line : Bytes} (oneLine : 10 ∉ line) (rest : Bytes) :
    (line ++ 10 :: rest).span (· != 10) = (line, 10 :: rest) :=
  Bytes.span_append (fun _ member => bne_iff_ne.mpr (ne_of_mem_of_not_mem member oneLine)) (by simp)

theorem isWord_missing : Utf8.IsWord (lit "missing") := ⟨by decide +kernel, by decide +kernel⟩

theorem readAnswer_missing {id : Bytes} (word : Utf8.IsWord id) (l : Process.Live)
    (unread : l.unread = id ++ lit " missing" ++ [10]) (h : Host) :
    (readAnswer l id).on h =
      (.ok (l.take (id ++ lit " missing" ++ [10]).length, .error (.blobNotFound id)), h) := by
  have spaced : lit " missing" = 32 :: lit "missing" := by decide +kernel
  have fields : Utf8.fields (id ++ lit " missing") = [id, lit "missing"] := by
    rw [spaced, Utf8.fields_cons word, Utf8.fields_word isWord_missing]
  have oneLine : 10 ∉ id ++ lit " missing" := by
    rw [spaced, List.mem_append, List.mem_cons]
    rintro (member | same | member)
    · exact word.not_mem (by decide) member
    · exact absurd same (by decide)
    · exact isWord_missing.not_mem (by decide) member
  rw [readAnswer, unread]
  simp only [span_line oneLine, fields]
  simp [Nat.add_assoc]

theorem readBody_counted (l : Process.Live) (o : Served) (unread : l.unread = o.content ++ [10]) (h : Host) :
    (readBody l o.kind o.content.length).on h = (.ok (l.take (o.content.length + 1),
      if o.kind = lit "blob" then .ok o.content
      else .error (.other (lit "object is a " ++ o.kind ++ lit ", not a blob"))), h) := by
  have large : ¬ (o.content.length : Int) < -1 := by omega
  have fits : ¬ maxBody ≤ (o.content.length : Int) := by have := o.fits; omega
  have notNegative : ¬ (o.content.length : Int) < 0 := by omega
  have count : ((o.content.length : Int) + 1).toNat = o.content.length + 1 := by omega
  by_cases blob : o.kind = lit "blob"
  · simp [readBody, unread, large, fits, count, blob, notNegative]
  · simp [readBody, unread, large, fits, count, blob]

theorem signed_size (o : Served) :
    Decimal.signed (Decimal.ofNat o.content.length) = .ok (o.content.length : Int) := by
  have fits := o.fits
  have limit : maxBody < (Decimal.signedLimit : Int) := by decide
  exact Decimal.signed_ofInt (n := (o.content.length : Int)) (by omega) (by omega)

theorem readAnswer_served {id : Bytes} (word : Utf8.IsWord id) (o : Served) (l : Process.Live)
    (unread : l.unread = headline id o ++ [10] ++ o.content ++ [10]) (h : Host) :
    (readAnswer l id).on h = (.ok (l.take (headline id o ++ [10] ++ o.content ++ [10]).length,
      if o.kind = lit "blob" then .ok o.content
      else .error (.other (lit "object is a " ++ o.kind ++ lit ", not a blob"))), h) := by
  have size := Decimal.isWord_ofNat o.content.length
  have fields : Utf8.fields (headline id o) = [id, o.kind, Decimal.ofNat o.content.length] := by
    rw [headline, Utf8.fields_cons word, Utf8.fields_cons o.word, Utf8.fields_word size]
  have oneLine : 10 ∉ headline id o := by
    simp [headline, word.not_mem, o.word.not_mem, size.not_mem]
  have behind : (l.take ((headline id o).length + 1)).unread = o.content ++ [10] := by
    rw [Process.Live.unread] at unread
    simp only [Process.Live.unread, Process.Live.take]
    rw [← List.drop_drop, unread]
    simp
  have parts : headline id o ++ [10] ++ o.content ++ [10] = headline id o ++ 10 :: (o.content ++ [10]) := by simp
  rw [readAnswer, unread, parts]
  simp only [span_line oneLine, fields, signed_size, Fault.ofNumber, List.isEmpty_cons]
  rw [if_neg Bool.false_ne_true, readBody_counted _ o behind, take_take]
  have all : (headline id o).length + 1 + (o.content.length + 1) =
      (headline id o ++ 10 :: (o.content ++ [10])).length := by
    simp only [List.length_append, List.length_cons, List.length_nil]
    omega
  rw [all]

/-- An id is answered and read to the end of its answer, or not asked for at all. -/
theorem readBlob_serves (serves : Serves objects l) (id : Bytes) (h : Host) :
    ∃ l', (readBlob l id).on h = (.ok (l', reply objects id), h) ∧ Serves objects l' ∧
      l'.process.input = l.process.input ++ requests (if ObjectId.isValid id then [id] else []) := by
  by_cases valid : ObjectId.isValid id = true
  · refine ⟨(l.feed (id ++ [10])).take (answer objects id).length, ?_, serves.answered valid rfl, ?_⟩
    · have word := ObjectId.isWord_of_isValid valid
      have unread := serves.unread valid
      rw [readBlob, ObjectId.validate, if_pos valid]
      simp only [serves.waiting, Bool.false_eq_true, if_false, reply, valid, if_true, Run.on_bind]
      cases found : objects id with
      | none =>
          rw [answer, found] at unread ⊢
          rw [readAnswer_missing word _ unread]
          rfl
      | some o =>
          rw [answer, found] at unread ⊢
          rw [readAnswer_served word o _ unread]
          by_cases blob : o.kind = lit "blob" <;> simp [blob, Except.mapError]
    · simp [Process.Live.feed, Process.Live.take, requests, valid]
  · refine ⟨l, ?_, serves, ?_⟩
    · rw [readBlob, ObjectId.validate, if_neg valid, reply, if_neg valid]
      rfl
    · simp [requests, valid]

/-! ## Reading one id after the other -/

/-- Read one id after the other from one program. -/
def readEach (l : Process.Live) : List Bytes → Run (Process.Live × List (Except Fault Bytes))
  | [] => pure (l, [])
  | id :: ids => do
    let (l, outcome) ← readBlob l id
    let (l, outcomes) ← readEach l ids
    pure (l, outcome :: outcomes)

/-- Any ids, in any order and any number of times, each come to what they come to alone: a content as
it is, an error that says why there is none.  Only what can be an id is asked for, and the program is
left as it was found, with nothing unread. -/
theorem answers_in_step (serves : Serves objects l) (ids : List Bytes) (h : Host) :
    ∃ l', (readEach l ids).on h = (.ok (l', ids.map (reply objects)), h) ∧ Serves objects l' ∧
      l'.process.input = l.process.input ++ requests (ids.filter ObjectId.isValid) := by
  induction ids generalizing l with
  | nil => exact ⟨l, rfl, serves, (List.append_nil _).symm⟩
  | cons id ids ih =>
      obtain ⟨l₁, first, serves₁, asked₁⟩ := readBlob_serves serves id h
      obtain ⟨l₂, others, serves₂, asked₂⟩ := ih serves₁
      refine ⟨l₂, ?_, serves₂, ?_⟩
      · rw [readEach, Run.on_bind, first]
        simp only [Run.on_bind, others]
        rfl
      · rw [asked₂, asked₁]
        by_cases valid : ObjectId.isValid id = true <;> simp [requests, valid]

/-! ## The program of the version archives -/

theorem isWord_kind (k : Git.Kind) : Utf8.IsWord k.name := by
  cases k <;> exact ⟨by decide +kernel, by decide +kernel⟩

/-- What a repository serves. -/
def ofRepository (r : Git.Repository) (id : Bytes) : Option Served :=
  (r.get? id).bind fun o =>
    if fits : (o.content.length : Int) < maxBody then some ⟨o.kind.name, o.content, isWord_kind o.kind, fits⟩
    else none

theorem ofRepository_of_get? {r : Git.Repository} {id : Bytes} {o : Git.Object} (found : r.get? id = some o)
    (fits : (o.content.length : Int) < maxBody) :
    ofRepository r id = some ⟨o.kind.name, o.content, isWord_kind o.kind, fits⟩ := by
  rw [ofRepository, found, Option.bind_some, dif_pos fits]

/-- Objects that fit into memory under ids of one length, and no reference that looks like an id. -/
structure Regular (r : Git.Repository) : Prop where
  short : ∀ o ∈ r.objects, o.1.length = 40
  fits : ∀ o ∈ r.objects, (o.2.content.length : Int) < maxBody
  unnamed : ∀ b ∈ Git.Repository.beginnings, ∀ id, ObjectId.isValid id = true → r.reference? (b ++ id) = none

theorem Regular.of_get? {r : Git.Repository} (regular : Regular r) {id : Bytes} {o : Git.Object}
    (found : r.get? id = some o) : id.length = 40 ∧ (o.content.length : Int) < maxBody := by
  obtain ⟨p, inside, rfl⟩ := Option.map_eq_some_iff.mp found
  have member := List.mem_of_find?_eq_some inside
  have same : p.1 = id := by simpa using List.find?_some inside
  exact ⟨same ▸ regular.short p member, regular.fits p member⟩

/-- A full id stands for itself, and one of the other length for nothing. -/
theorem Regular.resolve {r : Git.Repository} (regular : Regular r) {id : Bytes}
    (valid : ObjectId.isValid id = true) :
    r.resolve id = if id.length = 40 then .ok id else .error .unknown := by
  have word := ObjectId.isWord_of_isValid valid
  simp only [ObjectId.isValid, Bool.and_eq_true, Bool.or_eq_true, beq_iff_eq] at valid
  have noStep : ∀ b ∈ id, (b != 94 && b != 126) = true := by
    intro b member
    have digit := List.all_eq_true.mp valid.2 b member
    simp only [ObjectId.isHexDigit, Bytes.isDigit, Bool.or_eq_true, Bool.and_eq_true, decide_eq_true_eq] at digit
    simp only [Bool.and_eq_true, bne_iff_ne]
    grind
  have whole : id.span (fun b => b != 94 && b != 126) = (id, []) := by
    simpa using Bytes.span_append (v := []) noStep (by simp)
  rw [Git.Repository.resolve, whole]
  by_cases full : id.length = 40
  · simp only [Git.Repository.resolveName, full, valid.2, beq_self_eq_true, Bool.and_self, if_true]
    rfl
  · have long : id.length = 64 := valid.1.resolve_left full
    have named : Git.Repository.beginnings.findSome? (fun b => r.reference? (b ++ id)) = none :=
      List.findSome?_eq_none_iff.mpr fun b member => regular.unnamed b member id (by
        simp [ObjectId.isValid, long, valid.2])
    have none : r.objects.filter (fun o => Bytes.startsWith id o.1) = [] := by
      refine List.filter_eq_nil_iff.mpr fun o member begins => ?_
      have shorter := (List.isPrefixOf_iff_prefix.mp begins).length_le
      rw [long, regular.short o member] at shorter
      omega
    simp [Git.Repository.resolveName, full, named, none]

theorem Regular.showObject {r : Git.Repository} (regular : Regular r) {id : Bytes}
    (valid : ObjectId.isValid id = true) : r.showObject id = answer (ofRepository r) id := by
  have looked : ((r.resolve id).toOption.bind fun id => (r.get? id).map fun o => (id, o)) =
      (r.get? id).map fun o => (id, o) := by
    rw [regular.resolve valid]
    cases found : r.get? id with
    | none => by_cases full : id.length = 40 <;> simp only [full, if_true, if_false, Except.toOption,
        Option.bind_some, Option.bind_none, found, Option.map_none]
    | some o =>
        rw [if_pos (regular.of_get? found).1]
        simp only [Except.toOption, Option.bind_some, found]
  rw [Git.Repository.showObject, looked]
  cases found : r.get? id with
  | none =>
      have ending : lit " missing\n" = lit " missing" ++ [10] := by decide +kernel
      have served : ofRepository r id = none := by rw [ofRepository, found, Option.bind_none]
      rw [answer, served, Option.map_none]
      simp only [ending, List.append_assoc]
  | some o =>
      rw [answer, ofRepository_of_get? found (regular.of_get? found).2, Option.map_some]
      simp only [headline, List.append_assoc, List.cons_append, List.nil_append]

theorem Regular.showObjects {r : Git.Repository} (regular : Regular r) {ids : List Bytes}
    (valid : ∀ id ∈ ids, ObjectId.isValid id = true) :
    (r.showObjects (requests ids)).printed = ids.flatMap (answer (ofRepository r)) := by
  induction ids with
  | nil => rfl
  | cons id ids ih =>
      have word := ObjectId.isWord_of_isValid (valid id List.mem_cons_self)
      have rest := ih fun i member => valid i (List.mem_cons_of_mem _ member)
      simp only [Git.Repository.showObjects, requests] at rest ⊢
      rw [List.flatMap_cons, List.append_assoc, List.singleton_append,
        Bytes.lines_cons (word.not_mem (by decide)), List.flatMap_cons, List.flatMap_cons, rest,
        regular.showObject (valid id List.mem_cons_self)]

/-- The program of the version archives, once it has been started on a repository, serves what the
repository holds. -/
theorem serves_repository {r : Git.Repository} (regular : Regular r) (l : Process.Live)
    (asks : ∀ input, (Process.carryOut l.machine { l.process with input } l.found).1.printed =
      (r.showObjects input).printed)
    (waits : ∀ input, (Process.carryOut l.machine { l.process with input } l.found).1.early = false)
    (begun : l.process.input = [] ∧ l.outcome = {} ∧ l.taken = 0) : Serves (ofRepository r) l := by
  obtain ⟨input, outcome, taken⟩ := begun
  refine ⟨fun ids valid => ?_, fun ids valid => waits _, ?_, ?_⟩
  · rw [Process.Live.feed, asks, input, List.nil_append, regular.showObjects valid, outcome]
    rfl
  · rw [Process.Live.isOver, outcome]
  · rw [taken, outcome]
    rfl

/-- A repository with a content that reads like an answer, and a commit. -/
def shelf : Git.Repository where
  objects := [(List.replicate 40 97, ⟨.blob, List.replicate 40 98 ++ lit " missing\n\n" ++ List.replicate 40 97 ++ lit " blob 3\n"⟩),
    (List.replicate 40 99, ⟨.commit, lit "tree "⟩)]
  references := [(lit "refs/tags/v1", List.replicate 40 99)]

/-- A machine with that repository. -/
def shelfHost : Host where
  tree := ⟨[([lit "shelf"], .folder), ([lit "shelf", lit ".git"], .folder),
    ([lit "shelf", lit ".git", lit "HEAD"], .file [] false)]⟩
  repositories := [([lit "shelf", lit ".git"], shelf)]

/-- Its program, at the repository. -/
def shelfSource : GitSource := { folder := lit "/shelf", program := lit "/usr/bin/git" }

/-- The program, started and not asked anything yet. -/
def shelfBlobs : Process.Live where
  process := shelfSource.ask [lit "cat-file", lit "--batch"]
  found := .archive
  machine := shelfHost
  outcome := {}

theorem regular_shelf : Regular shelf where
  short := by decide +kernel
  fits := by decide +kernel
  unnamed b among id valid := by
    have long : 40 ≤ id.length := by
      simp only [ObjectId.isValid, Bool.and_eq_true, Bool.or_eq_true, beq_iff_eq] at valid
      omega
    have other : (lit "refs/tags/v1" == b ++ id) = false := by
      refine beq_eq_false_iff_ne.mpr fun same => ?_
      have short := congrArg List.length same
      rw [show (lit "refs/tags/v1").length = 12 from by decide +kernel, List.length_append] at short
      omega
    simp [Git.Repository.reference?, shelf, other]

theorem openBlobs_shelf : shelfSource.openBlobs.on shelfHost = (.ok shelfBlobs, shelfHost) := by
  rfl

theorem serves_shelf : Serves (ofRepository shelf) shelfBlobs :=
  serves_repository regular_shelf shelfBlobs (fun _ => by rfl) (fun _ => by rfl) ⟨rfl, rfl, rfl⟩

/-- A content that reads like an answer is read as it is, before and after a commit, nobody's id and
what is no id. -/
theorem answers_in_step_shelf :
    shelfSource.openBlobs.on shelfHost = (.ok shelfBlobs, shelfHost) ∧
    Serves (ofRepository shelf) shelfBlobs ∧
    ∃ l', (readEach shelfBlobs [List.replicate 40 97, List.replicate 40 99, List.replicate 40 98,
        lit "HEAD", List.replicate 40 97]).on shelfHost =
      (.ok (l', [.ok (List.replicate 40 98 ++ lit " missing\n\n" ++ List.replicate 40 97 ++ lit " blob 3\n"),
        .error (.during (lit "cat-file cccccccccccc") (.other (lit "object is a commit, not a blob"))),
        .error (.blobNotFound (List.replicate 40 98)), .error (.invalidId (lit "HEAD")),
        .ok (List.replicate 40 98 ++ lit " missing\n\n" ++ List.replicate 40 97 ++ lit " blob 3\n")]),
      shelfHost) := by
  obtain ⟨l', outcomes, -, -⟩ := answers_in_step serves_shelf [List.replicate 40 97, List.replicate 40 99,
    List.replicate 40 98, lit "HEAD", List.replicate 40 97] shelfHost
  exact ⟨openBlobs_shelf, serves_shelf, l', outcomes⟩

end GitSource

end SymbolHistory
