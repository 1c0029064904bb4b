/-
# Toml.Document -- reading settings documents

A document is a sequence of lines: values under dotted names, and headings that
say which table the following values belong to.  While it is read, every table
remembers how it came about, since no part of a document may be defined twice.
-/
import SymbolHistory.Toml.Scalar

set_option autoImplicit false

namespace SymbolHistory

namespace Toml

/-! ## Names, lists and tables on one line -/

def isBare (b : UInt8) : Bool :=
  Bytes.isDigit b || (65 ≤ b && b ≤ 90) || (97 ≤ b && b ≤ 122) || b == 95 || b == 45

def skipSpaces (s : Bytes) : Bytes := s.dropWhile (fun b => b == 32 || b == 9)

def namePart (s : Bytes) : Option (Bytes × Bytes) :=
  match s with
  | 34 :: 34 :: 34 :: _ => none
  | 39 :: 39 :: 39 :: _ => none
  | 34 :: _ => text s
  | 39 :: _ => text s
  | _ =>
    let (front, rest) := s.span isBare
    if front.isEmpty then none else some (front, rest)

def name : Nat → Bytes → Option (List Bytes × Bytes)
  | 0, _ => none
  | fuel + 1, s => do
    let (part, rest) ← namePart (skipSpaces s)
    match skipSpaces rest with
    | 46 :: more =>
      let (parts, rest) ← name fuel more
      pure (part :: parts, rest)
    | rest => pure ([part], rest)

def skipComment (s : Bytes) : Option Bytes :=
  match s with
  | 35 :: rest =>
    let (body, rest) := rest.span (· != 10)
    if (Bytes.withoutReturn body).any isControl then none
    else if Bytes.endsWith [13] body then some (13 :: rest)
    else some rest
  | _ => some s

/-- Blanks, newlines and comments. -/
def skipLines : Nat → Bytes → Option Bytes
  | 0, s => some s
  | fuel + 1, s =>
    let s := skipSpaces s
    match newline? s with
    | some rest => skipLines fuel rest
    | none =>
      match s with
      | 35 :: _ => do skipLines fuel (← skipComment s)
      | _ => some s

/-! ## Tables being read -/

/-- How a table came about. -/
inductive Origin where
  /-- On the way to another table. -/
  | implicit
  /-- By its own heading. -/
  | heading
  /-- By a dotted name. -/
  | dotted
  deriving Repr, DecidableEq

/-- What stands under a name while a document is read. -/
inductive Item where
  | value (v : Value)
  | table (origin : Origin) (entries : List (Bytes × Item))
  /-- A list of tables, the last being filled. -/
  | tables (done : List (List (Bytes × Item))) (last : List (Bytes × Item))
  deriving Inhabited

abbrev Entries := List (Bytes × Item)

def Entries.get? (es : Entries) (k : Bytes) : Option Item :=
  (es.find? (fun e => e.1 == k)).map Prod.snd

def Entries.set (es : Entries) (k : Bytes) (i : Item) : Entries :=
  if es.any (fun e => e.1 == k) then es.map (fun e => if e.1 == k then (k, i) else e)
  else es ++ [(k, i)]

/-- Give a dotted name a value.  Tables on the way must have come from dotted names. -/
def Entries.put (v : Item) : List Bytes → Entries → Option Entries
  | [], _ => none
  | [k], es => if (es.get? k).isSome then none else some (es.set k v)
  | k :: more, es =>
    match es.get? k with
    | none => do pure (es.set k (.table .dotted (← Entries.put v more [])))
    | some (.table .dotted inner) => do
      pure (es.set k (.table .dotted (← Entries.put v more inner)))
    | some _ => none

def Entries.update (f : Entries → Option Entries) : List Bytes → Entries → Option Entries
  | [], es => f es
  | k :: more, es =>
    match es.get? k with
    | none => do pure (es.set k (.table .implicit (← Entries.update f more [])))
    | some (.table o inner) => do pure (es.set k (.table o (← Entries.update f more inner)))
    | some (.tables done last) => do
      pure (es.set k (.tables done (← Entries.update f more last)))
    | some (.value _) => none

/-- A heading for the table `k`. -/
def openTable (k : Bytes) (es : Entries) : Option Entries :=
  match es.get? k with
  | none => some (es.set k (.table .heading []))
  | some (.table .implicit inner) => some (es.set k (.table .heading inner))
  | some _ => none

/-- A heading for one more table of the list `k`. -/
def openListed (k : Bytes) (es : Entries) : Option Entries :=
  match es.get? k with
  | none => some (es.set k (.tables [] []))
  | some (.tables done last) => some (es.set k (.tables (done ++ [last]) []))
  | some _ => none

mutual

/-- What an item says once the document is read. -/
def Item.toValue : Item → Value
  | .value v => v
  | .table _ es => .table (entriesToValues es)
  | .tables done last => .array (listToValues done ++ [.table (entriesToValues last)])

def entriesToValues : List (Bytes × Item) → List (Bytes × Value)
  | [] => []
  | (k, i) :: rest => (k, i.toValue) :: entriesToValues rest

def listToValues : List (List (Bytes × Item)) → List Value
  | [] => []
  | es :: rest => .table (entriesToValues es) :: listToValues rest

end

/-! ## Values -/

mutual

def value : Nat → Bytes → Option (Value × Bytes)
  | 0, _ => none
  | fuel + 1, s =>
    match s with
    | 34 :: _ => (text s).map (fun p => (.string p.1, p.2))
    | 39 :: _ => (text s).map (fun p => (.string p.1, p.2))
    | 91 :: rest => listItems fuel [] rest
    | 123 :: rest => inlineItems fuel [] true rest
    | _ => word s

/-- The rest of a list; the items read stand last first. -/
def listItems : Nat → List Value → Bytes → Option (Value × Bytes)
  | 0, _, _ => none
  | fuel + 1, items, s => do
    match ← skipLines (s.length + 1) s with
    | 93 :: rest => pure (.array items.reverse, rest)
    | s =>
      let (v, rest) ← value fuel s
      match ← skipLines (rest.length + 1) rest with
      | 44 :: rest => listItems fuel (v :: items) rest
      | 93 :: rest => pure (.array (v :: items).reverse, rest)
      | _ => none

/-- The rest of a table in braces.  A brace that comes first or after a comma ends it too. -/
def inlineItems : Nat → Entries → Bool → Bytes → Option (Value × Bytes)
  | 0, _, _, _ => none
  | fuel + 1, es, _, s => do
    match ← skipLines (s.length + 1) s with
    | 125 :: rest => pure (.table (entriesToValues es), rest)
    | s =>
      let (path, rest) ← name (s.length + 1) s
      match skipSpaces rest with
      | 61 :: rest =>
        let afterEquals ← skipLines (rest.length + 1) rest
        let (v, rest) ← value fuel afterEquals
        let es ← Entries.put (.value v) path es
        match ← skipLines (rest.length + 1) rest with
        | 44 :: rest => inlineItems fuel es false rest
        | 125 :: rest => pure (.table (entriesToValues es), rest)
        | _ => none
      | _ => none

end

/-! ## Documents -/

/-- A document being read: its tables and the path of the current one. -/
structure State where
  root : Entries := []
  current : List Bytes := []

def lineEnd (s : Bytes) : Option Bytes := do
  let s ← skipComment (skipSpaces s)
  if s.isEmpty then pure [] else newline? s

/-- A heading; `rest` follows its opening brackets. -/
def heading? (listed : Bool) (st : State) (s : Bytes) : Option (State × Bytes) := do
  let (path, rest) ← name (s.length + 1) s
  let rest ← Bytes.after? (if listed then [93, 93] else [93]) (skipSpaces rest)
  let rest ← lineEnd rest
  let last ← path.getLast?
  let opened := if listed then openListed last else openTable last
  let root ← Entries.update opened path.dropLast st.root
  pure (⟨root, path⟩, rest)

def assignment (st : State) (s : Bytes) : Option (State × Bytes) := do
  let (path, rest) ← name (s.length + 1) s
  match skipSpaces rest with
  | 61 :: rest =>
    let (v, rest) ← value (s.length + 1) (skipSpaces rest)
    let rest ← lineEnd rest
    let root ← Entries.update (Entries.put (.value v) path) st.current st.root
    pure ({ st with root }, rest)
  | _ => none

def documentLines : Nat → State → Bytes → Option State
  | 0, _, _ => none
  | fuel + 1, st, s => do
    match ← skipLines (s.length + 1) s with
    | [] => pure st
    | 91 :: 91 :: rest =>
      let (st, rest) ← heading? true st rest
      documentLines fuel st rest
    | 91 :: rest =>
      let (st, rest) ← heading? false st rest
      documentLines fuel st rest
    | s =>
      let (st, rest) ← assignment st s
      documentLines fuel st rest

/-- Read a document; `none` if it is not well formed. -/
def parse (s : Bytes) : Option (List (Bytes × Value)) := do
  if !Utf8.valid s || s.elem 0 then none
  let s := Bytes.withoutHead [0xEF, 0xBB, 0xBF] s
  let st ← documentLines (s.length + 1) {} s
  pure (entriesToValues st.root)

end Toml

end SymbolHistory
