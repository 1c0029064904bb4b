/-
# Signature -- what the source text says about a symbol

A tag table says where a symbol is, not what it looks like.  For a function
the text around its line gives a return type and a parameter list, for a
variable an initial value.  All of it is guesswork on text, bounded to a few
lines: `returnType` looks back from the function's name, `arguments` and
`initializer` look ahead.
-/
import SymbolHistory.Symbol
import SymbolHistory.SourceText

set_option autoImplicit false

namespace SymbolHistory

namespace Signature

/-! ## Blanks -/

def isBlank (b : UInt8) : Bool := b == 32 || b == 9

/-- Every run of blanks becomes one space. -/
def squeeze (s : Bytes) : Bytes :=
  s.foldr (fun b out => if isBlank b then (if out.head? == some 32 then out else 32 :: out)
    else b :: out) []

/-- No blank directly after an opening parenthesis. -/
def closeUpOpen (s : Bytes) : Bytes :=
  s.foldr (fun b out =>
    if b == 40 then
      match out with
      | c :: rest => if isBlank c then b :: rest else b :: out
      | [] => [b]
    else b :: out) []

/-- No blank directly before a closing parenthesis. -/
def closeUpClose : Bytes → Bytes
  | [] => []
  | b :: s => if isBlank b && s.head? == some 41 then closeUpClose s else b :: closeUpClose s

/-- Single spaces, and none inside the ends of parentheses. -/
def fixWhitespace (s : Bytes) : Bytes := closeUpClose (closeUpOpen (squeeze s))

/-! ## Parameter lists and values -/

/-- How many lines a parameter list or value may take. -/
def bodyLines : Nat := 20

/-- The text in parentheses as far as it goes, last byte first, and whether it was closed. -/
def collectArguments (depth : Int) (out : Bytes) : Bytes → Bytes × Bool
  | [] => (out, false)
  | c :: rest =>
    if c == 40 then collectArguments (depth + 1) (if depth + 1 = 0 then out else c :: out) rest
    else if c == 41 then
      if depth - 1 = 0 then (c :: out, true) else collectArguments (depth - 1) (c :: out) rest
    else collectArguments depth (if depth = 0 then out else c :: out) rest

def arguments (src : SourceText) (line : Int) : Bytes :=
  if line ≤ 0 then lit "(???)"
  else
    let (out, closed) := collectArguments 0 [] (src.window line bodyLines).flatten
    fixWhitespace (out.reverse ++ if closed then [] else lit ", ???)")

/-- The value as far as it goes, last byte first, and whether a semicolon ended it. -/
def collectValue (started : Bool) (out : Bytes) : Bytes → Bytes × Bool
  | [] => (out, false)
  | c :: rest =>
    if c == 61 then collectValue true (c :: out) rest
    else if c == 59 then (out, true)
    else collectValue started (if started then c :: out else out) rest

/-- The initial value of a variable on a line, from the equals sign to the semicolon. -/
def initializer (src : SourceText) (line : Int) : Bytes :=
  if line ≤ 0 then lit "= ???"
  else
    let (out, ended) := collectValue false [] (src.window line bodyLines).flatten
    32 :: fixWhitespace (Utf8.trim (out.reverse ++ if ended then [] else lit " ???"))

/-! ## Return types -/

/-- How many lines a return type may stand before the name, the name's own line included. -/
def returnTypeLines : Nat := 10

def isWordByte (b : UInt8) : Bool :=
  Bytes.isDigit b || (65 ≤ b && b ≤ 90) || (97 ≤ b && b ≤ 122) || b == 95

/-- Bytes that start an identifier; the dollar sign counts. -/
def isNameStart (b : UInt8) : Bool := (isWordByte b && !Bytes.isDigit b) || b == 36

def isNameByte (b : UInt8) : Bool := isWordByte b || b == 36

/-- A word starts or ends between two neighbours. -/
def isBoundary (before after : Option UInt8) : Bool :=
  before.any isWordByte != after.any isWordByte

/-- The longest beginning of `name`, whose bytes stand last first, that ends at a word boundary,
with the byte that follows it. -/
def endAtBoundary (after : Option UInt8) : Bytes → Option Bytes
  | [] => none
  | b :: before =>
    if isBoundary (some b) after then some (b :: before).reverse
    else endAtBoundary (some b) before

/-- The identifier that `s` starts with. -/
def nameAt (s : Bytes) : Option Bytes :=
  match s with
  | [] => none
  | b :: _ =>
    if isNameStart b then
      let (name, rest) := s.span isNameByte
      endAtBoundary rest.head? name.reverse
    else none

/-- A return type: qualifier, words and pointer depth. -/
structure ReturnType where
  isConst : Bool
  name : Bytes
  pointers : Nat
  deriving Repr, DecidableEq

namespace ReturnType

def text (t : ReturnType) : Bytes :=
  (if t.isConst then lit "const " else []) ++ t.name ++ List.replicate t.pointers 42

end ReturnType

/-- The words that may stand before a type's name. -/
inductive TypeForm where
  | aggregate
  | signed
  | plain
  deriving Repr, DecidableEq

def TypeForm.leads : TypeForm → List Bytes
  | aggregate => [lit "struct ", lit "enum ", lit "union "]
  | signed => [lit "signed ", lit "unsigned "]
  | plain => [[]]

/-- A type of the given form at the start of `s`, after a qualifier already read. -/
def unqualifiedAt (form : TypeForm) (isConst : Bool) (s : Bytes) : Option ReturnType :=
  form.leads.findSome? fun lead => do
    let rest ← Bytes.after? lead s
    let name ← nameAt rest
    let stars := ((rest.drop name.length).dropWhile isBlank).takeWhile (· == 42)
    pure ⟨isConst, lead ++ name, stars.length⟩

/-- A type of the given form at the start of `s`, where `before` is the byte in front of it. -/
def typeAt (form : TypeForm) (before : Option UInt8) (s : Bytes) : Option ReturnType :=
  if !isBoundary before s.head? then none
  else
    let qualified := (Bytes.after? (lit "const ") s).bind (unqualifiedAt form true)
    qualified <|> unqualifiedAt form false s

/-- The first type of the given form in `s`. -/
def findType (form : TypeForm) (before : Option UInt8) : Bytes → Option ReturnType
  | [] => none
  | b :: rest =>
    match typeAt form before (b :: rest) with
    | some t => some t
    | none => findType form (some b) rest

/-- What one line says about the return type: a text, or nothing.  A line of the preprocessor or
of a comment ends the search with the default. -/
def lineType (line : Bytes) : Option Bytes :=
  let trimmed := Utf8.trim line
  if Bytes.startsWith [35] trimmed || Bytes.startsWith [47] trimmed ||
      Bytes.includes [42, 47] trimmed then some (lit "int")
  else
    let bare := Bytes.replace (lit "inline") [] (Bytes.replace (lit "static") [] line)
    (findType .aggregate none bare <|> findType .signed none bare <|>
      findType .plain none bare).map ReturnType.text

/-- Look back through the lines before the function's own, nearest first.  A closing brace ends
what belongs to the function. -/
def lookBack : List Bytes → Bytes
  | [] => lit "int"
  | line :: earlier =>
    let (tail, front) := line.reverse.span (· != 125)
    if front.isEmpty then
      match lineType line with
      | some t => t
      | none => lookBack earlier
    else (lineType (125 :: tail.reverse)).getD (lit "int")

/-- A parenthesis opens after the name and possibly blanks. -/
def isCall (name s : Bytes) : Bool :=
  match Bytes.after? name s with
  | some rest => (rest.dropWhile isBlank).head? == some 40
  | none => false

/-- The text before the last place in a line where `name` stands before an opening parenthesis.
`passed` holds the bytes already passed, last first, and `best` the answer so far. -/
def beforeCall (name : Bytes) (passed : Bytes) (best : Option Bytes) : Bytes → Option Bytes
  | [] => best
  | b :: rest =>
    beforeCall name (b :: passed) (if isCall name (b :: rest) then some passed else best) rest

/-- What is wrong with a name that is not valid UTF-8, in the words of the pattern built from it. -/
def badName (name : Bytes) : Fault :=
  let special := lit "\\.+*?()|[]\x7b\x7d^$"
  let quoted := name.flatMap (fun b => if special.elem b then [92, b] else [b])
  let expression := lit "(.*)[ \\t]*" ++ quoted ++ lit "[ \\t]*\\("
  let shown := ((Utf8.pieces expression).dropWhile (fun p => !p.isBroken)).flatMap Piece.bytes
  .defect (lit "regexp: Compile(" ++ Quoted.quote expression ++ lit "): " ++
    (Pattern.Problem.mk .invalidUtf8 shown).message)

/-- The return type of the function `name` on a line.  Only the bytes of a name can spoil the
pattern built from it; its length, which a matcher may limit too, is not looked at. -/
def returnType (name : Bytes) (src : SourceText) (line : Int) : Except Fault Bytes :=
  if line ≤ 0 then .ok (lit "int")
  else if line > src.length then .ok (lit "unknown_t")
  else if !Utf8.valid name then .error (badName name)
  else
    let upTo := (src.take line.toNat).reverse
    match upTo with
    | [] => .ok (lit "unknown_t")
    | own :: earlier =>
      match beforeCall name [] none own with
      | none => .ok (lit "unknown_t")
      | some before =>
        match lineType (Utf8.trim before.reverse) with
        | some t => .ok t
        | none => .ok (lookBack (earlier.take (returnTypeLines - 1)))

def extraText (kind : SymbolKind) (name : Bytes) (src : SourceText) (line : Int) :
    Except Fault Bytes :=
  match kind with
  | .function => do
    let t ← returnType name src line
    pure (t ++ lit " \x7bname\x7d" ++ arguments src line)
  | .variable => .ok (initializer src line)
  | _ => .ok []

end Signature

end SymbolHistory
