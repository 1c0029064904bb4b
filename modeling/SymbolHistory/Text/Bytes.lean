/-
# Text.Bytes -- byte strings

Everything the index reads and writes is a string of bytes: file names, tag
names and C sources need not be valid UTF-8.  A `Bytes` is a list of bytes, so
statements about it are statements about lists.  Functions that may meet a
whole file run through `foldr`, `span` or an accumulator and keep the call
stack flat.
-/

set_option autoImplicit false

namespace SymbolHistory

abbrev Bytes := List UInt8

/-- The UTF-8 bytes of a literal. -/
def lit (s : String) : Bytes := s.toList.flatMap String.utf8EncodeChar

namespace Bytes

def order : Bytes → Bytes → Ordering
  | [], [] => .eq
  | [], _ :: _ => .lt
  | _ :: _, [] => .gt
  | a :: as, b :: bs => if a < b then .lt else if b < a then .gt else order as bs

def before (a b : Bytes) : Bool := order a b == .lt

def startsWith (head s : Bytes) : Bool := head.isPrefixOf s

def endsWith (tail s : Bytes) : Bool := tail.reverse.isPrefixOf s.reverse

/-- What follows `head`, when `s` starts with it. -/
def after? (head s : Bytes) : Option Bytes :=
  if head.isPrefixOf s then some (s.drop head.length) else none

/-- `s` without a leading `head`. -/
def withoutHead (head s : Bytes) : Bytes := (after? head s).getD s

/-- `s` without a trailing `tail`. -/
def withoutTail (tail s : Bytes) : Bytes :=
  if endsWith tail s then s.take (s.length - tail.length) else s

/-- The pieces between the occurrences of `sep`; there is always at least one. -/
def splitOn (sep : UInt8) (s : Bytes) : List Bytes :=
  let pieces := s.foldr
    (fun b p => if b == sep then ([], p.1 :: p.2) else (b :: p.1, p.2)) ([], [])
  pieces.1 :: pieces.2

/-- The text before the first `sep` and the text after it. -/
def cutByte (sep : UInt8) (s : Bytes) : Option (Bytes × Bytes) :=
  match s.span (· != sep) with
  | (_, []) => none
  | (head, _ :: rest) => some (head, rest)

/-- At most `n + 1` pieces: the first `n` occurrences of `sep` separate. -/
def splitAtMost (sep : UInt8) : Nat → Bytes → List Bytes
  | 0, s => [s]
  | n + 1, s =>
    match cutByte sep s with
    | none => [s]
    | some (head, rest) => head :: splitAtMost sep n rest

/-- `cut` with the text passed over, last byte first. -/
def cutFrom (mark : Bytes) (passed : Bytes) (s : Bytes) : Option (Bytes × Bytes) :=
  match after? mark s with
  | some rest => some (passed.reverse, rest)
  | none =>
    match s with
    | [] => none
    | b :: rest => cutFrom mark (b :: passed) rest

/-- The text before the first occurrence of `mark` and the text after it. -/
def cut (mark s : Bytes) : Option (Bytes × Bytes) := cutFrom mark [] s

def includes (mark s : Bytes) : Bool := (cut mark s).isSome

/-- The pieces with `sep` between them. -/
def join (sep : Bytes) (pieces : List Bytes) : Bytes := (pieces.intersperse sep).flatten

/-- `replace` with the text produced so far, last byte first. -/
def replaceFrom (old new : Bytes) : Nat → Bytes → Bytes → Bytes
  | 0, out, s => out.reverse ++ s
  | fuel + 1, out, s =>
    match cut old s with
    | none => out.reverse ++ s
    | some (head, rest) => replaceFrom old new fuel (new.reverse ++ (head.reverse ++ out)) rest

/-- Every occurrence of the nonempty `old`, from the left, becomes `new`. -/
def replace (old new s : Bytes) : Bytes := replaceFrom old new s.length [] s

/-- `s` with no byte of the given kind at either end. -/
def trimBytes (drop : UInt8 → Bool) (s : Bytes) : Bytes :=
  ((s.dropWhile drop).reverse.dropWhile drop).reverse

def isDigit (b : UInt8) : Bool := 48 ≤ b && b ≤ 57

/-- One line of a file: its bytes without the newline, and whether the newline was there. -/
structure Line where
  text : Bytes
  ended : Bool
  deriving Repr, DecidableEq

/-- The bytes a line stands for. -/
def Line.raw (l : Line) : Bytes := if l.ended then l.text ++ [10] else l.text

/-- The lines of a file.  Only the last can lack its newline, and then it is not empty. -/
def lines (s : Bytes) : List Line :=
  let pieces := splitOn 10 s
  let ended := pieces.dropLast.map (fun p => Line.mk p true)
  match pieces.getLast? with
  | some (b :: rest) => ended ++ [⟨b :: rest, false⟩]
  | _ => ended

/-- A line's text without one trailing carriage return. -/
def withoutReturn (s : Bytes) : Bytes := withoutTail [13] s

/-- Lowercase hexadecimal digit of a number below 16. -/
def hexDigit (n : Nat) : UInt8 := if n < 10 then (48 + n).toUInt8 else (87 + n).toUInt8

/-- The two lowercase hexadecimal digits of a byte. -/
def hexByte (b : UInt8) : Bytes := [hexDigit (b.toNat / 16), hexDigit (b.toNat % 16)]

def hex (s : Bytes) : Bytes := s.flatMap hexByte

/-- Hexadecimal digits of a number, exactly `width` of them. -/
def hexNat : Nat → Nat → Bytes
  | 0, _ => []
  | width + 1, n => hexNat width (n / 16) ++ [hexDigit (n % 16)]

/-- The value of one hexadecimal digit of either case. -/
def hexValue? (b : UInt8) : Option Nat :=
  if 48 ≤ b && b ≤ 57 then some (b.toNat - 48)
  else if 97 ≤ b && b ≤ 102 then some (b.toNat - 87)
  else if 65 ≤ b && b ≤ 70 then some (b.toNat - 55)
  else none

/-- Insert keeping a list sorted by `before` and free of duplicates. -/
def insertSorted (x : Bytes) : List Bytes → List Bytes
  | [] => [x]
  | y :: rest =>
    match order x y with
    | .lt => x :: y :: rest
    | .eq => y :: rest
    | .gt => y :: insertSorted x rest

def sort (xs : List Bytes) : List Bytes := xs.mergeSort (fun a b => order a b != .gt)

end Bytes

end SymbolHistory
