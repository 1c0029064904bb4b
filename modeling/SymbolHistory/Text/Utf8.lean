/-
# Text.Utf8 -- characters in byte strings

A byte string is read as a sequence of `Piece`s: well-formed characters and
single bytes that belong to none.  The accepted forms are the shortest
encodings of the code points outside the surrogates.  `pieces` loses nothing:
every piece keeps its bytes.
-/
import SymbolHistory.Text.Bytes

set_option autoImplicit false

namespace SymbolHistory

/-- A well-formed character with its bytes, or a byte that starts none. -/
inductive Piece where
  | char (code : Nat) (bytes : Bytes)
  | broken (byte : UInt8)
  deriving Repr, DecidableEq

namespace Piece

def bytes : Piece → Bytes
  | char _ bs => bs
  | broken b => [b]

/-- The code point, or the replacement character for a broken byte. -/
def code : Piece → Nat
  | char c _ => c
  | broken _ => 0xFFFD

def isBroken : Piece → Bool
  | char _ _ => false
  | broken _ => true

end Piece

namespace Utf8

/-- The code point of the replacement character. -/
def replacement : Nat := 0xFFFD

def replacementBytes : Bytes := [0xEF, 0xBF, 0xBD]

/-- Bytes that continue a character. -/
def isTail (b : UInt8) : Bool := 0x80 ≤ b && b ≤ 0xBF

/-- The second byte that a first byte of three or four allows. -/
def secondOk (first second : UInt8) : Bool :=
  if first == 0xE0 then 0xA0 ≤ second && second ≤ 0xBF
  else if first == 0xED then 0x80 ≤ second && second ≤ 0x9F
  else if first == 0xF0 then 0x90 ≤ second && second ≤ 0xBF
  else if first == 0xF4 then 0x80 ≤ second && second ≤ 0x8F
  else isTail second

def code2 (a b : UInt8) : Nat := (a.toNat % 32) * 64 + b.toNat % 64

def code3 (a b c : UInt8) : Nat := ((a.toNat % 16) * 64 + b.toNat % 64) * 64 + c.toNat % 64

def code4 (a b c d : UInt8) : Nat :=
  (((a.toNat % 8) * 64 + b.toNat % 64) * 64 + c.toNat % 64) * 64 + d.toNat % 64

def first (a : UInt8) (rest : Bytes) : Piece :=
  if a < 0x80 then .char a.toNat [a]
  else if 0xC2 ≤ a && a ≤ 0xDF then
    match rest with
    | b :: _ => if isTail b then .char (code2 a b) [a, b] else .broken a
    | [] => .broken a
  else if 0xE0 ≤ a && a ≤ 0xEF then
    match rest with
    | b :: c :: _ => if secondOk a b && isTail c then .char (code3 a b c) [a, b, c] else .broken a
    | _ => .broken a
  else if 0xF0 ≤ a && a ≤ 0xF4 then
    match rest with
    | b :: c :: d :: _ =>
      if secondOk a b && isTail c && isTail d then .char (code4 a b c d) [a, b, c, d] else .broken a
    | _ => .broken a
  else .broken a

/-- `pieces` with the pieces read so far, last first, and a bound on those to come. -/
def piecesFrom : Nat → List Piece → Bytes → List Piece
  | _, done, [] => done.reverse
  | 0, done, _ => done.reverse
  | fuel + 1, done, a :: rest =>
    let p := first a rest
    piecesFrom fuel (p :: done) (rest.drop (p.bytes.length - 1))

/-- The string's characters and broken bytes, in order. -/
def pieces (s : Bytes) : List Piece := piecesFrom s.length [] s

def valid (s : Bytes) : Bool := (pieces s).all (fun p => !p.isBroken)

/-- The code points, broken bytes counting as the replacement character. -/
def codes (s : Bytes) : List Nat := (pieces s).map Piece.code

/-- The shortest encoding of a code point; what is no code point becomes the replacement. -/
def encode (c : Nat) : Bytes :=
  if c < 0x80 then [c.toUInt8]
  else if c < 0x800 then [(0xC0 + c / 64).toUInt8, (0x80 + c % 64).toUInt8]
  else if 0xD800 ≤ c && c ≤ 0xDFFF then replacementBytes
  else if c < 0x10000 then
    [(0xE0 + c / 4096).toUInt8, (0x80 + c / 64 % 64).toUInt8, (0x80 + c % 64).toUInt8]
  else if c < 0x110000 then
    [(0xF0 + c / 262144).toUInt8, (0x80 + c / 4096 % 64).toUInt8, (0x80 + c / 64 % 64).toUInt8,
      (0x80 + c % 64).toUInt8]
  else replacementBytes

/-- `repair` over pieces, knowing whether the piece before was broken. -/
def repairPieces (ps : List Piece) : Bytes :=
  let step := fun (s : Bytes × Bool) (p : Piece) =>
    match p with
    | .char _ bs => (bs.reverse ++ s.1, false)
    | .broken _ => if s.2 then s else (replacementBytes.reverse ++ s.1, true)
  (ps.foldl step ([], false)).1.reverse

/-- Every run of broken bytes becomes one replacement character. -/
def repair (s : Bytes) : Bytes := repairPieces (pieces s)

def isSpace (c : Nat) : Bool :=
  (9 ≤ c && c ≤ 13) || c == 32 || c == 0x85 || c == 0xA0 || c == 0x1680 ||
  (0x2000 ≤ c && c ≤ 0x200A) || c == 0x2028 || c == 0x2029 || c == 0x202F || c == 0x205F ||
  c == 0x3000

def isSpacePiece : Piece → Bool
  | .char c _ => isSpace c
  | .broken _ => false

def trim (s : Bytes) : Bytes :=
  let kept := ((pieces s).dropWhile isSpacePiece).reverse.dropWhile isSpacePiece
  kept.reverse.flatMap Piece.bytes

/-- The maximal runs of other characters between white space. -/
def fields (s : Bytes) : List Bytes :=
  let step := fun (p : Piece) (acc : Bytes × List Bytes) =>
    if isSpacePiece p then ([], if acc.1.isEmpty then acc.2 else acc.1 :: acc.2)
    else (p.bytes ++ acc.1, acc.2)
  let acc := (pieces s).foldr step ([], [])
  if acc.1.isEmpty then acc.2 else acc.1 :: acc.2

end Utf8

end SymbolHistory
