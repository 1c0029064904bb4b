/-
# Digest.Blocks -- messages as blocks of words

Both hash functions read a message as blocks of sixteen 32-bit words, after a
one bit, zeros and the length in bits have been put at its end.
-/
import SymbolHistory.Text.Bytes

set_option autoImplicit false

namespace SymbolHistory

namespace Digest

/-- The `n` lowest bytes of a number, highest first. -/
def bigEndian : Nat → Nat → Bytes
  | 0, _ => []
  | n + 1, value => (value / Nat.pow 256 n % 256).toUInt8 :: bigEndian n value

/-- The message with its end mark and length; a whole number of blocks of 64 bytes. -/
def pad (message : Bytes) : Bytes :=
  let zeros := (119 - message.length % 64) % 64
  message ++ (0x80 :: List.replicate zeros 0) ++ bigEndian 8 (message.length * 8)

/-- `chunks` with the pieces cut so far, last first, and a bound on those to come. -/
def chunksFrom {α : Type} (n : Nat) : Nat → List (List α) → List α → List (List α)
  | 0, done, _ => done.reverse
  | fuel + 1, done, xs =>
    if xs.isEmpty then done.reverse
    else chunksFrom n fuel (xs.take n :: done) (xs.drop n)

/-- The list cut into pieces of `n`. -/
def chunks {α : Type} (n : Nat) (xs : List α) : List (List α) := chunksFrom n xs.length [] xs

/-- The word with the given bytes, highest first. -/
def word (bs : Bytes) : UInt32 := bs.foldl (fun w b => w * 256 + b.toUInt32) 0

def blocks (message : Bytes) : List (Array UInt32) :=
  (chunks 64 (pad message)).map fun block => ((chunks 4 block).map word).toArray

/-- The bytes of a word, highest first. -/
def wordBytes (w : UInt32) : Bytes := bigEndian 4 w.toNat

def rotateLeft (w : UInt32) (n : UInt32) : UInt32 := (w <<< n) ||| (w >>> (32 - n))

def rotateRight (w : UInt32) (n : UInt32) : UInt32 := (w >>> n) ||| (w <<< (32 - n))

/-- Words added to a block's own up to `count` of them, each from those before it. -/
def extend (next : Array UInt32 → UInt32) (count : Nat) (block : Array UInt32) : Array UInt32 :=
  (List.range (count - block.size)).foldl (fun w _ => w.push (next w)) block

/-- The `k`-th word from the end. -/
def back (w : Array UInt32) (k : Nat) : UInt32 := w.getD (w.size - k) 0

end Digest

end SymbolHistory
