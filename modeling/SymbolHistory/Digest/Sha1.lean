/-
# Digest.Sha1 -- the hash of 160 bits
-/
import SymbolHistory.Digest.Blocks

set_option autoImplicit false

namespace SymbolHistory

namespace Digest

namespace Sha1

/-- The five words carried from round to round and from block to block. -/
structure State where
  a : UInt32 := 0x67452301
  b : UInt32 := 0xEFCDAB89
  c : UInt32 := 0x98BADCFE
  d : UInt32 := 0x10325476
  e : UInt32 := 0xC3D2E1F0

/-- The mix of three words in round `i`, and the round's constant. -/
def mix (i : Nat) (b c d : UInt32) : UInt32 × UInt32 :=
  if i < 20 then ((b &&& c) ||| (~~~b &&& d), 0x5A827999)
  else if i < 40 then (b ^^^ c ^^^ d, 0x6ED9EBA1)
  else if i < 60 then ((b &&& c) ||| (b &&& d) ||| (c &&& d), 0x8F1BBCDC)
  else (b ^^^ c ^^^ d, 0xCA62C1D6)

def round (w : Array UInt32) (s : State) (i : Nat) : State :=
  let (f, k) := mix i s.b s.c s.d
  { a := rotateLeft s.a 5 + f + s.e + k + w.getD i 0,
    b := s.a, c := rotateLeft s.b 30, d := s.c, e := s.d }

def schedule (block : Array UInt32) : Array UInt32 :=
  extend (fun w => rotateLeft (back w 3 ^^^ back w 8 ^^^ back w 14 ^^^ back w 16) 1) 80 block

def compress (s : State) (block : Array UInt32) : State :=
  let r := (List.range 80).foldl (round (schedule block)) s
  ⟨s.a + r.a, s.b + r.b, s.c + r.c, s.d + r.d, s.e + r.e⟩

end Sha1

def sha1 (message : Bytes) : Bytes :=
  let s := (blocks message).foldl Sha1.compress {}
  [s.a, s.b, s.c, s.d, s.e].flatMap wordBytes

end Digest

end SymbolHistory
