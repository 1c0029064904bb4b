/-
# ObjectId -- contents named by their hash

An object is a file content; its id is the lowercase hexadecimal hash of the
content with its length in front, 40 or 64 digits long.  The same content in
any number of versions has one id.
-/
import SymbolHistory.Fault
import SymbolHistory.Digest.Sha1
import SymbolHistory.Digest.Sha256

set_option autoImplicit false

namespace SymbolHistory

namespace ObjectId

inductive Format where
  | short
  | long
  deriving Repr, DecidableEq

def isHexDigit (b : UInt8) : Bool := Bytes.isDigit b || (97 ≤ b && b ≤ 102)

/-- An id has the length of a hash and consists of lowercase hexadecimal digits. -/
def isValid (id : Bytes) : Bool := (id.length == 40 || id.length == 64) && id.all isHexDigit

def validate (id : Bytes) : Except Fault Unit :=
  if isValid id then .ok () else .error (.invalidId id)

/-- The first twelve digits, for messages. -/
def brief (id : Bytes) : Bytes := id.take 12

/-- What is hashed: the kind of object, the length of the content, and the content. -/
def envelope (kind content : Bytes) : Bytes :=
  kind ++ [32] ++ Decimal.ofNat content.length ++ [0] ++ content

def ofObject (format : Format) (kind content : Bytes) : Bytes :=
  match format with
  | .short => Bytes.hex (Digest.sha1 (envelope kind content))
  | .long => Bytes.hex (Digest.sha256 (envelope kind content))

def ofContent (format : Format) (content : Bytes) : Bytes := ofObject format (lit "blob") content

def formatOf (id : Bytes) : Format := if id.length == 64 then .long else .short

def verify (id content : Bytes) : Except Fault Unit := do
  validate id
  let got := ofContent (formatOf id) content
  if got == id then pure () else throw (.hashMismatch id got)

end ObjectId

end SymbolHistory
