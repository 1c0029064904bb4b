/-
# Bundle.Archive -- files one after the other

An archive is a sequence of members.  Each has a header of 512 bytes with its
name, size and type, followed by its content, filled up to a multiple of 512
bytes; two empty blocks end the archive.  What does not fit the header, or is not
ASCII, stands in front of it: as a record, as it is written here, or as the content
of a header of its own.

An archive is read as far as it goes.  A member that it ends in the middle of is
met like any other, and only then the end.
-/
import SymbolHistory.Fault

set_option autoImplicit false

namespace SymbolHistory

namespace Bundle

inductive MemberType where
  | file
  | folder
  | link (target : Bytes)
  /-- Anything else, by its flag. -/
  | other (flag : UInt8)
  deriving Repr, DecidableEq

structure Member where
  name : Bytes
  type : MemberType := .file
  content : Bytes := []
  deriving Repr, DecidableEq

/-- A member as it is met in an archive, with the size that is stated for it and what ends its content
early. -/
structure Arrival extends Member where
  size : Nat
  flaw : Option Fault := none
  deriving Repr, DecidableEq

/-- A member that is met whole. -/
def Member.whole (m : Member) : Arrival := { toMember := m, size := m.content.length }

namespace Archive

/-- Headers and contents fill whole blocks. -/
def blockSize : Nat := 512

/-- Filled up with zeros to a multiple of the block size. -/
def padded (s : Bytes) : Bytes :=
  s ++ List.replicate ((blockSize - s.length % blockSize) % blockSize) 0

def field (width : Nat) (s : Bytes) : Bytes :=
  s.take width ++ List.replicate (width - s.length) 0

/-- The octal digits of a number, exactly `width` of them. -/
def octal : Nat → Nat → Bytes
  | 0, _ => []
  | width + 1, n => octal width (n / 8) ++ [(48 + n % 8).toUInt8]

/-- A number in a field of some width: octal digits and a zero. -/
def number (width n : Nat) : Bytes := octal (width - 1) n ++ [0]

def checksum (s : Bytes) : Nat := s.foldl (fun n b => n + b.toNat) 0

def header (name : Bytes) (typeFlag : UInt8) (target : Bytes) (mode size : Nat) : Bytes :=
  let front := field 100 name ++ number 8 mode ++ number 8 0 ++ number 8 0 ++ number 12 size ++
    number 12 0
  let back := [typeFlag] ++ field 100 target ++ lit "ustar" ++ [0] ++ lit "00" ++
    field 32 [] ++ field 32 [] ++ number 8 0 ++ number 8 0 ++ field 155 [] ++ field 12 []
  let sum := checksum (front ++ List.replicate 8 32 ++ back)
  front ++ octal 6 sum ++ [0, 32] ++ back

/-- A record `length key=value`, whose length counts itself. -/
def record (key value : Bytes) : Bytes :=
  let body := [32] ++ key ++ [61] ++ value ++ [10]
  let once := body.length + (Decimal.ofNat body.length).length
  let length := body.length + (Decimal.ofNat once).length
  Decimal.ofNat length ++ body

def fits (s : Bytes) : Bool := s.length ≤ 100 && s.all (fun b => b < 128 && b != 0)

/-- The sizes that fit their field of the header are below. -/
def sizeLimit : Nat := 0o100000000000

/-- A text as far as a header can hold it. -/
def ascii (s : Bytes) : Bytes := s.filter (· < 128)

def MemberType.flag : MemberType → UInt8
  | .file => 48
  | .folder => 53
  | .link _ => 50
  | .other flag => flag

/-- The type that a member is written with: a file whose name ends in a slash becomes a folder. -/
def writtenType (m : Member) : MemberType :=
  if m.type == .file && Bytes.endsWith [47] m.name then .folder else m.type

def writeMember (m : Member) : Bytes :=
  let type := writtenType m
  let target := match type with | .link t => t | _ => []
  let content := match type with | .file => m.content | _ => []
  let records :=
    (if fits m.name then [] else record (lit "path") m.name) ++
    (if fits target then [] else record (lit "linkpath") target) ++
    (if content.length < sizeLimit then []
      else record (lit "size") (Decimal.ofNat content.length))
  let extra :=
    if records.isEmpty then []
    else header (lit "PaxHeaders.0/entry") 120 [] 0 records.length ++ padded records
  let size := if content.length < sizeLimit then content.length else 0
  extra ++ header (ascii m.name) (MemberType.flag type) (ascii target) 420 size ++ padded content

def write (members : List Member) : Bytes :=
  members.flatMap writeMember ++ List.replicate (2 * blockSize) 0

/-! ## Reading -/

/-- A header that is none. -/
def badHeader : Fault := .other (lit "archive/tar: invalid tar header")

def untilZero (s : Bytes) : Bytes := s.takeWhile (· != 0)

def readOctal (s : Bytes) : Option Nat :=
  let digits := untilZero (Bytes.trimBytes (fun b => b == 32 || b == 0) s)
  digits.foldlM (fun n b => if 48 ≤ b && b ≤ 55 then some (n * 8 + (b.toNat - 48)) else none) 0

/-- A size: octal digits, or a number in bytes behind a first one whose highest bit is set. -/
def readSize (s : Bytes) : Option Nat :=
  match s with
  | [] => some 0
  | b :: rest =>
    if b < 128 then readOctal s
    else
      let n := rest.foldl (fun n b => n * 256 + b.toNat) (b.toNat - 128)
      -- the second highest bit is the sign
      if b < 192 && n < Decimal.signedLimit then some n else none

def slice (start width : Nat) (s : Bytes) : Bytes := (s.drop start).take width

/-- The values of records, later ones first. -/
def readRecords : Nat → Bytes → List (Bytes × Bytes) → Option (List (Bytes × Bytes))
  | 0, _, done => some done
  | fuel + 1, s, done =>
    if s.isEmpty then some done
    else
      match Bytes.cutByte 32 s with
      | none => none
      | some (count, _) =>
        match Decimal.unsigned? count with
        | none => none
        | some n =>
          let line := (s.take n).drop (count.length + 1)
          if n ≤ count.length + 1 || s.length < n then none
          else
            match Bytes.cutByte 61 (Bytes.withoutTail [10] line) with
            | none => none
            | some (key, value) => readRecords fuel (s.drop n) ((key, value) :: done)

/-- What records say about a key; an empty value says nothing. -/
def lookup (records : List (Bytes × Bytes)) (key : String) : Option Bytes :=
  ((records.find? (fun r => r.1 == lit key)).map (·.2)).filter (!·.isEmpty)

/-- What stands in front of a header: records, and texts that are too long for it. -/
structure Notes where
  records : List (Bytes × Bytes) := []
  name : Bytes := []
  target : Bytes := []
  deriving Repr, DecidableEq

/-- Flags of headers that say something about the next one. -/
def isNote (flag : UInt8) : Bool := flag == 120 || flag == 76 || flag == 75

/-- One more note, with the content that says it. -/
def Notes.add (notes : Notes) (flag : UInt8) (content : Bytes) : Option Notes :=
  if flag == 120 then
    (readRecords (content.length + 1) content []).map fun records => { notes with records }
  else if flag == 76 then some { notes with name := untilZero content }
  else some { notes with target := untilZero content }

/-- What a type flag says.  Only in the oldest archives a slash at the end makes a folder of a file. -/
def typeOf (flag : UInt8) (name target : Bytes) : MemberType :=
  if flag == 48 then .file
  else if flag == 0 then if Bytes.endsWith [47] name then .folder else .file
  else if flag == 53 then .folder
  else if flag == 49 || flag == 50 then .link target
  else .other flag

/-- Links, devices, folders and pipes have no content, whatever size is stated. -/
def hasContent (flag : UInt8) (name : Bytes) : Bool :=
  !(49 ≤ flag && flag ≤ 54) && typeOf flag name [] != .folder

/-- The name in a header: if it is of the newer kind, the part before the last hundred bytes stands at
the end. -/
def headerName (block : Bytes) : Bytes :=
  let name := untilZero (slice 0 100 block)
  let width := if slice 508 4 block == lit "tar" ++ [0] then 131 else 155
  let front :=
    if slice 257 6 block == lit "ustar" ++ [0] then untilZero (slice 345 width block) else []
  if front.isEmpty then name else front ++ [47] ++ name

/-- A header's checksum is right. -/
def isSound (block : Bytes) : Bool :=
  let blanked := block.take 148 ++ List.replicate 8 32 ++ block.drop 156
  readOctal (slice 148 8 block) == some (checksum blanked)

/-- The size of a member: what a record says, or else its header. -/
def sizeOf? (records : List (Bytes × Bytes)) (size : Nat) : Option Nat :=
  match lookup records "size" with
  | none => some size
  | some text => Decimal.unsigned? text

/-- What a header says, but for its checksum. -/
structure Header where
  name : Bytes
  flag : UInt8
  target : Bytes
  size : Nat
  deriving Repr, DecidableEq

def readHeader (block : Bytes) : Option Header :=
  if !isSound block then none
  else
    (readSize (slice 124 12 block)).map fun size =>
      { name := headerName block, flag := (block.drop 156).headD 0
        target := untilZero (slice 157 100 block), size }

namespace Header

/-- What was said in front of a header counts before what it says itself. -/
def noted (h : Header) (notes : Notes) : Option Header :=
  let name := (lookup notes.records "path").getD h.name
  let target := (lookup notes.records "linkpath").getD h.target
  (sizeOf? notes.records h.size).map fun size =>
    { h with
      name := if notes.name.isEmpty then name else notes.name
      target := if notes.target.isEmpty then target else notes.target
      size }

def contentSize (h : Header) : Nat := if hasContent h.flag h.name then h.size else 0

/-- The member that a header belongs to, with as much of its content as there is. -/
def arrival (h : Header) (early : Fault) (rest : Bytes) : Arrival where
  name := h.name
  type := typeOf h.flag h.name h.target
  content := rest.take h.contentSize
  size := h.size
  flaw := if rest.length < h.contentSize then some early else none

end Header

/-- What follows some content and what fills its last block. -/
def behind (size : Nat) (s : Bytes) : Bytes :=
  s.drop (size + (blockSize - size % blockSize) % blockSize)

/-- How an archive ends after an empty block: another one should follow it. -/
def ended (early : Fault) (failure : Option Fault) (rest : Bytes) : Option Fault :=
  let block := rest.take blockSize
  if block.isEmpty then failure
  else if block.length < blockSize then some early
  else if block.all (· == 0) then none
  else some badHeader

/-- Read members.  `failure` is what the stream ends with, and those found stand last first. -/
def readFrom (failure : Option Fault) :
    Nat → Notes → Bytes → List Arrival → Delivery Arrival
  | 0, _, _, done => ⟨done.reverse, failure⟩
  | fuel + 1, notes, s, done =>
    let early := failure.getD (.other (lit "unexpected EOF"))
    let (block, rest) := s.splitAt blockSize
    if block.isEmpty then ⟨done.reverse, failure⟩
    else if block.length < blockSize then ⟨done.reverse, some early⟩
    else if block.all (· == 0) then ⟨done.reverse, ended early failure rest⟩
    else
      match readHeader block with
      | none => ⟨done.reverse, some badHeader⟩
      | some h =>
        if isNote h.flag then
          if rest.length < h.size then ⟨done.reverse, some early⟩
          else
            match notes.add h.flag (rest.take h.size) with
            | none => ⟨done.reverse, some badHeader⟩
            | some notes => readFrom failure fuel notes (behind h.size rest) done
        else
          match h.noted notes with
          | none => ⟨done.reverse, some badHeader⟩
          | some h =>
            let done := h.arrival early rest :: done
            if rest.length < h.contentSize then ⟨done.reverse, some early⟩
            else readFrom failure fuel {} (behind h.contentSize rest) done

/-- The members of an archive, and what ends it early. -/
def read (s : Input) : Delivery Arrival :=
  readFrom s.failure (s.data.length / blockSize + 1) {} s.data []

end Archive

end Bundle

end SymbolHistory
