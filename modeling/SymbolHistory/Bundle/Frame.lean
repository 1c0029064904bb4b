/-
# Bundle.Frame -- a stream in blocks

A frame starts with four fixed bytes and a header, then come blocks, each with
its size and whether it is the last.  `wrap` stores its content as it is, in
blocks of at most 128 KiB; `unwrap` also reads blocks that repeat one byte, and
any number of frames one after the other.  Blocks of any other kind are not read.
-/
import SymbolHistory.Fault

set_option autoImplicit false

namespace SymbolHistory

namespace Bundle

namespace Frame

/-- How a frame starts. -/
def magic : Bytes := [0x28, 0xB5, 0x2F, 0xFD]

/-- No content size, no checksum, a window of 128 KiB. -/
def header : Bytes := [0x00, 0x38]

def blockSize : Nat := 0x20000

/-- A block's header: three bytes, lowest first. -/
def blockHeader (last : Bool) (size : Nat) : Bytes :=
  let n := size * 8 + (if last then 1 else 0)
  [n.toUInt8, (n / 256).toUInt8, (n / 65536).toUInt8]

def blocks : Nat → Bytes → List Bytes
  | 0, data => [blockHeader true data.length, data]
  | fuel + 1, data =>
    if data.length ≤ blockSize then [blockHeader true data.length, data]
    else
      blockHeader false blockSize :: data.take blockSize :: blocks fuel (data.drop blockSize)

def wrap (data : Bytes) : Bytes :=
  magic ++ header ++ (blocks (data.length / blockSize + 1) data).flatten

inductive Flaw where
  | badMagic
  | cutShort
  | unsupported
  deriving Repr, DecidableEq

def Flaw.message : Flaw → Bytes
  | badMagic => lit "invalid input: magic number mismatch"
  | cutShort => lit "unexpected EOF"
  | unsupported => lit "unsupported block type"

/-- The first `n` bytes and the rest. -/
def takeExactly (n : Nat) (s : Bytes) : Except Flaw (Bytes × Bytes) :=
  let (front, rest) := s.splitAt n
  if front.length == n then .ok (front, rest) else .error .cutShort

/-- A number of several bytes, lowest first. -/
def littleEndian (s : Bytes) : Nat := s.foldr (fun b n => n * 256 + b.toNat) 0

/-- The blocks of one frame, and what follows the frame.  What was read before a flaw is kept. -/
def unwrapBlocks (checksum : Bool) : Nat → Bytes → List Bytes → List Bytes × Except Flaw Bytes
  | 0, _, done => (done, .error .cutShort)
  | fuel + 1, s, done =>
    match takeExactly 3 s with
    | .error e => (done, .error e)
    | .ok (head, rest) =>
      let n := littleEndian head
      let size := n / 8
      let content : Except Flaw (Bytes × Bytes) :=
        match n / 2 % 4 with
        | 0 => takeExactly size rest
        | 1 => (takeExactly 1 rest).map fun r => (List.replicate size (r.1.headD 0), r.2)
        | _ => .error .unsupported
      match content with
      | .error e => (done, .error e)
      | .ok (block, rest) =>
        let done := block :: done
        if n % 2 == 0 then unwrapBlocks checksum fuel rest done
        else if checksum then (done, (takeExactly 4 rest).map (·.2))
        else (done, .ok rest)

/-- The length of a frame's header after its first byte. -/
def headerLength (descriptor : Nat) : Nat :=
  let single := descriptor / 32 % 2 == 1
  let sizeBytes :=
    match descriptor / 64 with
    | 0 => if single then 1 else 0
    | 1 => 2
    | 2 => 4
    | _ => 8
  let dictionaryBytes :=
    match descriptor % 4 with
    | 0 => 0
    | 1 => 1
    | 2 => 2
    | _ => 4
  (if single then 0 else 1) + dictionaryBytes + sizeBytes

/-- All frames of a stream, blocks last first. -/
def unwrapFrames : Nat → Bytes → List Bytes → List Bytes × Option Flaw
  | 0, _, done => (done, none)
  | fuel + 1, s, done =>
    if s.isEmpty then (done, none)
    else
      match takeExactly 4 s with
      | .error e => (done, some e)
      | .ok (start, rest) =>
        if start != magic then (done, some .badMagic)
        else
          match rest with
          | [] => (done, some .cutShort)
          | descriptor :: rest =>
            let d := descriptor.toNat
            match takeExactly (headerLength d) rest with
            | .error e => (done, some e)
            | .ok (_, rest) =>
              match unwrapBlocks (d / 4 % 2 == 1) (rest.length + 1) rest done with
              | (done, .error e) => (done, some e)
              | (done, .ok rest) => unwrapFrames fuel rest done

/-- The content of a stream, up to a flaw or to the failure that waits at its end. -/
def unwrap (s : Input) : Input :=
  let (done, flaw) := unwrapFrames (s.data.length + 1) s.data []
  let failure :=
    match flaw with
    | none => s.failure
    | some .cutShort => some (s.failure.getD (.other Flaw.cutShort.message))
    | some flaw => some (.other flaw.message)
  ⟨done.reverse.flatten, failure⟩

end Frame

end Bundle

end SymbolHistory
