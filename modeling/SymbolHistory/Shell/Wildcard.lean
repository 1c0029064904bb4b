/-
# Shell.Wildcard -- patterns in scripts

A pattern is matched against a whole text, byte by byte: a star stands for any
text, a question mark for one byte, brackets for one byte of a set.  Quoted
bytes stand for themselves.
-/
import SymbolHistory.Text.Bytes

set_option autoImplicit false

namespace SymbolHistory

namespace Shell

/-- One element of a pattern. -/
inductive Wildcard where
  | byte (b : UInt8)
  | one
  | many
  | set (negated : Bool) (ranges : List (UInt8 × UInt8))
  deriving Repr, DecidableEq

namespace Wildcard

/-- The ranges in brackets, up to the closing one. -/
def ranges : List (UInt8 × Bool) → List (UInt8 × UInt8) → Option (List (UInt8 × UInt8) × List (UInt8 × Bool))
  | [], _ => none
  | (93, false) :: rest, done => if done.isEmpty then ranges rest [(93, 93)] else some (done, rest)
  | (a, _) :: (45, false) :: (b, qb) :: rest, done =>
    if b == 93 && !qb then ranges ((45, true) :: (b, qb) :: rest) ((a, a) :: done)
    else ranges rest ((a, b) :: done)
  | (a, _) :: rest, done => ranges rest ((a, a) :: done)
termination_by s => s.length

def ofBytes : Nat → List (UInt8 × Bool) → List Wildcard
  | 0, _ => []
  | _ + 1, [] => []
  | fuel + 1, (b, quoted) :: rest =>
    if quoted then byte b :: ofBytes fuel rest
    else if b == 42 then many :: ofBytes fuel rest
    else if b == 63 then one :: ofBytes fuel rest
    else if b == 91 then
      let (negated, inside) :=
        match rest with
        | (33, false) :: inside => (true, inside)
        | _ => (false, rest)
      match ranges inside [] with
      | some (rs, rest) => set negated rs :: ofBytes fuel rest
      | none => byte b :: ofBytes fuel rest
    else byte b :: ofBytes fuel rest

/-- One byte matches one element other than a star. -/
def accepts (w : Wildcard) (b : UInt8) : Bool :=
  match w with
  | byte a => a == b
  | one => true
  | many => true
  | set negated rs => rs.any (fun r => r.1 ≤ b && b ≤ r.2) != negated

def matches? : List Wildcard → Bytes → Bool
  | [], s => s.isEmpty
  | many :: ws, s => matches? ws s || (match s with | [] => false | _ :: rest => matches? (many :: ws) rest)
  | _ :: _, [] => false
  | w :: ws, b :: rest => w.accepts b && matches? ws rest
termination_by ws s => (s.length, ws.length)

/-- The text without the start that the pattern matches. -/
def dropStart (ws : List Wildcard) (longest : Bool) (s : Bytes) : Bytes :=
  let sizes := List.range (s.length + 1)
  let sizes := if longest then sizes.reverse else sizes
  match sizes.find? (fun n => matches? ws (s.take n)) with
  | some n => s.drop n
  | none => s

/-- The text without the end that the pattern matches. -/
def dropEnd (ws : List Wildcard) (longest : Bool) (s : Bytes) : Bytes :=
  let sizes := List.range (s.length + 1)
  let sizes := if longest then sizes else sizes.reverse
  match sizes.find? (fun n => matches? ws (s.drop n)) with
  | some n => s.take n
  | none => s

end Wildcard

end Shell

end SymbolHistory
