/-
# Glob.Term -- reading file patterns

A file pattern is text with wild cards: `?` and `*` stay within a directory,
`**` crosses directories, brackets name one character, braces list
alternatives.  A backslash takes the next character as it is.  Braces that
are never closed end with the pattern.
-/
import SymbolHistory.Text.Utf8

set_option autoImplicit false

namespace SymbolHistory

namespace Glob

inductive Flaw where
  | unreadable
  | unexpectedEnd
  | unclosedRange
  | emptyRange
  | reversedRange (low high : Nat)
  deriving Repr, DecidableEq

def Flaw.message : Flaw → Bytes
  | unreadable => lit "could not read rune"
  | unexpectedEnd => lit "unexpected end of input"
  | unclosedRange => lit "expected close range character"
  | emptyRange => lit "could not parse range"
  | reversedRange low high =>
    lit "hi character '" ++ Utf8.encode high ++ lit "' should be greater than lo '" ++
      Utf8.encode low ++ lit "'"

inductive Term where
  | text (s : Bytes)
  | any
  | super
  | single
  | list (chars : List Nat) (negated : Bool)
  | range (low high : Nat) (negated : Bool)
  | nothing
  | anyOf (choices : List Term)
  | sequence (parts : List Term)
  deriving Repr, BEq, Inhabited

/-- A pattern's characters up to the first that cannot be read, and whether there is one. -/
structure Chars where
  ahead : List Nat
  broken : Bool

def Chars.ofBytes (s : Bytes) : Chars :=
  let unreadable := fun (p : Piece) => p.code == Utf8.replacement
  let (good, rest) := (Utf8.pieces s).span (fun p => !unreadable p)
  ⟨good.map Piece.code, !rest.isEmpty⟩

/-- Characters up to one of `stops`, with backslashes resolved; a last lone one is dropped. -/
def takeText (stops : List Nat) : List Nat → List Nat → List Nat × List Nat
  | taken, [] => (taken.reverse, [])
  | taken, [92] => (taken.reverse, [])
  | taken, 92 :: c :: rest => takeText stops (c :: taken) rest
  | taken, c :: rest =>
    if stops.contains c then (taken.reverse, c :: rest) else takeText stops (c :: taken) rest

def closeRange (t : Term) : List Nat → Except Flaw (Term × List Nat)
  | [] => .error .unexpectedEnd
  | 93 :: rest => .ok (t, rest)
  | _ => .error .unclosedRange

/-- A range from `low` to the next character. -/
def readHigh (negated : Bool) (low : Nat) : List Nat → Except Flaw (Term × List Nat)
  | [] => .error .unexpectedEnd
  | high :: rest => do
    let (t, rest) ← closeRange (.range low high negated) rest
    if high < low then throw (.reversedRange low high)
    else if low == 0 || high == 0 then throw .emptyRange
    else pure (t, rest)

def readRange (negated broken : Bool) (chars : List Nat) : Except Flaw (Term × List Nat) :=
  match chars with
  | [] => .error .unexpectedEnd
  | low :: 45 :: rest => readHigh negated low rest
  | [93] => .error (if broken then .unreadable else .emptyRange)
  | _ => do
    let (members, rest) := takeText [93] [] chars
    let (t, rest) ← closeRange (.list members negated) rest
    if members.isEmpty then throw .emptyRange else pure (t, rest)

def readBracket (broken : Bool) (chars : List Nat) : Except Flaw (Term × List Nat) :=
  match chars with
  | 33 :: rest => readRange true broken rest
  | _ => readRange false broken chars

/-- Braces being read: the choices finished and the parts of the sequence around them, all last
first. -/
structure Frame where
  choices : List Term
  outer : List Term

def Frame.close (f : Frame) (parts : List Term) : List Term :=
  Term.anyOf (Term.sequence parts.reverse :: f.choices).reverse :: f.outer

/-- Read the rest of a pattern: the parts of the sequence being read stand last first. -/
def readParts (broken : Bool) :
    Nat → List Frame → List Term → List Nat → Except Flaw Term
  | 0, _, parts, _ => .ok (.sequence parts.reverse)
  | fuel + 1, frames, parts, chars =>
    match chars with
    | [] =>
      if broken then .error .unreadable
      else .ok (.sequence (frames.foldl (fun inner f => f.close inner) parts).reverse)
    | 123 :: rest => readParts broken fuel (⟨[], parts⟩ :: frames) [] rest
    | 91 :: rest => do
      let (t, rest) ← readBracket broken rest
      readParts broken fuel frames (t :: parts) rest
    | 63 :: rest => readParts broken fuel frames (.single :: parts) rest
    | 42 :: 42 :: rest => readParts broken fuel frames (.super :: parts) rest
    | 42 :: rest => readParts broken fuel frames (.any :: parts) rest
    | c :: rest =>
      match c, frames with
      | 44, f :: below =>
        readParts broken fuel
          (⟨.sequence parts.reverse :: f.choices, f.outer⟩ :: below) [] rest
      | 125, f :: below => readParts broken fuel below (f.close parts) rest
      | _, _ =>
        let stops := if frames.isEmpty then [63, 42, 91, 123] else [63, 42, 91, 123, 125, 44]
        let (taken, rest) := takeText stops [] chars
        if taken.isEmpty then readParts broken fuel frames parts rest
        else readParts broken fuel frames (.text (taken.flatMap Utf8.encode) :: parts) rest

def read (s : Bytes) : Except Flaw Term :=
  let chars := Chars.ofBytes s
  readParts chars.broken (chars.ahead.length + 1) [] [] chars.ahead

end Glob

end SymbolHistory
