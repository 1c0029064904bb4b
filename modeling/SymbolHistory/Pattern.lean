/-
# Pattern -- searching with regular expressions

An expression is compiled to a small program whose instructions either take a
character or fork.  All threads run over the text side by side in order of
preference, so a search takes time proportional to program and text, and finds
the leftmost match that prefers earlier choices.
-/
import SymbolHistory.Pattern.Parse

set_option autoImplicit false

namespace SymbolHistory

namespace Pattern

/-! ## Programs -/

/-- One instruction; numbers are the places of instructions to go on with. -/
inductive Step where
  | accept
  | char (set : CharSet) (next : Nat)
  | assertion (a : Assertion) (next : Nat)
  | save (slot : Nat) (next : Nat)
  | fork (first second : Nat)
  deriving Repr, DecidableEq

/-- A program under construction. -/
abbrev Code := Array Step

/-- Add an instruction; the result is its place. -/
def Code.add (code : Code) (s : Step) : Nat × Code := (code.size, code.push s)

/-- A fork that prefers `body` if `greedy`. -/
def Step.prefer (greedy : Bool) (body next : Nat) : Step :=
  if greedy then .fork body next else .fork next body

/-- `n` times the same piece of code, the last before `next`. -/
def copies (emit : Nat → Code → Nat × Code) : Nat → Nat → Code → Nat × Code
  | 0, next, code => (next, code)
  | n + 1, next, code =>
    let (rest, code) := emit next code
    copies emit n rest code

/-- Up to `n` times the same piece of code, each only after the one before. -/
def optional (emit : Nat → Code → Nat × Code) (greedy : Bool) (skip : Nat) :
    Nat → Code → Nat × Code
  | 0, code => (skip, code)
  | n + 1, code =>
    let (rest, code) := optional emit greedy skip n code
    let (body, code) := emit rest code
    code.add (.prefer greedy body skip)

def loop (emit : Nat → Code → Nat × Code) (greedy : Bool) (next : Nat) (code : Code) :
    Nat × Code :=
  let (again, code) := code.add .accept
  let (body, code) := emit again code
  (body, code.setIfInBounds again (.prefer greedy body next))

/-- Any number of times, where each time takes a character. -/
def star (emit : Nat → Code → Nat × Code) (greedy : Bool) (next : Nat) (code : Code) :
    Nat × Code :=
  let (again, code) := code.add .accept
  let (body, code) := emit again code
  (again, code.setIfInBounds again (.prefer greedy body next))

/-- The code of an expression that goes on at `next`; the result is where it starts. -/
def Node.emit : Node → Nat → Code → Nat × Code
  | .empty, next, code => (next, code)
  | .char set, next, code => code.add (.char set next)
  | .assertion a, next, code => code.add (.assertion a next)
  | .seq a b, next, code =>
    let (rest, code) := b.emit next code
    a.emit rest code
  | .either a b, next, code =>
    let (first, code) := a.emit next code
    let (second, code) := b.emit next code
    code.add (.fork first second)
  | .group i a, next, code =>
    let (close, code) := code.add (.save (2 * i + 1) next)
    let (body, code) := a.emit close code
    code.add (.save (2 * i) body)
  | .repeated a min none greedy, next, code =>
    match min with
    | 0 =>
      if a.nullable then
        let (body, code) := loop a.emit greedy next code
        code.add (.prefer greedy body next)
      else star a.emit greedy next code
    | n + 1 =>
      let (rest, code) := loop a.emit greedy next code
      copies a.emit n rest code
  | .repeated a min (some max) greedy, next, code =>
    let (rest, code) := optional a.emit greedy next (max - min) code
    copies a.emit min rest code

end Pattern

structure Pattern where
  code : Array Pattern.Step
  start : Nat
  groups : Nat
  deriving Repr

namespace Pattern

def compile (text : Bytes) : Except Problem Pattern := do
  let (node, groups) ← parse text
  let (start, code) := node.emit 0 #[.accept]
  pure ⟨code, start, groups⟩

/-! ## Searching -/

/-- Where a thread goes on and what it has captured, as byte offsets by slot. -/
structure Thread where
  place : Nat
  saved : Array (Option Nat)
  deriving Repr

/-- A place in the text: the characters on both sides and the byte offset. -/
structure Position where
  before : Option Nat
  after : Option Nat
  offset : Nat
  deriving Repr

def isWordCode (c : Nat) : Bool := CharSet.word.contains c

def Assertion.holds (a : Assertion) (p : Position) : Bool :=
  let boundary := p.before.any isWordCode != p.after.any isWordCode
  match a with
  | .textStart => p.before.isNone
  | .textEnd => p.after.isNone
  | .lineStart => p.before.all (· == 10)
  | .lineEnd => p.after.all (· == 10)
  | .wordBoundary => boundary
  | .notWordBoundary => !boundary

/-- Follow the threads on the stack without taking a character.  Every place is visited once;
the first thread to reach it is the preferred one.  `ready` holds the threads that wait for a
character or have matched, last first. -/
def follow (p : Pattern) (pos : Position) :
    Nat → List Thread → Array Bool → List Thread → Array Bool × List Thread
  | 0, _, seen, ready => (seen, ready)
  | _, [], seen, ready => (seen, ready)
  | fuel + 1, t :: stack, seen, ready =>
    if seen.getD t.place true then follow p pos fuel stack seen ready
    else
      let seen := seen.setIfInBounds t.place true
      match p.code.getD t.place .accept with
      | .accept => follow p pos fuel stack seen (t :: ready)
      | .char _ _ => follow p pos fuel stack seen (t :: ready)
      | .assertion a next =>
        if a.holds pos then follow p pos fuel ({ t with place := next } :: stack) seen ready
        else follow p pos fuel stack seen ready
      | .save slot next =>
        let saved := t.saved.setIfInBounds slot (some pos.offset)
        follow p pos fuel (⟨next, saved⟩ :: stack) seen ready
      | .fork first second =>
        follow p pos fuel ({ t with place := first } :: { t with place := second } :: stack)
          seen ready

/-- The threads in order of preference, those that start here last. -/
def gather (p : Pattern) (pos : Position) (threads : List Thread) (fresh : Bool) : List Thread :=
  let start : List Thread :=
    if fresh then
      [⟨p.start, (Array.replicate (2 * p.groups + 2) none).setIfInBounds 0 (some pos.offset)⟩]
    else []
  let stack := threads ++ start
  let fuel := 2 * p.code.size + stack.length + 1
  (follow p pos fuel stack (Array.replicate p.code.size false) []).2.reverse

/-- The threads preferred to the first that has matched, and that one. -/
def untilMatch (p : Pattern) : List Thread → List Thread → List Thread × Option Thread
  | waiting, [] => (waiting.reverse, none)
  | waiting, t :: rest =>
    match p.code.getD t.place .accept with
    | .accept => (waiting.reverse, some t)
    | _ => untilMatch p (t :: waiting) rest

/-- The threads that can take a character. -/
def advance (p : Pattern) (c : Nat) (threads : List Thread) : List Thread :=
  threads.filterMap fun t =>
    match p.code.getD t.place .accept with
    | .char set next => if set.contains c then some { t with place := next } else none
    | _ => none

def run (p : Pattern) : List Piece → Option Nat → Nat → List Thread → Option (Array (Option Nat)) →
    Option (Array (Option Nat))
  | [], before, offset, threads, best =>
    let pos : Position := ⟨before, none, offset⟩
    match (untilMatch p [] (gather p pos threads best.isNone)).2 with
    | some t => some (t.saved.setIfInBounds 1 (some offset))
    | none => best
  | piece :: rest, before, offset, threads, best =>
    let pos : Position := ⟨before, some piece.code, offset⟩
    let (waiting, found) := untilMatch p [] (gather p pos threads best.isNone)
    let best :=
      match found with
      | some t => some (t.saved.setIfInBounds 1 (some offset))
      | none => best
    if waiting.isEmpty && best.isSome then best
    else
      run p rest (some piece.code) (offset + piece.bytes.length) (advance p piece.code waiting) best

/-- What a search found: the byte offsets of the match and of every group that took part. -/
structure Match where
  first : Nat
  last : Nat
  group? : Nat → Option (Nat × Nat)

/-- The leftmost match. -/
def find (p : Pattern) (text : Bytes) : Option Match := do
  let saved ← run p (Utf8.pieces text) none 0 [] none
  let span := fun (i : Nat) => do
    let a ← (saved[2 * i]?).join
    let b ← (saved[2 * i + 1]?).join
    pure (a, b)
  let (first, last) ← span 0
  pure ⟨first, last, span⟩

def matchesIn (p : Pattern) (text : Bytes) : Bool := (run p (Utf8.pieces text) none 0 [] none).isSome

end Pattern

end SymbolHistory
