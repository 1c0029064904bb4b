/-
# CommandLine.Flag -- the options of a command

A flag has a name, given after two dashes, and possibly a letter, given after
one.  A switch stands alone or takes its value after an equals sign; every other
flag takes its value there or from the next word.  Two dashes alone end the
flags.  A value is checked when it is read, so the first bad word is the one
that is reported.
-/
import SymbolHistory.Duration
import SymbolHistory.Text.IntegerLiteral

set_option autoImplicit false

namespace SymbolHistory

namespace CommandLine

inductive FlagKind where
  | text
  | whole
  | switch
  | duration
  deriving Repr, DecidableEq

structure Flag where
  name : Bytes
  letter : Option UInt8 := none
  kind : FlagKind := .text
  deriving Repr, DecidableEq

/-- The names and values given, in order. -/
abbrev Given := List (Bytes × Bytes)

namespace Flag

/-- What the words for a switch mean. -/
def truth? (s : Bytes) : Option Bool :=
  if (["1", "t", "T", "true", "TRUE", "True"].map lit).contains s then some true
  else if (["0", "f", "F", "false", "FALSE", "False"].map lit).contains s then some false
  else none

/-- What is wrong with a value. -/
def flaw (kind : FlagKind) (value : Bytes) : Option Fault :=
  match kind with
  | .text => none
  | .whole =>
    match IntegerLiteral.signed value with
    | .ok _ => none
    | .error r => some (.number .wide value r)
  | .switch => if (truth? value).isSome then none else some (.number .truth value .invalid)
  | .duration =>
    match Duration.read value with
    | .ok _ => none
    | .error f => some (.other (f.message value))

/-- How messages call a flag. -/
def label (f : Flag) : Bytes :=
  (match f.letter with | some l => [45, l, 44, 32] | none => []) ++ lit "--" ++ f.name

def check (f : Flag) (value : Bytes) : Except Fault (Bytes × Bytes) :=
  match flaw f.kind value with
  | none => .ok (f.name, value)
  | some fault =>
    .error (.during (lit "invalid argument " ++ Quoted.quote value ++ lit " for " ++
      Quoted.quote f.label ++ lit " flag") fault)

/-- The value of a switch that stands alone. -/
def on : Bytes := lit "true"

def quoteLetter (b : UInt8) : Bytes :=
  let c := b.toNat
  let inside := if c == 39 then [92, 39] else if c == 34 then [34] else
    Quoted.escape (.char c (Utf8.encode c))
  [39] ++ inside ++ [39]

/-- A flag given by its name, and the words after its value. -/
def readLong (flags : List Flag) (word : Bytes) (rest : List Bytes) :
    Except Fault ((Bytes × Bytes) × List Bytes) :=
  let body := word.drop 2
  if body.head? == some 45 || body.head? == some 61 then
    .error (.other (lit "bad flag syntax: " ++ word))
  else
    let (name, value) := match Bytes.cutByte 61 body with
      | some (name, value) => (name, some value)
      | none => (body, none)
    match flags.find? (fun f => f.name == name) with
    | none => .error (.other (lit "unknown flag: --" ++ name))
    | some f =>
      match value, f.kind, rest with
      | some v, _, _ => (f.check v).map fun g => (g, rest)
      | none, .switch, _ => (f.check on).map fun g => (g, rest)
      | none, _, v :: rest => (f.check v).map fun g => (g, rest)
      | none, _, [] => .error (.other (lit "flag needs an argument: --" ++ name))

/-- Flags given by their letters in one word, and the words after the last one's value. -/
def readShort (flags : List Flag) : Bytes → List Bytes → Except Fault (Given × List Bytes)
  | [], rest => .ok ([], rest)
  | l :: more, rest =>
    match flags.find? (fun f => f.letter == some l) with
    | none =>
      .error (.other (lit "unknown shorthand flag: " ++ quoteLetter l ++ lit " in -" ++ l :: more))
    | some f =>
      if more.head? == some 61 && 1 < more.length then
        (f.check (more.drop 1)).map fun g => ([g], rest)
      else if f.kind == .switch then
        match f.check on with
        | .error e => .error e
        | .ok g => (readShort flags more rest).map fun p => (g :: p.1, p.2)
      else if !more.isEmpty then (f.check more).map fun g => ([g], rest)
      else
        match rest with
        | v :: rest => (f.check v).map fun g => ([g], rest)
        | [] => .error (.other (lit "flag needs an argument: " ++ quoteLetter l ++ lit " in -" ++ [l]))

/-- The flags among some words and the other words; `fuel` bounds the number of words. -/
def readAll (flags : List Flag) : Nat → List Bytes → Except Fault (Given × List Bytes)
  | 0, _ => .ok ([], [])
  | _ + 1, [] => .ok ([], [])
  | fuel + 1, word :: rest => do
    if word.head? != some 45 || word.length == 1 then
      let (given, operands) ← readAll flags fuel rest
      pure (given, word :: operands)
    else if word == lit "--" then pure ([], rest)
    else if Bytes.startsWith (lit "--") word then
      let (g, rest) ← readLong flags word rest
      let (given, operands) ← readAll flags fuel rest
      pure (g :: given, operands)
    else
      let (gs, rest) ← readShort flags (word.drop 1) rest
      let (given, operands) ← readAll flags fuel rest
      pure (gs ++ given, operands)

/-! ## Looking past flags -/

/-- A word that takes the next one as its value, for all that is known of the flags. -/
def takesNext (flags : List Flag) (word : Bytes) : Bool :=
  let isSwitch := fun (p : Flag → Bool) => (flags.find? p).any fun f => f.kind == .switch
  if word.elem 61 then false
  else if Bytes.startsWith (lit "--") word then !isSwitch fun f => f.name == word.drop 2
  else word.head? == some 45 && word.length == 2 && !isSwitch fun f => f.letter == word[1]?

/-- The words that are neither flags nor their values.  A flag that takes the last word ends the
search. -/
def otherWords (flags : List Flag) : List Bytes → List Bytes
  | [] => []
  | word :: rest =>
    if word == lit "--" then []
    else if takesNext flags word then
      match rest with
      | _ :: next :: more => otherWords flags (next :: more)
      | _ => []
    else if !word.isEmpty && word.head? != some 45 then word :: otherWords flags rest
    else otherWords flags rest
termination_by words => words.length

/-- The words without the first one that is `x` and neither a flag nor its value. -/
def withoutFirst (flags : List Flag) (x : Bytes) : List Bytes → List Bytes
  | [] => []
  | word :: rest =>
    if word == lit "--" then word :: rest
    else if takesNext flags word then
      match rest with
      | [] => [word]
      | v :: more => word :: v :: withoutFirst flags x more
    else if word == x && word.head? != some 45 then rest
    else word :: withoutFirst flags x rest
termination_by words => words.length

end Flag

end CommandLine

end SymbolHistory
