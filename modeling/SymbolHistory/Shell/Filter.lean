/-
# Shell.Filter -- programs that search lines

Filters whose arguments are regular expressions, and one that drops repeated
lines.  In a basic expression parentheses, braces, bars, plus and question marks
stand for themselves unless a backslash precedes them, so it is turned into the
other kind before it is compiled.
-/
import SymbolHistory.Pattern
import SymbolHistory.Shell.Utility

set_option autoImplicit false

namespace SymbolHistory

namespace Shell

namespace Utility

/-- Bytes that change their meaning with a backslash between the two kinds of expressions. -/
def isSwapped (b : UInt8) : Bool := (lit "()\x7b\x7d|+?").elem b

/-- A basic expression as an extended one. -/
def extended : Bytes → Bytes
  | 92 :: b :: rest => if isSwapped b then b :: extended rest else 92 :: b :: extended rest
  | b :: rest => if isSwapped b then 92 :: b :: extended rest else b :: extended rest
  | [] => []

/-- The flags of a filter, as letters. -/
def flagLetters (args : List Bytes) : Bytes :=
  (args.filter fun a => a.head? == some 45 && 1 < a.length).flatMap (·.drop 1)

def plainWords (args : List Bytes) : List Bytes :=
  args.filter fun a => !(a.head? == some 45 && 1 < a.length)

def expression? (flags text : Bytes) : Option Pattern :=
  let body :=
    if flags.elem 70 then text.flatMap fun b => if b < 128 then [92, 120] ++ Bytes.hexByte b else [b]
    else if flags.elem 69 || flags.elem 114 then text
    else extended text
  (Pattern.compile ((if flags.elem 105 then lit "(?i)" else []) ++ body)).toOption

/-- The lines in which an expression is found, or those in which it is not, or their number; the
status says whether there are any. -/
def grep (args : List Bytes) (input : Bytes) : Bytes × Nat :=
  let flags := flagLetters args
  match expression? flags ((plainWords args).headD []) with
  | none => ([], 2)
  | some p =>
    let found := (linesOf input).zipIdx.filter fun l => p.matchesIn l.1 != flags.elem 118
    let status := if found.isEmpty then 1 else 0
    if flags.elem 113 then ([], status)
    else if flags.elem 99 then (Decimal.ofNat found.length ++ [10], status)
    else
      let shown := found.map fun l =>
        if flags.elem 110 then Decimal.ofNat (l.2 + 1) ++ [58] ++ l.1 else l.1
      (unlines shown, status)

/-- Lines without those that repeat the one before, or with their numbers. -/
def uniq (args : List Bytes) (input : Bytes) : Bytes :=
  let runs := (linesOf input).foldl
    (fun (rs : List (Bytes × Nat)) l =>
      match rs with
      | (last, n) :: rest => if last == l then (last, n + 1) :: rest else (l, 1) :: rs
      | [] => [(l, 1)]) []
  let flags := flagLetters args
  let kept := runs.reverse.filter fun r =>
    (!flags.elem 100 || 1 < r.2) && (!flags.elem 117 || r.2 == 1)
  unlines (kept.map fun r =>
    if flags.elem 99 then
      let n := Decimal.ofNat r.2
      List.replicate (7 - n.length) 32 ++ n ++ [32] ++ r.1
    else r.1)

/-! ## Editing lines -/

/-- The text that takes a match's place: an ampersand stands for the match, a numbered backslash
for a group. -/
def replacement (line : Bytes) (m : Pattern.Match) : Bytes → Bytes
  | 92 :: b :: rest =>
    let here :=
      if 48 ≤ b && b ≤ 57 then
        match m.group? (b.toNat - 48) with
        | some (first, last) => (line.take last).drop first
        | none => []
      else if b == 110 then [10]
      else [b]
    here ++ replacement line m rest
  | 38 :: rest => (line.take m.last).drop m.first ++ replacement line m rest
  | b :: rest => b :: replacement line m rest
  | [] => []

/-- Replace the first match in a line, or all of them; `fuel` bounds their number. -/
def substitute (p : Pattern) (new : Bytes) (every : Bool) : Nat → Bytes → Bytes
  | 0, line => line
  | fuel + 1, line =>
    match p.find line with
    | none => line
    | some m =>
      let here := line.take m.first ++ replacement line m new
      if !every then here ++ line.drop m.last
      else if m.first == m.last then
        match line.drop m.last with
        | [] => here
        | b :: rest => here ++ [b] ++ substitute p new every fuel rest
      else here ++ substitute p new every fuel (line.drop m.last)

/-- Up to a delimiter that no backslash precedes, and the rest. -/
def untilSlash (delimiter : UInt8) : Bytes → Bytes × Bytes
  | [] => ([], [])
  | 92 :: b :: rest =>
    let (inside, after) := untilSlash delimiter rest
    (if b == delimiter then b :: inside else 92 :: b :: inside, after)
  | b :: rest =>
    if b == delimiter then ([], rest)
    else
      let (inside, after) := untilSlash delimiter rest
      (b :: inside, after)

/-- What an editing command does with the lines it is for. -/
inductive Edit where
  | replace (p : Pattern) (new : Bytes) (every shown : Bool)
  | show
  | drop
  | stop

/-- The lines that an editing command is for. -/
inductive Place where
  | all
  | number (n : Nat)
  | last
  | matching (p : Pattern)

/-- Where an editing command applies, and the rest of it. -/
def readPlace (flags s : Bytes) : Option (Place × Bytes) :=
  let (digits, rest) := s.span Bytes.isDigit
  if !digits.isEmpty then some (.number (digitsValue digits), rest)
  else
    match s with
    | 36 :: rest => some (.last, rest)
    | 47 :: rest =>
      let (text, rest) := untilSlash 47 rest
      (expression? flags text).map fun p => (.matching p, rest)
    | _ => some (.all, s)

def readEdit (flags s : Bytes) : Option (Place × Edit) :=
  match readPlace flags (s.dropWhile isSpace) with
  | none => none
  | some (place, 115 :: delimiter :: rest) =>
    let (text, rest) := untilSlash delimiter rest
    let (new, options) := untilSlash delimiter rest
    let flags := if options.elem 105 || options.elem 73 then 105 :: flags else flags
    (expression? flags text).map fun p =>
      (place, .replace p new (options.elem 103) (options.elem 112))
  | some (place, [112]) => some (place, .show)
  | some (place, [100]) => some (place, .drop)
  | some (place, [113]) => some (place, .stop)
  | _ => none

def Place.covers (place : Place) (line : Bytes) (number : Nat) (isLast : Bool) : Bool :=
  match place with
  | .all => true
  | .number n => n == number
  | .last => isLast
  | .matching p => p.matchesIn line

/-- One line edited: what is printed of it and whether the work is done. -/
def editLine (quiet : Bool) (number : Nat) (isLast : Bool) :
    List (Place × Edit) → Bytes → List Bytes → List Bytes × Bool
  | [], line, shown => ((if quiet then shown else line :: shown).reverse, false)
  | (place, edit) :: rest, line, shown =>
    if !place.covers line number isLast then editLine quiet number isLast rest line shown
    else
      match edit with
      | .replace p new every again =>
        let changed := substitute p new every (line.length + 1) line
        let shown := if again && p.matchesIn line then changed :: shown else shown
        editLine quiet number isLast rest changed shown
      | .show => editLine quiet number isLast rest line (line :: shown)
      | .drop => (shown.reverse, false)
      | .stop => ((if quiet then shown else line :: shown).reverse, true)

def editLines (quiet : Bool) (edits : List (Place × Edit)) : Nat → List Bytes → List Bytes
  | _, [] => []
  | number, line :: rest =>
    let (shown, done) := editLine quiet number rest.isEmpty edits line []
    if done then shown else shown ++ editLines quiet edits (number + 1) rest

def sed (args : List Bytes) (input : Bytes) : Bytes :=
  let flags := flagLetters args
  let script := match optionValue 101 args with
    | some s => s
    | none => (plainWords args).headD []
  let edits := (Bytes.splitOn 59 script).filterMap (readEdit flags)
  unlines (editLines (flags.elem 110) edits 1 (linesOf input))

end Utility

end Shell

end SymbolHistory
