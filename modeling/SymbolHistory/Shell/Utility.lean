/-
# Shell.Utility -- small programs that scripts call

Each is a function of its arguments and its input: what it prints, or what
becomes of its input.
-/
import SymbolHistory.Path
import SymbolHistory.Text.Decimal

set_option autoImplicit false

namespace SymbolHistory

namespace Shell

namespace Utility

/-! ## Printing -/

def octalValue (s : Bytes) : Nat × Bytes :=
  let digits := (s.take 3).takeWhile (fun b => 48 ≤ b && b ≤ 55)
  (digits.foldl (fun n b => n * 8 + (b.toNat - 48)) 0, s.drop digits.length)

/-- A letter after a backslash that stands for a control character. -/
def controlByte? (b : UInt8) : Option UInt8 :=
  if b == 97 then some 7
  else if b == 98 then some 8
  else if b == 102 then some 12
  else if b == 110 then some 10
  else if b == 114 then some 13
  else if b == 116 then some 9
  else if b == 118 then some 11
  else if b == 92 then some 92
  else none

/-- Backslash escapes resolved, and whether `\c` ended the text.  Octal numbers start with a zero
if `zero`. -/
def unescape (zero : Bool) : Nat → Bytes → Bytes → Bytes × Bool
  | 0, done, s => (done.reverse ++ s, false)
  | fuel + 1, done, s =>
    match s with
    | [] => (done.reverse, false)
    | 92 :: 99 :: _ => (done.reverse, true)
    | 92 :: b :: rest =>
      match controlByte? b with
      | some c => unescape zero fuel (c :: done) rest
      | none =>
        if b == 48 && zero then
          let (n, rest) := octalValue rest
          unescape zero fuel (n.toUInt8 :: done) rest
        else if 48 ≤ b && b ≤ 55 && !zero then
          let (n, rest) := octalValue (b :: rest)
          unescape zero fuel (n.toUInt8 :: done) rest
        else if b == 34 && !zero then unescape zero fuel (b :: done) rest
        else unescape zero fuel (b :: 92 :: done) rest
    | b :: rest => unescape zero fuel (b :: done) rest

/-- The words with blanks between them, escapes resolved, and a newline unless `-n` comes first. -/
def echo (args : List Bytes) : Bytes :=
  let (newline, args) : Bytes × List Bytes :=
    match args with
    | first :: rest => if first == lit "-n" then ([], rest) else ([10], args)
    | [] => ([10], [])
  let text := Bytes.join [32] args
  let (out, cut) := unescape true (text.length + 1) [] text
  if cut then out else out ++ newline

/-- A conversion of a format: flags, width, precision and letter. -/
structure Conversion where
  left : Bool := false
  zeros : Bool := false
  plus : Bool := false
  width : Nat := 0
  precision : Option Nat := none
  letter : UInt8 := 0
  deriving Repr, DecidableEq

def digitsValue (s : Bytes) : Nat := s.foldl (fun n b => n * 10 + (b.toNat - 48)) 0

def readConversion (s : Bytes) : Conversion × Bytes :=
  let (flags, rest) := s.span (fun b => (lit "-0+ #").elem b)
  let (width, rest) := rest.span Bytes.isDigit
  let (precision, rest) :=
    match rest with
    | 46 :: rest =>
      let (digits, rest) := rest.span Bytes.isDigit
      (some (digitsValue digits), rest)
    | _ => (none, rest)
  ({ left := flags.elem 45, zeros := flags.elem 48, plus := flags.elem 43,
     width := digitsValue width, precision, letter := rest.headD 0 }, rest.drop 1)

def leadingInteger (s : Bytes) : Int :=
  let s := s.dropWhile (fun b => b == 32 || b == 9)
  match s with
  | 45 :: rest => - (digitsValue (rest.takeWhile Bytes.isDigit) : Int)
  | 43 :: rest => digitsValue (rest.takeWhile Bytes.isDigit)
  | 34 :: b :: _ => b.toNat
  | 39 :: b :: _ => b.toNat
  | _ => digitsValue (s.takeWhile Bytes.isDigit)

/-- Digits of a number in a base up to 16. -/
def inBase (base : Nat) : Nat → Nat → Bytes → Bytes
  | 0, _, done => done
  | fuel + 1, n, done =>
    let done := Bytes.hexDigit (n % base) :: done
    if n < base then done else inBase base fuel (n / base) done

def pad (c : Conversion) (body : Bytes) (numeric : Bool) : Bytes :=
  let gap := c.width - body.length
  if c.left then body ++ List.replicate gap 32
  else if c.zeros && numeric && c.precision.isNone then
    match body with
    | 45 :: rest => 45 :: (List.replicate gap 48 ++ rest)
    | _ => List.replicate gap 48 ++ body
  else List.replicate gap 32 ++ body

/-- One argument in a conversion, and whether it ends the output. -/
def convert (c : Conversion) (arg : Bytes) : Bytes × Bool :=
  let digitsOf := fun (n : Nat) (text : Bytes) =>
    (if n = 0 && c.precision == some 0 then [] else
      List.replicate ((c.precision.getD 0) - text.length) 48 ++ text : Bytes)
  let number := leadingInteger arg
  let wrapped := (number % (Decimal.unsignedLimit : Int)).toNat
  if c.letter == 115 then (pad c (arg.take (c.precision.getD arg.length)) false, false)
  else if c.letter == 98 then
    let (text, cut) := unescape true (arg.length + 1) [] arg
    (pad c (text.take (c.precision.getD text.length)) false, cut)
  else if c.letter == 99 then (pad c (arg.take 1) false, false)
  else if c.letter == 100 || c.letter == 105 then
    let body := digitsOf number.natAbs (Decimal.ofNat number.natAbs)
    let sign : Bytes := if number < 0 then [45] else if c.plus then [43] else []
    (pad c (sign ++ body) true, false)
  else if c.letter == 117 then (pad c (digitsOf wrapped (Decimal.ofNat wrapped)) true, false)
  else if c.letter == 120 then (pad c (digitsOf wrapped (inBase 16 17 wrapped [])) true, false)
  else if c.letter == 111 then (pad c (digitsOf wrapped (inBase 8 23 wrapped [])) true, false)
  else ([], true)

/-- A format with its arguments used up from the left: what is printed, the arguments left, and
whether the output ended. -/
def formatOnce : Nat → Bytes → List Bytes → Bytes → Bytes × List Bytes × Bool
  | 0, done, args, _ => (done, args, true)
  | fuel + 1, done, args, s =>
    match s with
    | [] => (done, args, false)
    | 37 :: 37 :: rest => formatOnce fuel (done ++ [37]) args rest
    | 37 :: rest =>
      let (c, rest) := readConversion rest
      let (text, cut) := convert c (args.headD [])
      if cut then (done ++ text, args, true) else formatOnce fuel (done ++ text) (args.drop 1) rest
    | b :: rest => formatOnce fuel (done ++ [b]) args rest

/-- The format again and again while it uses up arguments. -/
def formatAll (format : Bytes) : Nat → Bytes → List Bytes → Bytes
  | 0, done, _ => done
  | fuel + 1, done, args =>
    let (out, left, cut) := formatOnce (format.length + 1) [] args format
    if cut || left.isEmpty || left.length == args.length then done ++ out
    else formatAll format fuel (done ++ out) left

def printf (args : List Bytes) : Bytes :=
  match args with
  | [] => []
  | format :: args =>
    let (format, _) := unescape false (format.length + 1) [] format
    formatAll format (args.length + 1) [] args

/-! ## Filters -/

/-- The lines of a text; a missing last newline does not matter. -/
def linesOf (s : Bytes) : List Bytes := (Bytes.lines s).map (·.text)

def unlines (ls : List Bytes) : Bytes := ls.flatMap (· ++ [10])

/-- A range `a-b`, `a-`, `-b` or `a`, from 1. -/
def readRange (s : Bytes) : Nat × Nat :=
  match Bytes.cutByte 45 s with
  | none => (digitsValue s, digitsValue s)
  | some (a, b) =>
    (if a.isEmpty then 1 else digitsValue a, if b.isEmpty then Decimal.signedLimit else digitsValue b)

def inRanges (rs : List (Nat × Nat)) (i : Nat) : Bool := rs.any (fun r => r.1 ≤ i && i ≤ r.2)

/-- The items at some positions. -/
def pick {α : Type} (rs : List (Nat × Nat)) (items : List α) : List α :=
  (items.zipIdx.filter fun p => inRanges rs (p.2 + 1)).map (·.1)

/-- What an option is given, in the same word or the next. -/
def optionValue (letter : UInt8) : List Bytes → Option Bytes
  | [] => none
  | (45 :: b :: value) :: rest =>
    if b == letter then some (if value.isEmpty then rest.headD [] else value)
    else optionValue letter rest
  | _ :: rest => optionValue letter rest

def cut (args : List Bytes) (input : Bytes) : Bytes :=
  let ranges := fun (s : Bytes) => (Bytes.splitOn 44 s).map readRange
  let sep := ((optionValue 100 args).getD [9]).headD 9
  let line := fun (l : Bytes) =>
    match optionValue 99 args, optionValue 98 args, optionValue 102 args with
    | some s, _, _ => pick (ranges s) l
    | none, some s, _ => pick (ranges s) l
    | none, none, some s =>
      if l.elem sep then Bytes.join [sep] (pick (ranges s) (Bytes.splitOn sep l)) else l
    | none, none, none => l
  unlines ((linesOf input).map line)

def namedSet (name : Bytes) : List UInt8 :=
  let all := (List.range 256).map Nat.toUInt8
  let upper := fun (b : UInt8) => 65 ≤ b && b ≤ 90
  let lower := fun (b : UInt8) => 97 ≤ b && b ≤ 122
  if name == lit "upper" then all.filter upper
  else if name == lit "lower" then all.filter lower
  else if name == lit "alpha" then all.filter (fun b => upper b || lower b)
  else if name == lit "digit" then all.filter Bytes.isDigit
  else if name == lit "alnum" then all.filter (fun b => upper b || lower b || Bytes.isDigit b)
  else if name == lit "space" then [9, 10, 11, 12, 13, 32]
  else if name == lit "blank" then [9, 32]
  else []

/-- A set of bytes: ranges, named sets and escapes. -/
def readSet : Nat → Bytes → List UInt8
  | 0, _ => []
  | _ + 1, [] => []
  | fuel + 1, 91 :: 58 :: rest =>
    match Bytes.cut (lit ":]") rest with
    | some (name, rest) => namedSet name ++ readSet fuel rest
    | none => 91 :: readSet fuel (58 :: rest)
  | fuel + 1, 92 :: b :: rest =>
    if 48 ≤ b && b ≤ 55 then
      let (n, rest) := octalValue (b :: rest)
      n.toUInt8 :: readSet fuel rest
    else (controlByte? b).getD b :: readSet fuel rest
  | fuel + 1, a :: 45 :: b :: rest =>
    (List.range (b.toNat + 1 - a.toNat)).map (fun i => (a.toNat + i).toUInt8) ++ readSet fuel rest
  | fuel + 1, a :: rest => a :: readSet fuel rest

/-- A byte that repeats the one before it, if it is in a set, is left out. -/
def squeeze (set : List UInt8) : Option UInt8 → Bytes → Bytes → Bytes
  | _, done, [] => done.reverse
  | last, done, b :: rest =>
    if last == some b && set.elem b then squeeze set last done rest
    else squeeze set (some b) (b :: done) rest

def tr (args : List Bytes) (input : Bytes) : Bytes :=
  let (flags, sets) := args.span (fun a => 1 < a.length && a.head? == some 45)
  let has := fun (letter : UInt8) => flags.any (fun f => f.elem letter)
  let set := fun (s : Bytes) => readSet (s.length + 1) s
  let first := set (sets.headD [])
  let first := if has 99 then ((List.range 256).map Nat.toUInt8).filter (fun b => !first.elem b) else first
  let second := set ((sets.drop 1).headD [])
  if has 100 then
    let kept := input.filter (fun b => !first.elem b)
    if has 115 then squeeze second none [] kept else kept
  else if sets.length < 2 then
    if has 115 then squeeze first none [] input else input
  else
    let last := second.getLast?.getD 0
    let swap := fun (b : UInt8) =>
      match first.reverse.idxOf? b with
      | none => b
      | some i => second[first.length - 1 - i]?.getD last
    let out := input.map swap
    if has 115 then squeeze second none [] out else out

/-- The last step of a path, without a given ending. -/
def basename (args : List Bytes) : Bytes :=
  let name := Path.base (args.headD [])
  match args[1]? with
  | some ending => if name == ending then name else Bytes.withoutTail ending name
  | none => name

/-- How many lines or bytes a filter takes: `-n 3`, `-3` or `-c 3`. -/
def amount (args : List Bytes) : Bool × Nat :=
  match optionValue 99 args, optionValue 110 args with
  | some n, _ => (true, digitsValue n)
  | none, some n => (false, digitsValue (Bytes.withoutHead [45] n))
  | none, none =>
    match args.find? (fun a => a.head? == some 45 && (a.drop 1).all Bytes.isDigit && 1 < a.length) with
    | some a => (false, digitsValue (a.drop 1))
    | none => (false, 10)

def rawLines (ls : List Bytes.Line) : Bytes := ls.flatMap (·.raw)

def head (args : List Bytes) (input : Bytes) : Bytes :=
  let (bytes, n) := amount args
  if bytes then input.take n else rawLines ((Bytes.lines input).take n)

def tail (args : List Bytes) (input : Bytes) : Bytes :=
  let (bytes, n) := amount args
  if bytes then input.drop (input.length - n)
  else
    let ls := Bytes.lines input
    rawLines (ls.drop (ls.length - n))

def isSpace (b : UInt8) : Bool := b == 32 || (9 ≤ b && b ≤ 13)

def wordCount (s : Bytes) : Nat :=
  (s.foldl (fun (p : Nat × Bool) b =>
    if isSpace b then (p.1, false) else (if p.2 then p.1 else p.1 + 1, true)) (0, false)).1

/-- Counts of lines, words or bytes. -/
def wc (args : List Bytes) (input : Bytes) : Bytes :=
  let shown :=
    if args.contains (lit "-l") then [input.count 10]
    else if args.contains (lit "-c") then [input.length]
    else if args.contains (lit "-w") then [wordCount input]
    else [input.count 10, wordCount input, input.length]
  match shown with
  | [n] => Decimal.ofNat n ++ [10]
  | ns =>
    let column := fun (n : Nat) => List.replicate (7 - (Decimal.ofNat n).length) 32 ++ Decimal.ofNat n
    Bytes.join [32] (ns.map column) ++ [10]

def sort (args : List Bytes) (input : Bytes) : Bytes :=
  let flags := (args.filter (fun a => a.head? == some 45)).flatten
  let ls := Bytes.sort (linesOf input)
  let ls := if flags.elem 117 then ls.eraseDups else ls
  unlines (if flags.elem 114 then ls.reverse else ls)

def seq (args : List Bytes) : Bytes :=
  let ns := args.map leadingInteger
  let (first, step, last) : Int × Int × Int :=
    match ns with
    | [last] => (1, 1, last)
    | [first, last] => (first, 1, last)
    | [first, step, last] => (first, step, last)
    | _ => (1, 1, 0)
  if step ≤ 0 then []
  else
    unlines ((List.range ((last - first) / step + 1).toNat).map fun (i : Nat) =>
      Decimal.ofInt (first + step * i))

/-- A time to wait, in milliseconds: a decimal number of seconds, minutes, hours or days. -/
def milliseconds (s : Bytes) : Nat :=
  let (number, unit) := s.span (fun b => Bytes.isDigit b || b == 46)
  let (whole, fraction) := number.span Bytes.isDigit
  let thousandths := digitsValue ((fraction.drop 1 ++ [48, 48, 48]).take 3)
  let factor : Nat :=
    if unit == lit "m" then 60 else if unit == lit "h" then 3600 else if unit == lit "d" then 86400 else 1
  (digitsValue whole * 1000 + thousandths) * factor

end Utility

end Shell

end SymbolHistory
