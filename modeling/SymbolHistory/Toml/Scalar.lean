/-
# Toml.Scalar -- reading single values

Texts in four kinds of quotes, whole numbers in four bases, decimal fractions,
truth values and moments.  Every reader takes the text from its first byte and
gives back what follows the value.
-/
import SymbolHistory.Text.Utf8
import SymbolHistory.Toml.Value

set_option autoImplicit false

namespace SymbolHistory

namespace Toml

/-- Control characters that no text may hold; the tab is allowed. -/
def isControl (b : UInt8) : Bool := (b < 32 && b != 9) || b == 127

/-- A whole number in a base from digits with single underscores between them. -/
def digitsIn (base : Nat) (s : Bytes) : Option Nat :=
  let pieces := Bytes.splitOn 95 s
  if pieces.any List.isEmpty then none
  else
    pieces.flatten.foldlM (fun n b =>
      match Bytes.hexValue? b with
      | some d => if d < base then some (n * base + d) else none
      | none => none) 0

/-- `n` hexadecimal digits as a character. -/
def hexChar (n : Nat) (s : Bytes) : Option (Bytes × Bytes) := do
  let front := s.take n
  if front.length != n then none
  let digits ← front.mapM Bytes.hexValue?
  let code := digits.foldl (fun v d => v * 16 + d) 0
  if (0xD800 ≤ code && code ≤ 0xDFFF) || 0x10FFFF < code then none
  pure (Utf8.encode code, s.drop n)

/-- What a backslash and the byte after it stand for. -/
def unescape (b : UInt8) (rest : Bytes) : Option (Bytes × Bytes) :=
  if b == 98 then some ([8], rest)
  else if b == 116 then some ([9], rest)
  else if b == 110 then some ([10], rest)
  else if b == 102 then some ([12], rest)
  else if b == 114 then some ([13], rest)
  else if b == 101 then some ([27], rest)
  else if b == 34 then some ([34], rest)
  else if b == 92 then some ([92], rest)
  else if b == 120 then hexChar 2 rest
  else if b == 117 then hexChar 4 rest
  else if b == 85 then hexChar 8 rest
  else none

/-- The rest of a text in double quotes; `out` holds what was read, last byte first. -/
def basicText : Nat → Bytes → Bytes → Option (Bytes × Bytes)
  | 0, _, _ => none
  | fuel + 1, out, s =>
    match s with
    | [] => none
    | 34 :: rest => some (out.reverse, rest)
    | 92 :: b :: rest => do
      let (bytes, rest) ← unescape b rest
      basicText fuel (bytes.reverse ++ out) rest
    | b :: rest => if isControl b then none else basicText fuel (b :: out) rest

def literalText (s : Bytes) : Option (Bytes × Bytes) := do
  let (text, rest) ← Bytes.cutByte 39 s
  if text.any isControl then none
  pure (text, rest)

/-- A newline, in either style. -/
def newline? (s : Bytes) : Option Bytes :=
  match s with
  | 10 :: rest => some rest
  | 13 :: 10 :: rest => some rest
  | _ => none

/-- The quotes that end a text of several lines: up to two more may belong to the text. -/
def closingQuotes (quote : UInt8) (s : Bytes) : Option (Bytes × Bytes) :=
  let run := s.takeWhile (· == quote)
  if run.length < 3 then none
  else
    let n := min run.length 5
    some (List.replicate (n - 3) quote, s.drop n)

/-- After a backslash at the end of a line, blanks and newlines are passed over. -/
def skipBlank (s : Bytes) : Bytes := s.dropWhile (fun b => b == 32 || b == 9 || b == 10 || b == 13)

def basicLines : Nat → Bytes → Bytes → Option (Bytes × Bytes)
  | 0, _, _ => none
  | fuel + 1, out, s =>
    match closingQuotes 34 s with
    | some (more, rest) => some (out.reverse ++ more, rest)
    | none =>
      match s with
      | [] => none
      | 92 :: rest =>
        let blanks := rest.dropWhile (fun b => b == 32 || b == 9)
        if (newline? blanks).isSome then basicLines fuel out (skipBlank blanks)
        else
          match rest with
          | [] => none
          | b :: rest => do
            let (bytes, rest) ← unescape b rest
            basicLines fuel (bytes.reverse ++ out) rest
      | 13 :: 10 :: rest => basicLines fuel (10 :: out) rest
      | b :: rest =>
        if isControl b && b != 10 then none else basicLines fuel (b :: out) rest

def literalLines : Nat → Bytes → Bytes → Option (Bytes × Bytes)
  | 0, _, _ => none
  | fuel + 1, out, s =>
    match closingQuotes 39 s with
    | some (more, rest) => some (out.reverse ++ more, rest)
    | none =>
      match s with
      | [] => none
      | 13 :: 10 :: rest => literalLines fuel (10 :: out) rest
      | b :: rest =>
        if isControl b && b != 10 then none else literalLines fuel (b :: out) rest

def text (s : Bytes) : Option (Bytes × Bytes) :=
  let fuel := s.length + 1
  match s with
  | 34 :: 34 :: 34 :: rest => basicLines fuel [] ((newline? rest).getD rest)
  | 39 :: 39 :: 39 :: rest => literalLines fuel [] ((newline? rest).getD rest)
  | 34 :: rest => basicText fuel [] rest
  | 39 :: rest => literalText rest
  | _ => none

/-- A decimal whole number without superfluous zeros. -/
def decimalDigits (s : Bytes) : Option Nat :=
  match s with
  | 48 :: _ :: _ => none
  | _ => if s.all (fun b => Bytes.isDigit b || b == 95) then digitsIn 10 s else none

/-- A whole number that fits 64 signed bits. -/
def fitting (n : Int) : Option Value :=
  if -(Decimal.signedLimit : Int) ≤ n && n < (Decimal.signedLimit : Int) then some (.integer n) else none

def integer (s : Bytes) : Option Value :=
  match s with
  | 48 :: 120 :: d => (digitsIn 16 d).bind (fun n => fitting n)
  | 48 :: 111 :: d => (digitsIn 8 d).bind (fun n => fitting n)
  | 48 :: 98 :: d => (digitsIn 2 d).bind (fun n => fitting n)
  | 45 :: d => (decimalDigits d).bind (fun n => fitting (-(Int.ofNat n)))
  | 43 :: d => (decimalDigits d).bind (fun n => fitting n)
  | _ => (decimalDigits s).bind (fun n => fitting n)

/-- The whole part, fraction and exponent of a decimal number have the right form. -/
def isFloat (s : Bytes) : Bool :=
  let s := match s with
    | 45 :: rest => rest
    | 43 :: rest => rest
    | _ => s
  if s == lit "inf" || s == lit "nan" then true
  else
    let (front, exponent) := s.span (fun b => b != 101 && b != 69)
    let (whole, fraction) := front.span (· != 46)
    let fractionOk :=
      match fraction with
      | [] => true
      | _ :: d => d.all (fun b => Bytes.isDigit b || b == 95) && (digitsIn 10 d).isSome
    let exponentOk :=
      match exponent with
      | [] => true
      | _ :: 45 :: d => d.all (fun b => Bytes.isDigit b || b == 95) && (digitsIn 10 d).isSome
      | _ :: 43 :: d => d.all (fun b => Bytes.isDigit b || b == 95) && (digitsIn 10 d).isSome
      | _ :: d => d.all (fun b => Bytes.isDigit b || b == 95) && (digitsIn 10 d).isSome
    (decimalDigits whole).isSome && fractionOk && exponentOk &&
      !(fraction.isEmpty && exponent.isEmpty)

/-- A moment, a date or a time of day.  What lacks a date or a zone gets the first of its kind. -/
def moment (s : Bytes) : Option Timestamp :=
  match Timestamp.readDay s with
  | some (day, []) => some (Timestamp.ofParts day 0 0 0)
  | some (day, sep :: rest) =>
    if sep == 84 || sep == 116 || sep == 32 then do
      let (clock, nanos, rest) ← Timestamp.readClock true rest
      if rest.isEmpty then pure (Timestamp.ofParts day clock nanos 0)
      else
        let zone := if rest == [122] then [90] else rest
        let (offset, rest) ← Timestamp.readZone zone
        if rest.isEmpty then pure (Timestamp.ofParts day clock nanos offset) else none
    else none
  | none => do
    let (clock, nanos, rest) ← Timestamp.readClock true s
    if rest.isEmpty then pure (Timestamp.ofParts ⟨0, 1, 1⟩ clock nanos 0) else none

/-- Bytes that end a value without quotes. -/
def endsWord (b : UInt8) : Bool :=
  b == 32 || b == 9 || b == 10 || b == 13 || b == 35 || b == 44 || b == 93 || b == 125

/-- A value without quotes.  One blank between date and time belongs to it. -/
def word (s : Bytes) : Option (Value × Bytes) :=
  let (front, rest) := s.span (fun b => !endsWord b)
  let (front, rest) :=
    match rest with
    | 32 :: d :: more =>
      if (Timestamp.readDay front).any (fun (p : Timestamp.Day × Bytes) => p.2.isEmpty) && Bytes.isDigit d then
        let (clock, rest) := (d :: more).span (fun b => !endsWord b)
        (front ++ 32 :: clock, rest)
      else (front, rest)
    | _ => (front, rest)
  let value : Option Value :=
    if front == lit "true" then some (.boolean true)
    else if front == lit "false" then some (.boolean false)
    else
      integer front <|> (if isFloat front then some (.float front) else none) <|>
        (moment front).map .moment
  value.map (fun v => (v, rest))

end Toml

end SymbolHistory
