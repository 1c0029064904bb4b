/-
# Duration -- lengths of time as text

A duration is a number of nanoseconds within 64 signed bits.  Its text is a
sequence of decimal numbers with units, `1h30m0s`; `parse` reads any such
sequence, `format` writes the one with hours, minutes and seconds, or a single
smaller unit below one second.
-/
import SymbolHistory.Fault
import SymbolHistory.Binary64

set_option autoImplicit false

namespace SymbolHistory

structure Duration where
  nanoseconds : Int
  deriving Repr, DecidableEq

namespace Duration

/-- The units and their nanoseconds. -/
def unit? (u : Bytes) : Option Nat :=
  if u == lit "ns" then some 1
  else if u == lit "us" || u == lit "µs" || u == lit "μs" then some 1000
  else if u == lit "ms" then some 1000000
  else if u == lit "s" then some 1000000000
  else if u == lit "m" then some 60000000000
  else if u == lit "h" then some 3600000000000
  else none

def limit : Nat := Decimal.signedLimit

/-- Digits onto a value that must stay within the limit. -/
def wholeFrom (value : Nat) : Bytes → Option Nat
  | [] => some value
  | b :: rest =>
    if limit / 10 < value then none
    else
      let next := value * 10 + (b.toNat - 48)
      if limit < next then none else wholeFrom next rest

/-- Digits after the point: their value and the power of ten below it.  Digits that no longer fit
are passed over. -/
def fractionFrom (value scale : Nat) : Bytes → Nat × Nat
  | [] => (value, scale)
  | b :: rest =>
    if (limit - 1) / 10 < value then (value, scale)
    else
      let next := value * 10 + (b.toNat - 48)
      if limit < next then (value, scale) else fractionFrom next (scale * 10) rest

inductive Flaw where
  | malformed
  | noUnit
  | badUnit (u : Bytes)
  deriving Repr, DecidableEq

def Flaw.message (text : Bytes) : Flaw → Bytes
  | malformed => lit "time: invalid duration " ++ Quoted.quoteBytes text
  | noUnit => lit "time: missing unit in duration " ++ Quoted.quoteBytes text
  | badUnit u =>
    lit "time: unknown unit " ++ Quoted.quoteBytes u ++ lit " in duration " ++
      Quoted.quoteBytes text

def isNumberByte (b : UInt8) : Bool := b == 46 || Bytes.isDigit b

/-- One number with its unit, in nanoseconds. -/
def term (s : Bytes) : Except Flaw (Nat × Bytes) := do
  let (digits, rest) := s.span Bytes.isDigit
  let whole ← (wholeFrom 0 digits).elim (.error .malformed) .ok
  let (fraction, rest) :=
    match rest with
    | 46 :: more => more.span Bytes.isDigit
    | _ => ([], rest)
  if digits.isEmpty && fraction.isEmpty then throw .malformed
  let (u, rest) := rest.span (fun b => !isNumberByte b)
  if u.isEmpty then throw .noUnit
  let unit ← (unit? u).elim (.error (.badUnit u)) .ok
  if limit / unit < whole then throw .malformed
  let (f, scale) := fractionFrom 0 1 fraction
  let part := ((Binary64.ofNat f).mul (Binary64.div unit scale)).floor
  if limit < whole * unit + part then throw .malformed
  pure (whole * unit + part, rest)

def terms : Nat → Nat → Bytes → Except Flaw Nat
  | 0, _, _ => .error .malformed
  | fuel + 1, total, s =>
    match s with
    | [] => .ok total
    | b :: _ =>
      if !isNumberByte b then .error .malformed
      else do
        let (n, rest) ← term s
        if limit < total + n then throw .malformed
        terms fuel (total + n) rest

/-- Read a duration, or say what is wrong with the text. -/
def read (text : Bytes) : Except Flaw Duration := do
  let (negative, s) :=
    match text with
    | 45 :: rest => (true, rest)
    | 43 :: rest => (false, rest)
    | _ => (false, text)
  if s == lit "0" then pure ⟨0⟩
  else if s.isEmpty then throw .malformed
  else
    let n ← terms (s.length + 1) 0 s
    if negative then pure ⟨-(Int.ofNat n)⟩
    else if n < limit then pure ⟨Int.ofNat n⟩
    else throw .malformed

def parse (text : Bytes) : Except Fault Duration :=
  (read text).mapError fun flaw =>
    .during (lit "duration " ++ Quoted.quote text) (.other (flaw.message text))

/-- A fraction of `width` digits without the zeros at its end, with its point; nothing for zero. -/
def fractionText (width n : Nat) : Bytes :=
  let digits := Decimal.ofNat n
  let padded := List.replicate (width - digits.length) 48 ++ digits
  let kept := (padded.reverse.dropWhile (· == 48)).reverse
  if kept.isEmpty then [] else 46 :: kept

/-- `n` units of which `10 ^ width` make one, as a decimal. -/
def decimal (width n : Nat) : Bytes :=
  Decimal.ofNat (n / Nat.pow 10 width) ++ fractionText width (n % Nat.pow 10 width)

def formatNat (n : Nat) : Bytes :=
  if n == 0 then lit "0s"
  else if n < 1000 then Decimal.ofNat n ++ lit "ns"
  else if n < 1000000 then decimal 3 n ++ lit "µs"
  else if n < 1000000000 then decimal 6 n ++ lit "ms"
  else
    let seconds := n / 1000000000
    let tail := Decimal.ofNat (seconds % 60) ++ fractionText 9 (n % 1000000000) ++ lit "s"
    let minutes := seconds / 60
    if minutes == 0 then tail
    else
      let tail := Decimal.ofNat (minutes % 60) ++ lit "m" ++ tail
      if minutes / 60 == 0 then tail else Decimal.ofNat (minutes / 60) ++ lit "h" ++ tail

def format (d : Duration) : Bytes :=
  match d.nanoseconds with
  | .ofNat n => formatNat n
  | .negSucc n => 45 :: formatNat (n + 1)

end Duration

end SymbolHistory
