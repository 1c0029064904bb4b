/-
# Timestamp -- moments as text

A moment is a number of seconds since 1970, a fraction in nanoseconds, and the
distance of the clock that shows it from universal time.  `format` writes date
and time with the zone; `parse` reads that form back.
-/
import SymbolHistory.Text.Decimal

set_option autoImplicit false

namespace SymbolHistory

/-- A moment as shown by a clock `offset` seconds east of universal time. -/
structure Timestamp where
  seconds : Int
  nanoseconds : Nat := 0
  offset : Int := 0
  deriving Repr, DecidableEq

namespace Timestamp

structure Day where
  year : Int
  month : Nat
  day : Nat
  deriving Repr, DecidableEq

def isLeap (year : Int) : Bool := year % 4 == 0 && (year % 100 != 0 || year % 400 == 0)

def monthLength (year : Int) (month : Nat) : Nat :=
  if month == 2 then (if isLeap year then 29 else 28)
  else if month == 4 || month == 6 || month == 9 || month == 11 then 30
  else 31

/-- Days from 1970-01-01; years are counted from March so that leap days come last. -/
def Day.number (d : Day) : Int :=
  let y := if d.month ≤ 2 then d.year - 1 else d.year
  let era := Int.fdiv y 400
  let yearOfEra := y - era * 400
  let shifted : Int := if d.month ≤ 2 then d.month + 9 else d.month - 3
  let dayOfYear := (153 * shifted + 2) / 5 + d.day - 1
  let dayOfEra := yearOfEra * 365 + yearOfEra / 4 - yearOfEra / 100 + dayOfYear
  era * 146097 + dayOfEra - 719468

def Day.ofNumber (n : Int) : Day :=
  let z := n + 719468
  let era := Int.fdiv z 146097
  let dayOfEra := z - era * 146097
  let yearOfEra := (dayOfEra - dayOfEra / 1460 + dayOfEra / 36524 - dayOfEra / 146096) / 365
  let dayOfYear := dayOfEra - (365 * yearOfEra + yearOfEra / 4 - yearOfEra / 100)
  let shifted := (5 * dayOfYear + 2) / 153
  let day := dayOfYear - (153 * shifted + 2) / 5 + 1
  let month := if shifted < 10 then shifted + 3 else shifted - 9
  let year := yearOfEra + era * 400
  ⟨if month ≤ 2 then year + 1 else year, month.toNat, day.toNat⟩

/-- The moment before all files: the first of January of the year 1. -/
def zero : Timestamp := ⟨-62135596800, 0, 0⟩

/-- A number with at least `width` digits. -/
def padded (width n : Nat) : Bytes :=
  let digits := Decimal.ofNat n
  List.replicate (width - digits.length) 48 ++ digits

/-- The fraction of a second without zeros at its end. -/
def fractionText (n : Nat) : Bytes :=
  let kept := ((padded 9 n).reverse.dropWhile (· == 48)).reverse
  if n == 0 then [] else 46 :: kept

def zoneText (offset : Int) : Bytes :=
  if offset == 0 then lit "Z"
  else
    let minutes := offset.natAbs / 60
    (if offset < 0 then lit "-" else lit "+") ++ padded 2 (minutes / 60) ++ lit ":" ++
      padded 2 (minutes % 60)

/-- Date, time and zone. -/
def format (t : Timestamp) : Bytes :=
  let s := t.seconds + t.offset
  let day := Day.ofNumber (Int.fdiv s 86400)
  let rest := (Int.fmod s 86400).toNat
  (if day.year < 0 then [45] else []) ++ padded 4 day.year.natAbs ++ lit "-" ++ padded 2 day.month ++ lit "-" ++ padded 2 day.day ++
    lit "T" ++ padded 2 (rest / 3600) ++ lit ":" ++ padded 2 (rest / 60 % 60) ++ lit ":" ++
    padded 2 (rest % 60) ++ fractionText t.nanoseconds ++ zoneText t.offset

/-- The same moment on a clock that shows universal time. -/
def utc (t : Timestamp) : Timestamp := { t with offset := 0 }

/-- Exactly `n` digits. -/
def digits (n : Nat) (s : Bytes) : Option (Nat × Bytes) :=
  let front := s.take n
  if front.length == n && front.all Bytes.isDigit then
    some (front.foldl (fun v b => v * 10 + (b.toNat - 48)) 0, s.drop n)
  else none

def readDay (s : Bytes) : Option (Day × Bytes) := do
  let (year, s) ← digits 4 s
  let s ← Bytes.after? (lit "-") s
  let (month, s) ← digits 2 s
  let s ← Bytes.after? (lit "-") s
  let (day, s) ← digits 2 s
  if 1 ≤ month && month ≤ 12 && 1 ≤ day && day ≤ monthLength year month then
    pure (⟨year, month, day⟩, s)
  else none

/-- A time of day in seconds and nanoseconds.  Seconds may be left out if `short` is set. -/
def readClock (short : Bool) (s : Bytes) : Option (Nat × Nat × Bytes) := do
  let (hour, s) ← digits 2 s
  let s ← Bytes.after? (lit ":") s
  let (minute, s) ← digits 2 s
  if hour > 23 || minute > 59 then none
  match Bytes.after? (lit ":") s with
  | none => if short then pure (hour * 3600 + minute * 60, 0, s) else none
  | some s =>
    let (second, s) ← digits 2 s
    if second > 59 then none
    let whole := hour * 3600 + minute * 60 + second
    match s with
    | 46 :: more =>
      let (fraction, rest) := more.span Bytes.isDigit
      if fraction.isEmpty then none
      let nine := (fraction ++ List.replicate 9 48).take 9
      pure (whole, nine.foldl (fun v b => v * 10 + (b.toNat - 48)) 0, rest)
    | _ => pure (whole, 0, s)

/-- A zone: `Z` or a distance in hours and minutes. -/
def readZone (s : Bytes) : Option (Int × Bytes) :=
  match s with
  | 90 :: rest => some (0, rest)
  | sign :: more =>
    if sign == 43 || sign == 45 then do
      let (hours, s) ← digits 2 more
      let s ← Bytes.after? (lit ":") s
      let (minutes, s) ← digits 2 s
      if hours > 24 || minutes > 59 then none
      else
        let n : Int := hours * 3600 + minutes * 60
        pure (if sign == 45 then -n else n, s)
    else none
  | [] => none

def ofParts (day : Day) (clock nanoseconds : Nat) (offset : Int) : Timestamp :=
  ⟨day.number * 86400 + clock - offset, nanoseconds, offset⟩

/-- Read date, time and zone. -/
def parse (s : Bytes) : Option Timestamp := do
  let (day, s) ← readDay s
  let s ← Bytes.after? (lit "T") s
  let (clock, nanos, s) ← readClock false s
  let (offset, s) ← readZone s
  if s.isEmpty then pure (ofParts day clock nanos offset) else none

end Timestamp

end SymbolHistory
