/-
# Glob -- matching paths with file patterns

A pattern becomes a `Matcher`.  Neighbouring parts are put together where one
test decides them; what remains is split at the part of the greatest fixed
width: the text is searched for that part, and the two sides have to match the
rest.  Widths are counted in characters, places in bytes.
-/
import SymbolHistory.Glob.Term

set_option autoImplicit false

namespace SymbolHistory

namespace Glob

/-- The separator of directories, which `?` and `*` do not match. -/
def separator : Nat := 47

inductive Matcher where
  | text (s : Bytes)
  | any
  | super
  | single
  | list (chars : List Nat) (negated : Bool)
  | range (low high : Nat) (negated : Bool)
  | nothing
  | anyOf (choices : List Matcher)
  /-- Parts of fixed width one after the other. -/
  | row (width : Nat) (parts : List Matcher)
  /-- All of the tests at once. -/
  | every (tests : List Matcher)
  | atLeast (n : Nat)
  | atMost (n : Nat)
  | has (needle : Bytes)
  | lacks (needle : Bytes)
  | startsWith (s : Bytes)
  | endsWith (s : Bytes)
  | bothEnds (s t : Bytes)
  /-- `s`, then text within a directory. -/
  | startsWithin (s : Bytes)
  /-- Text within a directory, then `s`. -/
  | endsWithin (s : Bytes)
  /-- A place where `value` is found and both sides match. -/
  | split (value : Matcher) (left right : Option Matcher)
  deriving Repr, Inhabited

/-! ## Places in texts -/

/-- How many bytes a character takes when written out. -/
def charWidth (code : Nat) : Nat := (Utf8.encode code).length

/-- The characters of a text with the byte offsets where they start. -/
def placed (s : Bytes) : List (Nat × Piece) :=
  ((Utf8.pieces s).foldl
    (fun (st : Nat × List (Nat × Piece)) p => (st.1 + p.bytes.length, (st.1, p) :: st.2))
    (0, [])).2.reverse

/-- Where `needle` first stands in `s`. -/
def indexOf (needle s : Bytes) : Option Nat := (Bytes.cut needle s).map (fun p => p.1.length)

def indexOfSeparator (s : Bytes) : Option Nat := s.findIdx? (· == 47)

def withinDirectory (s : Bytes) : Bytes := s.takeWhile (· != 47)

/-- Where characters start, and the end. -/
def starts (s : Bytes) : List Nat := (placed s).map Prod.fst ++ [s.length]

/-- Where characters would end if each took its written width. -/
def ends (s : Bytes) : List Nat := (placed s).map (fun p => p.1 + charWidth p.2.code)

/-- The first character of a kind, with its width. -/
def firstChar (ok : Nat → Bool) (s : Bytes) : Option (Nat × List Nat) :=
  ((placed s).find? (fun p => ok p.2.code)).map (fun p => (p.1, [charWidth p.2.code]))

/-- A text of at most one character, of a kind; the empty text counts as the replacement. -/
def oneChar (ok : Nat → Bool) (s : Bytes) : Bool :=
  match Utf8.pieces s with
  | [] => ok Utf8.replacement
  | [p] => ok p.code
  | _ => false

def inList (chars : List Nat) (negated : Bool) (c : Nat) : Bool := chars.contains c != negated

def inRange (low high : Nat) (negated : Bool) (c : Nat) : Bool :=
  (low ≤ c && c ≤ high) != negated

def merge (a b : List Nat) : List Nat := ((a ++ b).mergeSort (· ≤ ·)).eraseDups

/-- The ends of `t` found from the right in `s`, no two overlapping, leftmost first. -/
def endsOf (t : Bytes) : Nat → List Nat → Bytes → List Nat
  | 0, found, _ => found
  | fuel + 1, found, s =>
    match Bytes.cut t.reverse s.reverse with
    | none => found
    | some (_, front) => endsOf t fuel ((front.length + t.length) :: found) front.reverse

/-! ## Meaning of matchers -/

mutual

/-- The fixed number of characters a matcher takes, if it has one. -/
def Matcher.width? : Matcher → Option Nat
  | .text s => some (Utf8.pieces s).length
  | .single => some 1
  | .list _ _ => some 1
  | .range _ _ _ => some 1
  | .nothing => some 0
  | .anyOf ms => commonWidth none ms
  | .row n _ => some n
  | .split value left right =>
    match value.width?, optionWidth left, optionWidth right with
    | some v, some l, some r => some (l + v + r)
    | _, _, _ => none
  | _ => none

/-- The width that all choices share.  Choices without a width before the first that has one do
not count. -/
def commonWidth : Option Nat → List Matcher → Option Nat
  | w, [] => w
  | none, m :: rest => commonWidth m.width? rest
  | some w, m :: rest => if m.width? == some w then commonWidth (some w) rest else none

def optionWidth : Option Matcher → Option Nat
  | none => some 0
  | some m => m.width?

end

/-- The first byte of the `n`-th character of `s` ends the piece that a row hands to a part. -/
def rowCut (n : Nat) (s : Bytes) : Option Nat :=
  let offsets := (placed s).map Prod.fst
  if n == 0 then (if s.isEmpty then none else some ((offsets.getLast?).getD 0 + 1))
  else (offsets[n - 1]?).map (· + 1)

/-- Try the places where `value` is found, from `offset` on. -/
def splitLoop (locate : Bytes → Option (Nat × List Nat)) (left right : Bytes → Bool) (s : Bytes)
    (limit : Nat) : Nat → Nat → Bool
  | 0, _ => false
  | fuel + 1, offset =>
    if offset < limit then
      match locate ((s.drop offset).take (limit - offset)) with
      | none => false
      | some (index, widths) =>
        let start := offset + index
        if left (s.take start) && widths.reverse.any (fun w => right (s.drop (start + w))) then
          true
        else
          let step := ((Utf8.pieces ((s.drop start).take 4)).head?.map
            (fun p => p.bytes.length)).getD 0
          splitLoop locate left right s limit fuel (start + step)
    else false

mutual

def Matcher.accepts : Matcher → Bytes → Bool
  | .text t, s => s == t
  | .any, s => (indexOfSeparator s).isNone
  | .super, _ => true
  | .single, s => oneChar (· != separator) s
  | .list chars negated, s => oneChar (inList chars negated) s
  | .range low high negated, s => oneChar (inRange low high negated) s
  | .nothing, s => s.isEmpty
  | .anyOf ms, s => acceptsAny ms s
  | .row n ms, s => (Utf8.pieces s).length == n && acceptsRow ms s
  | .every ms, s => acceptsAll ms s
  | .atLeast n, s => n ≤ (Utf8.pieces s).length
  | .atMost n, s => (Utf8.pieces s).length ≤ n
  | .has needle, s => (indexOf needle s).isSome
  | .lacks needle, s => (indexOf needle s).isNone
  | .startsWith t, s => Bytes.startsWith t s
  | .endsWith t, s => Bytes.endsWith t s
  | .bothEnds t u, s => Bytes.startsWith t s && Bytes.endsWith u s
  | .startsWithin t, s =>
    Bytes.startsWith t s && (indexOfSeparator (s.drop t.length)).isNone
  | .endsWithin t, s =>
    Bytes.endsWith t s && (indexOfSeparator (s.take (s.length - t.length))).isNone
  | .split value left right, s =>
    let l := optionWidth left
    let r := optionWidth right
    let total := (Matcher.split value left right).width?
    if total.any (s.length < ·) then false
    else
      splitLoop value.locate (acceptsOption left) (acceptsOption right) s
        (s.length - r.getD 0) (s.length + 1) (l.getD 0)

def acceptsAny : List Matcher → Bytes → Bool
  | [], _ => false
  | m :: rest, s => m.accepts s || acceptsAny rest s

def acceptsAll : List Matcher → Bytes → Bool
  | [], _ => true
  | m :: rest, s => m.accepts s && acceptsAll rest s

/-- Each part takes its width from the front of the text. -/
def acceptsRow : List Matcher → Bytes → Bool
  | [], _ => true
  | m :: rest, s =>
    match rowCut (m.width?.getD 0) s with
    | none => false
    | some cut => m.accepts (s.take cut) && acceptsRow rest (s.drop cut)

/-- No matcher accepts only the empty text. -/
def acceptsOption : Option Matcher → Bytes → Bool
  | none, s => s.isEmpty
  | some m, s => m.accepts s

/-- The first place where the matcher may stand in a text, and how many bytes it may take. -/
def Matcher.locate : Matcher → Bytes → Option (Nat × List Nat)
  | .text t, s => (indexOf t s).map (fun i => (i, [t.length]))
  | .any, s => some (0, starts (withinDirectory s))
  | .super, s => some (0, starts s)
  | .single, s => firstChar (· != separator) s
  | .list chars negated, s => firstChar (inList chars negated) s
  | .range low high negated, s => firstChar (inRange low high negated) s
  | .nothing, _ => some (0, [0])
  | .anyOf ms, s => locateAny none ms s
  | .row n ms, s =>
    ((placed s).find? (fun p => n ≤ s.length - p.1 && acceptsRow ms (s.drop p.1))).map
      (fun p => (p.1, [n]))
  | .every ms, s => locateEvery none ms s
  | .atLeast n, s =>
    match (ends s).drop (n - 1) with
    | [] => none
    | found => some (0, found)
  | .atMost n, s => some (0, 0 :: (ends s).take n)
  | .has needle, s =>
    (indexOf needle s).map fun i =>
      let offset := i + needle.length
      (0, (starts (s.drop offset)).map (offset + ·))
  | .lacks needle, s =>
    some (0, starts ((indexOf needle s).elim s s.take))
  | .startsWith t, s =>
    (indexOf t s).map fun i =>
      (i, t.length :: (ends (s.drop (i + t.length))).map (t.length + ·))
  | .endsWith t, s => (indexOf t s).map (fun i => (0, [i + t.length]))
  | .bothEnds t u, s => do
    let i ← indexOf t s
    if u.isEmpty then pure (i, [s.length - i])
    else
      match endsOf u (s.length + 1) [] (s.drop i) with
      | [] => none
      | found => pure (i, found)
  | .startsWithin t, s =>
    (indexOf t s).map fun i =>
      (i, t.length :: (ends (withinDirectory (s.drop (i + t.length)))).map (t.length + ·))
  | .endsWithin t, s =>
    (indexOf t s).map fun i =>
      let within := ((s.take i).reverse.takeWhile (· != 47)).length
      (i - within, [within + t.length])
  | .split _ _ _, _ => none

/-- The leftmost place of any choice, with the widths of all choices found there. -/
def locateAny : Option (Nat × List Nat) → List Matcher → Bytes → Option (Nat × List Nat)
  | best, [], _ => best
  | best, m :: rest, s =>
    match m.locate s, best with
    | none, _ => locateAny best rest s
    | some found, none => locateAny (some found) rest s
    | some (i, widths), some (j, known) =>
      if i < j then locateAny (some (i, widths)) rest s
      else if j < i then locateAny best rest s
      else locateAny (some (j, merge known widths)) rest s

/-- Widths that all tests allow at the place of the last.  `best` holds the place and widths so
far, as offsets in the whole text. -/
def locateEvery : Option (Nat × List Nat) → List Matcher → Bytes → Option (Nat × List Nat)
  | best, [], _ => best
  | best, m :: rest, s =>
    match best with
    | none =>
      match m.locate s with
      | none => none
      | some found => locateEvery (some found) rest s
    | some (at_, widths) =>
      match m.locate (s.drop at_) with
      | none => none
      | some (i, allowed) =>
        let common := widths.filter (fun w => i ≤ w && allowed.contains (w - i))
        if common.isEmpty then none
        else locateEvery (some (at_ + i, common.map (· - i))) rest s

end

/-! ## From terms to matchers -/

/-- Which wild cards a run of parts holds. -/
structure Wild where
  any : Bool := false
  super : Bool := false
  least : Nat := 0
  excluded : Option (List Nat) := none

/-- One more part of a run; all have to exclude the same characters. -/
def Wild.add (w : Wild) (m : Matcher) : Option Wild :=
  let next : Option (Wild × List Nat) :=
    match m with
    | .super => some ({ w with super := true }, [])
    | .any => some ({ w with any := true }, [separator])
    | .single => some ({ w with least := w.least + 1 }, [separator])
    | .list chars true => some ({ w with least := w.least + 1 }, chars)
    | _ => none
  next.bind fun (w, excluded) =>
    match w.excluded with
    | none => some { w with excluded := some excluded }
    | some e => if e == excluded then some w else none

/-- A run of wild cards as one test. -/
def glueWild (ms : List Matcher) : Option Matcher := do
  let w ← ms.foldlM Wild.add {}
  let excluded := w.excluded.getD []
  if w.super && !w.any && w.least == 0 then pure .super
  else if w.any && !w.super && w.least == 0 then pure .any
  else
    let atLeast := if 0 < w.least then [Matcher.atLeast w.least] else []
    let atMost := if 0 < w.least && !w.any && !w.super then [Matcher.atMost w.least] else []
    let lacks := if excluded.isEmpty then [] else [Matcher.lacks (excluded.flatMap Utf8.encode)]
    pure (.every (atLeast ++ atMost ++ lacks))

/-- Parts of fixed width as one test. -/
def glueRow (ms : List Matcher) : Option Matcher := do
  let widths ← ms.mapM Matcher.width?
  pure (.row (widths.foldl (· + ·) 0) ms)

/-- Two or more parts as one test, if there is one. -/
def glue (ms : List Matcher) : Option Matcher :=
  if ms.length ≤ 1 then none else glueWild ms <|> glueRow ms

/-- A run that can be glued: where it starts, how many parts it takes, and the result. -/
structure Glued where
  start : Nat
  count : Nat
  result : Matcher

/-- A later run replaces an earlier one if it is longer or has the greater width. -/
def Glued.better (old new : Glued) : Bool :=
  (match old.result.width?, new.result.width? with
    | some a, some b => decide (a < b)
    | _, _ => false) || decide (old.count < new.count)

def bestRun (ms : List Matcher) : Option Glued :=
  let n := ms.length
  let runs := (List.range n).flatMap fun l => (List.range (n - l)).map fun k => (l, n - l - k)
  runs.foldl (fun best (l, count) =>
    match glue ((ms.drop l).take count) with
    | none => best
    | some result =>
      let new : Glued := ⟨l, count, result⟩
      match best with
      | none => some new
      | some old => if old.better new then some new else some old) none

def glueRuns : Nat → List Matcher → List Matcher
  | 0, ms => ms
  | fuel + 1, ms =>
    match bestRun ms with
    | none => ms
    | some g =>
      glueRuns fuel (ms.take g.start ++ g.result :: ms.drop (g.start + g.count))

/-- The part of the greatest fixed width, the last of several. -/
def pivot (ms : List Matcher) : Option Nat :=
  (ms.zipIdx.foldl (fun (best : Option (Nat × Nat)) (m, i) =>
    match m.width?, best with
    | none, _ => best
    | some w, none => some (w, i)
    | some w, some (v, _) => if v ≤ w then some (w, i) else best) none).map Prod.snd

def combine : Nat → List Matcher → Option Matcher
  | 0, _ => none
  | _, [] => none
  | _, [m] => some m
  | fuel + 1, m :: rest =>
    match glue (m :: rest) with
    | some g => some g
    | none =>
      match pivot (m :: rest) with
      | none => some (.split m none (combine fuel rest))
      | some i =>
        some (.split (((m :: rest)[i]?).getD .nothing) (combine fuel ((m :: rest).take i))
          (combine fuel ((m :: rest).drop (i + 1))))

/-- A split around a text whose sides are simple becomes one test. -/
def simplify : Matcher → Matcher
  | .split value left right =>
    let left := simplifyOption left
    let right := simplifyOption right
    match value, left, right with
    | .text t, none, none => .text t
    | .text t, some .super, some .super => .has t
    | .text t, some .super, none => .endsWith t
    | .text t, none, some .super => .startsWith t
    | .text t, none, some (.endsWith u) => .bothEnds t u
    | .text t, some (.startsWith u), none => .bothEnds u t
    | .text t, some .any, none => .endsWithin t
    | .text t, none, some .any => .startsWithin t
    | _, _, _ => .split value left right
  | .list [c] false => .text (Utf8.encode c)
  | .anyOf [m] => m
  | m => m
where
  simplifyOption : Option Matcher → Option Matcher
    | none => none
    | some m => some (simplify m)

/-- What is known about shared parts while they are counted from both ends. -/
structure Shared where
  left : Nat := 0
  right : Nat := 0
  leftOpen : Bool := true
  rightOpen : Bool := true

/-- Compare the parts `i` from the start and `i` from the end of the shortest choice with those
of another; the two counts do not cross. -/
def Shared.compare (shortest : List Term) (i : Nat) (s : Shared) (other : List Term) : Shared :=
  if !s.leftOpen && !s.rightOpen then s
  else
    let leftOpen := s.leftOpen && shortest[i]? == other[i]?
    let crossed := leftOpen && shortest.length ≤ 2 * i + 1
    let rightOpen := s.rightOpen && !crossed && shortest.reverse[i]? == other.reverse[i]?
    { s with leftOpen, rightOpen }

/-- Count shared parts from position `i` on. -/
def Shared.count (shortest : List Term) (others : List (List Term)) :
    Nat → Nat → Shared → Shared
  | 0, _, s => s
  | fuel + 1, i, s =>
    if s.left + s.right < shortest.length && (s.leftOpen || s.rightOpen) then
      let s := others.foldl (Shared.compare shortest i) s
      Shared.count shortest others fuel (i + 1)
        { s with left := if s.leftOpen then s.left + 1 else s.left,
                 right := if s.rightOpen then s.right + 1 else s.right }
    else s

/-- How many parts all choices share at their start, and how many more at their end. -/
def shared (choices : List (List Term)) : Nat × Nat :=
  if choices.length ≤ 1 then (0, 0)
  else
    let least := choices.foldl (fun n c => min n c.length) (choices.headD []).length
    let at_ := (choices.findIdx? (fun c => c.length == least)).getD 0
    let shortest := (choices[at_]?).getD []
    let s := Shared.count shortest (choices.eraseIdx at_) least 0 {}
    (s.left, s.right)

def partsOf? : Term → Option (List Term)
  | .sequence ps => some ps
  | _ => none

/-- What all choices share is taken out of the braces. -/
def factor (choices : List Term) : Option Term := do
  let parts ← choices.mapM partsOf?
  let (left, right) := shared parts
  if left == 0 && right == 0 then none
  else
    let rests := parts.map fun ps =>
      match (ps.drop left).take (ps.length - left - right) with
      | [] => Term.nothing
      | rest => Term.sequence rest
    let distinct : List Term := rests.foldl (fun seen t => if seen.contains t then seen else seen ++ [t]) []
    let first := parts.headD []
    let front := if left == 0 then [] else [Term.sequence (first.take left)]
    let middle :=
      match distinct with
      | [.nothing] => []
      | [t] => [t]
      | ts => [Term.anyOf ts]
    let back := if right == 0 then [] else [Term.sequence (first.drop (first.length - right))]
    pure (.sequence (front ++ middle ++ back))

def ofTerm : Nat → Term → Matcher
  | 0, _ => .nothing
  | fuel + 1, t =>
    match t with
    | .text s => .text s
    | .any => .any
    | .super => .super
    | .single => .single
    | .list chars negated => simplify (.list chars negated)
    | .range low high negated => .range low high negated
    | .nothing => .nothing
    | .anyOf choices =>
      match factor choices with
      | some t => ofTerm fuel t
      | none => .anyOf (choices.map (ofTerm fuel))
    | .sequence [] => .nothing
    | .sequence parts =>
      let ms := parts.map (ofTerm fuel)
      simplify ((combine (ms.length + 1) (glueRuns ms.length ms)).getD .nothing)

end Glob

structure Glob where
  matcher : Glob.Matcher
  deriving Repr

namespace Glob

def compile (text : Bytes) : Except Flaw Glob := do
  let t ← read text
  pure ⟨ofTerm (4 * text.length + 4) t⟩

def matchesPath (g : Glob) (path : Bytes) : Bool := g.matcher.accepts path

end Glob

end SymbolHistory
