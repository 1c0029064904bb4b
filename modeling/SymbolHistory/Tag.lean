/-
# Tag -- named versions and their order

A tag is a name for a commit.  `select` puts tags in order and, given a
pattern, keeps the first tag of every distinct key that the pattern finds in
the names.  `dropCollisions` keeps one of the tags whose diffs would share a
file.
-/
import SymbolHistory.NaturalOrder
import SymbolHistory.Pattern
import SymbolHistory.Fault

set_option autoImplicit false

namespace SymbolHistory

/-- A named version: its commit and the commit's time in seconds. -/
structure Tag where
  name : Bytes
  commit : Bytes := []
  time : Int := 0
  deriving Repr, DecidableEq

inductive TagOrder where
  | time
  | natural
  deriving Repr, DecidableEq

namespace TagOrder

def name : TagOrder → Bytes
  | time => lit "time"
  | natural => lit "natural"

/-- The order with a name in any case; no name means by time. -/
def ofName (s : Bytes) : Except Fault TagOrder :=
  let small := LetterCase.lowerText s
  if small.isEmpty || small == lit "time" then .ok time
  else if small == lit "natural" then .ok natural
  else .error (.other (lit "unknown tag order " ++ Quoted.quote s ++ lit " (want time or natural)"))

/-- `a` comes before `b`. -/
def before (o : TagOrder) (a b : Tag) : Bool :=
  let byName := NaturalOrder.orderStrict a.name b.name == .lt
  match o with
  | natural => byName
  | time => if a.time != b.time then decide (a.time < b.time) else byName

end TagOrder

namespace Tag

/-- Put `x` into tags that stand last first, after the last that it does not come before. -/
def insert (o : TagOrder) (x : Tag) : List Tag → List Tag
  | [] => [x]
  | y :: rest => if o.before x y then y :: insert o x rest else x :: y :: rest

/-- The tags in order; tags that neither comes before the other keep their places. -/
def sort (o : TagOrder) (tags : List Tag) : List Tag :=
  (tags.foldl (fun sorted t => insert o t sorted) []).reverse

/-- What a pattern finds in a name: its first group, or the whole match if it has no groups. -/
def key (p : Pattern) (name : Bytes) : Option Bytes := do
  let m ← p.find name
  let (first, last) ← if p.groups == 0 then some (m.first, m.last) else m.group? 1
  pure ((name.drop first).take (last - first))

/-- The tags with a key, the first of every key, given the keys already seen. -/
def firstOfKeys (key : Bytes → Option Bytes) : List Bytes → List Tag → List Tag
  | _, [] => []
  | seen, t :: rest =>
    match key t.name with
    | none => firstOfKeys key seen rest
    | some k =>
      if seen.contains k then firstOfKeys key seen rest
      else t :: firstOfKeys key (k :: seen) rest

/-- The tags in order, thinned out to one per key if there is a key. -/
def select (key : Option (Bytes → Option Bytes)) (o : TagOrder) (tags : List Tag) : List Tag :=
  match key with
  | none => sort o tags
  | some key => firstOfKeys key [] (sort o tags)

/-- The file name of a tag's diff: separators become hyphens. -/
def fileName (name : Bytes) : Bytes := name.map (fun b => if b == 47 || b == 92 then 45 else b)

/-- The tags whose diff files are new, and those that would share a file with an earlier tag,
given the file names already taken. -/
def splitCollisions : List Bytes → List Tag → List Tag × List Tag
  | _, [] => ([], [])
  | taken, t :: rest =>
    let file := fileName t.name
    if taken.contains file then
      let (kept, dropped) := splitCollisions taken rest
      (kept, t :: dropped)
    else
      let (kept, dropped) := splitCollisions (file :: taken) rest
      (t :: kept, dropped)

/-- The tags to keep and those to drop because an earlier one has the same diff file. -/
def dropCollisions (tags : List Tag) : List Tag × List Tag := splitCollisions [] tags

end Tag

end SymbolHistory
