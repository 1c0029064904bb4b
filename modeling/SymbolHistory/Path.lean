/-
# Path -- names of files

A path is a byte string; its meaning is a list of steps from the root or from
the working directory.  `clean` writes a path with the fewest steps that mean
the same, `join` puts one path below another.
-/
import SymbolHistory.Text.Bytes

set_option autoImplicit false

namespace SymbolHistory

namespace Path

/-- A slash, which separates steps. -/
def slash : UInt8 := 47

/-- The step that stays. -/
def here : Bytes := [46]

/-- The step to the parent. -/
def parent : Bytes := [46, 46]

def isAbsolute (p : Bytes) : Bool := p.head? == some slash

/-- The steps a path names; empty steps and steps that stay do not count. -/
def steps (p : Bytes) : List Bytes :=
  (Bytes.splitOn slash p).filter (fun s => !s.isEmpty && s != here)

/-- One more step on a walk, whose steps so far stand last first.  From the root there is no
way up. -/
def walk (rooted : Bool) (taken : List Bytes) (step : Bytes) : List Bytes :=
  if step == parent then
    match taken with
    | [] => if rooted then [] else [parent]
    | last :: before => if last == parent then parent :: taken else before
  else step :: taken

/-- The fewest steps that lead where `ss` leads. -/
def shortest (rooted : Bool) (ss : List Bytes) : List Bytes :=
  (ss.foldl (walk rooted) []).reverse

def ofSteps (rooted : Bool) (ss : List Bytes) : Bytes :=
  if rooted then slash :: Bytes.join [slash] ss
  else if ss.isEmpty then here
  else Bytes.join [slash] ss

def clean (p : Bytes) : Bytes :=
  let rooted := isAbsolute p
  ofSteps rooted (shortest rooted (steps p))

/-- The paths one below the other, cleaned.  Empty paths are passed over. -/
def join (ps : List Bytes) : Bytes :=
  let named := ps.filter (fun p => !p.isEmpty)
  if named.isEmpty then [] else clean (Bytes.join [slash] named)

/-- The text after the last slash and the text up to and with it. -/
def splitLast (p : Bytes) : Bytes × Bytes :=
  let (name, front) := p.reverse.span (· != slash)
  (front.reverse, name.reverse)

def base (p : Bytes) : Bytes :=
  if p.isEmpty then here
  else
    let trimmed := (p.reverse.dropWhile (· == slash)).reverse
    if trimmed.isEmpty then [slash] else (splitLast trimmed).2

/-- All but the last step of a path. -/
def dir (p : Bytes) : Bytes := clean (splitLast p).1

/-- The path up to each of its steps, the shortest first, the path itself last. -/
def ancestors (p : Bytes) : List Bytes :=
  let ends := p.zipIdx.filter fun b => b.1 == slash && b.2 != 0
  (ends.map fun b => p.take b.2) ++ [p]

end Path

end SymbolHistory
