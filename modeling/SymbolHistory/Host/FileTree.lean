/-
# Host.FileTree -- folders and files

A file tree says for each location whether there is a file with some content, a
folder, or nothing.  A location is the list of steps from the root, which is
always a folder.  `get?` is the view through which everything else is stated:
`get?_set` and `get?_erase` say what the two changes do to it.

`follow` walks to a location step by step and objects where a walk would: at the
first step that is missing, at the first that goes below a file, at a step whose
name is too long.
-/
import SymbolHistory.Fault
import SymbolHistory.Path

set_option autoImplicit false

namespace SymbolHistory

/-- Steps from the root. -/
abbrev Location := List Bytes

inductive Node where
  | file (content : Bytes) (executable : Bool)
  | folder
  deriving Repr, DecidableEq

def Node.isFolder : Node → Bool
  | folder => true
  | file .. => false

structure FileTree where
  nodes : List (Location × Node) := []
  deriving Repr, DecidableEq

namespace FileTree

def get? (t : FileTree) (l : Location) : Option Node :=
  if l = [] then some .folder else (t.nodes.find? (fun p => p.1 == l)).map (·.2)

def set (t : FileTree) (l : Location) (n : Node) : FileTree :=
  ⟨(l, n) :: t.nodes.filter (fun p => p.1 != l)⟩

def erase (t : FileTree) (l : Location) : FileTree := ⟨t.nodes.filter (fun p => p.1 != l)⟩

def eraseAll (t : FileTree) (l : Location) : FileTree :=
  ⟨t.nodes.filter (fun p => !l.isPrefixOf p.1)⟩

@[simp]
theorem get?_root (t : FileTree) : t.get? [] = some .folder := rfl

theorem find?_filter_other (nodes : List (Location × Node)) (l k : Location) (h : k ≠ l) :
    (nodes.filter (fun p => p.1 != l)).find? (fun p => p.1 == k) =
      nodes.find? (fun p => p.1 == k) := by
  induction nodes with
  | nil => rfl
  | cons p rest ih =>
    by_cases hp : p.1 = l
    · simp [hp, ih, show ¬l = k from fun e => h e.symm]
    · simp [hp, List.find?_cons, ih]

/-- After a change at `l`, `l` holds the new node and every other location what it held. -/
theorem get?_set (t : FileTree) (l k : Location) (n : Node) (hl : l ≠ []) :
    (t.set l n).get? k = if k = l then some n else t.get? k := by
  by_cases hk : k = l
  · subst hk
    simp [get?, set, hl]
  · by_cases h0 : k = []
    · simp [get?, h0, Ne.symm hl]
    · simp only [get?, h0, set, hk, if_false]
      have : (l == k) = false := by simpa using fun e => hk e.symm
      rw [List.find?_cons, this]
      simp only [find?_filter_other _ _ _ hk]

/-- After erasing `l`, nothing is there and every other location holds what it held. -/
theorem get?_erase (t : FileTree) (l k : Location) (hl : l ≠ []) :
    (t.erase l).get? k = if k = l then none else t.get? k := by
  by_cases hk : k = l
  · subst hk
    simp [get?, erase, hl]
  · by_cases h0 : k = []
    · simp [get?, h0, Ne.symm hl]
    · simp only [get?, h0, erase, hk, if_false]
      rw [find?_filter_other _ _ _ hk]

def maxName : Nat := 255

/-- Walk on from `done`, which has been reached. -/
def follow (t : FileTree) (done : Location) : Location → Except SystemError Node
  | [] => (t.get? done).elim (.error .noEntry) .ok
  | step :: rest =>
    match t.get? done with
    | none => .error .noEntry
    | some (.file ..) => .error .notDirectory
    | some .folder =>
      if maxName < step.length then .error .nameTooLong else t.follow (done ++ [step]) rest

/-- What is at a location, or why nothing can be found there. -/
def find (t : FileTree) (l : Location) : Except SystemError Node := t.follow [] l

/-- Whether something new can be put at a location: its parent must be a folder. -/
def admits (t : FileTree) (l : Location) : Except SystemError Unit :=
  match t.find l.dropLast with
  | .error e => .error e
  | .ok (.file ..) => .error .notDirectory
  | .ok .folder =>
    if maxName < (l.getLast?.getD []).length then .error .nameTooLong else .ok ()

/-- The names directly below a folder, in bytewise order, with what they name. -/
def children (t : FileTree) (l : Location) : List (Bytes × Node) :=
  let below := t.nodes.filterMap fun p =>
    if p.1.dropLast == l then p.1.getLast?.map (fun name => (name, p.2)) else none
  below.mergeSort (fun a b => Bytes.order a.1 b.1 != .gt)

/-- Everything below a location, in bytewise order of the paths that lead there. -/
def listing (t : FileTree) (l : Location) : List (Bytes × Node) :=
  let below := t.nodes.filterMap fun p =>
    if l.isPrefixOf p.1 && p.1 != l then
      some (Bytes.join [Path.slash] (p.1.drop l.length), p.2)
    else none
  below.mergeSort (fun a b => Bytes.order a.1 b.1 != .gt)

end FileTree

end SymbolHistory
