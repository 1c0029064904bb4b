/-
# Metrics -- counts of the work done, as exposition text

A project's metrics are counters, some of them split by a label, and a histogram
of the time each stage took.  A split counter exists for a label once it was
counted under it.  `Metrics.text` lists the families by name and the members of
a family by label.
-/
import SymbolHistory.Fault
import SymbolHistory.Binary64.Shortest

set_option autoImplicit false

namespace SymbolHistory

namespace Metrics

/-- Counts under a label, in label order. -/
abbrev Labeled (α : Type) := List (Bytes × α)

/-- Change the value under a label; a new label starts from `fresh`. -/
def Labeled.update {α : Type} (fresh : α) (label : Bytes) (f : α → α) : Labeled α → Labeled α
  | [] => [(label, f fresh)]
  | (l, a) :: rest =>
    match Bytes.order label l with
    | .lt => (label, f fresh) :: (l, a) :: rest
    | .eq => (l, f a) :: rest
    | .gt => (l, a) :: Labeled.update fresh label f rest

/-- Observed times: how many, their sum, and how many lie within each bound. -/
structure Histogram where
  count : Nat := 0
  sum : SignedBinary64 := .zero
  within : List Nat := List.replicate 10 0
  deriving Repr, DecidableEq

/-- The bounds of a histogram: a hundredth of a second, four times as much, and so on. -/
def bounds : List Binary64 :=
  (List.range 10).map fun (i : Nat) =>
    let start := Binary64.div 1 100
    ⟨start.mantissa, start.exponent + 2 * (i : Int)⟩

def Histogram.observe (seconds : SignedBinary64) (h : Histogram) : Histogram :=
  { count := h.count + 1
    sum := h.sum.add seconds
    within := List.zipWith (fun n b => if seconds.atMost b then n + 1 else n) h.within bounds }

end Metrics

structure Metrics where
  project : Bytes
  objectsWritten : Nat := 0
  objectsSkipped : Nat := 0
  symbolsWritten : Metrics.Labeled Nat := []
  tagFilesWritten : Nat := 0
  diffsWritten : Nat := 0
  diffRecords : Metrics.Labeled Nat := []
  tagsSkipped : Nat := 0
  stages : Metrics.Labeled Metrics.Histogram := []
  deriving Repr, DecidableEq

namespace Metrics

/-! ## Counting -/

/-- A content was stored, or was found to be there. -/
def objectWritten (created : Bool) (m : Metrics) : Metrics :=
  if created then { m with objectsWritten := m.objectsWritten + 1 }
  else { m with objectsSkipped := m.objectsSkipped + 1 }

/-- A symbol file with so many symbols of each kind was written. -/
def tagFileWritten (counts : List (Bytes × Nat)) (m : Metrics) : Metrics :=
  { m with
    tagFilesWritten := m.tagFilesWritten + 1
    symbolsWritten := counts.foldl (fun s c => s.update 0 c.1 (· + c.2)) m.symbolsWritten }

def diffWritten (added removed : Nat) (m : Metrics) : Metrics :=
  { m with
    diffsWritten := m.diffsWritten + 1
    diffRecords := (m.diffRecords.update 0 (lit "add") (· + added)).update 0 (lit "remove")
      (· + removed) }

def tagSkipped (m : Metrics) : Metrics := { m with tagsSkipped := m.tagsSkipped + 1 }

def observeStage (stage : Bytes) (seconds : SignedBinary64) (m : Metrics) : Metrics :=
  { m with stages := m.stages.update {} stage (·.observe seconds) }

/-- An amount to count: counters take no negative ones, and whole numbers as far as 53 bits
hold them. -/
def amount (n : Int) : Except Fault Nat :=
  if n < 0 then .error (.defect (lit "counter cannot decrease in value"))
  else .ok (Binary64.ofNat n.toNat).floor

/-- Labels hold text only. -/
def checkLabel (value : Bytes) : Except Fault Unit :=
  if Utf8.valid value then .ok ()
  else .error (.defect (lit "label value " ++ Quoted.quote value ++ lit " is not valid UTF-8"))

/-- Nothing counted yet for a project, whose name is a label of every metric. -/
def ofProject (project : Bytes) : Except Fault Metrics :=
  match checkLabel project with
  | .ok _ => .ok { project }
  | .error f =>
    .error (.defect (lit "descriptor Desc\x7bfqName: \"sourcedigger_objects_written_total\", help: \"Objects newly written to the object store.\", constLabels: \x7b\x7d, variableLabels: \x7b\x7d\x7d is invalid: " ++
      f.message))

/-! ## Text -/

/-- A label's value: backslashes, quotes and newlines are escaped. -/
def escape (s : Bytes) : Bytes :=
  s.flatMap fun b =>
    if b == 92 then [92, 92] else if b == 34 then [92, 34] else if b == 10 then [92, 110] else [b]

/-- One line: name, labels and value. -/
def sample (name : Bytes) (labels : List (Bytes × Bytes)) (value : Bytes) : Bytes :=
  let shown := labels.map fun l => l.1 ++ lit "=\"" ++ escape l.2 ++ lit "\""
  name ++ [123] ++ Bytes.join [44] shown ++ [125, 32] ++ value ++ [10]

/-- A family: its two comment lines and its samples; without samples it is not shown. -/
def family (name help : String) (type : String) (samples : Bytes → List Bytes) : Bytes :=
  let full := lit "sourcedigger_" ++ lit name
  let lines := samples full
  if lines.isEmpty then []
  else
    lit "# HELP " ++ full ++ [32] ++ lit help ++ [10] ++
    lit "# TYPE " ++ full ++ [32] ++ lit type ++ [10] ++ lines.flatten

def number (n : Nat) : Bytes := (Binary64.ofNat n).text

def Histogram.lines (labels : List (Bytes × Bytes)) (h : Histogram) (name : Bytes) : List Bytes :=
  let bucket := fun (bound : Bytes) (n : Nat) =>
    sample (name ++ lit "_bucket") (labels ++ [(lit "le", bound)]) (number n)
  List.zipWith (fun b n => bucket b.text n) bounds h.within ++
    [bucket (lit "+Inf") h.count, sample (name ++ lit "_sum") labels h.sum.text,
      sample (name ++ lit "_count") labels (number h.count)]

def text (m : Metrics) : Bytes :=
  let own := (lit "project", m.project)
  let plain := fun (n : Nat) (name : Bytes) => [sample name [own] (number n)]
  family "diff_records_total" "Diff records emitted." "counter"
    (fun name => m.diffRecords.map fun r => sample name [(lit "action", r.1), own] (number r.2)) ++
  family "diffs_written_total" "Version diffs written." "counter" (plain m.diffsWritten) ++
  family "objects_skipped_total" "Objects already present in the store." "counter"
    (plain m.objectsSkipped) ++
  family "objects_written_total" "Objects newly written to the object store." "counter"
    (plain m.objectsWritten) ++
  family "stage_duration_seconds" "Wall time of each pipeline stage." "histogram"
    (fun name => m.stages.flatMap fun s => s.2.lines [own, (lit "stage", s.1)] name) ++
  family "symbols_written_total" "Symbols written to per-object tag files." "counter"
    (fun name => m.symbolsWritten.map fun s => sample name [own, (lit "type", s.1)] (number s.2)) ++
  family "tag_files_written_total" "Per-object tag files written." "counter"
    (plain m.tagFilesWritten) ++
  family "tags_skipped_total" "Tags whose revision could not be resolved." "counter"
    (plain m.tagsSkipped)

end Metrics

end SymbolHistory
