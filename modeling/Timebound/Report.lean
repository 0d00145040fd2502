import Timebound.Pass
import Timebound.Sorting

/-!
# Run statistics

What happened in an optimization run: per pass, how often it was executed or
skipped, how many changes it made and their summed impact; for the run, the
sweeps, the changes, whether it settled, and the final bounds by name. The
report lists bounds by descending cycles, equal ones by name.
-/

namespace Timebound

/-- The statistics of one pass over a run. -/
structure PassRecord where
  /-- The name of the pass. -/
  name : String
  /-- Executions. -/
  runs : Nat := 0
  /-- Sweeps in which the pass had no work. -/
  skipped : Nat := 0
  /-- Executions that made a change. -/
  modifications : Nat := 0
  /-- The summed estimate of the change of cycles, a signed word. -/
  cycleImpact : Int := 0
  /-- The summed change of size. -/
  sizeImpact : Int := 0
  /-- The summed counts. -/
  counters : Table String Nat := .empty
  deriving DecidableEq

/-- The statistics of a run. -/
structure RunSummary where
  /-- Sweeps over all passes, the last one included. -/
  sweeps : Nat := 0
  /-- Changes of all passes. -/
  modifications : Nat := 0
  /-- Whether the last sweep changed nothing. -/
  converged : Bool := false
  /-- One record per pass, in the order of the passes. -/
  records : List PassRecord := []
  /-- The final bounds by function name. -/
  bounds : Table String Nat := .empty
  deriving DecidableEq

/-- The text of an integer that always shows its sign. -/
def signedText (n : Int) : String := if n < 0 then toString n else "+" ++ toString n

namespace PassRecord

/-- Note an execution that made a change. -/
def note (record : PassRecord) (outcome : Outcome) : PassRecord :=
  { record with
    modifications := record.modifications + 1
    cycleImpact := signedWord (record.cycleImpact + outcome.cycleImpact)
    sizeImpact := record.sizeImpact + outcome.sizeImpact
    counters := outcome.counters.entries.foldl (fun sums counter =>
      sums.alter counter.1 fun seen => some (seen.getD 0 + counter.2)) record.counters }

/-- The value of a summed count. -/
def counter (record : PassRecord) (name : String) : Nat := (record.counters.get? name).getD 0

/-- The text of a record: one line, and one more for each count. -/
def text (record : PassRecord) : String :=
  record.name ++ ": " ++ toString record.runs ++ " run(s), " ++ toString record.skipped ++
    " skipped, " ++ toString record.modifications ++ " modification(s), WCET " ++
    signedText record.cycleImpact ++ " cycles, size " ++ signedText record.sizeImpact ++ " nodes" ++
    String.join (record.counters.entries.map fun counter =>
      "\n      " ++ counter.1 ++ ": " ++ toString counter.2)

end PassRecord

namespace RunSummary

/-- The record of the first pass of a name. -/
def record? (summary : RunSummary) (name : String) : Option PassRecord :=
  summary.records.find? fun record => record.name == name

/-- The final bound of a function by name. -/
def bound? (summary : RunSummary) (name : String) : Option Nat := summary.bounds.get? name

/-- The report of a run; every line ends with a line break. -/
def text (summary : RunSummary) : String :=
  let head := [
    "Optimization Statistics:",
    "  Sweeps: " ++ toString summary.sweeps,
    "  Modifications: " ++ toString summary.modifications,
    "  Converged: " ++ if summary.converged then "yes" else "no"]
  let passes := if summary.records.isEmpty then []
    else "  Passes:" :: summary.records.map fun record => "    " ++ record.text
  let ranked := stableSort (fun a b => decide (b.2 ≤ a.2)) summary.bounds.entries
  let bounds := if ranked.isEmpty then []
    else "  WCET bounds:" :: ranked.map fun entry =>
      "    " ++ entry.1 ++ ": " ++ cyclesText entry.2
  String.join ((head ++ passes ++ bounds).map (· ++ "\n"))

end RunSummary

end Timebound
