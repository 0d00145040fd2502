import Timebound.DeadCode
import Timebound.Folding
import Timebound.Guided.Pass
import Timebound.Program.Consistency
import Timebound.Report

/-!
# Optimization runs

A run sweeps over a list of passes until a sweep changes nothing or the allowed
number of sweeps is used up. A change is kept only if the certificate of the pass
accepts it, the program is still consistent, the analysis still succeeds and,
when bounds are to be preserved, no touched function became worse by more than
the allowed percentage. Otherwise the whole run fails.
-/

namespace Timebound

/-- How a run is to be done. -/
structure Settings where
  /-- The most sweeps over the passes. -/
  maxSweeps : Nat := 16
  /-- Whether the bounds of touched functions are watched. -/
  preserveBounds : Bool := true
  /-- The allowed growth of the bound of a touched function, in percent. -/
  maxDegradation : Float := 0.0
  /-- What the guided pass may do. -/
  tuning : Tuning := {}
  /-- Measured call frequencies. -/
  profile : Option Profile := none

/-- The growth of a bound in percent of the old one; growth from nothing is infinite. -/
def degradationPercent (old new : Nat) : Float :=
  if old = 0 then if new = 0 then 0.0 else Float.ofBits 0x7ff0000000000000
  else
    let before := old.toUInt64.toFloat
    let after := new.toUInt64.toFloat
    (after - before) / before * 100.0

/-- The failure of a function whose bound changed from one value to another. -/
def degradationFailure (function : String) (old new : Nat) : Failure :=
  .degradation function old new (degradationPercent old new)

/-- An optimized program with the statistics of the run. -/
structure Optimized where
  /-- The program. -/
  program : Program
  /-- The statistics. -/
  summary : RunSummary

/-- The passes of a run with its settings. -/
structure Optimizer where
  /-- How the run is to be done. -/
  settings : Settings
  /-- The passes, in order. -/
  passes : List Pass

/-- Where a run stands between two pass executions. -/
structure Stage where
  /-- The program. -/
  program : Program
  /-- Its analysis. -/
  analysis : Analysis

namespace Optimizer

/-- The optimizer with all passes: dead code elimination, literal folding and the
guided pass. -/
def standard (settings : Settings) : Optimizer :=
  ⟨settings, [DeadCode.pass, Folding.pass, Guided.pass settings.tuning]⟩

/-- The names of the passes. -/
def passNames (optimizer : Optimizer) : List String := optimizer.passes.map Pass.name

/-- The failure of the first touched function, in slot order, whose bound grew too much. -/
def degradation? (settings : Settings) (program : Program) (changes : Changes)
    (before after : Analysis) : Option Failure :=
  changes.functions.keys.findSome? fun id =>
    match before.bound? id, after.bound? id with
    | some old, some new =>
      if degradationPercent old new > settings.maxDegradation then
        some (degradationFailure (program.functionLabel id) old new)
      else none
    | _, _ => none

/-- Accept a change made by a pass: give the analysis of the changed program, or
the reason why the change is not kept. -/
def validate (settings : Settings) (pass : Pass) (before : Analysis) (execution : Execution) :
    Except Failure Analysis :=
  if !pass.certify execution.changes execution.program then
    .error (.determinism pass.name .certificateRejected)
  else match execution.program.fault? with
    | some error => .error (.determinism pass.name (.inconsistent error))
    | none => do
      let refreshed ← execution.program.analyze settings.profile
      if settings.preserveBounds then
        match degradation? settings execution.program execution.changes before refreshed with
        | some failure => .error failure
        | none => .ok refreshed
      else .ok refreshed

/-- What a turn of a pass leaves behind. -/
structure TurnResult where
  /-- The statistics of the pass. -/
  record : PassRecord
  /-- Whether a change was made and accepted. -/
  changed : Bool
  /-- Where the run stands. -/
  stage : Stage

/-- Give one pass its turn. -/
def turn (settings : Settings) (pass : Pass) (record : PassRecord) (stage : Stage) :
    Except Failure TurnResult :=
  if !pass.applicable record.runs stage.program stage.analysis then
    .ok ⟨{ record with skipped := record.skipped + 1 }, false, stage⟩
  else do
    let execution := pass.execute record.runs stage.program stage.analysis
    let counted := { record with runs := record.runs + 1 }
    let outcome ← execution.result
    if outcome.modified then
      let analysis ← validate settings pass stage.analysis execution
      .ok ⟨counted.note outcome, true, ⟨execution.program, analysis⟩⟩
    else .ok ⟨counted, false, { stage with program := execution.program }⟩

/-- What a sweep leaves behind. -/
structure SweepResult where
  /-- The statistics of the passes, in order. -/
  records : List PassRecord
  /-- The turns in which a change was made and accepted. -/
  changes : Nat
  /-- Where the run stands. -/
  stage : Stage

/-- Give every pass its turn. -/
def sweep (settings : Settings) : List (Pass × PassRecord) → Stage →
    Except Failure SweepResult
  | [], stage => .ok ⟨[], 0, stage⟩
  | (pass, record) :: rest, stage => do
    let first ← turn settings pass record stage
    let others ← sweep settings rest first.stage
    .ok ⟨first.record :: others.records, first.changed.toNat + others.changes, others.stage⟩

/-- Sweep until nothing changes or no sweep is left. -/
def sweeps (optimizer : Optimizer) : Nat → RunSummary → Stage →
    Except Failure (RunSummary × Stage)
  | 0, summary, stage => .ok (summary, stage)
  | left + 1, summary, stage => do
    let swept ← sweep optimizer.settings (optimizer.passes.zip summary.records) stage
    let updated := { summary with
      sweeps := summary.sweeps + 1
      modifications := summary.modifications + swept.changes
      records := swept.records }
    if swept.changes = 0 then .ok ({ updated with converged := true }, swept.stage)
    else optimizer.sweeps left updated swept.stage

/-- The bounds of an analysis by function name. -/
def boundsByName (stage : Stage) : Table String Nat :=
  Table.ofList <| stage.analysis.bounds.entries.filterMap fun entry =>
    (stage.program.function? entry.1).map fun function => (function.name, entry.2)

/-- Optimize a program. -/
def run (optimizer : Optimizer) (program : Program) : Except Failure Optimized :=
  match program.fault? with
  | some error => .error (.analysis error.subject (.inconsistent error))
  | none => do
    let analysis ← program.analyze optimizer.settings.profile
    let start : RunSummary := { records := optimizer.passNames.map fun name => { name } }
    let (summary, stage) ← optimizer.sweeps optimizer.settings.maxSweeps start ⟨program, analysis⟩
    .ok ⟨stage.program, { summary with bounds := boundsByName stage }⟩

end Optimizer

/-- Optimize a program with all passes. -/
def optimize (program : Program) (settings : Settings) : Except Failure Optimized :=
  (Optimizer.standard settings).run program

end Timebound
