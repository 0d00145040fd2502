import Timebound.Pass
import Timebound.Program.Edit

/-!
# Scripted passes

A script is a pass given as data: for each execution, the edits to make and the
report to give. It has work until its executions are used up, and its
certificate is a fixed answer.
-/

namespace Timebound

/-- One execution of a script. -/
structure ScriptedRun where
  /-- The edits to make, whatever they answer. -/
  edits : List Edit := []
  /-- The words to fail with after the edits. -/
  failure : Option String := none
  /-- The report otherwise given. -/
  modified : Bool := true
  cycleImpact : Int := 0
  sizeImpact : Int := 0
  counters : List (String × Nat) := []

/-- A pass given as data. -/
structure Script where
  name : String
  /-- The answer of the certificate. -/
  certified : Bool := true
  /-- The executions, in order. -/
  runs : List ScriptedRun := []

/-- The report of an execution. -/
def ScriptedRun.outcome (run : ScriptedRun) : Outcome :=
  run.counters.foldl (fun outcome counter => outcome.count counter.1 counter.2)
    { modified := run.modified, cycleImpact := run.cycleImpact, sizeImpact := run.sizeImpact }

/-- The pass of a script. -/
def Script.pass (script : Script) : Pass where
  name := script.name
  applicable earlier _ _ := earlier < script.runs.length
  transform earlier program _ := match script.runs[earlier]? with
    | none => (program, .ok {})
    | some run =>
      (program.editAll run.edits, match run.failure with
        | some reason => .error (.analysis "scripted" (.stated reason))
        | none => .ok run.outcome)
  certify _ _ := script.certified

end Timebound
