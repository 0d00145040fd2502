import Timebound.Pass

/-!
# Dead code elimination

Removes the functions and globals that are not reachable. The certificate looks
at the program before the change: everything reachable there must still be
present and unchanged.
-/

namespace Timebound.DeadCode

/-- The cycles credited for each removed node. -/
def cyclesPerNode : Int := 2

/-- A removal in progress. -/
structure Removal where
  /-- The program without the entries removed so far. -/
  program : Program
  /-- Removed functions. -/
  functions : Nat := 0
  /-- Removed globals. -/
  globals : Nat := 0
  /-- Statements and expression nodes of the removed functions. -/
  nodes : Nat := 0

/-- Remove a function. -/
def Removal.dropFunction (removal : Removal) (id : FunctionId) : Removal :=
  match removal.program.removeFunction? id with
  | none => removal
  | some (function, program) =>
    { removal with
      program
      functions := removal.functions + 1
      nodes := removal.nodes + function.size }

/-- Remove a global. -/
def Removal.dropGlobal (removal : Removal) (id : GlobalId) : Removal :=
  match removal.program.removeGlobal? id with
  | none => removal
  | some (_, program) => { removal with program, globals := removal.globals + 1 }

/-- The functions that are not reachable, in slot order. -/
def deadFunctions (program : Program) : List FunctionId :=
  let live := program.reachable.functions
  program.functions.entries.map (·.1) |>.filter fun id => !live.contains id

/-- The globals that are not reachable, in slot order. -/
def deadGlobals (program : Program) : List GlobalId :=
  let live := program.reachable.globals
  program.globals.entries.map (·.1) |>.filter fun id => !live.contains id

/-- Remove everything that is not reachable. -/
def removeDead (program : Program) : Removal :=
  (deadGlobals program).foldl .dropGlobal
    ((deadFunctions program).foldl .dropFunction { program })

/-- The report of a removal. -/
def Removal.outcome (removal : Removal) : Outcome :=
  let report : Outcome := {
    modified := removal.functions + removal.globals != 0
    cycleImpact := signedWord (-(removal.nodes : Int) * cyclesPerNode)
    sizeImpact := -(removal.nodes : Int) }
  (report.count "functions_removed" removal.functions).count "globals_removed" removal.globals

/-- Whether fewer functions or globals are reachable than names are taken. -/
def hasWork (program : Program) (analysis : Analysis) : Bool :=
  analysis.reachable.functions.size < program.functions.count ||
    analysis.reachable.globals.size < program.globals.count

/-- Whether everything reachable before the changes is still there, unchanged. -/
def keepsReachable (changes : Changes) (after : Program) : Bool :=
  let before := (changes.viewBefore after).reachable
  let functionsKept := before.functions.keys.all fun id =>
    match changes.functionBefore? after id, after.function? id with
    | some pre, some post => !changes.touches id || pre == post
    | _, _ => false
  let globalsKept := before.globals.keys.all fun id =>
    match changes.globalBefore? after id, after.global? id with
    | some pre, some post => pre == post
    | _, _ => false
  functionsKept && globalsKept

/-- Dead code elimination as a pass. -/
def pass : Pass where
  name := "dead-code-elimination"
  applicable _ := hasWork
  transform _ program _ :=
    let removal := removeDead program
    (removal.program, .ok removal.outcome)
  certify := keepsReachable

end Timebound.DeadCode
