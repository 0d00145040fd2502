import Timebound.Guided.BranchOrder
import Timebound.Guided.Inlining
import Timebound.Guided.LoadGrouping
import Timebound.Guided.Unrolling
import Timebound.Pass

/-!
# Optimization along critical paths

The guided pass changes only functions on critical paths, since no other change
can lower the bound of a root. For each of them, in slot order, it expands hot
calls, unrolls short loops, puts likely arms first and groups loads. A new body is
kept only if it differs and both the old and the new one have an effect trace.
The certificate compares the traces of touched functions before and after.
-/

namespace Timebound

/-- What the guided pass may do. -/
structure Tuning where
  /-- Unroll loops. -/
  unroll : Bool := true
  /-- The most iterations of a loop that is unrolled. -/
  unrollThreshold : Nat := 8
  /-- Expand calls. -/
  inline : Bool := true
  /-- A call is hot when it is more frequent than this. -/
  inlineFrequency : Nat := 4
  /-- The most nodes of a function that calls are replaced by. -/
  maxInlineSize : Nat := 64
  /-- Put likely arms first. -/
  reorderBranches : Bool := true
  /-- Group loads. -/
  groupLoads : Bool := true
  deriving DecidableEq

namespace Tuning

/-- Everything switched off. -/
def off : Tuning :=
  { unroll := false, inline := false, reorderBranches := false, groupLoads := false }

/-- Whether anything is switched on. -/
def isActive (tuning : Tuning) : Bool :=
  tuning.unroll || tuning.inline || tuning.reorderBranches || tuning.groupLoads

end Tuning

namespace Guided

/-- A new body for a function, with what was done to get it. -/
structure Redraft where
  /-- The new body. -/
  body : Block
  /-- The number that the next call site expanded in the function gets. -/
  inlineSites : Nat
  /-- Expanded calls. -/
  inlined : Nat := 0
  /-- Unrolled loops. -/
  unrolled : Nat := 0
  /-- Reordered branches. -/
  reordered : Nat := 0
  /-- Regrouped loads. -/
  grouped : Nat := 0

/-- The callees of hot edges out of a function. -/
def hotCallees (tuning : Tuning) (analysis : Analysis) (id : FunctionId) :
    OrderedSet FunctionId :=
  let edges := analysis.paths.flatMap CriticalPath.edges
  OrderedSet.ofList <| edges.filterMap fun (caller, callee, frequency) =>
    if caller = id ∧ tuning.inlineFrequency < frequency then some callee else none

/-- Expand hot calls. -/
def Redraft.inline (draft : Redraft) (find : FunctionId → Option Inlinable) : Redraft :=
  let expanded := Block.inline find draft.body draft.inlineSites
  { draft with
    body := expanded.body
    inlineSites := expanded.next
    inlined := expanded.count }

/-- Unroll short loops. -/
def Redraft.unroll (draft : Redraft) (limit : Nat) (function : Function) : Redraft :=
  let counters := function.privateCounters draft.body
  { draft with
    body := Block.unroll limit counters draft.body
    unrolled := Block.unrollCount limit counters draft.body }

/-- Put likely arms first. -/
def Redraft.reorder (draft : Redraft) : Redraft :=
  { draft with
    body := Block.reorder draft.body
    reordered := Block.reorderCount draft.body }

/-- Group loads. -/
def Redraft.group (draft : Redraft) : Redraft :=
  { draft with
    body := Block.group draft.body
    grouped := Block.groupCount draft.body }

/-- Everything that is switched on, done to one function. -/
def redraft (tuning : Tuning) (analysis : Analysis) (program : Program) (id : FunctionId)
    (function : Function) : Redraft :=
  let start : Redraft := { body := function.body, inlineSites := function.inlineSites }
  let find := program.inlinable? id tuning.maxInlineSize (hotCallees tuning analysis id)
  let inlined := if tuning.inline then start.inline find else start
  let limit := min tuning.unrollThreshold maxWrittenTrips
  let unrolled := if tuning.unroll then inlined.unroll limit function else inlined
  let reordered := if tuning.reorderBranches then unrolled.reorder else unrolled
  if tuning.groupLoads then reordered.group else reordered

/-- A guided change in progress. -/
structure Progress where
  /-- The program so far. -/
  program : Program
  /-- The report so far. -/
  outcome : Outcome := {}
  /-- Changed functions, latest first. -/
  touched : List FunctionId := []

/-- Keep a new body and report it. -/
def Progress.keep (progress : Progress) (id : FunctionId) (function : Function)
    (draft : Redraft) : Progress :=
  let program := (progress.program.updateFunction? id fun f =>
    { f with body := draft.body, inlineSites := draft.inlineSites }).getD progress.program
  let sized : Outcome := { progress.outcome with
    sizeImpact := progress.outcome.sizeImpact + ((Block.size draft.body : Int) - function.size) }
  let outcome := sized
    |>.count "calls_inlined" draft.inlined
    |>.count "loops_unrolled" draft.unrolled
    |>.count "branches_reordered" draft.reordered
    |>.count "accesses_grouped" draft.grouped
  { program, outcome, touched := id :: progress.touched }

/-- Work on one function. -/
def step (tuning : Tuning) (analysis : Analysis) (progress : Progress) (id : FunctionId) :
    Progress :=
  match progress.program.function? id with
  | none => progress
  | some function =>
    let draft := redraft tuning analysis progress.program id function
    let view := progress.program.view
    if draft.body = function.body then progress
    else if (view.effectTrace id).isNone || (view.traceOfBody id draft.body).isNone then progress
    else progress.keep id function draft

/-- Work on every critical function. -/
def changeAll (tuning : Tuning) (analysis : Analysis) (program : Program) : Progress :=
  analysis.criticalFunctions.keys.foldl (step tuning analysis) { program }

/-- The change of the bounds of functions between two analyses. Bounds become signed
words before they are subtracted. -/
def boundChange (old new : Analysis) (ids : List FunctionId) : Int :=
  ids.foldr (fun id rest => match old.bound? id, new.bound? id with
    | some before, some after =>
      signedWord (rest + signedWord (signedWord after - signedWord before))
    | _, _ => rest) 0

/-- Change a program and report the change of the bounds. The new bounds are
computed without a profile, which does not change them. -/
def transform (tuning : Tuning) (program : Program) (analysis : Analysis) :
    Program × Except Failure Outcome :=
  let progress := changeAll tuning analysis program
  if progress.touched.isEmpty then (progress.program, .ok progress.outcome)
  else (progress.program, do
    let refreshed ← progress.program.analyze none
    .ok { progress.outcome with
      modified := true
      cycleImpact := boundChange analysis refreshed progress.touched })

/-- Whether every touched function has the effect trace it had before. -/
def keepsTraces (changes : Changes) (after : Program) : Bool :=
  changes.functions.keys.all fun id =>
    let before := (changes.viewBefore after).effectTrace id
    before.isSome && decide (before = after.view.effectTrace id)

/-- The guided pass. -/
def pass (tuning : Tuning) : Pass where
  name := "wcet-guided-optimization"
  applicable _ _ analysis := tuning.isActive && !analysis.paths.isEmpty
  transform _ := transform tuning
  certify := keepsTraces

end Guided

end Timebound
