import Timebound.Timing.CallOrder
import Timebound.Timing.CriticalPath
import Timebound.Timing.Reachability

/-!
# Cycle analysis

The analysis bounds the cycles of every reachable function, callees first. The
bound of a function that calls itself is the cost of one activation times its
recursion limit. Profiles choose among critical paths and never change a bound.
-/

namespace Timebound

/-- The facts a pass may rely on. -/
structure Analysis where
  /-- The reachable part of the program. -/
  reachable : Reachable := ⟨.empty, .empty⟩
  /-- The cycle bound of every reachable function. -/
  bounds : Table FunctionId Nat := .empty
  /-- One critical path per root, in slot order. -/
  paths : List CriticalPath := []
  deriving DecidableEq

namespace Analysis

/-- The bound of a function. -/
def bound? (analysis : Analysis) (id : FunctionId) : Option Nat := analysis.bounds.get? id

/-- The functions on critical paths. -/
def criticalFunctions (analysis : Analysis) : OrderedSet FunctionId :=
  OrderedSet.ofList (analysis.paths.flatMap fun path => path.entries.map (·.id))

/-- Whether a function is on a critical path. -/
def isCritical (analysis : Analysis) (id : FunctionId) : Bool :=
  analysis.paths.any fun path => path.entries.any fun entry => entry.id == id

end Analysis

/-- The text of a cycle bound. -/
def cyclesText (cycles : Nat) : String := toString cycles ++ " cycles"

namespace Program

/-- The cost of an activation of a callee, seen from the body of `self`. A
recursive call costs nothing here; the recursion limit accounts for it. -/
def activationCycles (program : Program) (bounds : Table FunctionId Nat) (self : FunctionId)
    (limited : Bool) (callee : FunctionId) : Except Cause Nat :=
  if callee = self then if limited then .ok 0 else .error .unannotatedRecursion
  else match bounds.get? callee with
    | some bound => .ok bound
    | none => .error (.unboundedCallee (program.functionLabel callee))

/-- The bound of a function, given the bounds of its callees. -/
def functionBound (program : Program) (bounds : Table FunctionId Nat) (id : FunctionId)
    (function : Function) : Except Cause Nat := do
  let limited := function.recursionLimit.isSome
  let activation ← Block.cycles (program.activationCycles bounds id limited) function.body
  match function.recursionLimit with
  | some limit => if function.calls id then checkedCycles (activation * limit) else .ok activation
  | none => .ok activation

/-- Add the bound of one function to the bounds of its callees. -/
def addBound (program : Program) (bounds : Table FunctionId Nat) (id : FunctionId) :
    Except Failure (Table FunctionId Nat) :=
  match program.function? id with
  | none => .ok bounds
  | some function => match program.functionBound bounds id function with
    | .error cause => .error (.analysis function.name cause)
    | .ok bound => .ok (bounds.insert id bound)

/-- Bound every reachable function and find the critical paths. -/
def analyze (program : Program) (profile : Option Profile) : Except Failure Analysis := do
  let order ← program.callOrder
  let bounds ← order.foldlM program.addBound .empty
  let roots := program.functions.entries.filter fun entry => entry.2.isRoot
  .ok {
    reachable := program.reachable
    bounds
    paths := roots.filterMap (program.criticalPath? profile bounds) }

end Program

end Timebound
