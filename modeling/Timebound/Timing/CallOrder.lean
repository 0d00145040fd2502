import Timebound.Failure
import Timebound.Program.Basic

/-!
# Callee-first order

The functions reachable from the roots, each after all functions it calls. The
order comes from a depth-first visit; it exists only if every callee exists and
no calls form a cycle, except that a function with a recursion limit may call
itself. The visit examines all calls of a function, the last callee first,
before it follows any of them.
-/

namespace Timebound.Program

/-- What is wrong with a call made while the `active` functions are being visited. -/
def callFault? (program : Program) (active : List FunctionId) (id : FunctionId)
    (function : Function) (callee : FunctionId) : Option Cause :=
  if callee = id then
    if function.recursionLimit.isSome then none else some .unannotatedRecursion
  else match program.function? callee with
    | none => some (.missingCallee callee)
    | some target => if active.contains callee then some (.callCycle target.name) else none

/-- Visit a function below the `active` ones. The finished functions are listed
with the latest first. The depth bounds how many functions can be active. -/
def visit (program : Program) : Nat → List FunctionId → List FunctionId → FunctionId →
    Except Failure (List FunctionId)
  | 0, _, finished, _ => .ok finished
  | depth + 1, active, finished, id =>
    if finished.contains id then .ok finished
    else match program.function? id with
      | none => .ok finished
      | some function =>
        match function.callees.reverse.findSome? (program.callFault? active id function) with
        | some cause => .error (.analysis function.name cause)
        | none => do
          let below ← (function.callees.filter (· != id)).foldlM
            (visit program depth (id :: active)) finished
          .ok (id :: below)

/-- The reachable functions, callees first. -/
def callOrder (program : Program) : Except Failure (List FunctionId) := do
  let roots := program.functions.entries.filter fun entry => entry.2.isRoot
  let finished ← (roots.map (·.1)).foldlM (program.visit program.functions.slotCount []) []
  .ok finished.reverse

end Timebound.Program
