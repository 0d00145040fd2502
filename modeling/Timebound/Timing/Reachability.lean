import Timebound.Program.Basic

/-!
# Reachability

A function is reachable when it is a root or is called, and exists, by a
reachable function. A global is reachable when it is an exported one or is
mentioned by a reachable function, whether or not it exists. The search works on
views, so it also answers for the program before recorded changes.
-/

namespace Timebound

/-- The part of a program that outside code can get at. -/
structure Reachable where
  /-- Reachable functions. -/
  functions : OrderedSet FunctionId
  /-- Reachable globals. -/
  globals : OrderedSet GlobalId
  deriving DecidableEq

namespace View

/-- The root functions, in slot order. -/
def roots (view : View) : List FunctionId :=
  (List.range view.functionSlots).map Id.mk |>.filter fun id =>
    (view.function? id).any Function.isRoot

/-- The exported globals, in slot order. -/
def exportedGlobals (view : View) : List GlobalId :=
  (List.range view.globalSlots).map Id.mk |>.filter fun id => (view.global? id).any Global.exported

/-- The existing functions that a function calls. -/
def existingCallees (view : View) (id : FunctionId) : List FunctionId :=
  ((view.function? id).map Function.callees).getD [] |>.filter fun callee =>
    (view.function? callee).isSome

/-- Close a set of functions under calls. The queue holds members whose calls
have not been followed; each step follows one of them. -/
def close (view : View) : Nat → List FunctionId → OrderedSet FunctionId → OrderedSet FunctionId
  | 0, _, found => found
  | _ + 1, [], found => found
  | steps + 1, id :: queue, found =>
    let fresh := (view.existingCallees id).filter fun callee => !found.contains callee
    close view steps (queue ++ fresh) (OrderedSet.addAll found fresh)

/-- The reachable functions. Each is followed once, so the capacity of the view
bounds the number of steps. -/
def reachableFunctions (view : View) : OrderedSet FunctionId :=
  view.close view.capacity view.roots (OrderedSet.ofList view.roots)

/-- The reachable part of a view. -/
def reachable (view : View) : Reachable :=
  let functions := view.reachableFunctions
  let mentioned := functions.keys.flatMap fun id =>
    ((view.function? id).map Function.referencedGlobals).getD []
  ⟨functions, OrderedSet.ofList (view.exportedGlobals ++ mentioned)⟩

end View

/-- The reachable part of a program. -/
def Program.reachable (program : Program) : Reachable := program.view.reachable

end Timebound
