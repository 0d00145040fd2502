import Timebound.Effect.Basic
import Timebound.Program.Basic

/-!
# Effect traces

The trace of a body lists its effects in program order. Short loops of a known
number of iterations are written out, calls are replaced by the trace of the
callee unless the callee is already being expanded or does not exist, and the
arms of a branch are ordered by the condition without its leading negations.
Reads between two effects form a set. Building a trace costs one unit of work per
statement, per written-out iteration and per expanded call; a trace that would
cost more than `traceBudget` does not exist.
-/

namespace Timebound

/-- Loops of exactly this many iterations or fewer are written out. -/
def maxWrittenTrips : Nat := 64

/-- The work allowed for one trace. -/
def traceBudget : Nat := 65536

/-- The effects of a body so far. -/
structure Trace where
  /-- Finished effects, latest first. -/
  events : List Effect := []
  /-- Reads since the latest effect. -/
  pending : OrderedSet Read := .empty

namespace Trace

/-- Add a read to the pending ones. -/
def read (trace : Trace) (seen : Read) : Trace :=
  { trace with pending := OrderedSet.add trace.pending seen }

/-- Turn pending reads into an effect. -/
def flush (trace : Trace) : Trace :=
  if trace.pending.isEmpty then trace else ⟨.reads trace.pending.keys :: trace.events, .empty⟩

/-- Add an effect after the pending reads. -/
def push (trace : Trace) (effect : Effect) : Trace :=
  let flushed := trace.flush
  { flushed with events := effect :: flushed.events }

/-- All effects, earliest first. -/
def finish (trace : Trace) : List Effect := trace.flush.events.reverse

end Trace

/-- A trace under construction with the work that is left. -/
structure Tracing where
  /-- Units of work left. -/
  work : Nat
  /-- The effects so far. -/
  trace : Trace := {}

namespace Tracing

/-- Pay one unit of work. -/
def charge (tracing : Tracing) : Option Tracing :=
  match tracing.work with
  | 0 => none
  | work + 1 => some { tracing with work }

/-- Add a read. -/
def read (tracing : Tracing) (seen : Read) : Tracing :=
  { tracing with trace := tracing.trace.read seen }

/-- Add an effect. -/
def push (tracing : Tracing) (effect : Effect) : Tracing :=
  { tracing with trace := tracing.trace.push effect }

/-- Run a step on a trace of its own; give its effects and the work left. -/
def apart (tracing : Tracing) (step : Tracing → Option Tracing) : Option (List Effect × Tracing) :=
  (step ⟨tracing.work, {}⟩).map fun inner =>
    (inner.trace.finish, { tracing with work := inner.work })

/-- Run a step a number of times, paying for each. -/
def times (step : Tracing → Option Tracing) : Nat → Tracing → Option Tracing
  | 0, tracing => some tracing
  | count + 1, tracing => do
    let paid ← tracing.charge
    let after ← step paid
    times step count after

end Tracing

mutual

/-- Trace an expression. `expand` gives the step that a call is replaced by. -/
def Expr.trace (expand : FunctionId → Option (Tracing → Option Tracing)) :
    Expr → Tracing → Option Tracing
  | .lit _, tracing => some tracing
  | .var _, tracing => some tracing
  | .global id, tracing => some (tracing.read (.scalar id))
  | .load id index, tracing => do
    let after ← index.trace expand tracing
    some (after.read (.element id (index.literal?.map Literal.value)))
  | .unary _ _ operand, tracing => operand.trace expand tracing
  | .binary _ _ left right, tracing => do
    let after ← left.trace expand tracing
    right.trace expand after
  | .call callee args, tracing => do
    let after ← Args.trace expand args tracing
    match expand callee with
    | some step => step after
    | none => some (after.push (.call callee))

/-- Trace arguments in order. -/
def Args.trace (expand : FunctionId → Option (Tracing → Option Tracing)) :
    List Expr → Tracing → Option Tracing
  | [], tracing => some tracing
  | arg :: args, tracing => do
    let after ← arg.trace expand tracing
    Args.trace expand args after

end

/-- The number of copies a loop body is written out in, if it is: the iterations
of a short loop that has no condition. -/
def TripBound.writtenTrips? (bound : TripBound) (condition : Option Expr) : Option Nat :=
  match bound, condition with
  | .exact trips, none => if trips ≤ maxWrittenTrips then some trips else none
  | _, _ => none

mutual

/-- Trace a statement that has been paid for. -/
def Stmt.trace (expand : FunctionId → Option (Tracing → Option Tracing)) :
    Stmt → Tracing → Option Tracing
  | .bind _ _ value, tracing => value.trace expand tracing
  | .assign _ value, tracing => value.trace expand tracing
  | .eval value, tracing => value.trace expand tracing
  | .setGlobal id value, tracing => do
    let after ← value.trace expand tracing
    some (after.push (.write id))
  | .store id index value, tracing => do
    let middle ← index.trace expand tracing
    let after ← value.trace expand middle
    some (after.push (.store id))
  | .emit channel value, tracing => do
    let after ← value.trace expand tracing
    some (after.push (.emit channel))
  | .branch cond thenBody elseBody _, tracing => do
    let decided ← cond.guard.trace expand tracing
    let (thenEffects, middle) ← decided.apart (Block.trace expand thenBody)
    let (elseEffects, after) ← middle.apart (Block.trace expand elseBody)
    some (after.push (if cond.negated then .branch elseEffects thenEffects
      else .branch thenEffects elseEffects))
  | .loop _ bound condition body, tracing =>
    match bound.writtenTrips? condition with
    | some trips => Tracing.times (Block.trace expand body) trips tracing
    | none => do
      let (effects, after) ← tracing.apart fun inner => do
        let decided ← Args.trace expand condition.toList inner
        Block.trace expand body decided
      some (after.push (.loop bound effects))
  | .ret value, tracing => Args.trace expand value.toList tracing

/-- Trace a block, paying for every statement. -/
def Block.trace (expand : FunctionId → Option (Tracing → Option Tracing)) :
    List Stmt → Tracing → Option Tracing
  | [], tracing => some tracing
  | s :: rest, tracing => do
    let paid ← tracing.charge
    let after ← s.trace expand paid
    Block.trace expand rest after

end

namespace View

/-- The step that a call is replaced by while the `active` functions are being
expanded. The depth bounds how many functions can be active below them. -/
def expansion (view : View) : Nat → List FunctionId → FunctionId →
    Option (Tracing → Option Tracing)
  | 0, _, _ => none
  | depth + 1, active, callee =>
    if active.contains callee then none
    else (view.function? callee).map fun function tracing => do
      let paid ← tracing.charge
      Block.trace (view.expansion depth (callee :: active)) function.body paid

/-- The trace of a function as if it had this body. -/
def traceOfBody (view : View) (id : FunctionId) (body : Block) : Option (List Effect) :=
  (Block.trace (view.expansion view.capacity [id]) body ⟨traceBudget, {}⟩).map fun tracing =>
    tracing.trace.finish

/-- The trace of a function. -/
def effectTrace (view : View) (id : FunctionId) : Option (List Effect) :=
  (view.function? id).bind fun function => view.traceOfBody id function.body

end View

end Timebound
