import Mathlib.Logic.Function.Basic
import Timebound.Program.Function

/-!
# Meaning of bodies

A body runs on local variables and on a world of globals and device output. Every
block is a scope: a binding lasts to the end of its block and hides an outer one of
the same name, which is back afterwards; an assignment changes the innermost
binding. Loop counters are bound inside their loops only, and every iteration is a
scope of its own. What calls do is a parameter, so statements about a body hold in
every program. A run that stops early says why, without naming variables, and keeps
the world it has reached.
-/

namespace Timebound

/-- Why a run stops early. -/
inductive Halt where
  /-- A local variable is read or assigned that is not bound. -/
  | unboundLocal
  /-- A call without result is used as an operand. -/
  | noValue
  /-- An operator has no value on its operands. -/
  | noResult
  /-- A global has no element at an index. -/
  | outOfRange
  /-- A call finds no function, or one that takes another number of arguments. -/
  | badCall
  /-- The run takes longer than was waited for. -/
  | unfinished
  deriving DecidableEq

/-- What a run can change outside its own local variables. -/
structure World where
  /-- The elements of every global. -/
  globals : GlobalId → List Literal
  /-- What was sent to device channels, latest first. -/
  output : List (Nat × Literal) := []

/-- A computation on the world that may stop early. -/
abbrev Run := ExceptT Halt (StateM World)

namespace Run

/-- A value that must be there. -/
def need {α : Type} (halt : Halt) : Option α → Run α
  | some value => pure value
  | none => throw halt

/-- Read an element of a global. -/
def element (id : GlobalId) (index : Int) : Run Literal := do
  let world ← get
  need .outOfRange (if index < 0 then none else (world.globals id)[index.toNat]?)

/-- Write an element of a global. -/
def setElement (id : GlobalId) (index : Int) (value : Literal) : Run Unit := do
  let world ← get
  let held := world.globals id
  if 0 ≤ index ∧ index.toNat < held.length then
    set { world with globals := Function.update world.globals id (held.set index.toNat value) }
  else throw .outOfRange

/-- Send a value to a device channel. -/
def emit (channel : Nat) (value : Literal) : Run Unit :=
  modify fun world => { world with output := (channel, value) :: world.output }

end Run

/-- The values of the visible local variables. -/
abbrev Locals := String → Option Literal

/-- How a statement or block is left. -/
inductive Flow where
  /-- The next statement runs. -/
  | onward (locals : Locals)
  /-- The activation ends with a result, if there is one. -/
  | returned (value : Option Literal)

namespace Flow

/-- Go on with the next statement unless the activation has ended. -/
def next (flow : Flow) (following : Locals → Run Flow) : Run Flow :=
  match flow with
  | onward locals => following locals
  | returned value => pure (returned value)

/-- Give a local variable another value, or none. -/
def put (name : String) (held : Option Literal) : Flow → Flow
  | onward locals => onward (Function.update locals name held)
  | returned value => returned value

/-- Leave the scope of a name: what it stood for outside is back. -/
def leave (bound : Option String) (outer : Locals) (flow : Flow) : Flow :=
  match bound with
  | some name => flow.put name (outer name)
  | none => flow

@[simp] theorem next_onward (locals : Locals) (following : Locals → Run Flow) :
    (onward locals).next following = following locals := rfl

@[simp] theorem next_returned (value : Option Literal) (following : Locals → Run Flow) :
    (returned value).next following = pure (returned value) := rfl

@[simp] theorem put_onward (name : String) (held : Option Literal) (locals : Locals) :
    (onward locals).put name held = onward (Function.update locals name held) := rfl

@[simp] theorem put_returned (name : String) (held value : Option Literal) :
    (returned value).put name held = returned value := rfl

@[simp] theorem leave_none (outer : Locals) : leave none outer = id := rfl

@[simp] theorem leave_some (name : String) (outer : Locals) :
    leave (some name) outer = put name (outer name) := rfl

/-- The result of an activation that is left this way. -/
def result : Flow → Option Literal
  | onward _ => none
  | returned value => value

end Flow

/-- What the meaning of a body depends on. -/
structure Setting where
  /-- What a call does with its arguments. -/
  call : FunctionId → List Literal → Run (Option Literal)
  /-- How many iterations of a loop without limit are waited for. -/
  patience : Nat

/-! ## Expressions -/

mutual

/-- The value of an expression; a call may have none. -/
def Expr.eval (setting : Setting) (locals : Locals) : Expr → Run (Option Literal)
  | .lit value => pure (some value)
  | .var name => some <$> Run.need .unboundLocal (locals name)
  | .global id => some <$> Run.element id 0
  | .load id index => do
    let position ← index.eval setting locals >>= Run.need .noValue
    some <$> Run.element id position.value
  | .unary op type operand => do
    let value ← operand.eval setting locals >>= Run.need .noValue
    pure (some (op.eval type value))
  | .binary op type left right => do
    let first ← left.eval setting locals >>= Run.need .noValue
    let second ← right.eval setting locals >>= Run.need .noValue
    some <$> Run.need .noResult (op.eval type first second)
  | .call callee args => do
    let values ← Args.eval setting locals args
    setting.call callee values

/-- The values of arguments. -/
def Args.eval (setting : Setting) (locals : Locals) : List Expr → Run (List Literal)
  | [] => pure []
  | arg :: args => do
    let value ← arg.eval setting locals >>= Run.need .noValue
    let values ← Args.eval setting locals args
    pure (value :: values)

end

/-- The value of an expression that must have one. -/
def Expr.value (setting : Setting) (locals : Locals) (e : Expr) : Run Literal :=
  e.eval setting locals >>= Run.need .noValue

/-! ## Loops -/

/-- The local variables at the start of an iteration. -/
def Locals.enter (locals : Locals) (counter : Option String) (turn : Nat) : Locals :=
  match counter with
  | some name => Function.update locals name (some (.ofInt .u64 turn))
  | none => locals

/-- Run iterations while the test holds, at most the given number; `spent` says what
happens when none is left. -/
def loopTurns (counter : Option String) (test : Locals → Run Bool)
    (body spent : Locals → Run Flow) : Nat → Nat → Locals → Run Flow
  | 0, _, locals => spent locals
  | left + 1, turn, locals => do
    let inner := locals.enter counter turn
    if ← test inner then
      let flow ← body inner
      (flow.leave counter locals).next (loopTurns counter test body spent left (turn + 1))
    else pure (.onward locals)

/-- Whether a loop goes on: its condition holds, or it has none. -/
def Expr.holds (setting : Setting) (condition : Option Expr) (locals : Locals) : Run Bool :=
  match condition with
  | some e => do
    let value ← e.value setting locals
    pure !value.isZero
  | none => pure true

/-- All iterations of a loop. A loop that may run forever is waited for only so long. -/
def TripBound.turns (bound : TripBound) (setting : Setting) (counter : Option String)
    (test : Locals → Run Bool) (body : Locals → Run Flow) (locals : Locals) : Run Flow :=
  match bound.limit? with
  | some trips => loopTurns counter test body (fun left => pure (.onward left)) trips 0 locals
  | none => loopTurns counter test body (fun _ => throw .unfinished) setting.patience 0 locals

/-! ## Statements -/

mutual

/-- What a statement does. A binding is made here and given up by the block. -/
def Stmt.run (setting : Setting) : Stmt → Locals → Run Flow
  | .bind name _ value, locals => do
    let held ← value.value setting locals
    pure (.onward (Function.update locals name (some held)))
  | .assign name value, locals => do
    let held ← value.value setting locals
    let _ ← Run.need .unboundLocal (locals name)
    pure (.onward (Function.update locals name (some held)))
  | .setGlobal id value, locals => do
    let held ← value.value setting locals
    Run.setElement id 0 held
    pure (.onward locals)
  | .store id index value, locals => do
    let position ← index.value setting locals
    let held ← value.value setting locals
    Run.setElement id position.value held
    pure (.onward locals)
  | .emit channel value, locals => do
    let sent ← value.value setting locals
    Run.emit channel sent
    pure (.onward locals)
  | .eval value, locals => do
    let _ ← value.eval setting locals
    pure (.onward locals)
  | .branch cond thenBody elseBody _, locals => do
    let decision ← cond.value setting locals
    if decision.isZero then Block.run setting elseBody locals
    else Block.run setting thenBody locals
  | .loop counter bound condition body, locals =>
    bound.turns setting counter (Expr.holds setting condition) (Block.run setting body) locals
  | .ret (some value), locals => Flow.returned <$> value.eval setting locals
  | .ret none, _ => pure (.returned none)

/-- What a block does. -/
def Block.run (setting : Setting) : List Stmt → Locals → Run Flow
  | [], locals => pure (.onward locals)
  | s :: rest, locals => do
    let flow ← s.run setting locals
    flow.next fun inner => Flow.leave s.boundName? locals <$> Block.run setting rest inner

end

/-! ## Activations -/

/-- The local variables of a new activation: the parameters. -/
def Locals.ofArgs (params : List Parameter) (args : List Literal) : Locals :=
  (params.zip args).foldl (fun locals passed =>
    Function.update locals passed.1.name (some passed.2)) fun _ => none

/-- Run a body as the body of a function with these parameters. -/
def Block.activate (setting : Setting) (params : List Parameter) (body : Block)
    (args : List Literal) : Run (Option Literal) :=
  if params.length = args.length then
    Flow.result <$> Block.run setting body (.ofArgs params args)
  else throw .badCall

end Timebound
