import Timebound.Program.Basic

/-!
# Consistency of programs

A program is consistent when every call reaches a function with as many
parameters as the call has arguments, and every global mentioned exists. The
check reports the first fault: functions in slot order, and in each function the
expression nodes in walk order before the targets of writes.
-/

namespace Timebound.Program

/-- The fault of one expression node of a function. -/
def nodeFault? (program : Program) (function : String) : Expr → Option ProgramError
  | .call callee args => match program.function? callee with
    | none => some (.danglingReference function (.callee callee))
    | some target =>
      if target.params.length = args.length then none
      else some (.arityMismatch function target.name target.params.length args.length)
  | .global id | .load id _ =>
    if (program.global? id).isSome then none
    else some (.danglingReference function (.global id))
  | _ => none

/-- The first fault of a function. -/
def functionFault? (program : Program) (function : Function) : Option ProgramError :=
  ((Block.nodes function.body).findSome? (program.nodeFault? function.name)).or
    (function.referencedGlobals.findSome? fun id =>
      if (program.global? id).isSome then none
      else some (.danglingReference function.name (.global id)))

/-- The first fault of a program; a program without one is consistent. -/
def fault? (program : Program) : Option ProgramError :=
  program.functions.entries.findSome? fun entry => program.functionFault? entry.2

end Timebound.Program
