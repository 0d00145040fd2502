import Timebound.Program.Consistency

/-!
# Drafting programs

Front ends assemble a program by declaring every function first, which fixes its
id and signature, and defining bodies afterwards, so that a body can call
functions declared later. `Program.finish` hands the draft over once it is
consistent.
-/

namespace Timebound.Program

/-- Declare a function with an empty body. -/
def declare (draft : Program) (name : String) (params : List Parameter)
    (result : Option ScalarType) : Except ProgramError (FunctionId × Program) :=
  draft.addFunction { name, params, result }

/-- Change a declared function. -/
def amend (draft : Program) (id : FunctionId) (change : Function → Function) :
    Except ProgramError Program :=
  match draft.updateFunction? id change with
  | none => .error (.unknownFunction id)
  | some amended => .ok amended

/-- Give a declared function its body. -/
def define (draft : Program) (id : FunctionId) (body : Block) : Except ProgramError Program :=
  draft.amend id fun f => { f with body }

/-- Let outside code call a declared function. -/
def exportFunction (draft : Program) (id : FunctionId) : Except ProgramError Program :=
  draft.amend id fun f => { f with exported := true }

/-- Bound the activations of a declared function. -/
def limitRecursion (draft : Program) (id : FunctionId) (limit : Nat) :
    Except ProgramError Program :=
  draft.amend id fun f => { f with recursionLimit := some limit }

/-- Declare a global of at least one element, all zero. -/
def declareGlobal (draft : Program) (name : String) (type : ScalarType) (length : Nat) :
    Except ProgramError (GlobalId × Program) :=
  draft.addGlobal { name, type, length := max length 1 }

/-- Declare a scalar global that outside code may access. -/
def declareExportedGlobal (draft : Program) (name : String) (type : ScalarType) :
    Except ProgramError (GlobalId × Program) :=
  draft.addGlobal { name, type, exported := true }

/-- Hand over a draft that is consistent. -/
def finish (draft : Program) : Except ProgramError Program :=
  match draft.fault? with
  | some error => .error error
  | none => .ok draft

end Timebound.Program
