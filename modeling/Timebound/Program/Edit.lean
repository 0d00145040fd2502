import Timebound.Program.Basic

/-!
# Edits

The single changes that can be made to a program, as data. Applying an edit
never fails as a whole: an edit that has nothing to act on, or a refused
addition, leaves the program alone and says so in its reply. Renaming a function
changes the name it carries and leaves the name index alone.
-/

namespace Timebound

/-- A single change to a program. -/
inductive Edit where
  /-- Mark a function as touched without changing it. -/
  | touch (id : FunctionId)
  /-- Replace a body. -/
  | setBody (id : FunctionId) (body : Block)
  /-- Append a block to a body a number of times. -/
  | append (id : FunctionId) (block : Block) (times : Nat)
  /-- Keep only the first statements of a body. -/
  | truncate (id : FunctionId) (statements : Nat)
  | setExported (id : FunctionId) (exported : Bool)
  | setRecursionLimit (id : FunctionId) (limit : Option Nat)
  | setInlineSites (id : FunctionId) (sites : Nat)
  | setName (id : FunctionId) (name : String)
  | addFunction (function : Function)
  | addGlobal (global : Global)
  | removeFunction (id : FunctionId)
  | removeGlobal (id : GlobalId)

/-- What an edit answers. -/
inductive Reply where
  /-- Whether there was a function to change. -/
  | changed (found : Bool)
  | addedFunction (id : FunctionId)
  | addedGlobal (id : GlobalId)
  | removedFunction (function : Option Function)
  | removedGlobal (global : Option Global)
  /-- An addition was refused. -/
  | refused (error : ProgramError)

namespace Program

/-- Change a function in place and answer whether there was one. -/
def editFunction (program : Program) (id : FunctionId) (change : Function → Function) :
    Program × Reply :=
  match program.updateFunction? id change with
  | none => (program, .changed false)
  | some changed => (changed, .changed true)

/-- Apply one edit. -/
def edit (program : Program) : Edit → Program × Reply
  | .touch id => program.editFunction id fun f => f
  | .setBody id body => program.editFunction id fun f => { f with body }
  | .append id block times => program.editFunction id fun f =>
      { f with body := f.body ++ (List.replicate times block).flatten }
  | .truncate id statements => program.editFunction id fun f =>
      { f with body := f.body.take statements }
  | .setExported id exported => program.editFunction id fun f => { f with exported }
  | .setRecursionLimit id limit => program.editFunction id fun f =>
      { f with recursionLimit := limit }
  | .setInlineSites id sites => program.editFunction id fun f => { f with inlineSites := sites }
  | .setName id name => program.editFunction id fun f => { f with name }
  | .addFunction function => match program.addFunction function with
    | .error error => (program, .refused error)
    | .ok (id, grown) => (grown, .addedFunction id)
  | .addGlobal global => match program.addGlobal global with
    | .error error => (program, .refused error)
    | .ok (id, grown) => (grown, .addedGlobal id)
  | .removeFunction id => match program.removeFunction? id with
    | none => (program, .removedFunction none)
    | some (function, left) => (left, .removedFunction (some function))
  | .removeGlobal id => match program.removeGlobal? id with
    | none => (program, .removedGlobal none)
    | some (global, left) => (left, .removedGlobal (some global))

/-- Apply edits in order. -/
def editAll (program : Program) (edits : List Edit) : Program :=
  edits.foldl (fun current change => (current.edit change).1) program

end Program

end Timebound
