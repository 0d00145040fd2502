import Timebound.Program.Error
import Timebound.Program.Function

/-!
# Programs

A program is an arena of functions and an arena of globals. Both journals are
opened and closed together; closing them yields the changes made meanwhile. A
`View` is a program seen either as it is or as it was before recorded changes,
and is all that reachability and effect traces look at.
-/

namespace Timebound

/-- A program under construction or optimization. -/
structure Program where
  /-- The functions. -/
  functions : Arena .function Function := {}
  /-- The global variables. -/
  globals : Arena .global Global := {}

/-- What a stretch of edits touched, with the pre-images. -/
structure Changes where
  /-- Touched functions. -/
  functions : PreImages .function Function := .empty
  /-- Touched globals. -/
  globals : PreImages .global Global := .empty

instance : Inhabited Program := ⟨{}⟩

instance : Inhabited Changes := ⟨{}⟩

namespace Program

/-- The function of an id. -/
def function? (program : Program) (id : FunctionId) : Option Function := program.functions.get? id

/-- The global of an id. -/
def global? (program : Program) (id : GlobalId) : Option Global := program.globals.get? id

/-- The function of a name. -/
def functionNamed? (program : Program) (name : String) : Option Function :=
  (program.functions.idOf? name).bind program.function?

/-- The number of statements and expression nodes of all functions. -/
def size (program : Program) : Nat :=
  program.functions.entries.foldr (fun entry rest => entry.2.size + rest) 0

/-- The name to print for a function: its id when it is missing. -/
def functionLabel (program : Program) (id : FunctionId) : String :=
  ((program.function? id).map Function.name).getD id.text

/-- The name to print for a global: its id when it is missing. -/
def globalLabel (program : Program) (id : GlobalId) : String :=
  ((program.global? id).map Global.name).getD id.text

/-- Whether two programs hold the same functions and globals in the same slots. -/
def sameContent (left right : Program) : Bool :=
  left.functions.sameSlots right.functions && left.globals.sameSlots right.globals

/-! ## Edits -/

/-- Add a function under a fresh id. -/
def addFunction (program : Program) (function : Function) :
    Except ProgramError (FunctionId × Program) :=
  match program.functions.add? function with
  | none => .error (.duplicateName .function function.name)
  | some (id, functions) => .ok (id, { program with functions })

/-- Add a global under a fresh id. -/
def addGlobal (program : Program) (global : Global) : Except ProgramError (GlobalId × Program) :=
  match program.globals.add? global with
  | none => .error (.duplicateName .global global.name)
  | some (id, globals) => .ok (id, { program with globals })

/-- Change a function in place, if it exists. -/
def updateFunction? (program : Program) (id : FunctionId) (change : Function → Function) :
    Option Program :=
  (program.functions.update? id change).map fun functions => { program with functions }

/-- A change of one function is seen there and nowhere else. -/
theorem function?_update {program changed : Program} {id : FunctionId}
    {change : Function → Function} {function : Function}
    (found : program.function? id = some function)
    (updated : program.updateFunction? id change = some changed) (other : FunctionId) :
    changed.function? other = if other = id then some (change function) else
      program.function? other := by
  obtain ⟨functions, arena, rfl⟩ := Option.map_eq_some_iff.mp updated
  have slot := Arena.get?_update arena other
  rwa [show program.functions.get? id = some function from found, Option.map_some] at slot

/-- Remove a function, if it exists. -/
def removeFunction? (program : Program) (id : FunctionId) : Option (Function × Program) :=
  (program.functions.remove? id).map fun (function, functions) =>
    (function, { program with functions })

/-- Remove a global, if it exists. -/
def removeGlobal? (program : Program) (id : GlobalId) : Option (Global × Program) :=
  (program.globals.remove? id).map fun (global, globals) => (global, { program with globals })

/-- Start recording changes, dropping an open record. -/
def openJournal (program : Program) : Program :=
  ⟨program.functions.openJournal, program.globals.openJournal⟩

/-- Stop recording changes. -/
def closeJournal (program : Program) : Program :=
  ⟨program.functions.closeJournal, program.globals.closeJournal⟩

/-- The changes recorded so far; none when nothing is being recorded. -/
def changes (program : Program) : Changes :=
  ⟨program.functions.preImages, program.globals.preImages⟩

end Program

namespace Changes

/-- Whether nothing was touched. -/
def isEmpty (changes : Changes) : Bool := changes.functions.isEmpty && changes.globals.isEmpty

/-- Whether a function was touched. -/
def touches (changes : Changes) (id : FunctionId) : Bool := changes.functions.contains id

/-- A function as it was before the changes that led to `after`. -/
def functionBefore? (changes : Changes) (after : Program) (id : FunctionId) : Option Function :=
  after.functions.before? changes.functions id

/-- A global as it was before the changes that led to `after`. -/
def globalBefore? (changes : Changes) (after : Program) (id : GlobalId) : Option Global :=
  after.globals.before? changes.globals id

end Changes

/-! ## Views -/

/-- A program as a reader sees it: lookups, and how far ids can reach. -/
structure View where
  /-- The function of an id. -/
  function? : FunctionId → Option Function
  /-- The global of an id. -/
  global? : GlobalId → Option Global
  /-- Root functions are looked for below this slot. -/
  functionSlots : Nat
  /-- Root globals are looked for below this slot. -/
  globalSlots : Nat
  /-- No more functions than this can be found. -/
  capacity : Nat

/-- The program as it is. -/
def Program.view (program : Program) : View where
  function? := program.function?
  global? := program.global?
  functionSlots := program.functions.slotCount
  globalSlots := program.globals.slotCount
  capacity := program.functions.slotCount

/-- The program as it was before the changes that led to `after`. -/
def Changes.viewBefore (changes : Changes) (after : Program) : View where
  function? := changes.functionBefore? after
  global? := changes.globalBefore? after
  functionSlots := after.functions.slotCount
  globalSlots := after.globals.slotCount
  capacity := after.functions.slotCount + changes.functions.size

end Timebound
