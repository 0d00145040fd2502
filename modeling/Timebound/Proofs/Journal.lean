import Timebound.Program.Edit
import Timebound.Proofs.Reachability

/-!
# What a journal tells

Whatever is added, changed and removed while a journal is open, in whatever order, the
record shows the program as it was when the journal was opened
(`Program.changes_show_start`). An operation keeps what the record says about each slot,
and slots are never given up, so the view before the changes finds the old entries and
is large enough to search them.
-/

namespace Timebound

/-! ## Arenas -/

/-- An arena whose open journal says what another arena holds. -/
structure Arena.Journaled {kind : Kind} {α : Type} (start current : Arena kind α) : Prop where
  /-- The journal is open. -/
  recording : current.journal.isSome = true
  /-- It says what every slot held. -/
  before : ∀ id, current.before? current.preImages id = start.get? id
  /-- No slot was given up. -/
  slots : start.slotCount ≤ current.slotCount

namespace Arena.Journaled

variable {kind : Kind} {α : Type} [Named α] {start current : Arena kind α}

omit [Named α] in
/-- A new journal says what the arena holds. -/
theorem opened (start : Arena kind α) : Journaled start start.openJournal :=
  ⟨rfl, fun _ => rfl, Nat.le_refl _⟩

/-- An addition is recorded. -/
theorem add (journaled : Journaled start current) {entry : α} {id : Id kind}
    {grown : Arena kind α} (added : current.add? entry = some (id, grown)) :
    Journaled start grown := by
  have ⟨larger, stillOpen⟩ := slotCount_add added
  constructor
  · rw [stillOpen]
    exact journaled.recording
  · exact fun other => (before?_add journaled.recording added other).trans (journaled.before other)
  · have kept := journaled.slots
    omega

omit [Named α] in
/-- A change of an entry is recorded. -/
theorem update (journaled : Journaled start current) {id : Id kind} {change : α → α}
    {changed : Arena kind α} (updated : current.update? id change = some changed) :
    Journaled start changed := by
  constructor
  · rw [journal_update updated]
    exact journaled.recording
  · exact fun other => (before?_update journaled.recording updated other).trans
      (journaled.before other)
  · rw [slotCount_update updated]
    exact journaled.slots

/-- A removal is recorded. -/
theorem remove (journaled : Journaled start current) {id : Id kind} {entry : α}
    {left : Arena kind α} (removed : current.remove? id = some (entry, left)) :
    Journaled start left := by
  constructor
  · rw [journal_remove removed]
    exact journaled.recording
  · exact fun other => (before?_remove journaled.recording removed other).trans
      (journaled.before other)
  · rw [slotCount_remove removed]
    exact journaled.slots

omit [Named α] in
/-- A slot that is not in the record holds what it held. -/
theorem get?_of_untouched (journaled : Journaled start current) {id : Id kind}
    (untouched : current.preImages.contains id = false) : current.get? id = start.get? id := by
  have absent : current.preImages.get? id = none := by
    rwa [Table.contains, Option.isSome_eq_false_iff, Option.isNone_iff_eq_none] at untouched
  have said := journaled.before id
  rwa [before?, absent, Option.getD_none] at said

end Arena.Journaled

/-! ## Operations -/

/-- A single operation on a program, with any change to a function. -/
inductive Operation where
  | addFunction (function : Function)
  | addGlobal (global : Global)
  | update (id : FunctionId) (change : Function → Function)
  | removeFunction (id : FunctionId)
  | removeGlobal (id : GlobalId)

namespace Program

/-- Perform an operation. One that is refused leaves the program alone. -/
def perform (program : Program) : Operation → Program
  | .addFunction function => match program.addFunction function with
    | .ok (_, grown) => grown
    | .error _ => program
  | .addGlobal global => match program.addGlobal global with
    | .ok (_, grown) => grown
    | .error _ => program
  | .update id change => (program.updateFunction? id change).getD program
  | .removeFunction id => ((program.removeFunction? id).map (·.2)).getD program
  | .removeGlobal id => ((program.removeGlobal? id).map (·.2)).getD program

/-- Perform operations in order. -/
def performAll (program : Program) (operations : List Operation) : Program :=
  operations.foldl perform program

/-- What an operation can do to a program. -/
inductive Performs (program : Program) : Operation → Program → Prop where
  | refused (operation : Operation) : Performs program operation program
  | addFunction {function : Function} {id : FunctionId} {functions : Arena .function Function}
      (added : program.functions.add? function = some (id, functions)) :
      Performs program (.addFunction function) { program with functions }
  | addGlobal {global : Global} {id : GlobalId} {globals : Arena .global Global}
      (added : program.globals.add? global = some (id, globals)) :
      Performs program (.addGlobal global) { program with globals }
  | update {id : FunctionId} {change : Function → Function} {functions : Arena .function Function}
      (updated : program.functions.update? id change = some functions) :
      Performs program (.update id change) { program with functions }
  | removeFunction {id : FunctionId} {function : Function} {functions : Arena .function Function}
      (removed : program.functions.remove? id = some (function, functions)) :
      Performs program (.removeFunction id) { program with functions }
  | removeGlobal {id : GlobalId} {global : Global} {globals : Arena .global Global}
      (removed : program.globals.remove? id = some (global, globals)) :
      Performs program (.removeGlobal id) { program with globals }

/-- An operation is refused, or it is done to one of the arenas. -/
theorem performs_perform (program : Program) (operation : Operation) :
    program.Performs operation (program.perform operation) := by
  cases operation with
  | addFunction function =>
    rw [perform, addFunction]
    cases added : program.functions.add? function with
    | none => exact .refused _
    | some pair => exact .addFunction added
  | addGlobal global =>
    rw [perform, addGlobal]
    cases added : program.globals.add? global with
    | none => exact .refused _
    | some pair => exact .addGlobal added
  | update id change =>
    rw [perform, updateFunction?]
    cases updated : program.functions.update? id change with
    | none => exact .refused _
    | some changed => exact .update updated
  | removeFunction id =>
    rw [perform, removeFunction?]
    cases removed : program.functions.remove? id with
    | none => exact .refused _
    | some pair => exact .removeFunction removed
  | removeGlobal id =>
    rw [perform, removeGlobal?]
    cases removed : program.globals.remove? id with
    | none => exact .refused _
    | some pair => exact .removeGlobal removed

end Program

/-- The operation that an edit stands for. -/
def Edit.operation : Edit → Operation
  | .touch id => .update id fun f => f
  | .setBody id body => .update id fun f => { f with body }
  | .append id block times => .update id fun f =>
      { f with body := f.body ++ (List.replicate times block).flatten }
  | .truncate id statements => .update id fun f => { f with body := f.body.take statements }
  | .setExported id exported => .update id fun f => { f with exported }
  | .setRecursionLimit id limit => .update id fun f => { f with recursionLimit := limit }
  | .setInlineSites id sites => .update id fun f => { f with inlineSites := sites }
  | .setName id name => .update id fun f => { f with name }
  | .addFunction function => .addFunction function
  | .addGlobal global => .addGlobal global
  | .removeFunction id => .removeFunction id
  | .removeGlobal id => .removeGlobal id

namespace Program

/-- Changing a function by an edit is the operation. -/
theorem editFunction_eq (program : Program) (id : FunctionId) (change : Function → Function) :
    (program.editFunction id change).1 = program.perform (.update id change) := by
  rw [editFunction, perform]
  cases program.updateFunction? id change <;> rfl

/-- An edit performs its operation. -/
theorem edit_eq_perform (program : Program) (edit : Edit) :
    (program.edit edit).1 = program.perform edit.operation := by
  cases edit with
  | addFunction function =>
    rw [Program.edit, Edit.operation, perform]
    cases program.addFunction function <;> rfl
  | addGlobal global =>
    rw [Program.edit, Edit.operation, perform]
    cases program.addGlobal global <;> rfl
  | removeFunction id =>
    rw [Program.edit, Edit.operation, perform]
    cases program.removeFunction? id <;> rfl
  | removeGlobal id =>
    rw [Program.edit, Edit.operation, perform]
    cases program.removeGlobal? id <;> rfl
  | _ => exact program.editFunction_eq _ _

/-- Edits perform their operations in order. -/
theorem editAll_eq_performAll (program : Program) (edits : List Edit) :
    program.editAll edits = program.performAll (edits.map Edit.operation) := by
  unfold editAll performAll
  rw [List.foldl_map]
  congr 1
  funext current edit
  exact current.edit_eq_perform edit

/-! ## The record of a program -/

/-- A program whose open journals say what another program holds. -/
structure Journaled (start current : Program) : Prop where
  /-- The record of the functions. -/
  functions : Arena.Journaled start.functions current.functions
  /-- The record of the globals. -/
  globals : Arena.Journaled start.globals current.globals

/-- An operation is recorded. -/
theorem Journaled.perform {start current : Program} (journaled : Journaled start current)
    (operation : Operation) : Journaled start (current.perform operation) := by
  have ⟨functions, globals⟩ := journaled
  have performed := current.performs_perform operation
  generalize current.perform operation = next at performed ⊢
  cases performed with
  | refused => exact journaled
  | addFunction added => exact ⟨functions.add added, globals⟩
  | addGlobal added => exact ⟨functions, globals.add added⟩
  | update updated => exact ⟨functions.update updated, globals⟩
  | removeFunction removed => exact ⟨functions.remove removed, globals⟩
  | removeGlobal removed => exact ⟨functions, globals.remove removed⟩

/-- All operations after the journals were opened are recorded. -/
theorem journaled_performAll (start : Program) (operations : List Operation) :
    Journaled start (start.openJournal.performAll operations) := by
  have run : ∀ current, Journaled start current →
      Journaled start (current.performAll operations) := by
    induction operations with
    | nil => exact fun _ journaled => journaled
    | cons operation rest ih => exact fun current journaled => ih _ (journaled.perform operation)
  exact run _ ⟨.opened start.functions, .opened start.globals⟩

/-! ## The program before -/

section

variable {start current : Program} (journaled : Journaled start current)

include journaled

/-- The view before the changes finds the functions that were there. -/
theorem Journaled.viewBefore_function? :
    (current.changes.viewBefore current.closeJournal).function? = start.function? :=
  funext journaled.functions.before

/-- The view before the changes finds the globals that were there. -/
theorem Journaled.viewBefore_global? :
    (current.changes.viewBefore current.closeJournal).global? = start.global? :=
  funext journaled.globals.before

/-- The view before the changes is large enough for what was there. -/
theorem Journaled.viewBefore_sized :
    (current.changes.viewBefore current.closeJournal).Sized := by
  have within (id : FunctionId) (function : Function)
      (found : (current.changes.viewBefore current.closeJournal).function? id = some function) :
      id.slot < current.functions.slotCount := by
    rw [journaled.viewBefore_function?] at found
    exact Nat.lt_of_lt_of_le (Arena.slot_lt_of_get? found) journaled.functions.slots
  refine ⟨within, fun id global found => ?_, fun id function found => ?_⟩
  · rw [journaled.viewBefore_global?] at found
    exact Nat.lt_of_lt_of_le (Arena.slot_lt_of_get? found) journaled.globals.slots
  · exact Nat.lt_of_lt_of_le (within id function found) (Nat.le_add_right _ _)

/-- The view before the changes has the reachable part that the program had. -/
theorem Journaled.viewBefore_reachable :
    (current.changes.viewBefore current.closeJournal).reachable = start.reachable :=
  View.reachable_congr start.view_sized journaled.viewBefore_sized journaled.viewBefore_function?
    journaled.viewBefore_global?

/-- The view before the changes has the traces that the program had. -/
theorem Journaled.viewBefore_effectTrace (id : FunctionId) :
    (current.changes.viewBefore current.closeJournal).effectTrace id =
      start.view.effectTrace id := by
  have enough : start.view.capacity ≤
      (current.changes.viewBefore current.closeJournal).capacity :=
    Nat.le_trans journaled.functions.slots (Nat.le_add_right _ _)
  exact (View.eq_of_function? journaled.viewBefore_function? start.findsBelow enough id).2.2

end

/-- The changes recorded between opening and closing the journals show the program as it
was, whatever was done meanwhile: its functions and globals, its reachable part and all its
traces. A function that has changed is among the touched ones. -/
theorem changes_show_start (start : Program) (operations : List Operation) :
    let finish := start.openJournal.performAll operations
    let after := finish.closeJournal
    (∀ id, finish.changes.functionBefore? after id = start.function? id) ∧
      (∀ id, finish.changes.globalBefore? after id = start.global? id) ∧
      (∀ id, start.function? id ≠ after.function? id → finish.changes.touches id = true) ∧
      (finish.changes.viewBefore after).reachable = start.reachable ∧
      ∀ id, (finish.changes.viewBefore after).effectTrace id = start.view.effectTrace id := by
  intro finish after
  have journaled := journaled_performAll start operations
  refine ⟨journaled.functions.before, journaled.globals.before, fun id differs => ?_,
    journaled.viewBefore_reachable, journaled.viewBefore_effectTrace⟩
  by_contra untouched
  exact differs (journaled.functions.get?_of_untouched (Bool.eq_false_iff.mpr untouched)).symm

/-- An entry point that calls `send`, which sends the value of a global. -/
def depot : Program where
  functions.slots := [
    some { name := entryPoint, body := [.eval (.call ⟨1⟩ [])] },
    some { name := "send", body := [.emit 1 (.global ⟨0⟩)] }]
  functions.index := Table.ofList [(entryPoint, ⟨0⟩), ("send", ⟨1⟩)]
  globals.slots := [some { name := "level", type := .u64 }]
  globals.index := Table.ofList [("level", ⟨0⟩)]

/-- Edits of `depot`: `send` is changed and then removed, its name is taken by a new
function, another new function is removed again, and the global is replaced. -/
def refit : List Edit := [
  .setBody ⟨1⟩ [],
  .removeFunction ⟨1⟩,
  .addFunction { name := "send", exported := true },
  .addFunction { name := "spare" },
  .removeFunction ⟨3⟩,
  .setBody ⟨0⟩ [.eval (.call ⟨2⟩ [])],
  .removeGlobal ⟨0⟩,
  .addGlobal { name := "level", type := .bool }]

/-- After the edits `send` is gone and its name belongs to another function. The record
still shows the function that it was, and where the entry point led. -/
theorem changes_show_start_depot :
    let finish := depot.openJournal.editAll refit
    let after := finish.closeJournal
    after.function? ⟨1⟩ = none ∧ after.functions.idOf? "send" = some ⟨2⟩ ∧
      finish.changes.functions.keys = [⟨0⟩, ⟨1⟩, ⟨2⟩, ⟨3⟩] ∧
      depot.function? ⟨1⟩ ≠ after.function? ⟨1⟩ ∧ finish.changes.touches ⟨1⟩ = true ∧
      finish.changes.functionBefore? after ⟨1⟩ = depot.function? ⟨1⟩ ∧
      finish.changes.globalBefore? after ⟨0⟩ = depot.global? ⟨0⟩ ∧
      (finish.changes.viewBefore after).reachable = depot.reachable ∧
      (finish.changes.viewBefore after).effectTrace ⟨0⟩ = depot.view.effectTrace ⟨0⟩ := by
  intro finish after
  have gone : after.function? ⟨1⟩ = none := by decide +kernel
  have renamed : after.functions.idOf? "send" = some ⟨2⟩ := by decide +kernel
  have touched : finish.changes.functions.keys = [⟨0⟩, ⟨1⟩, ⟨2⟩, ⟨3⟩] := by decide +kernel
  have differs : depot.function? ⟨1⟩ ≠ after.function? ⟨1⟩ := by
    rw [gone]
    decide
  have shown := changes_show_start depot (refit.map Edit.operation)
  rw [← editAll_eq_performAll] at shown
  obtain ⟨functions, globals, changed, reachable, traces⟩ := shown
  exact ⟨gone, renamed, touched, differs, changed ⟨1⟩ differs, functions ⟨1⟩, globals ⟨0⟩,
    reachable, traces ⟨0⟩⟩

end Program

end Timebound
