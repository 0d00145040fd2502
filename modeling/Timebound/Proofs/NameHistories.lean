import Timebound.Proofs.NameIndex

/-!
# Names and ids over a whole history

A program starts empty and is then edited and journaled in any order. A chronicle keeps,
beside the program, the ids that its additions returned. What one deed does to either arena
is said once (`Arena.Step`), for functions and globals alike: every id given out is the next
unused slot, and a slot that has been used and is vacant stays so. Over a history without
renamings, names and entries therefore agree, and no id is given out twice
(`Chronicle.names_agree`).
-/

namespace Timebound

namespace Arena

variable {kind : Kind} {α : Type} [Named α] {arena next : Arena kind α}

/-! ## One deed -/

/-- What one deed does to an arena, with the id it returns if it adds an entry. -/
inductive Step (arena : Arena kind α) : Option (Id kind) → Arena kind α → Prop where
  | journal (journal : Option (PreImages kind α)) : Step arena none { arena with journal }
  | add {entry : α} {id : Id kind} {grown : Arena kind α}
      (added : arena.add? entry = some (id, grown)) : Step arena (some id) grown
  | update {id : Id kind} {change : α → α} {changed : Arena kind α}
      (kept : ∀ entry, Named.name (change entry) = Named.name entry)
      (updated : arena.update? id change = some changed) : Step arena none changed
  | remove {id : Id kind} {entry : α} {left : Arena kind α}
      (removed : arena.remove? id = some (entry, left)) : Step arena none left

/-- A deed that does not concern an arena. -/
theorem Step.idle (arena : Arena kind α) : arena.Step none arena := .journal arena.journal

/-- A deed keeps an arena indexed. -/
theorem Step.indexed {given : Option (Id kind)} (step : arena.Step given next)
    (indexed : arena.Indexed) : next.Indexed := by
  cases step with
  | journal => exact indexed
  | add added => exact indexed.add added
  | update kept updated => exact indexed.update updated kept
  | remove removed => exact indexed.remove removed

/-- An addition returns the first unused slot. -/
theorem slot_add {entry : α} {id : Id kind} (added : arena.add? entry = some (id, next)) :
    id = ⟨arena.slotCount⟩ := by
  unfold add? at added
  split at added
  · cases added
  · exact (Prod.mk.inj (Option.some.inj added)).1.symm

/-- The slots used after a deed are those used before, and the one given out. -/
theorem Step.slots {given : Option (Id kind)} (step : arena.Step given next) :
    (List.range next.slotCount).map Id.mk =
      (List.range arena.slotCount).map Id.mk ++ given.toList := by
  cases step with
  | journal => simp [slotCount]
  | add added => simp [(slotCount_add added).1, slot_add added, List.range_succ]
  | update _ updated => simp [slotCount_update updated]
  | remove removed => simp [slotCount_remove removed]

/-- A deed fills no vacant slot that was used before. -/
theorem Step.vacant {given : Option (Id kind)} (step : arena.Step given next) {id : Id kind}
    (used : id.slot < arena.slotCount) (vacant : arena.get? id = none) : next.get? id = none := by
  cases step with
  | journal => exact vacant
  | add added =>
    have apart : id ≠ ⟨arena.slotCount⟩ := by
      rintro rfl
      exact Nat.lt_irrefl _ used
    rw [get?_add added, slot_add added, if_neg apart, vacant]
  | @update changed change _ _ updated =>
    rw [get?_update updated]
    by_cases same : id = changed
    · rw [if_pos same, ← same, vacant, Option.map_none]
    · rw [if_neg same, vacant]
  | remove removed => rw [get?_remove removed, vacant, ite_self]

/-! ## Along a history -/

/-- An arena that came out of another one without refilling a slot. -/
structure Succeeds (start arena : Arena kind α) : Prop where
  /-- No slot was given up. -/
  slots : start.slotCount ≤ arena.slotCount
  /-- Used slots that were vacant are vacant. -/
  vacant : ∀ id, id.slot < start.slotCount → start.get? id = none → arena.get? id = none

omit [Named α] in
/-- No deed, no change. -/
theorem Succeeds.refl (arena : Arena kind α) : arena.Succeeds arena :=
  ⟨Nat.le_refl _, fun _ _ vacant => vacant⟩

/-- A deed refills no slot. -/
theorem Succeeds.step {start : Arena kind α} (succeeds : start.Succeeds arena)
    {given : Option (Id kind)} (step : arena.Step given next) : start.Succeeds next where
  slots := by
    have lengths := congrArg List.length step.slots
    have kept := succeeds.slots
    simp only [List.length_map, List.length_range, List.length_append] at lengths
    omega
  vacant := fun id used vacant =>
    step.vacant (used.trans_le succeeds.slots) (succeeds.vacant id used vacant)

/-- An arena whose names stand for its entries, with the ids given out for it, oldest first. -/
structure Tracks (arena : Arena kind α) (given : List (Id kind)) : Prop where
  /-- The names stand for the entries. -/
  indexed : arena.Indexed
  /-- Ids were given out slot by slot. -/
  slots : given = (List.range arena.slotCount).map Id.mk

namespace Tracks

variable {given : List (Id kind)}

/-- An arena that was never used. -/
theorem empty : ({} : Arena kind α).Tracks [] := ⟨.empty, rfl⟩

/-- A deed keeps an arena and the ids given out for it together. -/
theorem step (tracks : arena.Tracks given) {returned : Option (Id kind)}
    (step : arena.Step returned next) : next.Tracks (given ++ returned.toList) :=
  ⟨step.indexed tracks.indexed, by rw [step.slots, tracks.slots]⟩

/-- The ids given out are those of the used slots. -/
theorem mem_iff (tracks : arena.Tracks given) {id : Id kind} :
    id ∈ given ↔ id.slot < arena.slotCount := by
  rw [tracks.slots, List.mem_map]
  constructor
  · rintro ⟨slot, below, rfl⟩
    exact List.mem_range.mp below
  · exact fun below => ⟨id.slot, List.mem_range.mpr below, rfl⟩

end Tracks

/-- Some entry has the name. -/
def Taken (arena : Arena kind α) (name : String) : Prop :=
  ∃ id entry, arena.get? id = some entry ∧ Named.name entry = name

/-- In an indexed arena an addition is refused when some entry has its name. -/
theorem Indexed.add?_eq_none (indexed : arena.Indexed) (entry : α) :
    arena.add? entry = none ↔ arena.Taken (Named.name entry) := by
  have listed : arena.index.contains (Named.name entry) = true ↔
      arena.Taken (Named.name entry) := by
    rw [Table.contains, Option.isSome_iff_exists]
    exact exists_congr fun id => indexed (Named.name entry) id
  rw [← listed, add?]
  split <;> simp_all

/-- What a reader of an arena may rely on, given the ids returned for it and how many
additions were tried. -/
structure Agrees (arena : Arena kind α) (given : List (Id kind)) (tried : Nat) : Prop where
  /-- A name stands for a slot when that slot holds an entry of this name. -/
  found : ∀ name id, arena.idOf? name = some id ↔
    ∃ entry, arena.get? id = some entry ∧ Named.name entry = name
  /-- No two entries have one name. -/
  unique : ∀ id other entry held, arena.get? id = some entry → arena.get? other = some held →
    Named.name entry = Named.name held → id = other
  /-- The count is that of the entries. -/
  counted : arena.count = arena.entries.length
  /-- No id was returned twice. -/
  distinct : given.Nodup
  /-- Entries stand under ids that were returned. -/
  returned : ∀ id entry, arena.get? id = some entry → id ∈ given
  /-- Ids stay below the number of additions. -/
  bounded : ∀ id ∈ given, id.slot < tried

/-- An arena that tracks the ids given out agrees with its names. -/
theorem Tracks.agrees {given : List (Id kind)} (tracks : arena.Tracks given) {tried : Nat}
    (few : given.length ≤ tried) : arena.Agrees given tried where
  found := tracks.indexed
  unique := by
    intro id other entry held here there same
    have one := (tracks.indexed _ id).mpr ⟨entry, here, same⟩
    have two := (tracks.indexed _ other).mpr ⟨held, there, rfl⟩
    exact Option.some.inj (one.symm.trans two)
  counted := by rw [tracks.indexed.count_eq, ids, List.length_map]
  distinct := by
    rw [tracks.slots]
    exact List.nodup_range.map fun _ _ same => Id.mk.inj same
  returned := fun _ _ held => tracks.mem_iff.mpr (slot_lt_of_get? held)
  bounded := by
    intro id listed
    have below := tracks.mem_iff.mp listed
    have length : given.length = arena.slotCount := by simp [tracks.slots]
    omega

end Arena

/-! ## Chronicles -/

/-- Something done to a program during its life. -/
inductive Deed where
  | operate (operation : Operation)
  | openJournal
  | closeJournal

namespace Deed

/-- A deed that does not rename a function. -/
def KeepsNames : Deed → Prop
  | .operate operation => operation.KeepsNames
  | .openJournal | .closeJournal => True

/-- The function that a deed tries to add. -/
def function? : Deed → Option Function
  | .operate (.addFunction function) => some function
  | _ => none

/-- The global that a deed tries to add. -/
def global? : Deed → Option Global
  | .operate (.addGlobal global) => some global
  | _ => none

end Deed

namespace Program

/-- The program after a deed. -/
def after (program : Program) : Deed → Program
  | .operate operation => program.perform operation
  | .openJournal => program.openJournal
  | .closeJournal => program.closeJournal

/-- The id that a deed returns for a new function. -/
def newFunction? (program : Program) (deed : Deed) : Option FunctionId :=
  deed.function?.bind fun function => (program.addFunction function).toOption.map (·.1)

/-- The id that a deed returns for a new global. -/
def newGlobal? (program : Program) (deed : Deed) : Option GlobalId :=
  deed.global?.bind fun global => (program.addGlobal global).toOption.map (·.1)

/-- What a deed does to the functions of a program. -/
theorem step_functions (program : Program) {deed : Deed} (kept : deed.KeepsNames) :
    program.functions.Step (program.newFunction? deed) (program.after deed).functions := by
  cases deed with
  | openJournal => exact .journal _
  | closeJournal => exact .journal _
  | operate operation =>
    cases operation with
    | addFunction function =>
      simp only [newFunction?, Deed.function?, Option.bind_some, after, perform, addFunction]
      cases added : program.functions.add? function with
      | none => exact .idle _
      | some pair => exact .add added
    | update id change =>
      rw [after, perform, updateFunction?]
      cases updated : program.functions.update? id change with
      | none => exact .idle _
      | some changed => exact .update kept updated
    | removeFunction id =>
      rw [after, perform, removeFunction?]
      cases removed : program.functions.remove? id with
      | none => exact .idle _
      | some pair => exact .remove removed
    | addGlobal global =>
      rw [after, perform, addGlobal]
      cases program.globals.add? global <;> exact .idle _
    | removeGlobal id =>
      rw [after, perform, removeGlobal?]
      cases program.globals.remove? id <;> exact .idle _

/-- What a deed does to the globals of a program. -/
theorem step_globals (program : Program) (deed : Deed) :
    program.globals.Step (program.newGlobal? deed) (program.after deed).globals := by
  cases deed with
  | openJournal => exact .journal _
  | closeJournal => exact .journal _
  | operate operation =>
    cases operation with
    | addGlobal global =>
      simp only [newGlobal?, Deed.global?, Option.bind_some, after, perform, addGlobal]
      cases added : program.globals.add? global with
      | none => exact .idle _
      | some pair => exact .add added
    | removeGlobal id =>
      rw [after, perform, removeGlobal?]
      cases removed : program.globals.remove? id with
      | none => exact .idle _
      | some pair => exact .remove removed
    | addFunction function =>
      rw [after, perform, addFunction]
      cases program.functions.add? function <;> exact .idle _
    | update id change =>
      rw [after, perform, updateFunction?]
      cases program.functions.update? id change <;> exact .idle _
    | removeFunction id =>
      rw [after, perform, removeFunction?]
      cases program.functions.remove? id <;> exact .idle _

/-- An addition of a function fails when the arena refuses it, always for its name. -/
theorem addFunction_eq_error (program : Program) (function : Function) (error : ProgramError) :
    program.addFunction function = .error error ↔
      program.functions.add? function = none ∧ error = .duplicateName .function function.name := by
  rw [addFunction]
  cases program.functions.add? function <;> simp [eq_comm]

/-- An addition of a global fails when the arena refuses it, always for its name. -/
theorem addGlobal_eq_error (program : Program) (global : Global) (error : ProgramError) :
    program.addGlobal global = .error error ↔
      program.globals.add? global = none ∧ error = .duplicateName .global global.name := by
  rw [addGlobal]
  cases program.globals.add? global <;> simp [eq_comm]

end Program

/-- A program with the ids that its additions returned, oldest first. -/
structure Chronicle where
  /-- The program. -/
  program : Program := {}
  /-- The ids returned for functions. -/
  functionIds : List FunctionId := []
  /-- The ids returned for globals. -/
  globalIds : List GlobalId := []

namespace Chronicle

/-- Do one more deed. -/
def extend (chronicle : Chronicle) (deed : Deed) : Chronicle where
  program := chronicle.program.after deed
  functionIds := chronicle.functionIds ++ (chronicle.program.newFunction? deed).toList
  globalIds := chronicle.globalIds ++ (chronicle.program.newGlobal? deed).toList

/-- Go on with a list of deeds. -/
def extendAll (chronicle : Chronicle) (deeds : List Deed) : Chronicle :=
  deeds.foldl extend chronicle

/-- The chronicle of a history that starts with the empty program. -/
def of (history : List Deed) : Chronicle := extendAll {} history

/-- A history can be cut anywhere. -/
theorem of_append (earlier later : List Deed) :
    of (earlier ++ later) = (of earlier).extendAll later := List.foldl_append

/-- Both arenas are in step with the ids given out. -/
structure Sound (chronicle : Chronicle) : Prop where
  /-- The functions. -/
  functions : chronicle.program.functions.Tracks chronicle.functionIds
  /-- The globals. -/
  globals : chronicle.program.globals.Tracks chronicle.globalIds

variable {chronicle start : Chronicle} {deed : Deed} {deeds : List Deed}

/-- A deed that renames nothing keeps a chronicle sound. -/
theorem Sound.extend (sound : chronicle.Sound) (kept : deed.KeepsNames) :
    (chronicle.extend deed).Sound :=
  ⟨sound.functions.step (chronicle.program.step_functions kept),
    sound.globals.step (chronicle.program.step_globals deed)⟩

/-- Deeds that rename nothing keep a chronicle sound. -/
theorem Sound.extendAll (sound : chronicle.Sound) (kept : ∀ deed ∈ deeds, deed.KeepsNames) :
    (chronicle.extendAll deeds).Sound := by
  induction deeds generalizing chronicle with
  | nil => exact sound
  | cons deed rest ih =>
    have first := sound.extend (kept deed List.mem_cons_self)
    exact ih first fun later listed => kept later (List.mem_cons_of_mem _ listed)

/-- A history that renames nothing has a sound chronicle. -/
theorem sound_of (kept : ∀ deed ∈ deeds, deed.KeepsNames) : (of deeds).Sound :=
  Sound.extendAll ⟨.empty, .empty⟩ kept

/-- Neither arena has refilled a slot since the start. -/
structure Succeeds (start chronicle : Chronicle) : Prop where
  /-- The functions. -/
  functions : start.program.functions.Succeeds chronicle.program.functions
  /-- The globals. -/
  globals : start.program.globals.Succeeds chronicle.program.globals

/-- Deeds that rename nothing refill no slot. -/
theorem Succeeds.extendAll (succeeds : start.Succeeds chronicle)
    (kept : ∀ deed ∈ deeds, deed.KeepsNames) : start.Succeeds (chronicle.extendAll deeds) := by
  induction deeds generalizing chronicle with
  | nil => exact succeeds
  | cons deed rest ih =>
    have first : start.Succeeds (chronicle.extend deed) :=
      ⟨succeeds.functions.step (chronicle.program.step_functions (kept deed List.mem_cons_self)),
        succeeds.globals.step (chronicle.program.step_globals deed)⟩
    exact ih first fun later listed => kept later (List.mem_cons_of_mem _ listed)

/-- At most one id is returned for an entry that a deed tries to add. -/
theorem length_returned {β γ : Type} (tries : Deed → Option β) (id? : β → Option γ) (deed : Deed)
    (rest : List Deed) :
    ((tries deed).bind id?).toList.length + (rest.filterMap tries).length ≤
      ((deed :: rest).filterMap tries).length := by
  rw [List.filterMap_cons]
  cases tries deed with
  | none => simp
  | some entry => cases given : id? entry <;> simp [given, Nat.add_comm]

/-- Deeds return no more ids than they try to add entries. -/
theorem length_extendAll (chronicle : Chronicle) (deeds : List Deed) :
    (chronicle.extendAll deeds).functionIds.length ≤
        chronicle.functionIds.length + (deeds.filterMap Deed.function?).length ∧
      (chronicle.extendAll deeds).globalIds.length ≤
        chronicle.globalIds.length + (deeds.filterMap Deed.global?).length := by
  induction deeds generalizing chronicle with
  | nil => exact ⟨Nat.le_refl _, Nat.le_refl _⟩
  | cons deed rest ih =>
    obtain ⟨functions, globals⟩ := ih (chronicle.extend deed)
    have oneFunction := length_returned Deed.function?
      (fun function => (chronicle.program.addFunction function).toOption.map (·.1)) deed rest
    have oneGlobal := length_returned Deed.global?
      (fun global => (chronicle.program.addGlobal global).toOption.map (·.1)) deed rest
    simp only [extend, List.length_append, Program.newFunction?, Program.newGlobal?]
      at functions globals
    exact ⟨functions.trans (by omega), globals.trans (by omega)⟩

/-- A refused addition of a function changes nothing. -/
theorem extend_addFunction_refused {function : Function} {error : ProgramError}
    (refused : chronicle.program.addFunction function = .error error) :
    chronicle.extend (.operate (.addFunction function)) = chronicle := by
  simp [extend, Program.after, Program.perform, Program.newFunction?, Program.newGlobal?,
    Deed.function?, Deed.global?, refused, Except.toOption]

/-- A refused addition of a global changes nothing. -/
theorem extend_addGlobal_refused {global : Global} {error : ProgramError}
    (refused : chronicle.program.addGlobal global = .error error) :
    chronicle.extend (.operate (.addGlobal global)) = chronicle := by
  simp [extend, Program.after, Program.perform, Program.newFunction?, Program.newGlobal?,
    Deed.function?, Deed.global?, refused, Except.toOption]

/-- Over every history that renames no function, names and entries agree, for functions and
for globals: a name stands for the slot whose entry has it, no two entries have one name,
the counts are those of the entries, and no id is returned twice. A slot vacated at some
point of the history stays vacant. An addition fails exactly when an entry of its kind has
its name, and then nothing changes. Ids stay below the number of additions, so that they
fit into as many bits as that number does. -/
theorem names_agree (history : List Deed) (kept : ∀ deed ∈ history, deed.KeepsNames) :
    ((of history).program.functions.Agrees (of history).functionIds
        (history.filterMap Deed.function?).length ∧
      (of history).program.globals.Agrees (of history).globalIds
        (history.filterMap Deed.global?).length) ∧
    (∀ earlier later, history = earlier ++ later →
      (∀ id ∈ (of earlier).functionIds, (of earlier).program.function? id = none →
        (of history).program.function? id = none) ∧
      (∀ id ∈ (of earlier).globalIds, (of earlier).program.global? id = none →
        (of history).program.global? id = none)) ∧
    (∀ function error, (of history).program.addFunction function = .error error ↔
      (of history).program.functions.Taken function.name ∧
        error = .duplicateName .function function.name) ∧
    (∀ global error, (of history).program.addGlobal global = .error error ↔
      (of history).program.globals.Taken global.name ∧
        error = .duplicateName .global global.name) ∧
    (∀ function error, (of history).program.addFunction function = .error error →
      (of history).extend (.operate (.addFunction function)) = of history) ∧
    (∀ global error, (of history).program.addGlobal global = .error error →
      (of history).extend (.operate (.addGlobal global)) = of history) := by
  have sound := sound_of kept
  obtain ⟨functionsFew, globalsFew⟩ := length_extendAll {} history
  refine ⟨⟨sound.functions.agrees (by simpa [of] using functionsFew),
    sound.globals.agrees (by simpa [of] using globalsFew)⟩, ?_, ?_, ?_,
    fun _ _ => extend_addFunction_refused, fun _ _ => extend_addGlobal_refused⟩
  · rintro earlier later rfl
    have begun := sound_of fun deed listed => kept deed (List.mem_append_left later listed)
    have succeeds : (of earlier).Succeeds ((of earlier).extendAll later) :=
      Succeeds.extendAll ⟨.refl _, .refl _⟩ fun deed listed =>
        kept deed (List.mem_append_right earlier listed)
    rw [of_append]
    exact ⟨fun id listed => succeeds.functions.vacant id (begun.functions.mem_iff.mp listed),
      fun id listed => succeeds.globals.vacant id (begun.globals.mem_iff.mp listed)⟩
  · intro function error
    rw [Program.addFunction_eq_error, sound.functions.indexed.add?_eq_none]
    rfl
  · intro global error
    rw [Program.addGlobal_eq_error, sound.globals.indexed.add?_eq_none]
    rfl

/-- A function replaced by another one of its name while a journal is open, with a refused addition,
a change in place, and a global of the same name that comes and goes. -/
def turnover : List Deed := [
  .operate (.addFunction { name := "pilot" }),
  .openJournal,
  .operate (.removeFunction ⟨0⟩),
  .operate (.addFunction { name := "pilot", exported := true }),
  .operate (.addFunction { name := "pilot" }),
  .operate (.addGlobal { name := "pilot", type := .u64 }),
  .operate (.update ⟨1⟩ fun function => { function with recursionLimit := some 3 }),
  .operate (.removeGlobal ⟨0⟩),
  .closeJournal]

/-- The name has gone over to the second id, the first slot stays vacant, and a further addition
is refused for a function but not for a global. -/
theorem names_agree_turnover :
    (of turnover).functionIds = [⟨0⟩, ⟨1⟩] ∧ (of turnover).globalIds = [⟨0⟩] ∧
      (of turnover).program.functions.idOf? "pilot" = some ⟨1⟩ ∧
      (of turnover).program.functions.Agrees [⟨0⟩, ⟨1⟩] 3 ∧
      (of turnover).program.globals.Agrees [⟨0⟩] 1 ∧
      (of turnover).program.function? ⟨0⟩ = none ∧
      (of turnover).program.functions.Taken "pilot" ∧
      ¬ (of turnover).program.globals.Taken "pilot" := by
  have kept : ∀ deed ∈ turnover, deed.KeepsNames := by
    simp [turnover, Deed.KeepsNames, Operation.KeepsNames]
  obtain ⟨⟨functions, globals⟩, vacant, refusedFunction, refusedGlobal, _⟩ :=
    names_agree turnover kept
  refine ⟨rfl, rfl, rfl, functions, globals, ?_, ?_, ?_⟩
  · exact (vacant (turnover.take 3) (turnover.drop 3) rfl).1 ⟨0⟩ (by decide +kernel) rfl
  · exact ((refusedFunction { name := "pilot" } (.duplicateName .function "pilot")).mp rfl).1
  · intro taken
    have refused := (refusedGlobal { name := "pilot", type := .u64 } _).mpr ⟨taken, rfl⟩
    cases refused

end Chronicle

end Timebound
