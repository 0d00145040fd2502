import Timebound.DeadCode
import Timebound.Proofs.LivePart
import Timebound.Proofs.NameIndex
import Timebound.Proofs.References

/-!
# Removal of dead code

Dead code elimination leaves the live part of a program and nothing else
(`DeadCode.removeDead_livePart`), so the analysis of the program does not change and
there is nothing left for a second removal. In a consistent program the reachable entries
exist; when moreover every name stands for the entry that has it, there are as many names
as entries, and comparing numbers tells whether there is dead code
(`DeadCode.hasWork_iff`).
-/

namespace Timebound

namespace Arena

variable {kind : Kind} {α : Type} [Named α] {arena : Arena kind α}

omit [Named α] in
/-- An arena without the entries of another one at some ids. -/
structure Emptied (arena left : Arena kind α) (dead : List (Id kind)) : Prop where
  /-- The entries elsewhere are left. -/
  get?_iff : ∀ id entry, left.get? id = some entry ↔ arena.get? id = some entry ∧ id ∉ dead
  /-- No slot is given up. -/
  slots : left.slotCount = arena.slotCount

omit [Named α] in
/-- Nothing is missing at no ids. -/
theorem Emptied.refl (arena : Arena kind α) : Emptied arena arena [] :=
  ⟨fun _ _ => (and_iff_left List.not_mem_nil).symm, rfl⟩

/-- A removal leaves all entries but its own. -/
theorem Emptied.remove {left : Arena kind α} {id : Id kind} {entry : α}
    (removed : arena.remove? id = some (entry, left)) : Emptied arena left [id] := by
  refine ⟨fun other held => ?_, slotCount_remove removed⟩
  rw [get?_remove removed, List.mem_singleton]
  by_cases same : other = id
  · simp [same]
  · simp [same]

omit [Named α] in
/-- What is missing after two steps is missing after one of them. -/
theorem Emptied.trans {middle left : Arena kind α} {first second : List (Id kind)}
    (one : Emptied arena middle first) (two : Emptied middle left second) :
    Emptied arena left (first ++ second) := by
  refine ⟨fun id entry => ?_, two.slots.trans one.slots⟩
  rw [two.get?_iff, one.get?_iff, List.mem_append, not_or, and_assoc]

omit [Named α] in
/-- The entries elsewhere are present. -/
theorem Emptied.isSome {left : Arena kind α} {dead : List (Id kind)}
    (emptied : Emptied arena left dead) {id : Id kind} (present : (arena.get? id).isSome = true)
    (kept : id ∉ dead) : (left.get? id).isSome = true := by
  obtain ⟨entry, found⟩ := Option.isSome_iff_exists.mp present
  exact Option.isSome_iff_exists.mpr ⟨entry, (emptied.get?_iff id entry).mpr ⟨found, kept⟩⟩

end Arena

namespace DeadCode

/-! ## Removal -/

/-- What one removal has dropped more than another one. -/
structure Drops (before after : Removal) (functions : List FunctionId) (globals : List GlobalId) :
    Prop where
  /-- The functions are missing. -/
  functionsLeft : Arena.Emptied before.program.functions after.program.functions functions
  /-- The globals are missing. -/
  globalsLeft : Arena.Emptied before.program.globals after.program.globals globals
  /-- The functions are counted. -/
  functionCount : after.functions = before.functions + functions.length
  /-- The globals are counted. -/
  globalCount : after.globals = before.globals + globals.length

/-- A removal has dropped nothing more than itself. -/
theorem Drops.refl (removal : Removal) : Drops removal removal [] [] :=
  ⟨.refl _, .refl _, rfl, rfl⟩

/-- What is dropped in two steps is dropped in one of them. -/
theorem Drops.trans {before middle after : Removal} {functions laterFunctions : List FunctionId}
    {globals laterGlobals : List GlobalId} (one : Drops before middle functions globals)
    (two : Drops middle after laterFunctions laterGlobals) :
    Drops before after (functions ++ laterFunctions) (globals ++ laterGlobals) := by
  have functionCount := two.functionCount
  have globalCount := two.globalCount
  refine ⟨one.functionsLeft.trans two.functionsLeft, one.globalsLeft.trans two.globalsLeft, ?_, ?_⟩
  · rw [functionCount, one.functionCount, List.length_append, Nat.add_assoc]
  · rw [globalCount, one.globalCount, List.length_append, Nat.add_assoc]

/-- Dropping a function that is present drops it and nothing else. -/
theorem drops_dropFunction {removal : Removal} {id : FunctionId}
    (present : (removal.program.function? id).isSome = true) :
    Drops removal (removal.dropFunction id) [id] [] := by
  obtain ⟨function, found⟩ := Option.isSome_iff_exists.mp present
  cases removed : removal.program.functions.remove? id with
  | none => simp [Arena.remove?, show removal.program.functions.get? id = _ from found] at removed
  | some pair =>
    rw [Removal.dropFunction, Program.removeFunction?, removed]
    exact ⟨.remove removed, .refl _, rfl, rfl⟩

/-- Dropping a global that is present drops it and nothing else. -/
theorem drops_dropGlobal {removal : Removal} {id : GlobalId}
    (present : (removal.program.global? id).isSome = true) :
    Drops removal (removal.dropGlobal id) [] [id] := by
  obtain ⟨global, found⟩ := Option.isSome_iff_exists.mp present
  cases removed : removal.program.globals.remove? id with
  | none => simp [Arena.remove?, show removal.program.globals.get? id = _ from found] at removed
  | some pair =>
    rw [Removal.dropGlobal, Program.removeGlobal?, removed]
    exact ⟨.refl _, .remove removed, rfl, rfl⟩

/-- Dropping different functions that are present drops all of them. -/
theorem drops_foldl_dropFunction : ∀ {ids : List FunctionId} {removal : Removal}, ids.Nodup →
    (∀ id ∈ ids, (removal.program.function? id).isSome = true) →
      Drops removal (ids.foldl .dropFunction removal) ids []
  | [], removal, _, _ => .refl removal
  | id :: rest, removal, distinct, present => by
    have ⟨fresh, distinctRest⟩ := List.nodup_cons.mp distinct
    have first := drops_dropFunction (present id List.mem_cons_self)
    refine first.trans (drops_foldl_dropFunction distinctRest fun other listed => ?_)
    have apart : other ∉ [id] := fun same => fresh (List.mem_singleton.mp same ▸ listed)
    exact first.functionsLeft.isSome (present other (List.mem_cons_of_mem _ listed)) apart

/-- Dropping different globals that are present drops all of them. -/
theorem drops_foldl_dropGlobal : ∀ {ids : List GlobalId} {removal : Removal}, ids.Nodup →
    (∀ id ∈ ids, (removal.program.global? id).isSome = true) →
      Drops removal (ids.foldl .dropGlobal removal) [] ids
  | [], removal, _, _ => .refl removal
  | id :: rest, removal, distinct, present => by
    have ⟨fresh, distinctRest⟩ := List.nodup_cons.mp distinct
    have first := drops_dropGlobal (present id List.mem_cons_self)
    refine first.trans (drops_foldl_dropGlobal distinctRest fun other listed => ?_)
    have apart : other ∉ [id] := fun same => fresh (List.mem_singleton.mp same ▸ listed)
    exact first.globalsLeft.isSome (present other (List.mem_cons_of_mem _ listed)) apart

/-! ## Dead entries -/

section

variable {program left : Program}

/-- The dead functions are those that outside code cannot get to. -/
theorem mem_deadFunctions {id : FunctionId} : id ∈ deadFunctions program ↔
    (program.function? id).isSome = true ∧ ¬program.Reaches id := by
  rw [deadFunctions, List.mem_filter, ← Program.mem_reachable_functions, ← OrderedSet.contains_iff]
  refine and_congr Arena.mem_ids ?_
  simp

/-- The dead globals are those that outside code cannot get to. -/
theorem mem_deadGlobals {id : GlobalId} : id ∈ deadGlobals program ↔
    (program.global? id).isSome = true ∧ ¬program.ReachesGlobal id := by
  rw [deadGlobals, List.mem_filter, ← Program.mem_reachable_globals, ← OrderedSet.contains_iff]
  refine and_congr Arena.mem_ids ?_
  simp

/-- The removal drops what is dead. -/
theorem drops_removeDead (program : Program) :
    Drops { program } (removeDead program) (deadFunctions program) (deadGlobals program) := by
  have distinctFunctions : (deadFunctions program).Nodup := program.functions.nodup_ids.filter _
  have distinctGlobals : (deadGlobals program).Nodup := program.globals.nodup_ids.filter _
  have functions : Drops { program } ((deadFunctions program).foldl .dropFunction { program })
      (deadFunctions program) [] :=
    drops_foldl_dropFunction distinctFunctions fun id listed => (mem_deadFunctions.mp listed).1
  have globals := drops_foldl_dropGlobal distinctGlobals fun id listed =>
    functions.globalsLeft.isSome (mem_deadGlobals.mp listed).1 List.not_mem_nil
  have both := functions.trans globals
  rwa [List.append_nil, List.nil_append] at both

/-- The removal leaves the live part of a program. -/
theorem removeDead_livePart (program : Program) :
    program.LivePart (removeDead program).program := by
  have dropped := drops_removeDead program
  refine ⟨fun id function => ?_, fun id global => ?_, dropped.functionsLeft.slots,
    dropped.globalsLeft.slots⟩
  · refine (dropped.functionsLeft.get?_iff id function).trans (and_congr_right fun found => ?_)
    have present : (program.function? id).isSome = true := by
      rw [show program.function? id = _ from found]
      rfl
    rw [mem_deadFunctions, not_and, not_not]
    exact imp_iff_right present
  · refine (dropped.globalsLeft.get?_iff id global).trans (and_congr_right fun found => ?_)
    have present : (program.global? id).isSome = true := by
      rw [show program.global? id = _ from found]
      rfl
    rw [mem_deadGlobals, not_and, not_not]
    exact imp_iff_right present

/-- Nothing is dead in the live part of a program. -/
theorem removeDead_of_livePart (live : program.LivePart left) :
    removeDead left = { program := left } := by
  have functions : deadFunctions left = [] := by
    refine List.eq_nil_iff_forall_not_mem.mpr fun id listed => ?_
    have ⟨present, unreached⟩ := mem_deadFunctions.mp listed
    exact unreached (live.reaches_iff.mpr (live.reaches_of_isSome present))
  have globals : deadGlobals left = [] := by
    refine List.eq_nil_iff_forall_not_mem.mpr fun id listed => ?_
    have ⟨present, unreached⟩ := mem_deadGlobals.mp listed
    obtain ⟨global, found⟩ := Option.isSome_iff_exists.mp present
    exact unreached (live.reachesGlobal_iff.mpr ((live.global?_iff id global).mp found).2)
  rw [removeDead, functions, globals]
  rfl

/-- A program has something that another one has not. -/
def Loses (program left : Program) : Prop :=
  (∃ id, (program.function? id).isSome = true ∧ left.function? id = none) ∨
    ∃ id, (program.global? id).isSome = true ∧ left.global? id = none

/-- The live part lacks what outside code cannot get to. -/
theorem loses_iff (live : program.LivePart left) : Loses program left ↔
    (∃ id, id ∈ deadFunctions program) ∨ ∃ id, id ∈ deadGlobals program := by
  have functions (id : FunctionId) (present : (program.function? id).isSome = true) :
      left.function? id = none ↔ ¬program.Reaches id := by
    refine ⟨fun missing reached => ?_, fun unreached => ?_⟩
    · rw [← live.function?_of_reaches reached, missing] at present
      cases present
    · by_contra found
      exact unreached (live.reaches_of_isSome (Option.isSome_iff_ne_none.mpr found))
  have globals (id : GlobalId) (present : (program.global? id).isSome = true) :
      left.global? id = none ↔ ¬program.ReachesGlobal id := by
    obtain ⟨global, found⟩ := Option.isSome_iff_exists.mp present
    refine ⟨fun missing reached => ?_, fun unreached => ?_⟩
    · have kept := (live.global?_iff id global).mpr ⟨found, reached⟩
      rw [missing] at kept
      cases kept
    · refine Option.eq_none_iff_forall_ne_some.mpr fun other kept => ?_
      exact unreached ((live.global?_iff id other).mp kept).2
  simp only [Loses, mem_deadFunctions, mem_deadGlobals]
  exact or_congr (exists_congr fun id => and_congr_right (functions id))
    (exists_congr fun id => and_congr_right (globals id))

/-- A removal reports a change when it has dropped something. -/
theorem modified_removeDead_iff (program : Program) :
    (removeDead program).outcome.modified = true ↔
      (∃ id, id ∈ deadFunctions program) ∨ ∃ id, id ∈ deadGlobals program := by
  have dropped := drops_removeDead program
  have counted : (removeDead program).outcome.modified =
      ((deadFunctions program).length + (deadGlobals program).length != 0) := by
    have functions : (removeDead program).functions = (deadFunctions program).length := by
      simpa using dropped.functionCount
    have globals : (removeDead program).globals = (deadGlobals program).length := by
      simpa using dropped.globalCount
    rw [Removal.outcome, Outcome.modified_count, Outcome.modified_count, functions, globals]
  rw [counted, ← List.length_pos_iff_exists_mem, ← List.length_pos_iff_exists_mem, bne_iff_ne]
  omega

/-- In a consistent program whose names stand for its entries, there is work exactly when
something is dead. -/
theorem hasWork_iff (faultless : program.fault? = none) (indexed : program.Indexed)
    {profile : Option Profile} {analysis : Analysis}
    (analyzed : program.analyze profile = .ok analysis) :
    hasWork program analysis = true ↔
      (∃ id, id ∈ deadFunctions program) ∨ ∃ id, id ∈ deadGlobals program := by
  have known : analysis.reachable = program.reachable := by
    simp only [Program.analyze, bind_eq_ok_iff, Except.ok.injEq] at analyzed
    obtain ⟨_, _, _, _, rfl⟩ := analyzed
    rfl
  have functionsLive (id : FunctionId) (listed : id ∈ program.reachable.functions.keys) :
      (program.functions.get? id).isSome = true :=
    (Program.mem_reachable_functions.mp listed).isSome
  have globalsLive (id : GlobalId) (listed : id ∈ program.reachable.globals.keys) :
      (program.globals.get? id).isSome = true := by
    cases Program.mem_reachable_globals.mp listed with
    | exported found _ => exact Option.isSome_iff_exists.mpr ⟨_, found⟩
    | mention _ found mentioned => exact Program.isSome_of_mentioned faultless found mentioned
  rw [hasWork, known, Bool.or_eq_true, decide_eq_true_iff, decide_eq_true_iff,
    indexed.functions.size_lt_count_iff functionsLive,
    indexed.globals.size_lt_count_iff globalsLive]
  simp only [mem_deadFunctions, mem_deadGlobals, Program.mem_reachable_functions,
    Program.mem_reachable_globals]
  rfl

/-- Dead code elimination leaves what is used, unchanged and in its place, and nothing else.
It reports a change exactly when something is gone. The analysis gives the same result or
the same failure as before, whatever the profile, and another elimination changes nothing.
For a consistent program whose names stand for its entries, the pass is applicable exactly
when it removes something. -/
theorem transform_leaves_used (program : Program) (earlier : Nat) (analysis : Analysis) :
    ∃ left outcome, pass.transform earlier program analysis = (left, .ok outcome) ∧
      (∀ id function, left.function? id = some function ↔
        program.function? id = some function ∧ program.Used id) ∧
      (∀ id global, left.global? id = some global ↔
        program.global? id = some global ∧ program.UsedGlobal id) ∧
      (outcome.modified = true ↔ Loses program left) ∧
      (∀ profile, left.analyze profile = program.analyze profile) ∧
      (∀ later other, pass.transform later left other = (left, .ok {})) ∧
      (program.fault? = none → program.Indexed →
        ∀ profile known, program.analyze profile = .ok known →
          (pass.applicable earlier program known = true ↔ Loses program left)) := by
  have live := removeDead_livePart program
  have lost := loses_iff live
  have functions (id : FunctionId) (function : Function) :
      (removeDead program).program.function? id = some function ↔
        program.function? id = some function ∧ program.Used id :=
    (live.function?_iff id function).trans (and_congr_right fun _ => Program.reaches_iff_used)
  have globals (id : GlobalId) (global : Global) :
      (removeDead program).program.global? id = some global ↔
        program.global? id = some global ∧ program.UsedGlobal id :=
    (live.global?_iff id global).trans (and_congr_right fun _ => Program.reachesGlobal_iff_used)
  have again :
      removeDead (removeDead program).program = { program := (removeDead program).program } :=
    removeDead_of_livePart live
  refine ⟨(removeDead program).program, (removeDead program).outcome, rfl, functions, globals,
    (modified_removeDead_iff program).trans lost.symm, live.analyze_eq, fun later other => ?_,
    fun faultless indexed profile known analyzed =>
      (hasWork_iff faultless indexed analyzed).trans lost.symm⟩
  simp only [pass, again]
  rfl

end

/-- A program with dead code: `spare` and `echo`, which call each other, and the global that
they write. -/
def attic : Program := Program.performAll {} [
  .addFunction { name := entryPoint, body := [.eval (.call ⟨1⟩ [])] },
  .addFunction { name := "send", body := [.emit 1 (.global ⟨0⟩)] },
  .addFunction { name := "spare", body := [.eval (.call ⟨3⟩ [])] },
  .addFunction { name := "echo", body := [.setGlobal ⟨1⟩ (.global ⟨0⟩), .eval (.call ⟨2⟩ [])] },
  .addGlobal { name := "level", type := .u64 },
  .addGlobal { name := "last", type := .u64 }]

/-- The analysis of `attic`. -/
def atticAnalysis : Analysis := (attic.analyze none).toOption.getD {}

/-- The calls between `spare` and `echo` form a cycle, which would be an error if they were
live. As it is, the program can be analyzed, and it has the same analysis without them. -/
theorem transform_leaves_used_attic :
    attic.fault? = none ∧ attic.Indexed ∧ attic.analyze none = .ok atticAnalysis ∧
      atticAnalysis.reachable.functions.keys = [⟨0⟩, ⟨1⟩] ∧
      ∃ left outcome, pass.transform 0 attic atticAnalysis = (left, .ok outcome) ∧
        Loses attic left ∧ outcome.modified = true ∧
        pass.applicable 0 attic atticAnalysis = true ∧
        left.analyze none = .ok atticAnalysis ∧
        pass.transform 1 left atticAnalysis = (left, .ok {}) := by
  have faultless : attic.fault? = none := by decide +kernel
  have indexed : attic.Indexed :=
    Program.Indexed.performAll ⟨Arena.Indexed.empty, Arena.Indexed.empty⟩
      (by simp [Operation.KeepsNames])
  have analyzed : attic.analyze none = .ok atticAnalysis := rfl
  have reachable : atticAnalysis.reachable.functions.keys = [⟨0⟩, ⟨1⟩] := by decide +kernel
  have work : pass.applicable 0 attic atticAnalysis = true := by decide +kernel
  obtain ⟨left, outcome, done, _, _, reported, same, again, applicable⟩ :=
    transform_leaves_used attic 0 atticAnalysis
  have lost : Loses attic left := (applicable faultless indexed none atticAnalysis analyzed).mp work
  exact ⟨faultless, indexed, analyzed, reachable, left, outcome, done, lost, reported.mpr lost,
    work, (same none).trans analyzed, again 1 atticAnalysis⟩

end DeadCode

end Timebound
