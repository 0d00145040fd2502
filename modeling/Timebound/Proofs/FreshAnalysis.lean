import Timebound.Proofs.ConsistentPasses
import Timebound.Proofs.CycleGrowth
import Timebound.Proofs.PassReports
import Timebound.Proofs.Turns

/-!
# The cached analysis is never stale

A run analyzes the program anew only after a reported change. When passes that report no change
leave the content of the program alone, the analysis at hand is nevertheless that of the current
program, whenever a pass gets its turn and at the end (`Stage.Fresh`): the analysis depends on the
content only, and an accepted change brings a new analysis along. The bounds by name in the
statistics are then those of a fresh analysis, provided the reachable functions have different
names.
-/

namespace Timebound

/-! ## The analysis depends on the content -/

namespace Program

variable {program other left : Program}

/-- Programs of the same content have the same faults. -/
theorem fault?_of_sameContent (same : other.sameContent program = true) :
    other.fault? = program.fault? := by
  obtain ⟨⟨functionSlots, functionIndex, functionJournal⟩, ⟨globalSlots, _, _⟩⟩ := other
  obtain ⟨⟨_, _, _⟩, ⟨_, _, _⟩⟩ := program
  obtain ⟨functions, globals⟩ := sameContent_iff.mp same
  cases functions
  cases globals
  rfl

/-- Where the same functions are found, outside code gets to the same ones. -/
theorem Reaches.congr (same : other.function? = program.function?) {id : FunctionId}
    (reached : program.Reaches id) : other.Reaches id := by
  induction reached with
  | root found isRoot => exact .root (same ▸ found) isRoot
  | call _ found called existing ih => exact .call ih (same ▸ found) called (same ▸ existing)

/-- Programs of the same content have the same live part. -/
theorem LivePart.of_sameContent (live : program.LivePart left)
    (same : other.sameContent program = true) : other.LivePart left := by
  have ⟨functions, globals⟩ := lookup_of_sameContent same
  have ⟨functionSlots, globalSlots⟩ := sameContent_iff.mp same
  have reaches (id : FunctionId) : other.Reaches id ↔ program.Reaches id :=
    ⟨.congr functions.symm, .congr functions⟩
  have reachesGlobal (id : GlobalId) : other.ReachesGlobal id ↔ program.ReachesGlobal id := by
    constructor
    · rintro (⟨found, isExported⟩ | ⟨reached, found, mentioned⟩)
      · exact .exported (globals ▸ found) isExported
      · exact .mention ((reaches _).mp reached) (functions ▸ found) mentioned
    · rintro (⟨found, isExported⟩ | ⟨reached, found, mentioned⟩)
      · exact .exported (globals ▸ found) isExported
      · exact .mention ((reaches _).mpr reached) (functions ▸ found) mentioned
  refine ⟨fun id function => ?_, fun id global => ?_, ?_, ?_⟩
  · rw [functions, reaches]
    exact live.function?_iff id function
  · rw [globals, reachesGlobal]
    exact live.global?_iff id global
  · rw [live.functionSlots, Arena.slotCount, Arena.slotCount, functionSlots]
  · rw [live.globalSlots, Arena.slotCount, Arena.slotCount, globalSlots]

/-- Programs of the same content have the same analysis, or the same failure. -/
theorem analyze_of_sameContent (same : other.sameContent program = true)
    (profile : Option Profile) : other.analyze profile = program.analyze profile := by
  have live := DeadCode.removeDead_livePart program
  rw [← live.analyze_eq profile, ← (live.of_sameContent same).analyze_eq profile]

/-- The functions with a bound are those that outside code can get to. -/
theorem isSome_bound?_iff {profile : Option Profile} {analysis : Analysis}
    (analyzed : program.analyze profile = .ok analysis) {id : FunctionId} :
    (analysis.bound? id).isSome = true ↔ program.Reaches id := by
  obtain ⟨order, ordered, _, bounded⟩ := analyze_grounded analyzed
  constructor
  · intro known
    obtain ⟨bound, known⟩ := Option.isSome_iff_exists.mp known
    have listed := mem_callOrder_of_bound analyzed ordered known
    exact (DeadCode.removeDead_livePart program).reaches_of_ordered ordered listed
  · exact fun reached => bounded id (mem_callOrder_of_reaches ordered reached) reached.isSome

end Program

/-! ## Bounds by name -/

namespace Table

variable {κ ν : Type} [Ord κ] [Std.TransOrd κ] [Std.LawfulEqOrd κ]

/-- Inserting bindings of different keys adds them to a table. -/
theorem get?_foldl_insert {key : κ} {value : ν} : ∀ {bindings : List (κ × ν)} {table : Table κ ν},
    (bindings.map (·.1)).Nodup →
      ((bindings.foldl (fun held binding => held.insert binding.1 binding.2) table).get? key =
          some value ↔
        (key, value) ∈ bindings ∨ (key ∉ bindings.map (·.1) ∧ table.get? key = some value))
  | [], table, _ => by simp
  | (first, held) :: rest, table, distinct => by
    obtain ⟨fresh, restDistinct⟩ := List.nodup_cons.mp distinct
    rw [List.foldl_cons, get?_foldl_insert restDistinct, get?_insert]
    simp only [Std.LawfulEqOrd.compare_eq_iff_eq]
    by_cases same : key = first
    · subst same
      have absent (other : ν) : (key, other) ∉ rest := fun later =>
        fresh (List.mem_map.mpr ⟨_, later, rfl⟩)
      simp [absent, fresh, eq_comm]
    · simp [same]

/-- A table made of bindings of different keys holds exactly those. -/
theorem get?_ofList {bindings : List (κ × ν)} (distinct : (bindings.map (·.1)).Nodup) {key : κ}
    {value : ν} : (ofList bindings).get? key = some value ↔ (key, value) ∈ bindings := by
  rw [ofList, get?_foldl_insert distinct]
  simp

end Table

namespace Program

/-- No two functions that outside code can get to have the same name. -/
def DistinctNames (program : Program) : Prop :=
  ∀ id other function target, program.Reaches id → program.Reaches other →
    program.function? id = some function → program.function? other = some target →
      function.name = target.name → id = other

/-- Functions that all have different names have distinct names. -/
theorem distinctNames_of_nodup {program : Program}
    (different : (program.functions.entries.map fun entry => entry.2.name).Nodup) :
    program.DistinctNames := by
  intro id other function target _ _ found there same
  have one : (id, function) ∈ program.functions.entries := Arena.mem_entries.mpr found
  have two : (other, target) ∈ program.functions.entries := Arena.mem_entries.mpr there
  exact congrArg Prod.fst (List.inj_on_of_nodup_map different one two same)

end Program

/-- The analysis of a stage is the one of its program, which is consistent. -/
structure Stage.Fresh (stage : Stage) (profile : Option Profile) : Prop where
  /-- The program is consistent. -/
  consistent : stage.program.fault? = none
  /-- Analyzing it again gives the analysis at hand. -/
  analyzed : stage.program.analyze profile = .ok stage.analysis

namespace Optimizer

/-- The names of functions with their bounds, in the order in which they enter the table. -/
def nameBindings (stage : Stage) : List (String × Nat) :=
  stage.analysis.bounds.entries.filterMap fun entry =>
    (stage.program.function? entry.1).map fun function => (function.name, entry.2)

/-- A name is listed with the bounds of the functions that have it. -/
theorem mem_nameBindings {stage : Stage} {name : String} {bound : Nat} :
    (name, bound) ∈ nameBindings stage ↔
      ∃ id function, stage.program.function? id = some function ∧ function.name = name ∧
        stage.analysis.bound? id = some bound := by
  rw [nameBindings, List.mem_filterMap]
  constructor
  · rintro ⟨⟨id, held⟩, listed, made⟩
    obtain ⟨function, found, same⟩ := Option.map_eq_some_iff.mp made
    cases same
    exact ⟨id, function, found, rfl, Table.mem_entries.mp listed⟩
  · rintro ⟨id, function, found, rfl, known⟩
    exact ⟨(id, bound), Table.mem_entries.mpr known, by rw [found]; rfl⟩

section Bounds

variable {stage : Stage} {profile : Option Profile} (fresh : stage.Fresh profile)
  (distinct : stage.program.DistinctNames)

include fresh distinct

/-- Distinct names are listed once each. -/
theorem nodup_nameBindings : ((nameBindings stage).map (·.1)).Nodup := by
  have ids : stage.analysis.bounds.entries.Pairwise fun first second => first.1 ≠ second.1 :=
    List.pairwise_map.mp stage.analysis.bounds.nodup_keys
  have bounded (entry : FunctionId × Nat) (listed : entry ∈ stage.analysis.bounds.entries) :
      stage.program.Reaches entry.1 := by
    refine (Program.isSome_bound?_iff fresh.analyzed).mp ?_
    refine Option.isSome_iff_exists.mpr ⟨entry.2, ?_⟩
    exact Table.mem_entries.mp listed
  rw [List.Nodup, List.pairwise_map, nameBindings, List.pairwise_filterMap]
  refine ids.imp_of_mem fun {first second} one two apart => ?_
  intro binding made other remade same
  obtain ⟨function, found, rfl⟩ := Option.map_eq_some_iff.mp made
  obtain ⟨target, there, rfl⟩ := Option.map_eq_some_iff.mp remade
  exact apart (distinct _ _ _ _ (bounded first one) (bounded second two) found there same)

/-- The bounds by name are those of the functions that have the names. -/
theorem get?_boundsByName {name : String} {bound : Nat} :
    (boundsByName stage).get? name = some bound ↔
      ∃ id function, stage.program.function? id = some function ∧ function.name = name ∧
        stage.analysis.bound? id = some bound :=
  (Table.get?_ofList (nodup_nameBindings fresh distinct)).trans mem_nameBindings

/-- The bounds by name have an entry for each reachable function, under its name. -/
theorem keys_boundsByName : (boundsByName stage).keys.Perm
    (stage.program.reachable.functions.keys.map stage.program.functionLabel) := by
  have labelled {id : FunctionId} {function : Function}
      (found : stage.program.function? id = some function) :
      stage.program.functionLabel id = function.name := by
    rw [Program.functionLabel, found]
    rfl
  refine (List.perm_ext_iff_of_nodup (Table.nodup_keys _) ?_).mpr fun name => ?_
  · refine List.Nodup.map_on (fun id one other two same => ?_) (Table.nodup_keys _)
    have reached := Program.mem_reachable_functions.mp one
    have otherReached := Program.mem_reachable_functions.mp two
    obtain ⟨function, found⟩ := Option.isSome_iff_exists.mp reached.isSome
    obtain ⟨target, there⟩ := Option.isSome_iff_exists.mp otherReached.isSome
    rw [labelled found, labelled there] at same
    exact distinct _ _ _ _ reached otherReached found there same
  · rw [Table.mem_keys, Option.isSome_iff_exists, List.mem_map]
    simp only [get?_boundsByName fresh distinct]
    constructor
    · rintro ⟨bound, id, function, found, rfl, known⟩
      have reached := (Program.isSome_bound?_iff fresh.analyzed).mp
        (Option.isSome_iff_exists.mpr ⟨bound, known⟩)
      exact ⟨id, Program.mem_reachable_functions.mpr reached, labelled found⟩
    · rintro ⟨id, listed, rfl⟩
      have reached := Program.mem_reachable_functions.mp listed
      obtain ⟨function, found⟩ := Option.isSome_iff_exists.mp reached.isSome
      obtain ⟨bound, known⟩ := Option.isSome_iff_exists.mp
        ((Program.isSome_bound?_iff fresh.analyzed).mpr reached)
      exact ⟨bound, id, function, found, (labelled found).symm, known⟩

end Bounds

/-! ## Stages of a run -/

end Optimizer

/-- A pass that reports no change leaves the content of the program alone. -/
def Pass.KeepsUnmodified (pass : Pass) : Prop :=
  ∀ earlier program analysis outcome,
    (pass.execute earlier program analysis).result = .ok outcome → outcome.modified = false →
      (pass.execute earlier program analysis).program.sameContent program = true

/-- A pass reports a change exactly when the content of the program is another one, and records
nothing otherwise. -/
def Pass.Truthful (pass : Pass) : Prop :=
  ∀ earlier program analysis outcome,
    (pass.execute earlier program analysis).result = .ok outcome →
      (outcome.modified = true ↔
        (pass.execute earlier program analysis).program.sameContent program = false) ∧
      (outcome.modified = false → (pass.execute earlier program analysis).changes.isEmpty = true)

/-- A pass whose reports are true is truthful about its executions. -/
theorem Pass.Reports.truthful {pass : Pass} (reports : pass.Reports) : pass.Truthful := by
  intro earlier program analysis outcome reported
  have differs : outcome.modified = true →
      (pass.execute earlier program analysis).program.sameContent program = false :=
    fun modified => reports.busy reported modified
  refine ⟨⟨differs, fun changed => ?_⟩, fun unmodified => ?_⟩
  · by_contra unmodified
    have left := (reports.execute_idle reported (Bool.eq_false_iff.mpr unmodified)).1
    have same : program.closeJournal.sameContent program = true :=
      Program.sameContent_iff.mpr ⟨rfl, rfl⟩
    rw [left, same] at changed
    cases changed
  · rw [(reports.execute_idle reported unmodified).2]
    rfl

/-- A truthful pass leaves a program alone when it reports no change. -/
theorem Pass.Truthful.keepsUnmodified {pass : Pass} (truthful : pass.Truthful) :
    pass.KeepsUnmodified := by
  intro earlier program analysis outcome reported unmodified
  refine Bool.of_not_eq_false fun changed => ?_
  rw [(truthful _ _ _ _ reported).1.mpr changed] at unmodified
  cases unmodified

namespace Optimizer

variable {optimizer : Optimizer} {settings : Settings}

/-- A turn of a pass that keeps unmodified programs leaves a fresh stage. -/
theorem Turn.fresh {pass : Pass} {record : PassRecord} {stage : Stage} {turned : TurnResult}
    (taken : Turn settings pass record stage turned) (keeps : pass.KeepsUnmodified)
    (fresh : stage.Fresh settings.profile) : turned.stage.Fresh settings.profile := by
  cases taken with
  | skip idle => exact fresh
  | keep applicable reported unmodified =>
    have same := keeps _ _ _ _ reported unmodified
    exact ⟨(Program.fault?_of_sameContent same).trans fresh.consistent,
      (Program.analyze_of_sameContent same _).trans fresh.analyzed⟩
  | change applicable reported modified accepted =>
    have ⟨consistent, analyzed⟩ := analyzed_of_validate accepted
    exact ⟨consistent, analyzed⟩

/-- A sweep of such passes leaves a fresh stage. -/
theorem Sweep.fresh {queue : List (Pass × PassRecord)} {stage : Stage} {swept : SweepResult}
    (done : Sweep settings queue stage swept)
    (keeps : ∀ entry ∈ queue, entry.1.KeepsUnmodified) (fresh : stage.Fresh settings.profile) :
    swept.stage.Fresh settings.profile := by
  induction done with
  | nil => exact fresh
  | cons first _ ih =>
    exact ih (fun entry listed => keeps entry (List.mem_cons_of_mem _ listed))
      (first.fresh (keeps _ List.mem_cons_self) fresh)

/-- Sweeps in a row leave a fresh stage. -/
theorem Sweeps.fresh {left : Nat} {summary final : RunSummary} {stage last : Stage}
    (swept : Sweeps optimizer left summary stage final last)
    (keeps : ∀ pass ∈ optimizer.passes, pass.KeepsUnmodified)
    (fresh : stage.Fresh optimizer.settings.profile) :
    last.Fresh optimizer.settings.profile := by
  induction swept with
  | exhausted => exact fresh
  | settled done _ =>
    exact done.fresh (fun _ queued => keeps _ (mem_passes_of_queued queued)) fresh
  | onward done _ _ ih =>
    exact ih (done.fresh (fun _ queued => keeps _ (mem_passes_of_queued queued)) fresh)

/-- A sweep meets fresh stages only. -/
theorem SweepMeets.fresh {queue : List (Pass × PassRecord)} {stage place : Stage} {pass : Pass}
    {record : PassRecord} (met : SweepMeets settings queue stage pass record place)
    (keeps : ∀ entry ∈ queue, entry.1.KeepsUnmodified) (fresh : stage.Fresh settings.profile) :
    place.Fresh settings.profile := by
  induction met with
  | first => exact fresh
  | later taken _ ih =>
    have middle := (turn_eq_ok_iff.mp taken).fresh (keeps _ List.mem_cons_self) fresh
    exact ih (fun entry listed => keeps entry (List.mem_cons_of_mem _ listed)) middle

/-- Sweeps in a row meet fresh stages only. -/
theorem SweepsMeet.fresh {left : Nat} {summary : RunSummary} {stage place : Stage} {pass : Pass}
    {record : PassRecord} (met : SweepsMeet optimizer left summary stage pass record place)
    (keeps : ∀ pass ∈ optimizer.passes, pass.KeepsUnmodified)
    (fresh : stage.Fresh optimizer.settings.profile) :
    place.Fresh optimizer.settings.profile := by
  induction met with
  | first met => exact met.fresh (fun _ queued => keeps _ (mem_passes_of_queued queued)) fresh
  | later done _ _ ih =>
    have next := (sweep_eq_ok_iff.mp done).fresh
      (fun _ queued => keeps _ (mem_passes_of_queued queued)) fresh
    exact ih next

/-- The analysis at hand is never stale. Each of the standard passes reports a change exactly
when the program is changed, and records nothing otherwise. In every run of passes that leave a
program alone when they report no change, whenever a pass gets its turn the program is consistent
and the analysis at hand is that of the program; this holds of runs that fail later, too. The
program that a run returns is consistent and can be analyzed, and if its reachable functions
have different names, the bounds by name are those of this analysis, one for each of them. -/
theorem run_analysis_fresh :
    (∀ tuning, ∀ pass ∈ [DeadCode.pass, Folding.pass, Guided.pass tuning], pass.Truthful) ∧
    ∀ (optimizer : Optimizer) (program : Program),
      (∀ pass ∈ optimizer.passes, pass.KeepsUnmodified) →
      (∀ pass record stage, optimizer.Meets program pass record stage →
        stage.Fresh optimizer.settings.profile) ∧
      ∀ result, optimizer.run program = .ok result →
        result.program.fault? = none ∧
        ∃ analysis, result.program.analyze optimizer.settings.profile = .ok analysis ∧
          (result.program.DistinctNames →
            (∀ name bound, result.summary.bound? name = some bound ↔
              ∃ id function, result.program.function? id = some function ∧
                function.name = name ∧ analysis.bound? id = some bound) ∧
            result.summary.bounds.keys.Perm
              (result.program.reachable.functions.keys.map result.program.functionLabel)) := by
  refine ⟨fun tuning pass listed => (standard_reports tuning pass listed).truthful,
    fun optimizer program keeps => ⟨?_, ?_⟩⟩
  · rintro pass record stage ⟨consistent, analysis, analyzed, met⟩
    exact met.fresh keeps ⟨consistent, analyzed⟩
  · intro result done
    obtain ⟨consistent, analysis, summary, stage, analyzed, swept, rfl⟩ := run_eq_ok_iff.mp done
    have fresh := swept.fresh keeps ⟨consistent, analyzed⟩
    refine ⟨fresh.consistent, stage.analysis, fresh.analyzed, fun distinct => ⟨?_, ?_⟩⟩
    · exact fun name bound => get?_boundsByName fresh distinct
    · exact keys_boundsByName fresh distinct

/-- One sweep in which bounds are not watched. -/
def brisk : Settings := { maxSweeps := 1, preserveBounds := false }

/-- One sweep over `workshop` removes `idle`, folds the sum in `scale` and moves the body of
`gauge` into `main`. The bounds of what can be reached then are those of `main` and `scale`, and
they are the ones that a new analysis gives. -/
theorem run_analysis_fresh_workshop :
    ∃ result, optimize workshop brisk = .ok result ∧ result.summary.modifications = 3 ∧
      result.program.DistinctNames ∧ result.program.fault? = none ∧
      ∃ analysis, result.program.analyze none = .ok analysis ∧
        (∀ name bound, result.summary.bound? name = some bound ↔
          ∃ id function, result.program.function? id = some function ∧
            function.name = name ∧ analysis.bound? id = some bound) ∧
        result.summary.bounds.keys.Perm [entryPoint, "scale"] := by
  have checked : ((optimize workshop brisk).toOption.any fun result =>
      decide (result.summary.modifications = 3 ∧
        (result.program.functions.entries.map fun entry => entry.2.name).Nodup ∧
        result.program.reachable.functions.keys.map result.program.functionLabel =
          [entryPoint, "scale"])) = true := by decide +kernel
  obtain ⟨result, done, passed⟩ := exists_ok_of_any checked
  have ⟨changes, different, reached⟩ := of_decide_eq_true passed
  have distinct := Program.distinctNames_of_nodup different
  have keeps : ∀ pass ∈ (standard brisk).passes, pass.KeepsUnmodified := fun pass listed =>
    (standard_reports brisk.tuning pass listed).truthful.keepsUnmodified
  obtain ⟨consistent, analysis, analyzed, named⟩ :=
    (run_analysis_fresh.2 (standard brisk) workshop keeps).2 result done
  have ⟨bounds, keys⟩ := named distinct
  exact ⟨result, done, changes, distinct, consistent, analysis, analyzed, bounds, reached ▸ keys⟩

end Optimizer

end Timebound
