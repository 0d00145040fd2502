import Timebound.Proofs.DeadRemoval
import Timebound.Proofs.FoldingMeaning
import Timebound.Proofs.GuidedEffects
import Timebound.Proofs.ResolvedRewrites

/-!
# Passes keep programs consistent

The passes leave a consistent program consistent (`passes_keep_consistent`). Removal takes
nothing away that is mentioned by what is left. Folding and the guided pass change bodies
only, one after the other, and a program stays consistent when a function gets a body
whose references lead to something that exists (`Program.fault?_update`): the parameters
are the same, so what references can lead to does not change.
-/

namespace Timebound

namespace Program

variable {program changed left : Program}

/-- The live part of a consistent program is consistent. -/
theorem LivePart.fault?_eq_none (live : program.LivePart left) (faultless : program.fault? = none) :
    left.fault? = none := by
  rw [fault?_eq_none_iff_resolved] at faultless ⊢
  intro id function found
  have ⟨before, reached⟩ := (live.function?_iff id function).mp found
  have resolved := faultless id function before
  refine resolved.transfer (fun callee called => ?_) fun global mentioned => ?_
  · have same := live.function?_of_called reached before called
    simp only [scope, same]
  · have existing := ((Block.resolved_iff _).mp resolved).2 global mentioned
    obtain ⟨held, there⟩ := Option.isSome_iff_exists.mp existing
    have used : program.ReachesGlobal global :=
      .mention reached before (List.mem_eraseDups.mpr mentioned)
    exact Option.isSome_iff_exists.mpr ⟨held, (live.global?_iff global held).mpr ⟨there, used⟩⟩

/-- A consistent program stays consistent when a function gets a body whose references lead
to something that exists, and keeps its parameters. -/
theorem fault?_update (faultless : program.fault? = none) {id : FunctionId}
    {change : Function → Function} {function : Function}
    (found : program.function? id = some function)
    (updated : program.updateFunction? id change = some changed)
    (params : (change function).params = function.params)
    (resolved : Block.Resolved program.scope (change function).body) : changed.fault? = none := by
  have lookup := function?_update found updated
  obtain ⟨functions, _, rfl⟩ := Option.map_eq_some_iff.mp updated
  have same : ({ program with functions } : Program).scope = program.scope := by
    have arity (other : FunctionId) :
        (({ program with functions } : Program).function? other).map (fun f => f.params.length) =
          (program.function? other).map fun f => f.params.length := by
      rw [lookup]
      split
      · rename_i self
        rw [self, found, Option.map_some, Option.map_some, params]
      · rfl
    exact congrArg (Scope.mk · _) (funext arity)
  rw [fault?_eq_none_iff_resolved] at faultless ⊢
  intro other owner there
  rw [same]
  rw [lookup] at there
  split at there
  · cases there
    exact resolved
  · exact faultless other owner there

end Program

/-! ## Folding -/

namespace Folding

/-- Folding one function keeps a program consistent. -/
theorem foldFunction_consistent {state : Program × Outcome} (faultless : state.1.fault? = none)
    (id : FunctionId) : (foldFunction state id).1.fault? = none := by
  cases found : state.1.function? id with
  | none =>
    unfold foldFunction
    simp only [found]
    exact faultless
  | some function =>
    have body := Program.fault?_eq_none_iff_resolved.mp faultless id function found
    rw [foldFunction_program state found]
    cases updated : state.1.updateFunction? id fun f =>
        { f with body := (Block.foldFully function.body).1 } with
    | none => exact faultless
    | some changed =>
      exact Program.fault?_update faultless found updated rfl (body.foldRounds _)

/-- Folding functions in a row keeps a program consistent. -/
theorem foldl_foldFunction_consistent (ids : List FunctionId) {state : Program × Outcome}
    (faultless : state.1.fault? = none) : (ids.foldl foldFunction state).1.fault? = none := by
  induction ids generalizing state with
  | nil => exact faultless
  | cons id rest ih => exact ih (foldFunction_consistent faultless id)

end Folding

/-! ## The guided pass -/

namespace Guided

variable (tuning : Tuning) (analysis : Analysis)

/-- A redrafted body of a consistent program is resolved: what is put into it comes from
functions of the program. -/
theorem resolved_redraft {program : Program} (faultless : program.fault? = none) {id : FunctionId}
    {function : Function} (found : program.function? id = some function) :
    Block.Resolved program.scope (redraft tuning analysis program id function).body := by
  have bodies (callee : FunctionId) (target : Inlinable)
      (allowed : program.inlinable? id tuning.maxInlineSize (hotCallees tuning analysis id) callee =
        some target) : target.Resolved program.scope := by
    obtain ⟨known, _, _, whole⟩ := Program.inlinable?_eq_some allowed
    have own := Program.fault?_eq_none_iff_resolved.mp faultless callee target.function known
    have ⟨init, value⟩ := own.splitEnd
    rw [whole] at init value
    exact ⟨init, value⟩
  have grouping (draft : Redraft) (resolved : Block.Resolved program.scope draft.body) :
      Block.Resolved program.scope (if tuning.groupLoads then draft.group else draft).body := by
    split
    · exact resolved.groupNested.arrange
    · exact resolved
  have ordering (draft : Redraft) (resolved : Block.Resolved program.scope draft.body) :
      Block.Resolved program.scope
        (if tuning.reorderBranches then draft.reorder else draft).body := by
    split
    · exact resolved.reorder
    · exact resolved
  have unrolling (draft : Redraft) (limit : Nat)
      (resolved : Block.Resolved program.scope draft.body) : Block.Resolved program.scope
        (if tuning.unroll then draft.unroll limit function else draft).body := by
    split
    · exact resolved.unroll
    · exact resolved
  have start := Program.fault?_eq_none_iff_resolved.mp faultless id function found
  refine grouping _ (ordering _ (unrolling _ _ ?_))
  split
  · exact start.inline bodies function.inlineSites
  · exact start

/-- A step keeps a program consistent. -/
theorem step_consistent {progress : Progress} (faultless : progress.program.fault? = none)
    (id : FunctionId) : (step tuning analysis progress id).program.fault? = none := by
  rcases step_cases tuning analysis progress id with same | ⟨function, change, rewrites⟩
  · rw [same]
    exact faultless
  · have resolved := resolved_redraft tuning analysis faultless rewrites.found
    rw [← rewrites.body] at resolved
    exact Program.fault?_update faultless rewrites.found rewrites.updated rewrites.params resolved

end Guided

/-- The check of a program finds no fault exactly when every call, wherever it stands, goes
to a function with as many parameters as it has arguments, and every global that is read or
written exists. In that case it finds none after dead code elimination, after folding and
after the guided pass either, whatever they are told by the analysis and the tuning. -/
theorem passes_keep_consistent (program : Program) :
    (program.fault? = none ↔ program.Consistent) ∧
      (program.fault? = none → ∀ earlier analysis tuning,
        ∀ pass ∈ [DeadCode.pass, Folding.pass, Guided.pass tuning],
          (pass.transform earlier program analysis).1.fault? = none) := by
  refine ⟨Program.fault?_eq_none_iff, fun faultless earlier analysis tuning pass listed => ?_⟩
  simp only [List.mem_cons, List.not_mem_nil, or_false] at listed
  rcases listed with rfl | rfl | rfl
  · exact (DeadCode.removeDead_livePart program).fault?_eq_none faultless
  · exact Folding.foldl_foldFunction_consistent (Folding.candidates program) faultless
  · have left : ((Guided.pass tuning).transform earlier program analysis).1 =
        (Guided.changeAll tuning analysis program).program :=
      Guided.transform_program tuning analysis program
    rw [left]
    exact Guided.changeAll_induct (motive := fun reached => reached.program.fault? = none)
      faultless fun _ id _ _ kept => Guided.step_consistent tuning analysis kept id

/-- A program for all passes: `main` calls `gauge` in a loop and `gauge` reads and writes
globals and calls `scale`, which folds; `idle` is dead. -/
def workshop : Program := Program.performAll {} [
  .addGlobal { name := "level", type := .u64 },
  .addGlobal { name := "peaks", type := .u64, length := 4 },
  .addFunction {
    name := entryPoint
    body := [.loop (some "i") (.exact 6) none [.bind "g" .u64 (.call ⟨1⟩ [.var "i"])]] },
  .addFunction {
    name := "gauge"
    params := [⟨"x", .u64⟩]
    body := [
      .store ⟨1⟩ (.var "x") (.global ⟨0⟩),
      .ret (some (.call ⟨2⟩ [.load ⟨1⟩ (.var "x")]))] },
  .addFunction {
    name := "scale"
    params := [⟨"y", .u64⟩]
    body := [.ret (some (.binary .mul .u64 (.var "y")
      (.binary .add .u64 (.lit (.ofInt .u64 1)) (.lit (.ofInt .u64 2)))))] },
  .addFunction { name := "idle", body := [.setGlobal ⟨0⟩ (.lit (.ofInt .u64 0))] }]

/-- The analysis of `workshop`. -/
def workshopAnalysis : Analysis := (workshop.analyze none).toOption.getD {}

/-- Each pass changes `workshop`: `idle` is removed, the sum in `scale` is folded, and the
store, the load and the call of `gauge` move into `main`. The program stays consistent. -/
theorem passes_keep_consistent_workshop :
    workshop.fault? = none ∧ workshop.analyze none = .ok workshopAnalysis ∧
      (DeadCode.pass.transform 0 workshop workshopAnalysis).1.function? ⟨3⟩ = none ∧
      (Folding.pass.transform 0 workshop workshopAnalysis).1.function? ⟨2⟩ ≠
        workshop.function? ⟨2⟩ ∧
      ((((Guided.pass {}).transform 0 workshop workshopAnalysis).1.function? ⟨0⟩).any
        (·.calls ⟨2⟩)) = true ∧
      ∀ pass ∈ [DeadCode.pass, Folding.pass, Guided.pass {}],
        (pass.transform 0 workshop workshopAnalysis).1.fault? = none := by
  have faultless : workshop.fault? = none := by decide +kernel
  have removed : (DeadCode.pass.transform 0 workshop workshopAnalysis).1.function? ⟨3⟩ = none := by
    decide +kernel
  have folded : (Folding.pass.transform 0 workshop workshopAnalysis).1.function? ⟨2⟩ ≠
      workshop.function? ⟨2⟩ := by decide +kernel
  have expanded : ((((Guided.pass {}).transform 0 workshop workshopAnalysis).1.function? ⟨0⟩).any
      (·.calls ⟨2⟩)) = true := by decide +kernel
  exact ⟨faultless, rfl, removed, folded, expanded,
    (passes_keep_consistent workshop).2 faultless 0 workshopAnalysis {}⟩

end Timebound
