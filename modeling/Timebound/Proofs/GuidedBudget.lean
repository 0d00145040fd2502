import Mathlib.Logic.Relation
import Timebound.Proofs.GuidedEffects

/-!
# The trace budget under the guided pass

The pass keeps a new body only if the old and the new one have traces at that moment,
when some functions are rewritten and others are not yet. The certificate wants traces
in the program before all changes and after all changes. Both exist for a touched
function exactly when its work in those two programs is within the budget, and they do
when no function that it calls, at whatever depth, is touched too. Otherwise the work may
differ from what was checked, and a correct change can be refused for its size.
-/

namespace Timebound

/-! ## Steps and runs -/

namespace Guided

variable {tuning : Tuning} {analysis : Analysis} {program : Program}

/-- A touched function that calls no other touched one. -/
def Alone (program : Program) (touched : List FunctionId) (id : FunctionId) : Prop :=
  ∀ other ∈ touched, Relation.TransGen program.view.Calls id other → other = id

/-- What a run of the pass says about the functions it has and has not touched. -/
structure Accounted (program : Program) (progress : Progress) : Prop where
  /-- There are as many slots. -/
  slots : progress.program.functions.slotCount = program.functions.slotCount
  /-- Other functions are as they were. -/
  untouched : ∀ id, id ∉ progress.touched → progress.program.function? id = program.function? id
  /-- What is called could be called before, directly or not. -/
  calls : ∀ id callee, progress.program.view.Calls id callee →
    Relation.TransGen program.view.Calls id callee
  /-- A touched function that calls no other one fits, as it was and as it is. -/
  fits : ∀ id ∈ progress.touched, Alone program progress.touched id →
    program.view.Fits id ∧ progress.program.view.Fits id

variable {before after : Progress} {id : FunctionId} {function : Function}
  {change : Function → Function}

/-- A rewritten function calls what it could call before, directly or not. -/
theorem Rewrites.calls (rewrites : Rewrites tuning analysis before after id function change)
    (accounted : Accounted program before) (caller callee : FunctionId)
    (called : after.program.view.Calls caller callee) :
    Relation.TransGen program.view.Calls caller callee := by
  obtain ⟨owner, found, listed⟩ := called
  have rebodied := rewrites.rebodied
  by_cases same : caller = id
  · subst same
    cases found.symm.trans rebodied.foundNew
    obtain ⟨args, node⟩ := Block.mem_callees.mp listed
    have shaped : (callee, args.length) ∈ Block.callShapes (change function).body :=
      Block.mem_callShapes.mpr ⟨args, node, rfl⟩
    rw [rewrites.body] at shaped
    obtain ⟨source, body, known, inner, place⟩ :=
      origin_of_redraft tuning analysis rewrites.found shaped
    obtain ⟨passed, innerNode, _⟩ := Block.mem_callShapes.mp inner
    have last := accounted.calls source callee
      ⟨body, known, Block.mem_callees.mpr ⟨passed, innerNode⟩⟩
    rcases place with rfl | ⟨_, direct⟩
    · exact last
    · exact (accounted.calls caller source ⟨function, rewrites.found, direct⟩).trans last
  · have before : before.program.function? caller = some owner :=
      (rebodied.unchanged same).symm.trans found
    exact accounted.calls caller callee ⟨owner, before, listed⟩

/-- The old body of a rewritten function fits in the program before all changes, if no
function it calls has been touched. -/
theorem Rewrites.old_fits (rewrites : Rewrites tuning analysis before after id function change)
    (accounted : Accounted program before) (fresh : id ∉ before.touched)
    (alone : Alone program after.touched id) : program.view.Fits id := by
  have paid := (before.program.view.isSome_effectTrace_iff id).mp rewrites.oldTrace
  have same : before.program.view.work? id = program.view.work? id := by
    refine View.work?_congr (Relation.TransGen program.view.Calls id) accounted.slots ?_ ?_ ?_ ?_
    · exact fun called owner reached found callee listed => reached.tail ⟨owner, found, listed⟩
    · intro called reached apart
      refine accounted.untouched called fun touched => apart ?_
      exact alone called (rewrites.touched ▸ List.mem_cons_of_mem _ touched) reached
    · exact accounted.untouched id fresh
    · exact fun owner found callee listed => .single ⟨owner, found, listed⟩
  rwa [View.Fits, same] at paid

/-- The new body of a rewritten function fits in the program with it. -/
theorem Rewrites.new_fits (rewrites : Rewrites tuning analysis before after id function change) :
    after.program.view.Fits id := by
  have rebodied := rewrites.rebodied
  have paid := rewrites.newTrace
  rw [View.traceOfBody_eq] at paid
  have same : after.program.view.workOfBody id (change function).body =
      before.program.view.workOfBody id (change function).body :=
    View.workOfBody_congr (fun _ => True) rebodied.slots (fun _ _ _ _ _ _ => trivial)
      (fun _ _ apart => rebodied.unchanged apart) fun _ _ => trivial
  have found : after.program.view.function? id = some (change function) := rebodied.foundNew
  have known : after.program.view.work? id =
      some (after.program.view.workOfBody id (change function).body) := by
    rw [View.work?, found, Option.map_some]
  refine ⟨_, known, ?_⟩
  rw [same]
  by_contra exceeds
  rw [if_neg exceeds] at paid
  cases paid

/-- A function that was touched earlier and calls no other touched one still fits. -/
theorem Rewrites.other_fits (rewrites : Rewrites tuning analysis before after id function change)
    (accounted : Accounted program before) {other : FunctionId} (apart : other ≠ id)
    (alone : Alone program after.touched other) (fits : before.program.view.Fits other) :
    after.program.view.Fits other := by
  have rebodied := rewrites.rebodied
  have same : after.program.view.work? other = before.program.view.work? other := by
    refine View.work?_congr (Relation.TransGen program.view.Calls other) rebodied.slots ?_ ?_ ?_ ?_
    · exact fun called owner reached found callee listed =>
        reached.trans (accounted.calls called callee ⟨owner, found, listed⟩)
    · intro called reached _
      refine rebodied.unchanged fun target => apart ?_
      exact (alone id (rewrites.touched ▸ List.mem_cons_self) (target ▸ reached)).symm
    · exact rebodied.unchanged apart
    · exact fun owner found callee listed => accounted.calls other callee ⟨owner, found, listed⟩
  rwa [View.Fits, same]

variable (tuning analysis) in
/-- A step on a function that has not been touched keeps the account. -/
theorem step_accounted {progress : Progress} (accounted : Accounted program progress)
    (fresh : id ∉ progress.touched) : Accounted program (step tuning analysis progress id) := by
  rcases step_cases tuning analysis progress id with idle | ⟨function, change, rewrites⟩
  · rw [idle]
    exact accounted
  · have rebodied := rewrites.rebodied
    constructor
    · rw [rebodied.slots, accounted.slots]
    · intro other absent
      rw [rewrites.touched, List.mem_cons, not_or] at absent
      rw [rebodied.unchanged absent.1, accounted.untouched other absent.2]
    · exact rewrites.calls accounted
    · intro other listed alone
      rw [rewrites.touched] at listed
      rcases List.mem_cons.mp listed with rfl | older
      · exact ⟨rewrites.old_fits accounted fresh alone, rewrites.new_fits⟩
      · have apart : other ≠ id := fun same => fresh (same ▸ older)
        have aloneBefore : Alone program progress.touched other := fun third touched =>
          alone third (rewrites.touched ▸ List.mem_cons_of_mem _ touched)
        have ⟨old, current⟩ := accounted.fits other older aloneBefore
        exact ⟨old, rewrites.other_fits accounted apart alone current⟩

variable (tuning analysis program) in
/-- An execution keeps the account. -/
theorem executed_accounted : Accounted program (executed tuning analysis program) := by
  refine changeAll_induct ⟨rfl, fun _ _ => rfl, fun _ _ called => .single called,
    fun _ listed => absurd listed List.not_mem_nil⟩ ?_
  exact fun _ _ _ fresh accounted => step_accounted tuning analysis accounted fresh

/-! ## Steps decided by work

Whether a step keeps a new body can be read off the work, without building a trace. -/

variable (tuning analysis)

/-- A step that compares work with the budget. -/
def stepByWork (progress : Progress) (id : FunctionId) : Progress :=
  match progress.program.function? id with
  | none => progress
  | some function =>
    let draft := redraft tuning analysis progress.program id function
    let view := progress.program.view
    if draft.body = function.body then progress
    else if view.workOfBody id function.body ≤ traceBudget ∧
        view.workOfBody id draft.body ≤ traceBudget then progress.keep id function draft
    else progress

/-- A step finds traces when the work is within the budget. -/
theorem step_eq_stepByWork : step tuning analysis = stepByWork tuning analysis := by
  funext progress id
  unfold step stepByWork
  cases found : progress.program.function? id with
  | none => rfl
  | some function =>
    have lookup : progress.program.view.function? id = some function := found
    simp only [View.effectTrace, lookup, Option.bind_some, View.traceOfBody_eq]
    by_cases old : progress.program.view.workOfBody id function.body ≤ traceBudget
    · by_cases new : progress.program.view.workOfBody id
          (redraft tuning analysis progress.program id function).body ≤ traceBudget
      · simp [old, new]
      · simp [old, new]
    · simp [old]

/-- The changes made by an execution that compares work with the budget. -/
def executedByWork (program : Program) : Progress :=
  analysis.criticalFunctions.keys.foldl (stepByWork tuning analysis)
    { program := program.openJournal }

/-- An execution makes the changes that the work allows. -/
theorem executed_eq_executedByWork (program : Program) :
    executed tuning analysis program = executedByWork tuning analysis program := by
  rw [executed, changeAll, step_eq_stepByWork, executedByWork]

variable {tuning analysis}

/-! ## The certificate -/

/-- Both traces that the certificate compares exist for a function exactly when its work
is within the budget in the program before and in the program after. They exist for a
touched function that calls no other touched function, directly or not. -/
theorem certificate_traces_exist_iff {profile : Option Profile} (consistent : program.fault? = none)
    (analyzed : program.analyze profile = .ok analysis) (tuning : Tuning) (earlier : Nat) :
    let run := (pass tuning).execute earlier program analysis
    ∀ id, run.changes.touches id = true →
      ((((run.changes.viewBefore run.program).effectTrace id).isSome = true ∧
          (run.program.view.effectTrace id).isSome = true) ↔
        program.view.Fits id ∧ run.program.view.Fits id) ∧
      ((∀ other, run.changes.touches other = true →
          Relation.TransGen program.view.Calls id other → other = id) →
        ((run.changes.viewBefore run.program).effectTrace id).isSome = true ∧
          (run.program.view.effectTrace id).isSome = true) := by
  intro run id touched
  have seen := (viewBefore_eq consistent analyzed tuning earlier id).2.2
  have exist : (((run.changes.viewBefore run.program).effectTrace id).isSome = true ∧
      (run.program.view.effectTrace id).isSome = true) ↔
        program.view.Fits id ∧ run.program.view.Fits id := by
    rw [seen, View.isSome_effectTrace_iff, View.isSome_effectTrace_iff]
  refine ⟨exist, fun alone => exist.mpr ?_⟩
  have accounted := executed_accounted tuning analysis program
  have fits := accounted.fits id (execute_touches_iff.mp touched) fun other listed reached =>
    alone other (execute_touches_iff.mpr listed) reached
  have final : run.program.view.Fits id ↔
      (executed tuning analysis program).program.view.Fits id := by
    rw [execute_program]
    rfl
  exact ⟨fits.1, final.mpr fits.2⟩

/-- An entry point that calls a function 64 times 64 times and has an unlikely arm in
front. The function sends a value eight times, in a loop. -/
def crowded : Program where
  functions.slots := [
    some {
      name := "beeps"
      body := [.loop none (.exact 8) none [.emit 1 (.lit (.ofInt (.int .w32) 1))]] },
    some {
      name := entryPoint
      body := [
        .loop none (.exact 64) none [.loop none (.exact 64) none [.eval (.call ⟨0⟩ [])]],
        .branch (.lit (.ofBool true)) [] [] (some 100)] }]

/-- Unrolling and the order of arms only. -/
def steady : Tuning := { Tuning.off with unroll := true, reorderBranches := true }

/-- The analysis of `crowded`. -/
def crowdedAnalysis : Analysis := (crowded.analyze none).toOption.getD {}

/-- The execution of the pass on `crowded`. -/
def crowdedRun : Execution := (pass steady).execute 0 crowded crowdedAnalysis

/-- The execution rewrites both functions of `crowded`. -/
theorem touched_crowded : (executed steady crowdedAnalysis crowded).touched = [⟨1⟩, ⟨0⟩] := by
  rw [executed_eq_executedByWork]
  decide +kernel

/-- The function that `crowded` calls is rewritten and calls nothing, so both of its
traces exist. -/
theorem certificate_traces_exist_beeps :
    crowded.fault? = none ∧ crowded.analyze none = .ok crowdedAnalysis ∧
      crowdedRun.changes.touches ⟨0⟩ = true ∧
      ((crowdedRun.changes.viewBefore crowdedRun.program).effectTrace ⟨0⟩).isSome = true ∧
      (crowdedRun.program.view.effectTrace ⟨0⟩).isSome = true := by
  have consistent : crowded.fault? = none := by decide +kernel
  have analyzed : crowded.analyze none = .ok crowdedAnalysis := rfl
  have touched : crowdedRun.changes.touches ⟨0⟩ = true :=
    execute_touches_iff.mpr (by rw [touched_crowded]; decide)
  have silent (other : FunctionId) : ¬ crowded.view.Calls ⟨0⟩ other := by
    rintro ⟨function, found, listed⟩
    cases found
    exact List.not_mem_nil listed
  have exist := (certificate_traces_exist_iff consistent analyzed steady 0 ⟨0⟩ touched).2
    fun other _ reached => by
      obtain ⟨callee, called, _⟩ := Relation.TransGen.head'_iff.mp reached
      exact absurd called (silent callee)
  exact ⟨consistent, analyzed, touched, exist⟩

/-- The entry point of `crowded` is rewritten, and its new body would fit, but the work
over the program before exceeds the budget. So the certificate is refused. -/
theorem certificate_traces_exist_crowded :
    crowded.fault? = none ∧ crowded.analyze none = .ok crowdedAnalysis ∧
      crowdedRun.changes.touches ⟨1⟩ = true ∧
      crowded.view.work? ⟨1⟩ = some 82050 ∧
      (crowdedRun.changes.viewBefore crowdedRun.program).effectTrace ⟨1⟩ = none ∧
      crowdedRun.program.view.work? ⟨1⟩ = some 45186 ∧
      (crowdedRun.program.view.effectTrace ⟨1⟩).isSome = true ∧
      (pass steady).certify crowdedRun.changes crowdedRun.program = false := by
  have consistent : crowded.fault? = none := by decide +kernel
  have analyzed : crowded.analyze none = .ok crowdedAnalysis := rfl
  have touched : crowdedRun.changes.touches ⟨1⟩ = true :=
    execute_touches_iff.mpr (by rw [touched_crowded]; decide)
  have work : crowded.view.work? ⟨1⟩ = some 82050 := by decide +kernel
  have missing : (crowdedRun.changes.viewBefore crowdedRun.program).effectTrace ⟨1⟩ = none := by
    have exceeds : ¬ crowded.view.Fits ⟨1⟩ := by decide +kernel
    have seen := (viewBefore_eq consistent analyzed steady 0 ⟨1⟩).2.2
    rw [View.effectTrace_eq crowded.view, if_neg exceeds] at seen
    exact seen
  have left : crowdedRun.program =
      (executedByWork steady crowdedAnalysis crowded).program.closeJournal := by
    rw [← executed_eq_executedByWork]
    exact execute_program
  have workAfter : crowdedRun.program.view.work? ⟨1⟩ = some 45186 := by
    rw [left]
    decide +kernel
  have present : (crowdedRun.program.view.effectTrace ⟨1⟩).isSome = true :=
    (View.isSome_effectTrace_iff _ _).mpr ⟨45186, workAfter, by decide⟩
  have refused : ¬ (pass steady).certify crowdedRun.changes crowdedRun.program = true := by
    rw [certify_eq_true_iff]
    intro all
    have demanded := (all ⟨1⟩ touched).1
    rw [missing] at demanded
    cases demanded
  exact ⟨consistent, analyzed, touched, work, missing, workAfter, present,
    Bool.eq_false_iff.mpr refused⟩

end Guided

end Timebound
