import Timebound.Optimizer

/-!
# Turns, sweeps and runs

What a run does, one turn at a time. The turn of a pass skips it, executes it without a
reported change, or keeps a change that was accepted (`Optimizer.Turn`). A sweep is a turn
for each pass, and a run is sweeps until one of them changes nothing or none is left. Each
of these relations holds exactly when the function of the same name succeeds, so facts about
runs follow from facts about turns by induction. `Optimizer.Meets` tells at which stages a
run gives passes their turns, whether or not the run succeeds in the end.
-/

namespace Timebound.Optimizer

/-! ## Turns -/

/-- What the turn of a pass can come to. -/
inductive Turn (settings : Settings) (pass : Pass) (record : PassRecord) (stage : Stage) :
    TurnResult → Prop where
  /-- The pass has no work. -/
  | skip (idle : pass.applicable record.runs stage.program stage.analysis = false) :
    Turn settings pass record stage ⟨{ record with skipped := record.skipped + 1 }, false, stage⟩
  /-- The pass is executed and reports no change. -/
  | keep {outcome : Outcome}
    (applicable : pass.applicable record.runs stage.program stage.analysis = true)
    (reported : (pass.execute record.runs stage.program stage.analysis).result = .ok outcome)
    (unmodified : outcome.modified = false) :
    Turn settings pass record stage ⟨{ record with runs := record.runs + 1 }, false,
      { stage with program := (pass.execute record.runs stage.program stage.analysis).program }⟩
  /-- The pass is executed and its change is accepted. -/
  | change {outcome : Outcome} {analysis : Analysis}
    (applicable : pass.applicable record.runs stage.program stage.analysis = true)
    (reported : (pass.execute record.runs stage.program stage.analysis).result = .ok outcome)
    (modified : outcome.modified = true)
    (accepted : validate settings pass stage.analysis
      (pass.execute record.runs stage.program stage.analysis) = .ok analysis) :
    Turn settings pass record stage
      ⟨PassRecord.note { record with runs := record.runs + 1 } outcome, true,
        ⟨(pass.execute record.runs stage.program stage.analysis).program, analysis⟩⟩

variable {settings : Settings} {pass : Pass} {record : PassRecord} {stage : Stage}

/-- A turn succeeds in one of the three ways. -/
theorem turn_eq_ok_iff {turned : TurnResult} : turn settings pass record stage = .ok turned ↔
    Turn settings pass record stage turned := by
  constructor
  · intro done
    unfold turn at done
    cases applicable : pass.applicable record.runs stage.program stage.analysis with
    | false =>
      simp only [applicable, Bool.not_false, if_true, Except.ok.injEq] at done
      subst done
      exact .skip applicable
    | true =>
      simp only [applicable, Bool.not_true, Bool.false_eq_true, if_false, bind_eq_ok_iff] at done
      obtain ⟨outcome, reported, rest⟩ := done
      cases modified : outcome.modified with
      | false =>
        simp only [modified, Bool.false_eq_true, if_false, Except.ok.injEq] at rest
        subst rest
        exact .keep applicable reported modified
      | true =>
        simp only [modified, if_true, bind_eq_ok_iff, Except.ok.injEq] at rest
        obtain ⟨analysis, accepted, rfl⟩ := rest
        exact .change applicable reported modified accepted
  · intro taken
    unfold turn
    cases taken with
    | skip idle => simp [idle]
    | keep applicable reported unmodified =>
      simp [applicable, reported, unmodified, bind, Except.bind]
    | change applicable reported modified accepted =>
      simp [applicable, reported, modified, accepted, bind, Except.bind]

/-- A turn has one result. -/
theorem Turn.unique {one other : TurnResult} (taken : Turn settings pass record stage one)
    (again : Turn settings pass record stage other) : one = other :=
  Except.ok.inj ((turn_eq_ok_iff.mpr taken).symm.trans (turn_eq_ok_iff.mpr again))

/-- An accepted change leaves a consistent program, and its analysis is the one given. -/
theorem analyzed_of_validate {before analysis : Analysis} {execution : Execution}
    (accepted : validate settings pass before execution = .ok analysis) :
    execution.program.fault? = none ∧
      execution.program.analyze settings.profile = .ok analysis := by
  unfold validate at accepted
  split at accepted
  · cases accepted
  · split at accepted
    · cases accepted
    · rename_i consistent
      simp only [bind_eq_ok_iff] at accepted
      obtain ⟨refreshed, analyzed, rest⟩ := accepted
      refine ⟨consistent, ?_⟩
      split at rest
      · split at rest
        · cases rest
        · exact analyzed.trans rest
      · exact analyzed.trans rest

/-! ## Sweeps -/

/-- A sweep that succeeds: a turn for each pass, one after the other. -/
inductive Sweep (settings : Settings) :
    List (Pass × PassRecord) → Stage → SweepResult → Prop where
  /-- No pass is left. -/
  | nil (stage : Stage) : Sweep settings [] stage ⟨[], 0, stage⟩
  /-- The first pass has its turn, then the others. -/
  | cons {pass : Pass} {record : PassRecord} {rest : List (Pass × PassRecord)} {stage : Stage}
    {turned : TurnResult} {others : SweepResult} (first : Turn settings pass record stage turned)
    (later : Sweep settings rest turned.stage others) :
    Sweep settings ((pass, record) :: rest) stage
      ⟨turned.record :: others.records, turned.changed.toNat + others.changes, others.stage⟩

/-- A sweep succeeds when all turns do. -/
theorem sweep_eq_ok_iff {queue : List (Pass × PassRecord)} {swept : SweepResult} :
    sweep settings queue stage = .ok swept ↔ Sweep settings queue stage swept := by
  induction queue generalizing stage swept with
  | nil =>
    rw [sweep]
    constructor
    · intro done
      cases done
      exact .nil _
    · intro done
      cases done
      rfl
  | cons entry rest ih =>
    obtain ⟨pass, record⟩ := entry
    rw [sweep, bind_eq_ok_iff]
    constructor
    · rintro ⟨turned, taken, rest⟩
      obtain ⟨others, later, made⟩ := bind_eq_ok_iff.mp rest
      cases made
      exact .cons (turn_eq_ok_iff.mp taken) (ih.mp later)
    · intro done
      cases done with
      | cons first later =>
        exact ⟨_, turn_eq_ok_iff.mpr first, bind_eq_ok_iff.mpr ⟨_, ih.mpr later, rfl⟩⟩

/-- A sweep in which no turn is a modification: each pass has no work or reports no change. -/
inductive IdleSweep (settings : Settings) : List (Pass × PassRecord) → Stage → Prop where
  /-- No pass is left. -/
  | nil (stage : Stage) : IdleSweep settings [] stage
  /-- The first pass changes nothing, and neither do the others. -/
  | cons {pass : Pass} {record : PassRecord} {rest : List (Pass × PassRecord)} {stage : Stage}
    {turned : TurnResult} (first : Turn settings pass record stage turned)
    (unchanged : turned.changed = false) (later : IdleSweep settings rest turned.stage) :
    IdleSweep settings ((pass, record) :: rest) stage

/-- A sweep counts no change exactly when no turn of it is a modification. -/
theorem Sweep.changes_eq_zero_iff {queue : List (Pass × PassRecord)} {swept : SweepResult}
    (done : Sweep settings queue stage swept) :
    swept.changes = 0 ↔ IdleSweep settings queue stage := by
  induction done with
  | nil stage => exact ⟨fun _ => .nil stage, fun _ => rfl⟩
  | cons first later ih =>
    rw [Nat.add_eq_zero_iff, ih, Bool.toNat_eq_zero]
    constructor
    · exact fun ⟨unchanged, rest⟩ => .cons first unchanged rest
    · intro idle
      cases idle with
      | cons again unchanged rest =>
        cases first.unique again
        exact ⟨unchanged, rest⟩

/-! ## Runs -/

/-- The statistics after one more sweep. -/
def advance (summary : RunSummary) (swept : SweepResult) : RunSummary :=
  { summary with
    sweeps := summary.sweeps + 1
    modifications := summary.modifications + swept.changes
    records := swept.records }

/-- Sweeps in a row, with so many allowed, that succeed. -/
inductive Sweeps (optimizer : Optimizer) :
    Nat → RunSummary → Stage → RunSummary → Stage → Prop where
  /-- No sweep is allowed any more. -/
  | exhausted (summary : RunSummary) (stage : Stage) :
    Sweeps optimizer 0 summary stage summary stage
  /-- A sweep changes nothing. -/
  | settled {left : Nat} {summary : RunSummary} {stage : Stage} {swept : SweepResult}
    (done : Sweep optimizer.settings (optimizer.passes.zip summary.records) stage swept)
    (idle : swept.changes = 0) :
    Sweeps optimizer (left + 1) summary stage { advance summary swept with converged := true }
      swept.stage
  /-- A sweep changes something, and others follow. -/
  | onward {left : Nat} {summary final : RunSummary} {stage last : Stage} {swept : SweepResult}
    (done : Sweep optimizer.settings (optimizer.passes.zip summary.records) stage swept)
    (busy : swept.changes ≠ 0)
    (later : Sweeps optimizer left (advance summary swept) swept.stage final last) :
    Sweeps optimizer (left + 1) summary stage final last

variable {optimizer : Optimizer}

/-- What the sweeps of a run do after the first one. -/
theorem sweeps_succ {left : Nat} {summary : RunSummary} {swept : SweepResult}
    (done : sweep optimizer.settings (optimizer.passes.zip summary.records) stage = .ok swept) :
    optimizer.sweeps (left + 1) summary stage =
      if swept.changes = 0 then
        .ok ({ advance summary swept with converged := true }, swept.stage)
      else optimizer.sweeps left (advance summary swept) swept.stage := by
  rw [sweeps, done]
  rfl

/-- Sweeps in a row succeed when all of them do. -/
theorem sweeps_eq_ok_iff {left : Nat} {summary final : RunSummary} {last : Stage} :
    optimizer.sweeps left summary stage = .ok (final, last) ↔
      Sweeps optimizer left summary stage final last := by
  induction left generalizing summary stage with
  | zero =>
    rw [sweeps]
    constructor
    · intro done
      cases done
      exact .exhausted _ _
    · intro done
      cases done
      rfl
  | succ left ih =>
    constructor
    · intro whole
      have split := whole
      rw [sweeps, bind_eq_ok_iff] at split
      obtain ⟨swept, done, _⟩ := split
      rw [sweeps_succ done] at whole
      split at whole
      · rename_i idle
        cases whole
        exact .settled (sweep_eq_ok_iff.mp done) idle
      · rename_i busy
        exact .onward (sweep_eq_ok_iff.mp done) busy (ih.mp whole)
    · intro whole
      cases whole with
      | settled done idle => rw [sweeps_succ (sweep_eq_ok_iff.mpr done), if_pos idle]
      | onward done busy later =>
        rw [sweeps_succ (sweep_eq_ok_iff.mpr done), if_neg busy, ih.mpr later]

/-- The passes in the queue of a sweep are those of the optimizer. -/
theorem mem_passes_of_queued {records : List PassRecord} {entry : Pass × PassRecord}
    (queued : entry ∈ optimizer.passes.zip records) : entry.1 ∈ optimizer.passes :=
  (List.of_mem_zip (show (entry.1, entry.2) ∈ _ from queued)).1

/-- The statistics at the start of a run. -/
def start (optimizer : Optimizer) : RunSummary :=
  { records := optimizer.passNames.map fun name => { name } }

/-- A run succeeds when the program is consistent, can be analyzed, and the sweeps do. -/
theorem run_eq_ok_iff {program : Program} {result : Optimized} :
    optimizer.run program = .ok result ↔
      program.fault? = none ∧ ∃ analysis summary stage,
        program.analyze optimizer.settings.profile = .ok analysis ∧
          Sweeps optimizer optimizer.settings.maxSweeps optimizer.start ⟨program, analysis⟩
            summary stage ∧
          result = ⟨stage.program, { summary with bounds := boundsByName stage }⟩ := by
  unfold run
  cases fault : program.fault? with
  | some error => simp
  | none =>
    simp only [bind_eq_ok_iff, true_and]
    constructor
    · rintro ⟨analysis, analyzed, ⟨summary, stage⟩, swept, made⟩
      exact ⟨analysis, summary, stage, analyzed, sweeps_eq_ok_iff.mp swept,
        (Except.ok.inj made).symm⟩
    · rintro ⟨analysis, summary, stage, analyzed, swept, rfl⟩
      exact ⟨analysis, analyzed, (summary, stage), sweeps_eq_ok_iff.mpr swept, rfl⟩

/-- A run whose result passes a check gives a result. -/
theorem exists_ok_of_any {ε α : Type} {outcome : Except ε α} {check : α → Bool}
    (passed : outcome.toOption.any check = true) :
    ∃ result, outcome = .ok result ∧ check result = true := by
  cases outcome with
  | error failure => cases passed
  | ok result => exact ⟨result, rfl, passed⟩

/-! ## Stages of a run -/

/-- The stages at which a sweep gives passes their turns. -/
inductive SweepMeets (settings : Settings) :
    List (Pass × PassRecord) → Stage → Pass → PassRecord → Stage → Prop where
  /-- The first pass has its turn at the start. -/
  | first (pass : Pass) (record : PassRecord) (rest : List (Pass × PassRecord)) (stage : Stage) :
    SweepMeets settings ((pass, record) :: rest) stage pass record stage
  /-- The others have theirs after the turn of the first one, if that succeeds. -/
  | later {pass other : Pass} {record held : PassRecord} {rest : List (Pass × PassRecord)}
    {stage place : Stage} {turned : TurnResult}
    (taken : turn settings pass record stage = .ok turned)
    (met : SweepMeets settings rest turned.stage other held place) :
    SweepMeets settings ((pass, record) :: rest) stage other held place

/-- The stages at which sweeps in a row, with so many allowed, give passes their turns. -/
inductive SweepsMeet (optimizer : Optimizer) :
    Nat → RunSummary → Stage → Pass → PassRecord → Stage → Prop where
  /-- In the first sweep. -/
  | first {left : Nat} {summary : RunSummary} {stage place : Stage} {pass : Pass}
    {record : PassRecord}
    (met : SweepMeets optimizer.settings (optimizer.passes.zip summary.records) stage pass record
      place) :
    SweepsMeet optimizer (left + 1) summary stage pass record place
  /-- In a later one, if the first succeeds and changes something. -/
  | later {left : Nat} {summary : RunSummary} {stage place : Stage} {pass : Pass}
    {record : PassRecord} {swept : SweepResult}
    (done : sweep optimizer.settings (optimizer.passes.zip summary.records) stage = .ok swept)
    (busy : swept.changes ≠ 0)
    (met : SweepsMeet optimizer left (advance summary swept) swept.stage pass record place) :
    SweepsMeet optimizer (left + 1) summary stage pass record place

/-- A run on a program gives a pass its turn at a stage, when its record is this one. The run
need not succeed. -/
def Meets (optimizer : Optimizer) (program : Program) (pass : Pass) (record : PassRecord)
    (place : Stage) : Prop :=
  program.fault? = none ∧ ∃ analysis, program.analyze optimizer.settings.profile = .ok analysis ∧
    SweepsMeet optimizer optimizer.settings.maxSweeps optimizer.start ⟨program, analysis⟩ pass
      record place

end Timebound.Optimizer
