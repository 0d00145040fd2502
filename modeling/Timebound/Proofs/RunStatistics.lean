import Timebound.Proofs.FreshAnalysis

/-!
# Run statistics account for the run

The counters of a run add up. What one turn does to a record (`Optimizer.Turned`) carries over to
sweeps and runs: each pass was executed or skipped once per sweep, and the changes that a run
counts itself are those that the passes have in their records. `Optimizer.afterSweeps` tells where
the sweeps alone lead, without any decision when to stop; a run returns what is there after as
many sweeps as it counted, and it has converged when no turn of the last one was a modification.
The passes of the standard optimizer report their changes of size truly, so these sum up to the
difference of the program sizes.
-/

namespace Timebound.Optimizer

variable {optimizer : Optimizer} {settings : Settings}

/-! ## Turns and sweeps -/

/-- What a turn does to the counters of its pass. -/
structure Turned (record updated : PassRecord) : Prop where
  /-- The name stays. -/
  name : updated.name = record.name
  /-- The pass was executed or skipped. -/
  turns : updated.runs + updated.skipped = record.runs + record.skipped + 1
  /-- There are no more new changes than new executions. -/
  executed : updated.modifications + record.runs ≤ record.modifications + updated.runs

/-- A turn is counted. -/
theorem Turn.turned {pass : Pass} {record : PassRecord} {stage : Stage} {turned : TurnResult}
    (taken : Turn settings pass record stage turned) : Turned record turned.record := by
  cases taken with
  | skip idle => exact ⟨rfl, rfl, Nat.le_refl _⟩
  | keep applicable reported unmodified =>
    exact ⟨rfl, by dsimp only; omega, by dsimp only; omega⟩
  | change applicable reported modified accepted =>
    exact ⟨rfl, by dsimp only [PassRecord.note]; omega, by dsimp only [PassRecord.note]; omega⟩

/-- A turn adds a change to the record of its pass exactly when it is a modification. -/
theorem Turn.modifications_eq {pass : Pass} {record : PassRecord} {stage : Stage}
    {turned : TurnResult} (taken : Turn settings pass record stage turned) :
    turned.record.modifications = record.modifications + turned.changed.toNat := by
  cases taken with
  | skip | keep | change => rfl

/-- The turns of a sweep are counted. -/
theorem Sweep.turned {queue : List (Pass × PassRecord)} {stage : Stage} {swept : SweepResult}
    (done : Sweep settings queue stage swept) :
    List.Forall₂ (fun entry updated => Turned entry.2 updated) queue swept.records := by
  induction done with
  | nil => exact .nil
  | cons first _ ih => exact .cons first.turned ih

/-- The number of changes noted in records. -/
def totalModifications (records : List PassRecord) : Nat :=
  records.foldr (fun record rest => record.modifications + rest) 0

/-- The changes that a sweep counts are those that it adds to the records. -/
theorem Sweep.totalModifications_eq {queue : List (Pass × PassRecord)} {stage : Stage}
    {swept : SweepResult} (done : Sweep settings queue stage swept) :
    totalModifications swept.records =
      totalModifications (queue.map Prod.snd) + swept.changes := by
  induction done with
  | nil => rfl
  | cons first _ ih =>
    have one := first.modifications_eq
    simp only [totalModifications, List.map_cons, List.foldr_cons] at ih ⊢
    omega

/-- With a record for each pass, the queue of a sweep holds all passes and all records. -/
theorem map_queue {records : List PassRecord}
    (names : records.map PassRecord.name = optimizer.passNames) :
    (optimizer.passes.zip records).map Prod.fst = optimizer.passes ∧
      (optimizer.passes.zip records).map Prod.snd = records := by
  have lengths := congrArg List.length names
  rw [List.length_map, passNames, List.length_map] at lengths
  exact ⟨List.map_fst_zip (Nat.le_of_eq lengths.symm), List.map_snd_zip (Nat.le_of_eq lengths)⟩

/-- A sweep with a record for each pass counts a turn in each record. -/
theorem Sweep.turned_records {before : List PassRecord} {stage : Stage} {swept : SweepResult}
    (done : Sweep settings (optimizer.passes.zip before) stage swept)
    (names : before.map PassRecord.name = optimizer.passNames) :
    List.Forall₂ Turned before swept.records := by
  have mapped : List.Forall₂ Turned ((optimizer.passes.zip before).map Prod.snd) swept.records :=
    List.forall₂_map_left_iff.mpr done.turned
  rwa [(map_queue names).2] at mapped

/-- A sweep keeps the names in the records. -/
theorem names_of_turned {before after : List PassRecord}
    (turned : List.Forall₂ Turned before after) :
    after.map PassRecord.name = before.map PassRecord.name := by
  induction turned with
  | nil => rfl
  | cons first _ ih => rw [List.map_cons, List.map_cons, first.name, ih]

/-- A sweep adds a turn to each record, and no more changes than executions. -/
theorem turns_of_turned {before after : List PassRecord} {sweeps : Nat}
    (turned : List.Forall₂ Turned before after)
    (counted : ∀ record ∈ before,
      record.runs + record.skipped = sweeps ∧ record.modifications ≤ record.runs) :
    ∀ record ∈ after,
      record.runs + record.skipped = sweeps + 1 ∧ record.modifications ≤ record.runs := by
  induction turned with
  | nil => exact fun _ listed => absurd listed List.not_mem_nil
  | @cons record updated olds news first _ ih =>
    intro other listed
    rcases List.mem_cons.mp listed with rfl | later
    · have ⟨turns, changes⟩ := counted record List.mem_cons_self
      have more := first.turns
      have executed := first.executed
      omega
    · exact ih (fun old present => counted old (List.mem_cons_of_mem _ present)) other later

/-! ## Runs -/

/-- The records and the stage after so many sweeps over a program, if all of them succeed. -/
def afterSweeps (optimizer : Optimizer) (program : Program) :
    Nat → Except Failure (List PassRecord × Stage)
  | 0 => do
    let analysis ← program.analyze optimizer.settings.profile
    .ok (optimizer.start.records, ⟨program, analysis⟩)
  | count + 1 => do
    let (records, stage) ← optimizer.afterSweeps program count
    let swept ← sweep optimizer.settings (optimizer.passes.zip records) stage
    .ok (swept.records, swept.stage)

/-- No turn of the last of so many sweeps is a modification. -/
def LastIdle (optimizer : Optimizer) (program : Program) (count : Nat) : Prop :=
  ∃ earlier records stage, count = earlier + 1 ∧
    optimizer.afterSweeps program earlier = .ok (records, stage) ∧
    IdleSweep optimizer.settings (optimizer.passes.zip records) stage

/-- The statistics account for the sweeps made so far. -/
structure Accounts (optimizer : Optimizer) (program : Program) (summary : RunSummary)
    (stage : Stage) : Prop where
  /-- There is a record for each pass. -/
  names : summary.records.map PassRecord.name = optimizer.passNames
  /-- Each pass had a turn in each sweep, and made no more changes than it was executed. -/
  turns : ∀ record ∈ summary.records,
    record.runs + record.skipped = summary.sweeps ∧ record.modifications ≤ record.runs
  /-- The changes are those of the passes. -/
  total : summary.modifications = totalModifications summary.records
  /-- The sweeps lead to these records and this stage. -/
  after : optimizer.afterSweeps program summary.sweeps = .ok (summary.records, stage)

/-- The statistics at the start account for no sweep. -/
theorem accounts_start {program : Program} {analysis : Analysis}
    (analyzed : program.analyze optimizer.settings.profile = .ok analysis) :
    Accounts optimizer program optimizer.start ⟨program, analysis⟩ where
  names := by rw [start, List.map_map]; exact List.map_id _
  turns record listed := by
    obtain ⟨name, _, rfl⟩ := List.mem_map.mp listed
    exact ⟨rfl, Nat.le_refl _⟩
  total := by
    have none (names : List String) :
        totalModifications (names.map fun name => ({ name } : PassRecord)) = 0 := by
      induction names with
      | nil => rfl
      | cons name rest ih => rw [List.map_cons]; exact (Nat.zero_add _).trans ih
    exact (none optimizer.passNames).symm
  after := by
    change optimizer.afterSweeps program 0 = _
    rw [afterSweeps, analyzed]
    rfl

variable {program : Program} {summary : RunSummary} {stage : Stage} {swept : SweepResult}

/-- One more sweep is accounted for. -/
theorem Accounts.advance (accounts : Accounts optimizer program summary stage)
    (done : Sweep optimizer.settings (optimizer.passes.zip summary.records) stage swept) :
    Accounts optimizer program (advance summary swept) swept.stage := by
  have turned := done.turned_records accounts.names
  refine ⟨(names_of_turned turned).trans accounts.names,
    turns_of_turned turned accounts.turns, ?_, ?_⟩
  · have counted := done.totalModifications_eq
    rw [(map_queue accounts.names).2, ← accounts.total] at counted
    exact counted.symm
  · change optimizer.afterSweeps program (summary.sweeps + 1) = .ok (swept.records, swept.stage)
    exact bind_eq_ok_iff.mpr ⟨_, accounts.after,
      bind_eq_ok_iff.mpr ⟨swept, sweep_eq_ok_iff.mpr done, rfl⟩⟩

/-- The sweep that comes next is idle exactly when it counts no change. -/
theorem Accounts.lastIdle_iff (accounts : Accounts optimizer program summary stage)
    (done : Sweep optimizer.settings (optimizer.passes.zip summary.records) stage swept) :
    LastIdle optimizer program (summary.sweeps + 1) ↔ swept.changes = 0 := by
  rw [done.changes_eq_zero_iff]
  constructor
  · rintro ⟨earlier, before, place, count, after, idle⟩
    cases Nat.succ.inj count
    cases accounts.after.symm.trans after
    exact idle
  · exact fun idle => ⟨summary.sweeps, summary.records, stage, rfl, accounts.after, idle⟩

/-- Sweeps in a row are accounted for, and they stop after an idle sweep or when none is left. -/
theorem Sweeps.accounts {left : Nat} {final : RunSummary} {last : Stage}
    (swept : Sweeps optimizer left summary stage final last)
    (accounts : Accounts optimizer program summary stage) (unsettled : summary.converged = false)
    (busy : ¬LastIdle optimizer program summary.sweeps) :
    Accounts optimizer program final last ∧ final.sweeps ≤ summary.sweeps + left ∧
      (final.converged = true ↔ LastIdle optimizer program final.sweeps) ∧
      (final.converged = false → final.sweeps = summary.sweeps + left) := by
  induction swept with
  | exhausted summary stage =>
    exact ⟨accounts, Nat.le_refl _, by simp [unsettled, busy], fun _ => rfl⟩
  | settled done idle =>
    have next := accounts.advance done
    refine ⟨⟨next.names, next.turns, next.total, next.after⟩, ?_, ?_, nofun⟩
    · dsimp only [Optimizer.advance]
      omega
    · exact ⟨fun _ => (accounts.lastIdle_iff done).mpr idle, fun _ => rfl⟩
  | onward done changed _ ih =>
    have ⟨final, within, converged, used⟩ := ih (accounts.advance done) unsettled
      fun idle => changed ((accounts.lastIdle_iff done).mp idle)
    dsimp only [Optimizer.advance] at within used
    exact ⟨final, by omega, converged, fun unfinished => by rw [used unfinished]; omega⟩

/-! ## Sizes -/

/-- The change of size noted in records. -/
def totalSizeImpact (records : List PassRecord) : Int :=
  records.foldr (fun record rest => record.sizeImpact + rest) 0

/-- A turn notes by how much the size changes. -/
theorem Turn.size_eq {pass : Pass} {record : PassRecord} {turned : TurnResult}
    (taken : Turn settings pass record stage turned) (reports : pass.Reports) :
    (turned.stage.program.size : Int) - turned.record.sizeImpact =
      stage.program.size - record.sizeImpact := by
  cases taken with
  | skip idle => rfl
  | keep applicable reported unmodified =>
    have left := (reports.execute_idle reported unmodified).1
    dsimp only
    rw [left]
    rfl
  | change applicable reported modified accepted =>
    have size := reports.execute_size reported
    dsimp only [PassRecord.note]
    omega

/-- A sweep notes by how much the size changes. -/
theorem Sweep.size_eq {queue : List (Pass × PassRecord)}
    (done : Sweep settings queue stage swept)
    (reports : ∀ entry ∈ queue, entry.1.Reports) :
    (swept.stage.program.size : Int) - totalSizeImpact swept.records =
      stage.program.size - totalSizeImpact (queue.map Prod.snd) := by
  induction done with
  | nil => rfl
  | cons first _ ih =>
    have one := first.size_eq (reports _ List.mem_cons_self)
    have others := ih fun entry listed => reports entry (List.mem_cons_of_mem _ listed)
    simp only [totalSizeImpact, List.map_cons, List.foldr_cons] at others ⊢
    omega

/-- Sweeps in a row note by how much the size changes. -/
theorem Sweeps.size_eq {left : Nat} {final : RunSummary} {last : Stage}
    (swept : Sweeps optimizer left summary stage final last)
    (reports : ∀ pass ∈ optimizer.passes, pass.Reports)
    (accounts : Accounts optimizer program summary stage) :
    (last.program.size : Int) - totalSizeImpact final.records =
      stage.program.size - totalSizeImpact summary.records := by
  have once {summary : RunSummary} {stage : Stage} {swept : SweepResult}
      (accounts : Accounts optimizer program summary stage)
      (done : Sweep optimizer.settings (optimizer.passes.zip summary.records) stage swept) :
      (swept.stage.program.size : Int) - totalSizeImpact swept.records =
        stage.program.size - totalSizeImpact summary.records := by
    have noted := done.size_eq fun entry queued => reports entry.1 (mem_passes_of_queued queued)
    rwa [(map_queue accounts.names).2] at noted
  induction swept with
  | exhausted => rfl
  | settled done _ => exact once accounts done
  | onward done _ _ ih => exact (ih (accounts.advance done)).trans (once accounts done)

/-- Run statistics account for the run. There is a record for each pass; each pass was executed
or skipped once in each sweep and made at most one change per execution, and the changes that the
run counted are those of the passes. The sweeps counted, of which there are no more than allowed,
lead to the records and the program returned. The run has converged exactly when there was a sweep
and no turn of the last one was a modification, and otherwise all allowed sweeps were made. With
the standard passes, the noted changes of size sum up to the difference between the program
returned and the program given. -/
theorem run_statistics_account {result : Optimized} (done : optimizer.run program = .ok result) :
    result.summary.records.map PassRecord.name = optimizer.passNames ∧
    (∀ record ∈ result.summary.records,
      record.runs + record.skipped = result.summary.sweeps ∧
        record.modifications ≤ record.runs) ∧
    result.summary.modifications = totalModifications result.summary.records ∧
    result.summary.sweeps ≤ optimizer.settings.maxSweeps ∧
    (∃ stage, optimizer.afterSweeps program result.summary.sweeps =
      .ok (result.summary.records, stage) ∧ stage.program = result.program) ∧
    (result.summary.converged = true ↔ LastIdle optimizer program result.summary.sweeps) ∧
    (result.summary.converged = false →
      result.summary.sweeps = optimizer.settings.maxSweeps) ∧
    ∀ settings, optimizer = standard settings →
      totalSizeImpact result.summary.records = (result.program.size : Int) - program.size := by
  obtain ⟨_, analysis, summary, stage, analyzed, swept, rfl⟩ := run_eq_ok_iff.mp done
  have start := accounts_start analyzed
  have ⟨accounts, within, converged, used⟩ := swept.accounts start rfl fun ⟨_, _, _, count, _⟩ =>
    absurd count (Nat.succ_ne_zero _).symm
  have none : optimizer.start.sweeps = 0 := rfl
  rw [none, Nat.zero_add] at within used
  refine ⟨accounts.names, accounts.turns, accounts.total, within, ⟨stage, accounts.after, rfl⟩,
    converged, used, ?_⟩
  rintro settings rfl
  have size := swept.size_eq (standard_reports settings.tuning) start
  have nothing : totalSizeImpact (standard settings).start.records = 0 := rfl
  dsimp only at size ⊢
  omega

/-- Sweeps until nothing changes, in which bounds are not watched. -/
def patient : Settings := { preserveBounds := false }

/-- On `workshop`, four sweeps make six changes, the last one none of them; what was removed,
folded and moved into `main` adds up to 65 nodes. -/
theorem run_statistics_account_workshop :
    ∃ result, optimize workshop patient = .ok result ∧ result.summary.converged = true ∧
      result.summary.sweeps = 4 ∧ totalModifications result.summary.records = 6 ∧
      (∀ record ∈ result.summary.records, record.runs + record.skipped = 4 ∧
        record.modifications ≤ record.runs) ∧
      LastIdle (standard patient) workshop 4 ∧
      totalSizeImpact result.summary.records = 65 ∧
      (result.program.size : Int) - workshop.size = 65 := by
  have checked : ((optimize workshop patient).toOption.any fun result =>
      decide (result.summary.converged = true ∧ result.summary.sweeps = 4 ∧
        result.summary.modifications = 6 ∧
        totalSizeImpact result.summary.records = 65)) = true := by decide +kernel
  obtain ⟨result, done, passed⟩ := exists_ok_of_any checked
  have ⟨converged, sweeps, changes, impact⟩ := of_decide_eq_true passed
  obtain ⟨_, turns, total, _, _, idle, _, size⟩ := run_statistics_account done
  rw [sweeps] at turns idle
  exact ⟨result, done, converged, sweeps, total ▸ changes, turns, idle.mp converged, impact,
    (size patient rfl) ▸ impact⟩

end Timebound.Optimizer
