import Timebound.Proofs.RunStatistics

/-!
# Optimizing a settled result changes nothing

The last sweep of a run that has converged shows each pass a program on which it makes no change.
The standard passes look neither at the number of earlier executions nor at the record of changes
(`Pass.Steady`), so they make none when they are shown the program again: a sweep without a change
can be repeated where it ended (`Optimizer.Sweep.again`). Since the analysis at hand is that of
the program, a new run starts where the old one stopped, and stops there after one sweep.
-/

namespace Timebound

/-- A pass that reports truly and looks only at the content and the names of the program and at
the analysis. -/
structure Pass.Steady (pass : Pass) : Prop where
  /-- The reports are true. -/
  reports : pass.Reports
  /-- Whether there is work depends neither on earlier executions nor on the record. -/
  applicable : ∀ (earlier later : Nat) (program : Program) (analysis : Analysis),
    pass.applicable later program.closeJournal analysis = pass.applicable earlier program analysis
  /-- What is done does not depend on earlier executions. -/
  transform : ∀ (earlier later : Nat) (program : Program) (analysis : Analysis),
    pass.transform later program analysis = pass.transform earlier program analysis

/-- A steady pass is executed alike whether or not a record was open. -/
theorem Pass.Steady.execute_eq {pass : Pass} (steady : pass.Steady) (earlier later : Nat)
    (program : Program) (analysis : Analysis) :
    pass.execute later program.closeJournal analysis = pass.execute earlier program analysis := by
  have same := steady.transform earlier later program.openJournal analysis
  exact congrArg (fun made : Program × Except Failure Outcome =>
    (⟨made.1.closeJournal, made.1.changes, made.2⟩ : Execution)) same

/-- The standard passes are steady. -/
theorem standard_steady (tuning : Tuning) :
    ∀ pass ∈ [DeadCode.pass, Folding.pass, Guided.pass tuning], pass.Steady := by
  intro pass listed
  have reports := standard_reports tuning pass listed
  simp only [List.mem_cons, List.not_mem_nil, or_false] at listed
  rcases listed with rfl | rfl | rfl
  · exact ⟨reports, fun _ _ _ _ => rfl, fun _ _ _ _ => rfl⟩
  · exact ⟨reports, fun _ _ _ _ => rfl, fun _ _ _ _ => rfl⟩
  · exact ⟨reports, fun _ _ _ _ => rfl, fun _ _ _ _ => rfl⟩

/-- The stage with the record of changes closed. -/
def Stage.closed (stage : Stage) : Stage := { stage with program := stage.program.closeJournal }

namespace Optimizer

variable {optimizer : Optimizer} {settings : Settings}

/-- What a turn without a change can come to: the pass has no work, or it is executed without
changing anything. -/
inductive IdleTurn (pass : Pass) (stage : Stage) : Stage → Prop where
  /-- The pass has no work. -/
  | skip (idle : ∀ earlier, pass.applicable earlier stage.program stage.analysis = false) :
    IdleTurn pass stage stage
  /-- The pass is executed and reports no change. -/
  | keep {outcome : Outcome}
    (applicable : ∀ earlier, pass.applicable earlier stage.program stage.analysis = true)
    (reported : ∀ earlier,
      (pass.execute earlier stage.program stage.analysis).result = .ok outcome)
    (unmodified : outcome.modified = false) : IdleTurn pass stage stage.closed

/-- The turn of a steady pass that is no modification is idle. -/
theorem Turn.idle {pass : Pass} {record : PassRecord} {stage : Stage} {turned : TurnResult}
    (taken : Turn settings pass record stage turned) (steady : pass.Steady)
    (unchanged : turned.changed = false) : IdleTurn pass stage turned.stage := by
  have applicable (earlier : Nat) : pass.applicable earlier stage.program stage.analysis =
      pass.applicable record.runs stage.program stage.analysis :=
    (steady.applicable earlier 0 _ _).symm.trans (steady.applicable record.runs 0 _ _)
  have executed (earlier : Nat) : pass.execute earlier stage.program stage.analysis =
      pass.execute record.runs stage.program stage.analysis :=
    (steady.execute_eq earlier 0 _ _).symm.trans (steady.execute_eq record.runs 0 _ _)
  cases taken with
  | skip idle => exact .skip fun earlier => (applicable earlier).trans idle
  | keep active reported unmodified =>
    rw [(steady.reports.execute_idle reported unmodified).1]
    exact .keep (fun earlier => (applicable earlier).trans active)
      (fun earlier => executed earlier ▸ reported) unmodified
  | change _ _ _ _ => cases unchanged

/-- An idle turn leaves the stage alone or closes the record. -/
theorem IdleTurn.eq_or_eq {pass : Pass} {stage next : Stage} (idle : IdleTurn pass stage next) :
    next = stage ∨ next = stage.closed := by
  cases idle with
  | skip => exact .inl rfl
  | keep => exact .inr rfl

/-- A sweep that counts no change leaves the stage alone or closes the record. -/
theorem Sweep.eq_or_eq {queue : List (Pass × PassRecord)} {stage : Stage} {swept : SweepResult}
    (done : Sweep settings queue stage swept) (steady : ∀ entry ∈ queue, entry.1.Steady)
    (idle : swept.changes = 0) : swept.stage = stage ∨ swept.stage = stage.closed := by
  induction done with
  | nil => exact .inl rfl
  | cons first _ ih =>
    have ⟨head, tail⟩ := Nat.add_eq_zero_iff.mp idle
    have turn := (first.idle (steady _ List.mem_cons_self) (Bool.toNat_eq_zero.mp head)).eq_or_eq
    have rest := ih (fun entry listed => steady entry (List.mem_cons_of_mem _ listed)) tail
    rcases turn with same | closed
    · rw [same] at rest
      exact rest
    · rw [closed] at rest
      exact .inr (rest.elim id id)

/-- An idle turn can be repeated after the record was closed, if it was. -/
theorem IdleTurn.again {pass : Pass} {stage middle last : Stage}
    (idle : IdleTurn pass stage middle) (steady : pass.Steady)
    (later : last = middle ∨ last = middle.closed) (record : PassRecord) :
    ∃ updated, Turn settings pass record last ⟨updated, false, last⟩ := by
  cases idle with
  | skip idle =>
    refine ⟨_, .skip ?_⟩
    rcases later with rfl | rfl
    · exact idle record.runs
    · exact (steady.applicable record.runs record.runs _ _).trans (idle record.runs)
  | keep applicable reported unmodified =>
    -- The record is closed now, and stays so.
    have closed : last = stage.closed := later.elim id id
    have active : pass.applicable record.runs last.program last.analysis = true := by
      rw [closed]
      exact (steady.applicable record.runs record.runs _ _).trans (applicable record.runs)
    have executed : pass.execute record.runs last.program last.analysis =
        pass.execute record.runs stage.program stage.analysis := by
      rw [closed]
      exact steady.execute_eq record.runs record.runs _ _
    have left : (pass.execute record.runs last.program last.analysis).program = last.program := by
      rw [executed, (steady.reports.execute_idle (reported record.runs) unmodified).1, closed]
      rfl
    have turn : Turn settings pass record last _ :=
      .keep active (executed ▸ reported record.runs) unmodified
    rw [left] at turn
    exact ⟨_, turn⟩

/-- A sweep without a change can be repeated where it ended. -/
theorem Sweep.again {queue : List (Pass × PassRecord)} {stage : Stage} {swept : SweepResult}
    (done : Sweep settings queue stage swept) (steady : ∀ entry ∈ queue, entry.1.Steady)
    (idle : swept.changes = 0) :
    ∀ other : List (Pass × PassRecord), other.map Prod.fst = queue.map Prod.fst →
      ∃ updated, Sweep settings other swept.stage ⟨updated, 0, swept.stage⟩ := by
  induction done with
  | nil stage =>
    intro other passes
    rw [List.map_nil, List.map_eq_nil_iff] at passes
    subst passes
    exact ⟨[], .nil stage⟩
  | @cons pass record rest stage turned others first later ih =>
    intro other passes
    obtain ⟨⟨_, held⟩, queued, rfl, found, sameRest⟩ := List.map_eq_cons_iff.mp passes
    cases found
    have ⟨head, tail⟩ := Nat.add_eq_zero_iff.mp idle
    have steadyRest (entry : Pass × PassRecord) (listed : entry ∈ rest) : entry.1.Steady :=
      steady entry (List.mem_cons_of_mem _ listed)
    have turn := first.idle (steady _ List.mem_cons_self) (Bool.toNat_eq_zero.mp head)
    obtain ⟨one, taken⟩ := turn.again (steady _ List.mem_cons_self)
      (later.eq_or_eq steadyRest tail) held
    obtain ⟨more, sweptRest⟩ := ih steadyRest tail queued sameRest
    exact ⟨one :: more, .cons taken sweptRest⟩

/-! ## Runs that have converged -/

/-- Sweeps that have converged end with one that changes nothing. -/
theorem Sweeps.last_idle {program : Program} {left : Nat} {summary final : RunSummary}
    {stage last : Stage} (swept : Sweeps optimizer left summary stage final last)
    (accounts : Accounts optimizer program summary stage) (unsettled : summary.converged = false)
    (converged : final.converged = true) : left ≠ 0 ∧ ∃ before place final,
      before.map PassRecord.name = optimizer.passNames ∧
        Sweep optimizer.settings (optimizer.passes.zip before) place final ∧
        final.changes = 0 ∧ final.stage = last := by
  induction swept with
  | exhausted => exact absurd (converged.symm.trans unsettled) nofun
  | settled done idle =>
    exact ⟨Nat.succ_ne_zero _, _, _, _, accounts.names, done, idle, rfl⟩
  | onward done _ _ ih =>
    exact ⟨Nat.succ_ne_zero _, (ih (accounts.advance done) unsettled converged).2⟩

/-- A run of steady passes that has converged can be repeated on its result. -/
theorem run_again {program : Program} {result : Optimized}
    (steady : ∀ pass ∈ optimizer.passes, pass.Steady)
    (done : optimizer.run program = .ok result) (converged : result.summary.converged = true) :
    ∃ again, optimizer.run result.program = .ok again ∧ again.summary.sweeps = 1 ∧
      again.summary.modifications = 0 ∧ again.summary.converged = true ∧
      again.program = result.program ∧ again.summary.bounds = result.summary.bounds := by
  obtain ⟨consistent, analysis, summary, stage, analyzed, swept, rfl⟩ := run_eq_ok_iff.mp done
  have keeps (pass : Pass) (listed : pass ∈ optimizer.passes) : pass.KeepsUnmodified :=
    (steady pass listed).reports.truthful.keepsUnmodified
  have fresh := swept.fresh keeps ⟨consistent, analyzed⟩
  obtain ⟨allowed, before, place, final, names, last, idle, rfl⟩ :=
    swept.last_idle (accounts_start analyzed) rfl converged
  obtain ⟨left, maxSweeps⟩ := Nat.exists_eq_succ_of_ne_zero allowed
  have start := accounts_start analyzed
  have passes : (optimizer.passes.zip optimizer.start.records).map Prod.fst =
      (optimizer.passes.zip before).map Prod.fst := by
    rw [(map_queue start.names).1, (map_queue names).1]
  obtain ⟨updated, repeated⟩ := last.again
    (fun entry queued => steady entry.1 (mem_passes_of_queued queued)) idle
    (optimizer.passes.zip optimizer.start.records) passes
  have settled : Sweeps optimizer optimizer.settings.maxSweeps optimizer.start final.stage
      { advance optimizer.start ⟨updated, 0, final.stage⟩ with converged := true }
      final.stage := by
    rw [maxSweeps]
    exact .settled repeated rfl
  exact ⟨_, run_eq_ok_iff.mpr ⟨fresh.consistent, final.stage.analysis, _, final.stage,
    fresh.analyzed, settled, rfl⟩, rfl, rfl, rfl, rfl, rfl⟩

/-- Optimizing a converged result changes nothing: a second run makes one sweep without a change
and returns the same program with the same bounds. -/
theorem optimize_converged_again {program : Program} {settings : Settings} {result : Optimized}
    (done : optimize program settings = .ok result) (converged : result.summary.converged = true) :
    ∃ again, optimize result.program settings = .ok again ∧ again.summary.sweeps = 1 ∧
      again.summary.modifications = 0 ∧ again.summary.converged = true ∧
      again.program = result.program ∧ again.summary.bounds = result.summary.bounds :=
  run_again (standard_steady settings.tuning) done converged

/-- A run on `workshop` returns another program; a second run returns that program again. -/
theorem optimize_converged_again_workshop :
    ∃ result, optimize workshop patient = .ok result ∧ result.summary.converged = true ∧
      result.summary.modifications = 6 ∧ result.program.sameContent workshop = false ∧
      ∃ again, optimize result.program patient = .ok again ∧ again.summary.sweeps = 1 ∧
        again.summary.modifications = 0 ∧ again.summary.converged = true ∧
        again.program = result.program ∧ again.summary.bounds = result.summary.bounds := by
  have checked : ((optimize workshop patient).toOption.any fun result =>
      decide (result.summary.converged = true ∧ result.summary.modifications = 6 ∧
        result.program.sameContent workshop = false)) = true := by decide +kernel
  obtain ⟨result, done, passed⟩ := exists_ok_of_any checked
  have ⟨converged, changes, differs⟩ := of_decide_eq_true passed
  exact ⟨result, done, converged, changes, differs, optimize_converged_again done converged⟩

end Optimizer

end Timebound
