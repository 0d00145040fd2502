import Timebound.Proofs.Backlog
import Timebound.Proofs.RunStatistics

/-!
# Runs that are long enough converge

A turn leaves the program as it is, or it leaves less to do at prices that were fixed at the start
of the run (`Optimizer.Turn.lowers`); so does a sweep. Since a backlog cannot get less for ever,
some sweep of every run that is allowed enough of them fails or changes nothing
(`Optimizer.exists_settles`). How many sweeps are allowed does not matter before that, so all runs
that are allowed enough end alike.
-/

namespace Timebound.Optimizer

variable {settings : Settings} {optimizer : Optimizer} {listed : List FunctionId}
  {price : FunctionId → Nat}

/-! ## Turns and sweeps -/

/-- A turn stays within prices. It is no modification and leaves as much to do, or it leaves
less. -/
theorem Turn.lowers {pass : Pass} {record : PassRecord} {stage : Stage} {turned : TurnResult}
    (taken : Turn settings pass record stage turned) (reports : pass.Reports)
    (lowers : pass.Lowers) (fresh : stage.Fresh settings.profile)
    (affords : stage.program.Affords listed price) :
    turned.stage.program.Affords listed price ∧
      ((turned.changed = false ∧
          turned.stage.program.backlog price = stage.program.backlog price) ∨
        (turned.stage.program.backlog price).Less (stage.program.backlog price)) := by
  cases taken with
  | skip idle => exact ⟨affords, .inl ⟨rfl, rfl⟩⟩
  | keep applicable reported unmodified =>
    rw [(reports.execute_idle reported unmodified).1]
    exact ⟨affords.of_fewer fun _ _ found => found, .inl ⟨rfl, rfl⟩⟩
  | change applicable reported modified accepted =>
    -- Outside code gets to critical functions, since the analysis is that of the program.
    have critical : ∀ id ∈ stage.analysis.criticalFunctions.keys, id ∈ listed := by
      intro id onPath
      obtain ⟨order, ordered, inOrder⟩ := Program.mem_callOrder_of_critical fresh.analyzed
      exact affords.mem_of_reaches ((DeadCode.removeDead_livePart _).reaches_of_ordered ordered
        (inOrder id onPath))
    have opened : stage.program.openJournal.Affords listed price :=
      affords.of_fewer fun _ _ found => found
    have ⟨kept, less⟩ := lowers opened critical reported modified
    exact ⟨kept.of_fewer fun _ _ found => found, .inr less⟩

/-- A sweep stays within prices. It counts no change and leaves as much to do, or it leaves
less. -/
theorem Sweep.lowers {queue : List (Pass × PassRecord)} {stage : Stage} {swept : SweepResult}
    (done : Sweep settings queue stage swept)
    (reports : ∀ entry ∈ queue, entry.1.Reports) (lowers : ∀ entry ∈ queue, entry.1.Lowers)
    (fresh : stage.Fresh settings.profile) (affords : stage.program.Affords listed price) :
    swept.stage.program.Affords listed price ∧
      ((swept.changes = 0 ∧ swept.stage.program.backlog price = stage.program.backlog price) ∨
        (swept.stage.program.backlog price).Less (stage.program.backlog price)) := by
  induction done with
  | nil => exact ⟨affords, .inl ⟨rfl, rfl⟩⟩
  | cons first _ ih =>
    have truthful := reports _ List.mem_cons_self
    have ⟨kept, turn⟩ := first.lowers truthful (lowers _ List.mem_cons_self) fresh affords
    have ⟨last, rest⟩ := ih (fun entry queued => reports entry (List.mem_cons_of_mem _ queued))
      (fun entry queued => lowers entry (List.mem_cons_of_mem _ queued))
      (first.fresh truthful.truthful.keepsUnmodified fresh) kept
    refine ⟨last, ?_⟩
    rcases turn with ⟨unchanged, same⟩ | less <;> rcases rest with ⟨idle, sameRest⟩ | lessRest
    · exact .inl ⟨by simp [unchanged, idle], sameRest.trans same⟩
    · exact .inr (same ▸ lessRest)
    · exact .inr (sameRest ▸ less)
    · exact .inr (lessRest.trans less)

/-- A sweep that counts a change stays within prices and leaves less to do. -/
theorem Sweep.lowers_of_busy {records : List PassRecord} {stage : Stage} {swept : SweepResult}
    (done : Sweep optimizer.settings (optimizer.passes.zip records) stage swept)
    (busy : swept.changes ≠ 0)
    (reports : ∀ pass ∈ optimizer.passes, pass.Reports)
    (lowers : ∀ pass ∈ optimizer.passes, pass.Lowers)
    (fresh : stage.Fresh optimizer.settings.profile)
    (affords : stage.program.Affords listed price) :
    swept.stage.program.Affords listed price ∧
      (swept.stage.program.backlog price).Less (stage.program.backlog price) := by
  have ⟨kept, result⟩ := done.lowers
    (fun _ queued => reports _ (mem_passes_of_queued queued))
    (fun _ queued => lowers _ (mem_passes_of_queued queued)) fresh affords
  exact ⟨kept, result.resolve_left fun idle => busy idle.1⟩

/-! ## Runs that are long enough -/

/-- From a number of steps on, a computation that may be cut short always ends alike: it fails or
is complete. With fewer steps it succeeds and is not complete. -/
structure Settles {α : Type} (run : Nat → Except Failure α) (isComplete : α → Bool)
    (enough : Nat) (outcome : Except Failure α) : Prop where
  /-- More steps make no difference. -/
  ends : ∀ allowed, enough ≤ allowed → run allowed = outcome
  /-- What is returned then is complete. -/
  complete : ∀ result, outcome = .ok result → isComplete result = true
  /-- What is returned before is not. -/
  before : ∀ allowed, allowed < enough → ∃ result, run allowed = .ok result ∧
    isComplete result = false

/-- A sweep that fails, or that changes nothing, ends all runs that are allowed it. -/
theorem settles_one {stage : Stage} {summary : RunSummary}
    {outcome : Except Failure (RunSummary × Stage)} (unsettled : summary.converged = false)
    (ends : ∀ left, optimizer.sweeps (left + 1) summary stage = outcome)
    (complete : ∀ result, outcome = .ok result → result.1.converged = true) :
    Settles (optimizer.sweeps · summary stage) (·.1.converged) 1 outcome where
  ends allowed enough := by
    obtain ⟨left, rfl⟩ := Nat.exists_eq_add_of_le' enough
    exact ends left
  complete := complete
  before allowed few := by
    rw [Nat.lt_one_iff.mp few]
    exact ⟨(summary, stage), rfl, unsettled⟩

/-- A sweep that changes something is one more than the later ones. -/
theorem Settles.succ {stage : Stage} {summary : RunSummary} {swept : SweepResult}
    {enough : Nat} {outcome : Except Failure (RunSummary × Stage)}
    (later : Settles (optimizer.sweeps · (advance summary swept) swept.stage) (·.1.converged)
      enough outcome)
    (done : sweep optimizer.settings (optimizer.passes.zip summary.records) stage = .ok swept)
    (busy : swept.changes ≠ 0) (unsettled : summary.converged = false) :
    Settles (optimizer.sweeps · summary stage) (·.1.converged) (enough + 1) outcome := by
  have onward (left : Nat) : optimizer.sweeps (left + 1) summary stage =
      optimizer.sweeps left (advance summary swept) swept.stage := by
    rw [sweeps_succ done, if_neg busy]
  refine ⟨fun allowed enough => ?_, later.complete, fun allowed few => ?_⟩
  · cases allowed with
    | zero => exact absurd enough (Nat.not_succ_le_zero _)
    | succ left => exact (onward left).trans (later.ends left (Nat.le_of_succ_le_succ enough))
  · cases allowed with
    | zero => exact ⟨(summary, stage), rfl, unsettled⟩
    | succ left =>
      obtain ⟨result, made, incomplete⟩ := later.before left (Nat.lt_of_succ_lt_succ few)
      exact ⟨result, (onward left).trans made, incomplete⟩

/-- Sweeps in a row settle when every reported change leaves less to do. -/
theorem exists_settles (reports : ∀ pass ∈ optimizer.passes, pass.Reports)
    (lowers : ∀ pass ∈ optimizer.passes, pass.Lowers) {stage : Stage} {summary : RunSummary}
    (unsettled : summary.converged = false) (fresh : stage.Fresh optimizer.settings.profile)
    (affords : stage.program.Affords listed price) :
    ∃ enough outcome,
      Settles (optimizer.sweeps · summary stage) (·.1.converged) enough outcome := by
  -- Induction on the backlog, which a sweep that changes something lowers.
  generalize start : stage.program.backlog price = backlog
  induction backlog using Backlog.less_wellFounded.induction generalizing stage summary with
  | _ backlog ih =>
    cases made : sweep optimizer.settings (optimizer.passes.zip summary.records) stage with
    | error failure =>
      refine ⟨1, .error failure, settles_one unsettled (fun left => ?_) nofun⟩
      rw [sweeps, made]
      rfl
    | ok swept =>
      have done := sweep_eq_ok_iff.mp made
      by_cases idle : swept.changes = 0
      · refine ⟨1, .ok ({ advance summary swept with converged := true }, swept.stage),
          settles_one unsettled (fun left => ?_) fun result same => ?_⟩
        · rw [sweeps_succ made, if_pos idle]
        · cases same
          rfl
      · obtain ⟨kept, less⟩ := done.lowers_of_busy idle reports lowers fresh affords
        have later := done.fresh (fun _ queued =>
          (reports _ (mem_passes_of_queued queued)).truthful.keepsUnmodified) fresh
        have ongoing : (advance summary swept).converged = false := unsettled
        obtain ⟨enough, outcome, settles⟩ := ih _ (start ▸ less) ongoing later kept rfl
        exact ⟨enough + 1, outcome, settles.succ made idle unsettled⟩

/-! ## The number of sweeps allowed -/

/-- A sweep does not depend on how many are allowed. -/
theorem sweep_allowing (settings : Settings) (allowed : Nat) (queue : List (Pass × PassRecord))
    (stage : Stage) :
    sweep { settings with maxSweeps := allowed } queue stage = sweep settings queue stage := by
  induction queue generalizing stage with
  | nil => rfl
  | cons entry rest ih =>
    rw [sweep, sweep]
    simp only [ih]
    rfl

/-- Sweeps in a row depend on how many are left, and not on how many were allowed. -/
theorem sweeps_allowing (settings : Settings) (allowed left : Nat) (summary : RunSummary)
    (stage : Stage) :
    (standard { settings with maxSweeps := allowed }).sweeps left summary stage =
      (standard settings).sweeps left summary stage := by
  induction left generalizing summary stage with
  | zero => rfl
  | succ left ih =>
    rw [sweeps, sweeps]
    simp only [ih]
    rw [show (standard { settings with maxSweeps := allowed }).settings =
      { settings with maxSweeps := allowed } from rfl, sweep_allowing]
    rfl

/-- The result of a run that stopped with these statistics at this stage. -/
def finish (ended : RunSummary × Stage) : Optimized :=
  ⟨ended.2.program, { ended.1 with bounds := boundsByName ended.2 }⟩

/-- A run on a consistent program that can be analyzed is what its sweeps come to. -/
theorem run_eq_map {program : Program} {analysis : Analysis} (consistent : program.fault? = none)
    (analyzed : program.analyze optimizer.settings.profile = .ok analysis) :
    optimizer.run program = (optimizer.sweeps optimizer.settings.maxSweeps optimizer.start
      ⟨program, analysis⟩).map finish := by
  unfold run
  rw [consistent, analyzed]
  rfl

/-- A run with another number of sweeps allowed is what so many sweeps come to. -/
theorem optimize_allowing {program : Program} {settings : Settings} {analysis : Analysis}
    (consistent : program.fault? = none)
    (analyzed : program.analyze settings.profile = .ok analysis) (allowed : Nat) :
    optimize program { settings with maxSweeps := allowed } =
      ((standard settings).sweeps allowed (standard settings).start ⟨program, analysis⟩).map
        finish :=
  (run_eq_map consistent analyzed).trans
    (congrArg (Except.map finish) (sweeps_allowing settings allowed allowed _ _))

/-- Every program reaches a fixed point. There is a number of sweeps from which on all runs end
alike: they fail for the same reason, or they converge and return the same program with the same
statistics, in which impacts are signed words that wrap around. A run that is allowed fewer sweeps
succeeds and has not converged. -/
theorem optimize_reaches_fixed_point (program : Program) (settings : Settings) :
    ∃ enough outcome,
      (∀ allowed, enough ≤ allowed →
        optimize program { settings with maxSweeps := allowed } = outcome) ∧
      (∀ result, outcome = .ok result → result.summary.converged = true) ∧
      ∀ allowed, allowed < enough →
        ∃ result, optimize program { settings with maxSweeps := allowed } = .ok result ∧
          result.summary.converged = false := by
  cases fault : program.fault? with
  | some error =>
    refine ⟨0, .error (.analysis error.subject (.inconsistent error)), fun allowed _ => ?_, nofun,
      fun _ few => absurd few (Nat.not_lt_zero _)⟩
    rw [optimize, run, fault]
  | none =>
    cases analyzed : program.analyze settings.profile with
    | error failure =>
      refine ⟨0, .error failure, fun allowed _ => ?_, nofun,
        fun _ few => absurd few (Nat.not_lt_zero _)⟩
      unfold optimize run
      rw [fault]
      exact congrArg (· >>= _) analyzed
    | ok analysis =>
      obtain ⟨order, ordered, _⟩ := Program.mem_callOrder_of_critical analyzed
      obtain ⟨price, affords⟩ := Program.affords_of_callOrder ordered
      obtain ⟨enough, outcome, settles⟩ : ∃ enough outcome, Settles
          ((standard settings).sweeps · (standard settings).start ⟨program, analysis⟩)
          (·.1.converged) enough outcome :=
        exists_settles (standard_reports settings.tuning) (standard_lowers settings.tuning) rfl
          ⟨fault, analyzed⟩ affords
      refine ⟨enough, outcome.map finish, fun allowed much => ?_, fun result made => ?_,
        fun allowed few => ?_⟩
      · rw [optimize_allowing fault analyzed, settles.ends allowed much]
      · cases outcome with
        | error failure => cases made
        | ok ended =>
          cases made
          exact settles.complete ended rfl
      · obtain ⟨ended, made, incomplete⟩ := settles.before allowed few
        refine ⟨finish ended, ?_, incomplete⟩
        rw [optimize_allowing fault analyzed, made]
        rfl

/-- Four sweeps are enough for `workshop` when bounds are not watched, and three are not. -/
theorem optimize_reaches_fixed_point_workshop :
    ∃ result, result.summary.converged = true ∧
      (∀ allowed, 4 ≤ allowed →
        optimize workshop { patient with maxSweeps := allowed } = .ok result) ∧
      ∃ early, optimize workshop { patient with maxSweeps := 3 } = .ok early ∧
        early.summary.converged = false := by
  have three : ((optimize workshop { patient with maxSweeps := 3 }).toOption.any fun result =>
      !result.summary.converged) = true := by decide +kernel
  have four : ((optimize workshop { patient with maxSweeps := 4 }).toOption.any fun result =>
      result.summary.converged) = true := by decide +kernel
  obtain ⟨early, earlyDone, incomplete⟩ := exists_ok_of_any three
  obtain ⟨result, done, converged⟩ := exists_ok_of_any four
  obtain ⟨enough, outcome, ends, complete, before⟩ := optimize_reaches_fixed_point workshop patient
  have reached : enough ≤ 4 := by
    by_contra few
    obtain ⟨other, made, unsettled⟩ := before 4 (by omega)
    cases done.symm.trans made
    cases converged.symm.trans unsettled
  have last : outcome = .ok result := (ends 4 reached).symm.trans done
  refine ⟨result, converged, fun allowed many => ?_, early, earlyDone, by simpa using incomplete⟩
  exact (ends allowed (Nat.le_trans reached many)).trans last

end Timebound.Optimizer
