import Timebound.Proofs.CycleBound
import Timebound.Proofs.DeadRemoval

/-!
# The certificate of dead code elimination

The certificate looks at recorded changes only, and skips the comparison of functions that
were not touched. It says whether all that was used is still there, as it was
(`DeadCode.certify_iff_used_kept`), whatever has been done to the program besides: roots
may be new and dead code may be changed. What is still there calls what it called, so by
induction along the calls its traces and its cycle bounds are the old ones.
-/

namespace Timebound

namespace Program

/-- All that outside code can get to in one program is in another one, unchanged. -/
structure KeptIn (start after : Program) : Prop where
  /-- The functions are there. -/
  function? : ∀ id, start.Reaches id →
    ∃ function, start.function? id = some function ∧ after.function? id = some function
  /-- The globals are there. -/
  global? : ∀ id, start.ReachesGlobal id →
    ∃ global, start.global? id = some global ∧ after.global? id = some global

namespace KeptIn

variable {start after : Program} (kept : start.KeptIn after)

include kept

/-- Functions that outside code could get to are the same. -/
theorem function?_eq {id : FunctionId} (reached : start.Reaches id) :
    after.function? id = start.function? id := by
  obtain ⟨function, before, now⟩ := kept.function? id reached
  rw [before, now]

/-- Outside code can still get to the functions that it could get to. -/
theorem reaches {id : FunctionId} (reached : start.Reaches id) : after.Reaches id := by
  induction reached with
  | root found isRoot => exact .root ((kept.function?_eq (.root found isRoot)).trans found) isRoot
  | call reached found called existing ih =>
    have there := (kept.function?_eq (.call reached found called existing)).trans existing
    exact .call ih ((kept.function?_eq reached).trans found) called there

omit kept in
/-- In a program without faults, outside code can get to every callee of a function that it
can get to. -/
theorem reaches_callee (faultless : start.fault? = none) {id callee : FunctionId}
    {function : Function} (reached : start.Reaches id) (found : start.function? id = some function)
    (called : callee ∈ function.callees) : start.Reaches callee := by
  obtain ⟨target, existing⟩ := Option.isSome_iff_exists.mp (isSome_of_called faultless found called)
  exact .call reached found called existing

/-- Functions that outside code could get to have the traces that they had. -/
theorem effectTrace_eq (faultless : start.fault? = none)
    (slots : start.functions.slotCount ≤ after.functions.slotCount) {id : FunctionId}
    (reached : start.Reaches id) : after.view.effectTrace id = start.view.effectTrace id :=
  View.effectTrace_congr start.Reaches start.findsBelow slots
    (fun _ _ reached found _ called => reaches_callee faultless reached found called)
    (fun _ reached => kept.function?_eq reached) reached

/-- Functions that outside code could get to have the bounds that they had. -/
theorem bound?_eq (faultless : start.fault? = none) {profile other : Option Profile}
    {old new : Analysis} (analyzed : start.analyze profile = .ok old)
    (reanalyzed : after.analyze other = .ok new) {id : FunctionId} (reached : start.Reaches id) :
    ∃ bound, old.bound? id = some bound ∧ new.bound? id = some bound := by
  obtain ⟨order, ordered, grounded, bounded⟩ := analyze_grounded analyzed
  obtain ⟨orderNew, orderedNew, groundedNew, boundedNew⟩ := analyze_grounded reanalyzed
  have settled := (callOrder_settled ordered).1
  -- Callees come first in the order, so the place in it is what decreases.
  induction rank : order.idxOf id using Nat.strongRecOn generalizing id with
  | _ place ih =>
    have listed := mem_callOrder_of_reaches ordered reached
    have listedNew := mem_callOrder_of_reaches orderedNew (kept.reaches reached)
    obtain ⟨bound, known⟩ := Option.isSome_iff_exists.mp (bounded id listed reached.isSome)
    obtain ⟨boundNew, knownNew⟩ := Option.isSome_iff_exists.mp
      (boundedNew id listedNew (kept.reaches reached).isSome)
    obtain ⟨function, found, computed⟩ := grounded id bound known
    obtain ⟨same, foundNew, computedNew⟩ := groundedNew id boundNew knownNew
    rw [kept.function?_eq reached, found] at foundNew
    cases foundNew
    have agree : after.functionBound new.bounds id function =
        start.functionBound old.bounds id function := by
      refine functionBound_congr fun callee called apart => ?_
      have calleeReached := reaches_callee faultless reached found called
      have lower := settled.idxOf_lt (List.mem_reverse.mpr listed) found called
      rw [List.reverse_reverse] at lower
      obtain ⟨price, before, now⟩ := ih _ (rank ▸ lower.resolve_left apart) calleeReached rfl
      exact ⟨now.trans before.symm, kept.function?_eq calleeReached⟩
    rw [agree, computed] at computedNew
    cases computedNew
    exact ⟨bound, known, knownNew⟩

end KeptIn

end Program

namespace DeadCode

/-- The certificate says whether all that outside code could get to is still there. -/
theorem keepsReachable_eq_true_iff {start current : Program}
    (journaled : Program.Journaled start current) :
    keepsReachable current.changes current.closeJournal = true ↔
      start.KeptIn current.closeJournal := by
  have functionsBefore (id : FunctionId) :
      current.changes.functionBefore? current.closeJournal id = start.function? id :=
    journaled.functions.before id
  have globalsBefore (id : GlobalId) :
      current.changes.globalBefore? current.closeJournal id = start.global? id :=
    journaled.globals.before id
  have parts : start.KeptIn current.closeJournal ↔
      (∀ id, start.Reaches id → ∃ function, start.function? id = some function ∧
        current.closeJournal.function? id = some function) ∧
      ∀ id, start.ReachesGlobal id → ∃ global, start.global? id = some global ∧
        current.closeJournal.global? id = some global :=
    ⟨fun kept => ⟨kept.1, kept.2⟩, fun ⟨functions, globals⟩ => ⟨functions, globals⟩⟩
  simp only [parts, keepsReachable, journaled.viewBefore_reachable, Bool.and_eq_true,
    List.all_eq_true, Program.mem_reachable_functions, Program.mem_reachable_globals,
    functionsBefore, globalsBefore]
  refine and_congr (forall₂_congr fun id _ => ?_) (forall₂_congr fun id _ => ?_)
  · cases old : start.function? id with
    | none => simp
    | some pre =>
      cases new : current.closeJournal.function? id with
      | none => simp
      | some post =>
        cases touched : current.changes.touches id with
        | true =>
          simp only [Bool.not_true, Bool.false_or, beq_iff_eq, Option.some.injEq, exists_eq_left']
          exact eq_comm
        | false =>
          -- A function that was not touched is the old one, and needs no comparison.
          have untouched : current.closeJournal.function? id = start.function? id :=
            journaled.functions.get?_of_untouched touched
          rw [old, new] at untouched
          cases untouched
          simp
  · cases start.global? id with
    | none => simp
    | some pre =>
      cases current.closeJournal.global? id with
      | none => simp
      | some post =>
        simp only [beq_iff_eq, Option.some.injEq, exists_eq_left']
        exact eq_comm

/-- After any operations on a program, the certificate holds exactly when every function
and every global that was used is there, unchanged. In that case, if the program had no
fault, every function that was used has the trace it had, and the bound it had if both
programs can be analyzed. -/
theorem certify_iff_used_kept (start : Program) (operations : List Operation) :
    let finish := start.openJournal.performAll operations
    let after := finish.closeJournal
    (pass.certify finish.changes after = true ↔
      (∀ id, start.Used id →
        ∃ function, start.function? id = some function ∧ after.function? id = some function) ∧
      ∀ id, start.UsedGlobal id →
        ∃ global, start.global? id = some global ∧ after.global? id = some global) ∧
    (start.fault? = none → pass.certify finish.changes after = true → ∀ id, start.Used id →
      after.view.effectTrace id = start.view.effectTrace id ∧
      ∀ profile other old new, start.analyze profile = .ok old → after.analyze other = .ok new →
        ∃ bound, old.bound? id = some bound ∧ new.bound? id = some bound) := by
  intro finish after
  have journaled := Program.journaled_performAll start operations
  have certified : pass.certify finish.changes after = true ↔ start.KeptIn after :=
    keepsReachable_eq_true_iff journaled
  have slots : start.functions.slotCount ≤ after.functions.slotCount := journaled.functions.slots
  constructor
  · rw [certified]
    simp only [← Program.reaches_iff_used, ← Program.reachesGlobal_iff_used]
    exact ⟨fun kept => ⟨kept.1, kept.2⟩, fun ⟨functions, globals⟩ => ⟨functions, globals⟩⟩
  · intro faultless holds id used
    have kept := certified.mp holds
    have reached := Program.reaches_iff_used.mpr used
    exact ⟨kept.effectTrace_eq faultless slots reached,
      fun profile other old new analyzed reanalyzed =>
        kept.bound?_eq faultless analyzed reanalyzed reached⟩

/-- Operations on `attic`: dead code is removed and changed, and a new root is added. -/
def clearance : List Operation := [
  .removeFunction ⟨2⟩,
  .update ⟨3⟩ fun echo => { echo with body := [.emit 2 (.global ⟨0⟩)] },
  .addFunction { name := "probe", exported := true, body := [.eval (.call ⟨1⟩ [])] },
  .removeGlobal ⟨1⟩]

/-- After the operations the certificate holds, so the entry point has its trace and its
bound, although the program has changed and has another root. -/
theorem certify_iff_used_kept_attic :
    let finish := attic.openJournal.performAll clearance
    let after := finish.closeJournal
    attic.fault? = none ∧ finish.changes.functions.keys = [⟨2⟩, ⟨3⟩, ⟨4⟩] ∧
      pass.certify finish.changes after = true ∧ attic.Used ⟨0⟩ ∧
      after.function? ⟨0⟩ = attic.function? ⟨0⟩ ∧
      after.view.effectTrace ⟨0⟩ = attic.view.effectTrace ⟨0⟩ ∧
      ∃ new, after.analyze none = .ok new ∧ new.bound? ⟨0⟩ = atticAnalysis.bound? ⟨0⟩ := by
  intro finish after
  have faultless : attic.fault? = none := by decide +kernel
  have touched : finish.changes.functions.keys = [⟨2⟩, ⟨3⟩, ⟨4⟩] := by decide +kernel
  have holds : pass.certify finish.changes after = true := by decide +kernel
  have used : attic.Used ⟨0⟩ :=
    .main (show attic.function? ⟨0⟩ = some { name := entryPoint, body := [.eval (.call ⟨1⟩ [])] }
      from rfl) rfl
  have analyzed : attic.analyze none = .ok atticAnalysis := rfl
  have reanalyzed : after.analyze none = .ok ((after.analyze none).toOption.getD {}) := rfl
  have ⟨certified, consequences⟩ := certify_iff_used_kept attic clearance
  obtain ⟨function, before, now⟩ := (certified.mp holds).1 ⟨0⟩ used
  have ⟨trace, bounds⟩ := consequences faultless holds ⟨0⟩ used
  obtain ⟨bound, old, new⟩ := bounds none none _ _ analyzed reanalyzed
  exact ⟨faultless, touched, holds, used, now.trans before.symm, trace, _, reanalyzed,
    new.trans old.symm⟩

end DeadCode

end Timebound
