import Timebound.Proofs.GuidedEffects
import Timebound.Proofs.RewriteCycles
import Timebound.Proofs.SufficientBounds

/-!
# Bounds under the guided pass

Without load grouping the guided pass raises no bound. The bounds of the program before the
pass suffice for the program at every step of it: a redrafted body costs no more under them,
its calls still go down in the call order, and a function calls itself only if it did before.
So the program that the pass leaves can be analyzed, and no bound is larger
(`Guided.transform_lowers_bounds`). A recursion limit of zero must be left out, since it makes
the bound of a function vanish as long as the function calls itself.
-/

namespace Timebound

/-! ## Bodies that take the place of calls -/

/-- The cost of a body covers what comes before its final return, the returned value and the
return. -/
theorem Block.costs_splitEnd {callee : FunctionId → Except Cause Nat} {body : Block} {total : Nat}
    (costs : Block.Costs callee none body total) :
    ∃ init value, Block.Costs callee none (Block.splitEnd body).1 init ∧
      Expr.optionalCycles callee (Block.splitEnd body).2 = .ok value ∧
        init + value + (if (Block.splitEnd body).2.isSome then CycleCost.ret else 0) ≤ total := by
  unfold Block.splitEnd
  split
  · rename_i value last
    obtain ⟨init, rfl⟩ := List.getLast?_eq_some_iff.mp last
    rw [List.dropLast_concat]
    obtain ⟨others, cost, before, last, rfl⟩ := costs.split_last rfl
    simp only [Stmt.cycles, bind_eq_ok_iff, checkedCycles_eq_ok_iff] at last
    obtain ⟨returned, known, rfl, _⟩ := last
    refine ⟨others, returned, before, known, ?_⟩
    split <;> omega
  · exact ⟨total, 0, costs, rfl, by simp⟩

namespace Program

/-! ## Bounds before the pass -/

/-- The bounds that an analysis computes suffice. -/
theorem analyze_sufficient {program : Program} {profile : Option Profile} {analysis : Analysis}
    (analyzed : program.analyze profile = .ok analysis)
    (limits : ∀ id function limit, program.function? id = some function →
      function.recursionLimit = some limit → 0 < limit) :
    ∃ rank, program.Sufficient analysis.bounds rank := by
  obtain ⟨order, ordered, grounded, bounded⟩ := analyze_grounded analyzed
  obtain ⟨settled, roots⟩ := callOrder_settled ordered
  refine ⟨order.idxOf, ?_, ?_, ?_, limits⟩
  · intro id function found isRoot
    exact bounded id (roots id function found isRoot) (by rw [found]; rfl)
  · intro id bound known
    obtain ⟨function, found, computed⟩ := grounded id bound known
    exact ⟨function, bound, found, computed, Nat.le_refl bound⟩
  · intro id function callee known found called
    obtain ⟨bound, held⟩ := Option.isSome_iff_exists.mp known
    have listed : id ∈ order.reverse :=
      List.mem_reverse.mpr (mem_callOrder_of_bound analyzed ordered held)
    rcases settled.idxOf_lt listed found called with rfl | lower
    · exact .inl ⟨rfl, settled.limited listed found called⟩
    · have there := settled.mem_of_called listed found called
      rw [List.reverse_reverse] at lower
      exact .inr ⟨bounded callee (List.mem_reverse.mp there) (settled.isSome there), lower⟩

/-! ## Redrafted bodies -/

namespace Sufficient

variable {program : Program} {bounds : Table FunctionId Nat} {rank : FunctionId → Nat}
  {id : FunctionId} {function : Function}

/-- Bounds cover the bodies that take the place of calls. -/
theorem payable (sufficient : program.Sufficient bounds rank)
    (found : program.function? id = some function) (bounded : (bounds.get? id).isSome = true)
    (maxSize : Nat) (wanted : OrderedSet FunctionId) :
    Payable (program.activationCycles bounds id function.recursionLimit.isSome)
      (program.inlinable? id maxSize wanted) (Block.callShapes function.body) := by
  intro callee count target price listed allowed known
  refine ⟨(inlinable?_shape allowed).2, ?_⟩
  obtain ⟨existing, apart, plain, whole⟩ := inlinable?_eq_some allowed
  obtain ⟨args, node, _⟩ := Block.mem_callShapes.mp listed
  have lower := (sufficient.descends id function callee bounded found
    (Block.mem_callees.mpr ⟨args, node⟩)).resolve_left fun self => apart self.1
  have priced := ((activationCycles_eq_ok known).resolve_left fun self => apart self.1).2
  obtain ⟨owner, cost, foundOwner, computed, within⟩ := sufficient.covers callee price priced
  cases existing.symm.trans foundOwner
  obtain ⟨activation, cycles, shape⟩ := functionBound_cases computed
  have straight : target.function.calls callee = false := by
    simpa [Function.calls] using plain
  have single : cost = activation := by
    rcases shape with ⟨_, recursive, _⟩ | ⟨same, _⟩
    · rw [straight] at recursive
      cases recursive
    · exact same
  -- the callee calls neither itself nor the caller, so its calls have the same price there
  have there : Block.cycles (program.activationCycles bounds id function.recursionLimit.isSome)
      target.function.body = .ok activation := by
    rw [← cycles]
    refine Block.cyclesFrom_congr target.function.body none 0 fun inner args node => ?_
    have called : inner ∈ target.function.callees := Block.mem_callees.mpr ⟨args, node⟩
    have notSelf : inner ≠ callee := fun same => plain (same ▸ called)
    have deeper := (sufficient.descends callee target.function inner lower.1 existing
      called).resolve_left fun self => notSelf self.1
    have notCaller : inner ≠ id := fun same => by
      rw [same] at deeper
      omega
    simp only [activationCycles, if_neg notSelf, if_neg notCaller]
  have divided := Block.costs_splitEnd (Block.cycles_eq_ok_iff.mp there).1
  rw [whole] at divided
  obtain ⟨init, value, initCosts, valueKnown, covered⟩ := divided
  rw [single] at within
  exact ⟨init, value, initCosts, valueKnown, Nat.le_trans covered within⟩

/-- Bounds still suffice when one function gets a body that costs no more, whose calls go
down, and that calls the function itself only if the old one did. -/
theorem rebodied {changed : Program} {new : Function} (sufficient : program.Sufficient bounds rank)
    (rebodied : Rebodied program changed id function new)
    (bounded : (bounds.get? id).isSome = true)
    (limit : new.recursionLimit = function.recursionLimit)
    (calls : ∀ callee ∈ new.callees, (callee = id ∧ id ∈ function.callees) ∨
      ((bounds.get? callee).isSome = true ∧ rank callee < rank id))
    (body : Lowers
      (Block.cycles (program.activationCycles bounds id function.recursionLimit.isSome)
        function.body)
      (Block.cycles (program.activationCycles bounds id function.recursionLimit.isSome)
        new.body)) : changed.Sufficient bounds rank := by
  have found := rebodied.found
  have unlabelled (self : FunctionId) (limited : Bool) (body : Block) :
      Lowers (Block.cycles (program.activationCycles bounds self limited) body)
        (Block.cycles (changed.activationCycles bounds self limited) body) :=
    cycles_lowers_of_bounds fun _ _ _ bound known => ⟨bound, Nat.le_refl bound, known⟩
  have lowered (other : FunctionId) (owner : Function)
      (known : program.function? other = some owner) :
      ∃ renewed, changed.function? other = some renewed ∧
        Lowers (program.functionBound bounds other owner)
          (changed.functionBound bounds other renewed) := by
    by_cases same : other = id
    · subst same
      cases found.symm.trans known
      refine ⟨new, rebodied.foundNew, functionBound_lowers limit
        (sufficient.limits other function · found) (fun again => ?_)
        (body.trans (unlabelled other _ new.body))⟩
      have selfCall : other ∈ new.callees := by simpa [Function.calls] using again
      rcases calls other selfCall with ⟨_, before⟩ | ⟨_, lower⟩
      · simpa [Function.calls] using before
      · omega
    · exact ⟨owner, (rebodied.unchanged same).trans known, functionBound_lowers rfl
        (sufficient.limits other owner · known) (fun again => again)
        (unlabelled other _ owner.body)⟩
  constructor
  · intro other owner known isRoot
    by_cases same : other = id
    · rwa [same]
    · exact sufficient.roots other owner (rebodied.unchanged same ▸ known) isRoot
  · intro other bound known
    obtain ⟨owner, cost, foundOwner, computed, within⟩ := sufficient.covers other bound known
    obtain ⟨renewed, foundNew, lowers⟩ := lowered other owner foundOwner
    obtain ⟨less, smaller, recomputed⟩ := lowers cost computed
    exact ⟨renewed, less, foundNew, recomputed, by omega⟩
  · intro other owner callee known foundOwner called
    by_cases same : other = id
    · subst same
      cases rebodied.foundNew.symm.trans foundOwner
      rcases calls callee called with ⟨rfl, self⟩ | lower
      · rw [limit]
        exact sufficient.descends callee function callee bounded found self
      · exact .inr lower
    · exact sufficient.descends other owner callee known (rebodied.unchanged same ▸ foundOwner)
        called
  · intro other owner bound foundOwner limited
    by_cases same : other = id
    · subst same
      cases rebodied.foundNew.symm.trans foundOwner
      exact sufficient.limits other function bound found (limit ▸ limited)
    · exact sufficient.limits other owner bound (rebodied.unchanged same ▸ foundOwner) limited

end Sufficient

end Program

namespace Guided

variable {tuning : Tuning} {analysis : Analysis} {program : Program}
  {bounds : Table FunctionId Nat} {rank : FunctionId → Nat} {id : FunctionId}
  {function : Function}

/-- A redrafted body costs no more under sufficient bounds. -/
theorem lowers_redraft (analysis : Analysis) (ungrouped : tuning.groupLoads = false)
    (sufficient : program.Sufficient bounds rank) (found : program.function? id = some function)
    (bounded : (bounds.get? id).isSome = true) :
    Lowers
      (Block.cycles (program.activationCycles bounds id function.recursionLimit.isSome)
        function.body)
      (Block.cycles (program.activationCycles bounds id function.recursionLimit.isSome)
        (redraft tuning analysis program id function).body) := by
  have payable := sufficient.payable found bounded tuning.maxInlineSize
    (hotCallees tuning analysis id)
  generalize program.activationCycles bounds id function.recursionLimit.isSome = price at payable ⊢
  have unrolling (draft : Redraft) (limit : Nat) : Lowers (Block.cycles price draft.body)
      (Block.cycles price (if tuning.unroll then draft.unroll limit function else draft).body) := by
    split
    · exact (Block.noDearer_unroll limit _ draft.body).lowers
    · exact .refl _
  have ordering (draft : Redraft) : Lowers (Block.cycles price draft.body)
      (Block.cycles price (if tuning.reorderBranches then draft.reorder else draft).body) := by
    split
    · exact Block.lowers_reorder draft.body
    · exact .refl _
  unfold redraft
  rw [ungrouped]
  refine .trans ?_ ((unrolling _ _).trans (ordering _))
  split
  · exact (Block.noDearer_inline function.body function.inlineSites payable).lowers
  · exact .refl _

/-- Calls of a redrafted body go where calls of bounded functions may go, and to the function
itself only if it called itself before. -/
theorem callees_redraft (sufficient : program.Sufficient bounds rank)
    (found : program.function? id = some function) (bounded : (bounds.get? id).isSome = true)
    {callee : FunctionId}
    (called : callee ∈ Block.callees (redraft tuning analysis program id function).body) :
    (callee = id ∧ id ∈ function.callees) ∨
      ((bounds.get? callee).isSome = true ∧ rank callee < rank id) := by
  obtain ⟨args, node⟩ := Block.mem_callees.mp called
  obtain ⟨source, owner, known, shaped, place⟩ := origin_of_redraft tuning analysis found
    (Block.mem_callShapes.mpr ⟨args, node, rfl⟩)
  obtain ⟨passed, inner, _⟩ := Block.mem_callShapes.mp shaped
  have direct : callee ∈ owner.callees := Block.mem_callees.mpr ⟨passed, inner⟩
  rcases place with rfl | ⟨apart, sourceCalled⟩
  · cases found.symm.trans known
    rcases sufficient.descends source function callee bounded found direct with ⟨rfl, _⟩ | lower
    · exact .inl ⟨rfl, direct⟩
    · exact .inr lower
  · have lower := (sufficient.descends id function source bounded found
      sourceCalled).resolve_left fun self => apart self.1
    rcases sufficient.descends source owner callee lower.1 known direct with ⟨rfl, _⟩ | deeper
    · exact .inr lower
    · exact .inr ⟨deeper.1, by omega⟩

/-! ## Steps and runs of the pass -/

/-- A step keeps the recursion limits. -/
theorem step_limits (tuning : Tuning) (analysis : Analysis) (progress : Progress)
    (id other : FunctionId) :
    ((step tuning analysis progress id).program.function? other).map Function.recursionLimit =
      (progress.program.function? other).map Function.recursionLimit := by
  unfold step
  cases found : progress.program.function? id with
  | none => rfl
  | some function =>
    dsimp only
    split
    · rfl
    · split
      · rfl
      · unfold Progress.keep
        dsimp only
        generalize redraft tuning analysis progress.program id function = draft
        cases updated : progress.program.updateFunction? id (fun f =>
          { f with body := draft.body, inlineSites := draft.inlineSites }) with
        | none => rfl
        | some changed =>
          rw [Option.getD_some, Program.function?_update found updated other]
          split
          · rename_i same
            rw [same, found]
            rfl
          · rfl

/-- Bounds that suffice before a step suffice after it. -/
theorem step_sufficient (ungrouped : tuning.groupLoads = false) {progress : Progress}
    (sufficient : progress.program.Sufficient bounds rank)
    (bounded : (bounds.get? id).isSome = true) :
    (step tuning analysis progress id).program.Sufficient bounds rank := by
  rcases step_cases tuning analysis progress id with idle | ⟨function, change, rewrites⟩
  · rw [idle]
    exact sufficient
  have rebodied := rewrites.rebodied
  have limit : (change function).recursionLimit = function.recursionLimit := by
    have kept := step_limits tuning analysis progress id id
    rw [rebodied.foundNew, rebodied.found] at kept
    exact Option.some.inj kept
  refine sufficient.rebodied rebodied bounded limit (fun callee called => ?_) ?_
  · rw [Function.callees, rewrites.body] at called
    exact callees_redraft sufficient rebodied.found bounded called
  · rw [rewrites.body]
    exact lowers_redraft analysis ungrouped sufficient rebodied.found bounded

/-! ## The reported impact -/

/-- The exact change of the bounds of functions between two analyses. -/
def exactChange (old new : Analysis) : List FunctionId → Int
  | [] => 0
  | id :: rest => match old.bound? id, new.bound? id with
    | some before, some after => exactChange old new rest + ((after : Int) - before)
    | _, _ => exactChange old new rest

/-- The change of bounds is summed up in signed words, and it is the exact change as such a
word: wrapping around on the way makes no difference. -/
theorem boundChange_eq (old new : Analysis) (ids : List FunctionId) :
    boundChange old new ids = signedWord (exactChange old new ids) := by
  induction ids with
  | nil => rfl
  | cons id rest ih =>
    simp only [boundChange, List.foldr_cons, exactChange] at ih ⊢
    rw [ih]
    cases old.bound? id with
    | none => rfl
    | some before =>
      cases new.bound? id with
      | none => rfl
      | some after =>
        simp only [signedWord, Int.bmod_add_bmod, Int.add_bmod_bmod, Int.bmod_sub_bmod,
          Int.sub_bmod_bmod]

example : signedWord (signedWord 9223372036854775807 - signedWord 9223372036854775812) = -5 := by
  decide

/-- The impact that the pass reports when it has touched functions is the exact change of their
bounds, as a signed word. -/
theorem transform_cycleImpact {outcome : Outcome}
    (reported : (transform tuning program analysis).2 = .ok outcome)
    (touched : (changeAll tuning analysis program).touched ≠ []) :
    ∃ refreshed, (transform tuning program analysis).1.analyze none = .ok refreshed ∧
      outcome.cycleImpact = signedWord
        (exactChange analysis refreshed (changeAll tuning analysis program).touched) := by
  rw [transform_program]
  unfold transform at reported
  dsimp only at reported
  split at reported
  · rename_i nothing
    exact absurd (List.isEmpty_iff.mp nothing) touched
  · obtain ⟨refreshed, reanalyzed, made⟩ := bind_eq_ok_iff.mp reported
    cases made
    exact ⟨refreshed, reanalyzed, boundChange_eq _ _ _⟩

/-- Without load grouping the pass succeeds on a program that can be analyzed and has no
recursion limit of zero: site numbers and the reported impact wrap around, as in a release build,
and nothing else can go wrong. The program it leaves can be analyzed under any profile, and every
function that has a bound then had one before, which was no smaller. -/
theorem transform_lowers_bounds {profile : Option Profile} (ungrouped : tuning.groupLoads = false)
    (analyzed : program.analyze profile = .ok analysis)
    (limits : ∀ id function limit, program.function? id = some function →
      function.recursionLimit = some limit → 0 < limit) :
    (∃ outcome, (transform tuning program analysis).2 = .ok outcome) ∧
      ∀ newProfile, ∃ new, (transform tuning program analysis).1.analyze newProfile = .ok new ∧
        ∀ id less, new.bound? id = some less →
          ∃ bound, analysis.bound? id = some bound ∧ less ≤ bound := by
  obtain ⟨rank, before⟩ := Program.analyze_sufficient analyzed limits
  have critical : ∀ id ∈ analysis.criticalFunctions.keys,
      (analysis.bounds.get? id).isSome = true := by
    obtain ⟨order, ordered, _, bounded⟩ := Program.analyze_grounded analyzed
    obtain ⟨same, sameOrdered, listed⟩ := Program.mem_callOrder_of_critical analyzed
    cases ordered.symm.trans sameOrdered
    intro id member
    have settled := (Program.callOrder_settled ordered).1
    exact bounded id (listed id member) (settled.isSome (List.mem_reverse.mpr (listed id member)))
  have after : (changeAll tuning analysis program).program.Sufficient analysis.bounds rank :=
    changeAll_induct (motive := fun reached => reached.program.Sufficient analysis.bounds rank)
      before fun _ id listed _ sufficient =>
        step_sufficient ungrouped sufficient (critical id listed)
  constructor
  · unfold transform
    dsimp only
    split
    · exact ⟨_, rfl⟩
    · obtain ⟨refreshed, reanalyzed, _⟩ := after.analyze none
      exact ⟨_, bind_eq_ok_iff.mpr ⟨refreshed, reanalyzed, rfl⟩⟩
  · intro newProfile
    rw [transform_program]
    exact after.analyze newProfile

/-- Everything but load grouping, with every call hot. -/
def eager : Tuning := { groupLoads := false, inlineFrequency := 0 }

/-- In `pump` the call of `step` is expanded in the function that may call itself once more
and the loop of the entry point is unrolled: the bounds fall from 64 to 44 and from 233 to
162 cycles. -/
theorem transform_lowers_bounds_pump : ∃ old new, Program.pump.analyze none = .ok old ∧
    (∀ id function limit, Program.pump.function? id = some function →
      function.recursionLimit = some limit → 0 < limit) ∧
    (transform eager Program.pump old).1.analyze none = .ok new ∧
    (∀ id less, new.bound? id = some less →
      ∃ bound, old.bound? id = some bound ∧ less ≤ bound) ∧
    (old.bound? ⟨1⟩, old.bound? ⟨0⟩) = (some 64, some 233) ∧
      (new.bound? ⟨1⟩, new.bound? ⟨0⟩) = (some 44, some 162) := by
  have limits (id : FunctionId) (function : Function) (limit : Nat)
      (found : Program.pump.function? id = some function)
      (limited : function.recursionLimit = some limit) : 0 < limit := by
    match id, found with
    | ⟨0⟩, found => cases found; cases limited
    | ⟨1⟩, found => cases found; cases limited; decide
    | ⟨2⟩, found => cases found; cases limited
    | ⟨_ + 3⟩, found => cases found
  have switchedOff : eager.groupLoads = false := rfl
  obtain ⟨old, analyzed⟩ : ∃ old, Program.pump.analyze none = .ok old := ⟨_, rfl⟩
  obtain ⟨_, runs⟩ := transform_lowers_bounds switchedOff analyzed limits
  obtain ⟨new, reanalyzed, lowered⟩ := runs none
  have before : (Program.pump.analyze none).toOption.map (fun old =>
      (old.bound? ⟨1⟩, old.bound? ⟨0⟩)) = some (some 64, some 233) := by decide +kernel
  have after : (Program.pump.analyze none).toOption.bind (fun old =>
      ((transform eager Program.pump old).1.analyze none).toOption.map (fun new =>
        (new.bound? ⟨1⟩, new.bound? ⟨0⟩))) = some (some 44, some 162) := by decide +kernel
  rw [analyzed] at before after
  simp only [Except.toOption, Option.map_some, Option.bind_some, Option.some.injEq,
    reanalyzed] at before after
  exact ⟨old, new, analyzed, limits, reanalyzed, lowered, before, after⟩

end Guided

end Timebound
