import Timebound.Proofs.CycleGrowth
import Timebound.Proofs.CycleSavings
import Timebound.Proofs.LivePart

/-!
# Bounds that suffice

A table of bounds suffices for a program when it bounds every root, every bounded function
costs no more than its bound under the table itself, and calls go down in some ranking of the
functions to functions with bounds (`Program.Sufficient`). The analysis of such a program
cannot fail: the visit finds no missing callee and no cycle, no count reaches the limit, and
every bound it computes is at most the one in the table (`Program.Sufficient.analyze`). The
bounds of one program thus show that another one can be analyzed.
-/

namespace Timebound.Program

/-! ## Bounds of functions -/

/-- The bound of a function is lowered with the cost of its body, if it calls itself no more
than before. -/
theorem functionBound_lowers {before after : Program} {bounds newBounds : Table FunctionId Nat}
    {id : FunctionId} {function new : Function}
    (limit : new.recursionLimit = function.recursionLimit)
    (positive : ∀ limit, function.recursionLimit = some limit → 0 < limit)
    (recursion : new.calls id = true → function.calls id = true)
    (body : Lowers
      (Block.cycles (before.activationCycles bounds id function.recursionLimit.isSome)
        function.body)
      (Block.cycles (after.activationCycles newBounds id function.recursionLimit.isSome)
        new.body)) :
    Lowers (before.functionBound bounds id function) (after.functionBound newBounds id new) := by
  unfold functionBound
  rw [limit]
  refine body.bind fun activation less smaller => ?_
  cases limited : function.recursionLimit with
  | none =>
    intro cost known
    cases known
    exact ⟨less, smaller, rfl⟩
  | some bound =>
    have atLeast := positive bound limited
    have scaled : activation ≤ activation * bound := Nat.le_mul_of_pos_right _ atLeast
    cases again : new.calls id with
    | true =>
      rw [recursion again]
      exact .checked (Nat.mul_le_mul_right bound smaller)
    | false =>
      intro cost known
      refine ⟨less, ?_, rfl⟩
      cases old : function.calls id with
      | true =>
        simp only [old, if_true, checkedCycles_eq_ok_iff] at known
        omega
      | false =>
        simp only [old, Bool.false_eq_true, if_false, Except.ok.injEq] at known
        omega

/-- Bounds of callees that are lowered lower the cost of a body. -/
theorem cycles_lowers_of_bounds {before after : Program} {bounds newBounds : Table FunctionId Nat}
    {id : FunctionId} {limited : Bool} {body : Block}
    (cheaper : ∀ callee ∈ Block.callees body, callee ≠ id → ∀ bound,
      bounds.get? callee = some bound → ∃ less, less ≤ bound ∧ newBounds.get? callee = some less) :
    Lowers (Block.cycles (before.activationCycles bounds id limited) body)
      (Block.cycles (after.activationCycles newBounds id limited) body) := by
  -- functions that are not called cost nothing to consider
  let called (callee : FunctionId) : Except Cause Nat :=
    if callee ∈ Block.callees body then before.activationCycles bounds id limited callee
    else .error .unboundedLoop
  have same : Block.cycles (before.activationCycles bounds id limited) body =
      Block.cycles called body :=
    Block.cyclesFrom_congr body none 0 fun callee args listed =>
      (if_pos (Block.mem_callees.mpr ⟨args, listed⟩)).symm
  rw [same]
  refine (Block.noDearer_of_lowers (fun callee price known => ?_) body).lowers
  by_cases listed : callee ∈ Block.callees body
  · simp only [called, if_pos listed] at known
    unfold activationCycles at known ⊢
    by_cases self : callee = id
    · rw [if_pos self] at known ⊢
      exact ⟨price, Nat.le_refl _, known⟩
    · rw [if_neg self] at known ⊢
      cases found : bounds.get? callee with
      | none => simp [found] at known
      | some bound =>
        obtain ⟨less, smaller, refound⟩ := cheaper callee listed self bound found
        simp only [found, Except.ok.injEq] at known
        exact ⟨less, by omega, by rw [refound]⟩
  · simp only [called, if_neg listed, reduceCtorEq] at known

/-! ## Sufficient bounds -/

/-- A table of bounds that is large enough for a program. -/
structure Sufficient (program : Program) (bounds : Table FunctionId Nat)
    (rank : FunctionId → Nat) : Prop where
  /-- Every root has a bound. -/
  roots : ∀ id function, program.function? id = some function → function.isRoot = true →
    (bounds.get? id).isSome = true
  /-- A bounded function exists and costs no more than its bound. -/
  covers : ∀ id bound, bounds.get? id = some bound → ∃ function less,
    program.function? id = some function ∧ program.functionBound bounds id function = .ok less ∧
      less ≤ bound
  /-- Calls of bounded functions go down to bounded functions, or to the function itself
  within a limit. -/
  descends : ∀ id function callee, (bounds.get? id).isSome = true →
    program.function? id = some function → callee ∈ function.callees →
      (callee = id ∧ function.recursionLimit.isSome = true) ∨
        ((bounds.get? callee).isSome = true ∧ rank callee < rank id)
  /-- A function that may call itself may be active once at least. -/
  limits : ∀ id function limit, program.function? id = some function →
    function.recursionLimit = some limit → 0 < limit

/-- Steps that succeed on every item succeed on the whole list and keep an invariant. -/
theorem foldlM_total {ε σ α : Type} {step : σ → α → Except ε σ} (good : σ → Prop)
    {items : List α}
    (each : ∀ state, ∀ item ∈ items, good state → ∃ next, step state item = .ok next ∧ good next)
    {start : σ} (holds : good start) :
    ∃ final, items.foldlM step start = .ok final ∧ good final := by
  induction items generalizing start with
  | nil => exact ⟨start, rfl, holds⟩
  | cons item rest ih =>
    obtain ⟨next, done, kept⟩ := each start item List.mem_cons_self holds
    obtain ⟨final, others, last⟩ := ih (fun state later listed =>
      each state later (List.mem_cons_of_mem _ listed)) kept
    exact ⟨final, by rw [List.foldlM_cons, done]; exact others, last⟩

namespace Sufficient

variable {program : Program} {bounds : Table FunctionId Nat} {rank : FunctionId → Nat}

/-- Bounded functions exist. -/
theorem isSome (sufficient : program.Sufficient bounds rank) {id : FunctionId}
    (bounded : (bounds.get? id).isSome = true) :
    ∃ function, program.function? id = some function := by
  obtain ⟨bound, known⟩ := Option.isSome_iff_exists.mp bounded
  obtain ⟨function, _, found, _⟩ := sufficient.covers id bound known
  exact ⟨function, found⟩

/-- Calls of a bounded function have no fault below functions of higher rank. -/
theorem callFault?_eq_none (sufficient : program.Sufficient bounds rank) {active : List FunctionId}
    {id callee : FunctionId} {function : Function} (bounded : (bounds.get? id).isSome = true)
    (found : program.function? id = some function) (above : ∀ other ∈ active, rank id < rank other)
    (called : callee ∈ function.callees) :
    program.callFault? active id function callee = none := by
  unfold callFault?
  rcases sufficient.descends id function callee bounded found called with
    ⟨self, limited⟩ | ⟨calleeBounded, lower⟩
  · rw [if_pos self, if_pos limited]
  · obtain ⟨target, existing⟩ := sufficient.isSome calleeBounded
    have apart : callee ≠ id := fun same => by rw [same] at lower; omega
    have idle : callee ∉ active := fun listed => by
      have higher := above callee listed
      omega
    rw [if_neg apart, existing]
    simp [idle]

/-- A visit of a bounded function below functions of higher rank succeeds, and it finishes
bounded functions only. -/
theorem visit (sufficient : program.Sufficient bounds rank) (depth : Nat) :
    ∀ {active finished : List FunctionId} {id : FunctionId}, (bounds.get? id).isSome = true →
      (∀ other ∈ active, rank id < rank other) →
      (∀ other ∈ finished, (bounds.get? other).isSome = true) →
      ∃ result, program.visit depth active finished id = .ok result ∧
        ∀ other ∈ result, (bounds.get? other).isSome = true := by
  induction depth with
  | zero => exact fun _ _ before => ⟨_, rfl, before⟩
  | succ depth ih =>
    intro active finished id bounded above before
    obtain ⟨function, found⟩ := sufficient.isSome bounded
    unfold Program.visit
    by_cases seen : finished.contains id = true
    · exact ⟨finished, by rw [if_pos seen], before⟩
    have faultless : function.callees.reverse.findSome?
        (program.callFault? active id function) = none :=
      List.findSome?_eq_none_iff.mpr fun callee called =>
        sufficient.callFault?_eq_none bounded found above (List.mem_reverse.mp called)
    have visits : ∀ state, ∀ callee ∈ function.callees.filter (· != id),
        (∀ other ∈ state, (bounds.get? other).isSome = true) →
        ∃ next, program.visit depth (id :: active) state callee = .ok next ∧
          ∀ other ∈ next, (bounds.get? other).isSome = true := by
      intro state callee listed good
      obtain ⟨called, other⟩ := List.mem_filter.mp listed
      have apart : callee ≠ id := by simpa using other
      rcases sufficient.descends id function callee bounded found called with
        ⟨self, _⟩ | ⟨calleeBounded, lower⟩
      · exact absurd self apart
      · refine ih calleeBounded (List.forall_mem_cons.mpr ⟨lower, fun higher listed => ?_⟩) good
        have rises := above higher listed
        omega
    obtain ⟨below, visited, kept⟩ := foldlM_total _ visits before
    refine ⟨id :: below, ?_, List.forall_mem_cons.mpr ⟨bounded, kept⟩⟩
    rw [if_neg seen, found]
    simp only [faultless]
    rw [visited]
    rfl

/-- The program has a callee-first order, of bounded functions only. -/
theorem callOrder (sufficient : program.Sufficient bounds rank) :
    ∃ order, program.callOrder = .ok order ∧
      ∀ id ∈ order, (bounds.get? id).isSome = true := by
  have visits : ∀ state,
      ∀ id ∈ (program.functions.entries.filter fun entry => entry.2.isRoot).map (·.1),
        (∀ other ∈ state, (bounds.get? other).isSome = true) →
        ∃ next, program.visit program.functions.slotCount [] state id = .ok next ∧
          ∀ other ∈ next, (bounds.get? other).isSome = true := by
    intro state id listed good
    obtain ⟨⟨_, function⟩, entry, rfl⟩ := List.mem_map.mp listed
    obtain ⟨present, isRoot⟩ := List.mem_filter.mp entry
    have rooted := sufficient.roots _ function (Arena.mem_entries.mp present) isRoot
    exact sufficient.visit _ rooted (by simp) good
  have nothing : ∀ other ∈ ([] : List FunctionId), (bounds.get? other).isSome = true := by simp
  obtain ⟨finished, visited, kept⟩ := foldlM_total _ visits nothing
  refine ⟨finished.reverse, ?_, fun id listed => kept id (List.mem_reverse.mp listed)⟩
  unfold Program.callOrder
  exact bind_eq_ok_iff.mpr ⟨finished, visited, rfl⟩

/-- Bounding the functions of a settled list in turn succeeds, with bounds at most those of
the table. -/
theorem addBounds (sufficient : program.Sufficient bounds rank) {finished : List FunctionId}
    (settled : program.Settled finished)
    (listed : ∀ id ∈ finished, (bounds.get? id).isSome = true) :
    ∃ table, finished.reverse.foldlM program.addBound .empty = .ok table ∧
      ∀ id ∈ finished, ∀ bound, bounds.get? id = some bound →
        ∃ less, less ≤ bound ∧ table.get? id = some less := by
  induction finished with
  | nil => exact ⟨.empty, rfl, by simp⟩
  | cons id earlier ih =>
    obtain ⟨fresh, ⟨function, found, calls⟩, settledEarlier⟩ := settled
    obtain ⟨table, added, lower⟩ := ih settledEarlier fun other older =>
      listed other (List.mem_cons_of_mem _ older)
    obtain ⟨bound, known⟩ := Option.isSome_iff_exists.mp (listed id List.mem_cons_self)
    obtain ⟨same, cost, foundSame, computed, within⟩ := sufficient.covers id bound known
    cases found.symm.trans foundSame
    -- the callees are bounded already, and by no more
    have body : Lowers
        (Block.cycles (program.activationCycles bounds id function.recursionLimit.isSome)
          function.body)
        (Block.cycles (program.activationCycles table id function.recursionLimit.isSome)
          function.body) :=
      cycles_lowers_of_bounds fun callee called apart =>
        lower callee ((calls callee called).resolve_right fun self => apart self.1)
    obtain ⟨less, smaller, recomputed⟩ :=
      functionBound_lowers rfl (sufficient.limits id function · found) (fun again => again) body
        cost
        computed
    have step : program.addBound table id = .ok (table.insert id less) := by
      simp only [addBound, found, recomputed]
    refine ⟨table.insert id less, ?_, fun other member held heldKnown => ?_⟩
    · rw [List.reverse_cons, List.foldlM_append]
      refine bind_eq_ok_iff.mpr ⟨table, added, ?_⟩
      rw [List.foldlM_cons, step]
      rfl
    · rw [Table.get?_insert]
      rcases List.mem_cons.mp member with rfl | older
      · cases known.symm.trans heldKnown
        exact ⟨less, by omega, by simp⟩
      · split
        · rename_i same
          exact absurd (Std.LawfulEqOrd.eq_of_compare same ▸ older) fresh
        · exact lower other older held heldKnown

/-- The program can be analyzed, and its bounds are at most those of the table. -/
theorem analyze (sufficient : program.Sufficient bounds rank) (profile : Option Profile) :
    ∃ analysis, program.analyze profile = .ok analysis ∧
      ∀ id new, analysis.bound? id = some new →
        ∃ bound, bounds.get? id = some bound ∧ new ≤ bound := by
  obtain ⟨order, ordered, bounded⟩ := sufficient.callOrder
  have settled := (callOrder_settled ordered).1
  obtain ⟨table, added, lower⟩ := sufficient.addBounds settled fun id listed =>
    bounded id (List.mem_reverse.mp listed)
  rw [List.reverse_reverse] at added
  have analyzed : ∃ analysis, program.analyze profile = .ok analysis ∧ analysis.bounds = table := by
    unfold Program.analyze
    exact ⟨_, bind_eq_ok_iff.mpr ⟨order, ordered, bind_eq_ok_iff.mpr ⟨table, added, rfl⟩⟩, rfl⟩
  obtain ⟨analysis, done, rfl⟩ := analyzed
  refine ⟨analysis, done, fun id new known => ?_⟩
  have listed : id ∈ order := mem_callOrder_of_bound done ordered known
  obtain ⟨bound, held⟩ := Option.isSome_iff_exists.mp (bounded id listed)
  obtain ⟨less, smaller, found⟩ := lower id (List.mem_reverse.mpr listed) bound held
  cases found.symm.trans known
  exact ⟨bound, held, smaller⟩

end Sufficient

end Timebound.Program
