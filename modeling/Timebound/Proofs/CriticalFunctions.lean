import Timebound.Proofs.CallOrder
import Timebound.Timing.Analysis

/-!
# Critical functions

A critical path goes through functions that have bounds, and only functions of the call
order get bounds. So every critical function is in the order
(`Program.mem_callOrder_of_critical`), whatever the profile says.
-/

namespace Timebound.Program

/-- A bound that is added belongs to the function it is added for. -/
theorem addBound_get? {program : Program} {bounds larger : Table FunctionId Nat}
    {id other : FunctionId} (added : program.addBound bounds id = .ok larger)
    (bounded : (larger.get? other).isSome) : (bounds.get? other).isSome ∨ other = id := by
  unfold addBound at added
  split at added
  · cases added
    exact .inl bounded
  · split at added
    · cases added
    · cases added
      by_cases same : other = id
      · exact .inr same
      · have apart : compare other id ≠ .eq := fun eq => same (Std.LawfulEqOrd.eq_of_compare eq)
        rw [Table.get?_insert, if_neg apart] at bounded
        exact .inl bounded

/-- Only functions of the order get bounds. -/
theorem mem_order_of_bound {program : Program} {order : List FunctionId}
    {bounds larger : Table FunctionId Nat}
    (added : order.foldlM program.addBound bounds = .ok larger)
    {id : FunctionId} (bounded : (larger.get? id).isSome) :
    (bounds.get? id).isSome ∨ id ∈ order := by
  induction order generalizing bounds with
  | nil =>
    cases added
    exact .inl bounded
  | cons first rest ih =>
    rw [List.foldlM_cons, bind_eq_ok_iff] at added
    obtain ⟨middle, one, others⟩ := added
    rcases ih others with early | late
    · rcases addBound_get? one early with old | same
      · exact .inl old
      · exact .inr (by simp [same])
    · exact .inr (List.mem_cons_of_mem _ late)

/-- The best of ranked entries is one of them. -/
theorem foldl_betterRanked {ranked : List (Nat × PathEntry)} {best : Option (Nat × PathEntry)}
    {chosen : Nat × PathEntry} (found : ranked.foldl betterRanked best = some chosen) :
    best = some chosen ∨ chosen ∈ ranked := by
  induction ranked generalizing best with
  | nil => exact .inl found
  | cons next rest ih =>
    rcases ih found with early | late
    · unfold betterRanked at early
      split at early
      · split at early
        · exact .inl early
        · exact .inr (by simp_all)
      · exact .inr (by simp_all)
    · exact .inr (List.mem_cons_of_mem _ late)

/-- The next function of a path has a bound. -/
theorem nextOnPath?_bounded {program : Program} {profile : Option Profile}
    {bounds : Table FunctionId Nat} {visited : List FunctionId} {current : FunctionId}
    {entry : PathEntry} (next : program.nextOnPath? profile bounds visited current = some entry) :
    (bounds.get? entry.id).isSome := by
  unfold nextOnPath? at next
  simp only [Option.bind_eq_bind, Option.bind_eq_some_iff, Option.map_eq_some_iff] at next
  obtain ⟨caller, _, chosen, best, rfl⟩ := next
  have listed := (foldl_betterRanked best).resolve_left (by simp)
  obtain ⟨call, _, ranked⟩ := List.mem_filterMap.mp listed
  unfold rankedCallee? at ranked
  simp only [Option.bind_eq_bind, Option.bind_eq_some_iff, Option.some.injEq] at ranked
  obtain ⟨target, _, bound, known, rfl⟩ := ranked
  simp [known]

/-- Every function below another on a path has a bound. -/
theorem descend_bounded {program : Program} {profile : Option Profile}
    {bounds : Table FunctionId Nat} {length : Nat} {visited : List FunctionId}
    {current : FunctionId} {entry : PathEntry}
    (listed : entry ∈ program.descend profile bounds length visited current) :
    (bounds.get? entry.id).isSome := by
  induction length generalizing visited current with
  | zero => simp [descend] at listed
  | succ length ih =>
    unfold descend at listed
    split at listed
    · simp at listed
    · rename_i first next
      rcases List.mem_cons.mp listed with rfl | later
      · exact nextOnPath?_bounded next
      · exact ih later

/-- Every function on the critical path of a root has a bound. -/
theorem criticalPath?_bounded {program : Program} {profile : Option Profile}
    {bounds : Table FunctionId Nat} {root : FunctionId × Function} {path : CriticalPath}
    {entry : PathEntry} (found : program.criticalPath? profile bounds root = some path)
    (listed : entry ∈ path.entries) : (bounds.get? entry.id).isSome := by
  obtain ⟨bound, known, rfl⟩ := Option.map_eq_some_iff.mp found
  rcases List.mem_cons.mp listed with rfl | later
  · simp [known]
  · exact descend_bounded later

/-- Critical functions are in the call order. -/
theorem mem_callOrder_of_critical {program : Program} {profile : Option Profile}
    {analysis : Analysis} (analyzed : program.analyze profile = .ok analysis) :
    ∃ order, program.callOrder = .ok order ∧
      ∀ id ∈ analysis.criticalFunctions.keys, id ∈ order := by
  unfold analyze at analyzed
  simp only [bind_eq_ok_iff, Except.ok.injEq] at analyzed
  obtain ⟨order, ordered, bounds, added, rfl⟩ := analyzed
  refine ⟨order, ordered, fun id critical => ?_⟩
  have onPath := OrderedSet.mem_keys_ofList.mp critical
  simp only [List.mem_flatMap, List.mem_map, List.mem_filterMap] at onPath
  obtain ⟨path, ⟨root, _, found⟩, entry, listed, rfl⟩ := onPath
  have bounded := criticalPath?_bounded found listed
  exact (mem_order_of_bound added bounded).resolve_left (by simp)

end Timebound.Program
