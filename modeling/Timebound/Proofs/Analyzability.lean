import Mathlib.Logic.Relation
import Timebound.Proofs.CallStack
import Timebound.Proofs.CriticalFunctions
import Timebound.Proofs.ExactCycles
import Timebound.Proofs.Reachability
import Timebound.Proofs.SufficientBounds

/-!
# Which programs can be analyzed

A program has a callee-first order when the functions that outside code can get to call existing
functions only, do not call each other in a circle, and call themselves only within a limit
(`exists_callOrder_iff`). The analysis then succeeds when no loop is without a bound and no sum or
product on the way to an exact bound leaves the range of cycle counts, and the bounds are the
exact ones. The exact bounds are natural numbers, defined without the order and without checks.
-/

namespace Timebound.Program

/-! ## Calls that can be put in order -/

/-- One function calls another. -/
def CallsOther (program : Program) (caller callee : FunctionId) : Prop :=
  callee ≠ caller ∧ program.view.Calls caller callee

/-- The functions that outside code can get to make calls that can be put in order. -/
structure SoundCalls (program : Program) : Prop where
  /-- Callees exist. -/
  existing : ∀ {id function callee}, program.Reaches id → program.function? id = some function →
    callee ∈ function.callees → (program.function? callee).isSome = true
  /-- A function that calls itself has a recursion limit. -/
  limited : ∀ {id function}, program.Reaches id → program.function? id = some function →
    id ∈ function.callees → function.recursionLimit.isSome = true
  /-- No function is called again by way of another one. -/
  acyclic : ∀ {id}, program.Reaches id → ¬ Relation.TransGen program.CallsOther id id

section Order

variable {program : Program} {active finished order : List FunctionId}
  {id callee : FunctionId} {function : Function}

/-- The visit objects to no call when every active function leads to the caller. -/
theorem SoundCalls.callFault?_eq_none (sound : program.SoundCalls) (reached : program.Reaches id)
    (found : program.function? id = some function)
    (above : ∀ caller ∈ active, Relation.TransGen program.CallsOther caller id)
    (called : callee ∈ function.callees) :
    program.callFault? active id function callee = none := by
  unfold callFault?
  by_cases self : callee = id
  · subst self
    simp [sound.limited reached found called]
  · obtain ⟨target, existing⟩ := Option.isSome_iff_exists.mp (sound.existing reached found called)
    have idle : callee ∉ active := fun busy =>
      sound.acyclic (.call reached found called existing)
        ((above callee busy).tail ⟨self, function, found, called⟩)
    simp [self, existing, idle]

/-- The visit of a function that outside code can get to succeeds, and it finishes only such
functions. -/
theorem SoundCalls.visit (sound : program.SoundCalls) (depth : Nat) :
    ∀ {active finished : List FunctionId} {id : FunctionId}, program.Reaches id →
      (∀ caller ∈ active, Relation.TransGen program.CallsOther caller id) →
      (∀ other ∈ finished, program.Reaches other) →
      ∃ result, program.visit depth active finished id = .ok result ∧
        ∀ other ∈ result, program.Reaches other := by
  induction depth with
  | zero => exact fun _ _ old => ⟨_, rfl, old⟩
  | succ depth ih =>
    intro active finished id reached above old
    by_cases seen : id ∈ finished
    · exact ⟨finished, visit_finished _ active seen, old⟩
    · obtain ⟨function, found⟩ := Option.isSome_iff_exists.mp reached.isSome
      have callees : ∃ below, (function.callees.filter (· != id)).foldlM
          (program.visit depth (id :: active)) finished = .ok below ∧
            ∀ other ∈ below, program.Reaches other := by
        refine foldlM_total (fun finished => ∀ other ∈ finished, program.Reaches other)
          (fun finished callee called old => ?_) old
        obtain ⟨called, other⟩ := List.mem_filter.mp called
        obtain ⟨target, existing⟩ :=
          Option.isSome_iff_exists.mp (sound.existing reached found called)
        have calls : program.CallsOther id callee :=
          ⟨by simpa using other, function, found, called⟩
        refine ih (.call reached found called existing) (fun caller busy => ?_) old
        rcases List.mem_cons.mp busy with rfl | older
        · exact .single calls
        · exact (above caller older).tail calls
      obtain ⟨below, visited, reaching⟩ := callees
      refine ⟨id :: below, ?_, List.forall_mem_cons.mpr ⟨reached, reaching⟩⟩
      rw [visit_enter depth found seen fun callee called =>
        sound.callFault?_eq_none reached found above called, visited]
      rfl

/-- There is an order, and it lists only functions that outside code can get to. -/
theorem SoundCalls.callOrder (sound : program.SoundCalls) :
    ∃ order, program.callOrder = .ok order ∧ ∀ id ∈ order, program.Reaches id := by
  have roots : ∃ finished, ((program.functions.entries.filter fun entry => entry.2.isRoot).map
      (·.1)).foldlM (program.visit program.functions.slotCount []) [] = .ok finished ∧
        ∀ other ∈ finished, program.Reaches other := by
    refine foldlM_total (fun finished => ∀ other ∈ finished, program.Reaches other)
      (fun finished id listed old => ?_) (List.forall_mem_nil _)
    obtain ⟨⟨_, function⟩, entry, rfl⟩ := List.mem_map.mp listed
    obtain ⟨entry, isRoot⟩ := List.mem_filter.mp entry
    exact sound.visit program.functions.slotCount (.root (Arena.mem_entries.mp entry) isRoot)
      (List.forall_mem_nil _) old
  obtain ⟨finished, visited, reaching⟩ := roots
  refine ⟨finished.reverse, ?_, fun id listed => reaching id (List.mem_reverse.mp listed)⟩
  rw [Program.callOrder, visited]
  rfl

/-- Calls of other functions lead to earlier places of a settled list. -/
theorem Settled.idxOf_lt_of_calls (settled : program.Settled finished) (listed : id ∈ finished)
    (calls : Relation.TransGen program.CallsOther id callee) :
    callee ∈ finished ∧ finished.reverse.idxOf callee < finished.reverse.idxOf id := by
  induction calls with
  | single calls =>
    obtain ⟨apart, function, found, called⟩ := calls
    exact ⟨settled.mem_of_called listed found called,
      (settled.idxOf_lt listed found called).resolve_left apart⟩
  | tail _ calls ih =>
    obtain ⟨apart, function, found, called⟩ := calls
    exact ⟨settled.mem_of_called ih.1 found called,
      ((settled.idxOf_lt ih.1 found called).resolve_left apart).trans ih.2⟩

/-- A program has an order exactly when its calls can be put in order. -/
theorem exists_callOrder_iff :
    (∃ order, program.callOrder = .ok order) ↔ program.SoundCalls := by
  constructor
  · rintro ⟨order, ordered⟩
    have settled := (callOrder_settled ordered).1
    have listed {id} (reached : program.Reaches id) : id ∈ order.reverse :=
      List.mem_reverse.mpr (mem_callOrder_of_reaches ordered reached)
    exact {
      existing := fun reached found called =>
        settled.isSome (settled.mem_of_called (listed reached) found called)
      limited := fun reached found called => settled.limited (listed reached) found called
      acyclic := fun reached circle =>
        Nat.lt_irrefl _ (settled.idxOf_lt_of_calls (listed reached) circle).2 }
  · intro sound
    obtain ⟨order, ordered, _⟩ := sound.callOrder
    exact ⟨order, ordered⟩

/-- The order lists the functions that outside code can get to, and no others. -/
theorem mem_callOrder_iff (ordered : program.callOrder = .ok order) :
    id ∈ order ↔ program.Reaches id := by
  obtain ⟨same, again, reaching⟩ := (exists_callOrder_iff.mp ⟨order, ordered⟩).callOrder
  rw [ordered] at again
  cases again
  exact ⟨reaching id, mem_callOrder_of_reaches ordered⟩

end Order

/-! ## Exact bounds -/

/-- The exact bound of a function, with calls followed to a given depth. -/
def exactBoundWithin (program : Program) : Nat → FunctionId → Nat
  | 0, _ => 0
  | depth + 1, id => (program.function? id).elim 0 fun function =>
    function.exactBound (program.exactBoundWithin depth) id

/-- The exact bound of a function. No chain of calls is longer than there are slots. -/
def exactBound (program : Program) (id : FunctionId) : Nat :=
  program.exactBoundWithin program.functions.slotCount id

/-- The loops of a function have bounds, and the sums and products on the way to its exact bound
stay in the range of cycle counts. -/
def FitsCycles (program : Program) (id : FunctionId) : Prop :=
  ∀ function, program.function? id = some function →
    (∀ held, Block.Holds function.body held → held.endless = false) ∧
      ∀ sum ∈ function.sums program.exactBound id, sum < cycleLimit

/-- A program that the analysis accepts. -/
structure Analyzable (program : Program) : Prop extends program.SoundCalls where
  /-- Every function that outside code can get to has a bound in range. -/
  fits : ∀ {id}, program.Reaches id → program.FitsCycles id

section Bounds

variable {program : Program} {finished : List FunctionId} {bounds : Table FunctionId Nat}
  {id : FunctionId} {function : Function}

/-- Nothing is settled twice. -/
theorem Settled.nodup (settled : program.Settled finished) : finished.Nodup := by
  induction finished with
  | nil => exact List.nodup_nil
  | cons latest earlier ih =>
    obtain ⟨fresh, _, settledEarlier⟩ := settled
    exact List.nodup_cons.mpr ⟨fresh, ih settledEarlier⟩

/-- The functions settled before a point are settled. -/
theorem Settled.of_append {later : List FunctionId}
    (settled : program.Settled (later ++ finished)) : program.Settled finished := by
  induction later with
  | nil => exact settled
  | cons _ _ ih => exact ih settled.2.2

/-- Following calls deeper than a settled function stands does not change its bound. -/
theorem Settled.exactBoundWithin_eq (settled : program.Settled finished) {depth other : Nat}
    (listed : id ∈ finished) (deep : finished.reverse.idxOf id < depth)
    (deepOther : finished.reverse.idxOf id < other) :
    program.exactBoundWithin depth id = program.exactBoundWithin other id := by
  induction depth generalizing other id with
  | zero => omega
  | succ depth ih =>
    obtain ⟨other, rfl⟩ := Nat.exists_eq_succ_of_ne_zero (Nat.ne_zero_of_lt deepOther)
    obtain ⟨function, found⟩ := Option.isSome_iff_exists.mp (settled.isSome listed)
    simp only [exactBoundWithin, found, Option.elim_some]
    refine Function.exactBound_congr fun callee called apart => ?_
    have place := (settled.idxOf_lt listed found called).resolve_left apart
    exact ih (settled.mem_of_called listed found called) (by omega) (by omega)

/-- The exact bound of a settled function comes from the exact bounds of its callees. -/
theorem Settled.exactBound_eq (settled : program.Settled finished) (listed : id ∈ finished)
    (found : program.function? id = some function) :
    program.exactBound id = function.exactBound program.exactBound id := by
  have place : finished.reverse.idxOf id < finished.reverse.length :=
    List.idxOf_lt_length_iff.mpr (List.mem_reverse.mpr listed)
  have slots : finished.length ≤ program.functions.slotCount :=
    length_le_slotCount settled.nodup fun _ => settled.isSome
  rw [List.length_reverse] at place
  calc program.exactBound id
      = program.exactBoundWithin (program.functions.slotCount + 1) id :=
        settled.exactBoundWithin_eq listed (by omega) (by omega)
    _ = function.exactBound program.exactBound id := by
        simp only [exactBoundWithin, found, Option.elim_some]
        rfl

/-- Next to the exact bounds of the functions settled before, every call of a function has a
price: recursion is within a limit, and the other callees have bounds. -/
theorem Settled.activationCycles_eq (settled : program.Settled (id :: finished))
    (found : program.function? id = some function)
    (known : ∀ other ∈ finished, bounds.get? other = some (program.exactBound other))
    {callee : FunctionId} (called : callee ∈ function.callees) :
    program.activationCycles bounds id function.recursionLimit.isSome callee =
      .ok (outside program.exactBound id callee) := by
  unfold activationCycles outside
  by_cases self : callee = id
  · subst self
    simp [settled.limited List.mem_cons_self found called]
  · have earlier : callee ∈ finished :=
      (List.mem_cons.mp (settled.mem_of_called List.mem_cons_self found called)).resolve_left self
    simp [self, known callee earlier]

/-- Next to the exact bounds of the functions settled before, a function that fits gets its exact
bound, and any other function none. -/
theorem Settled.addBound_eq_ok_iff (settled : program.Settled (id :: finished))
    (known : ∀ other ∈ finished, bounds.get? other = some (program.exactBound other))
    {larger : Table FunctionId Nat} :
    program.addBound bounds id = .ok larger ↔
      program.FitsCycles id ∧ larger = bounds.insert id (program.exactBound id) := by
  obtain ⟨function, found⟩ := Option.isSome_iff_exists.mp (settled.isSome List.mem_cons_self)
  have priced := fun callee (called : callee ∈ function.callees) =>
    settled.activationCycles_eq found known called
  rw [settled.exactBound_eq List.mem_cons_self found]
  unfold addBound
  simp only [found]
  constructor
  · intro added
    cases bounded : program.functionBound bounds id function with
    | error cause => simp [bounded] at added
    | ok bound =>
      obtain ⟨activation, cost, _⟩ := functionBound_cases bounded
      have loops : ∀ held, Block.Holds function.body held → held.endless = false :=
        fun held place => Block.not_endless_of_cycles place cost
      obtain ⟨rfl, small⟩ := (functionBound_exact priced loops bound).mp bounded
      refine ⟨fun same again => ?_, ?_⟩
      · rw [found] at again
        cases again
        exact ⟨loops, small⟩
      · simpa [bounded] using added.symm
  · rintro ⟨fits, rfl⟩
    obtain ⟨loops, small⟩ := fits function found
    rw [(functionBound_exact priced loops _).mpr ⟨rfl, small⟩]

/-- Bounds added along a settled list are exact, and every function on it fits. -/
theorem Settled.exact_of_addBounds (settled : program.Settled finished)
    (added : finished.reverse.foldlM program.addBound .empty = .ok bounds) :
    ∀ id ∈ finished, program.FitsCycles id ∧ bounds.get? id = some (program.exactBound id) := by
  induction finished generalizing bounds with
  | nil => simp
  | cons latest earlier ih =>
    rw [List.reverse_cons, List.foldlM_append, bind_eq_ok_iff] at added
    obtain ⟨before, addedBefore, last⟩ := added
    rw [List.foldlM_cons, bind_eq_ok_iff] at last
    obtain ⟨larger, one, rest⟩ := last
    cases rest
    have known := ih settled.2.2 addedBefore
    obtain ⟨fits, rfl⟩ :=
      (settled.addBound_eq_ok_iff fun other listed => (known other listed).2).mp one
    intro id listed
    rw [Table.get?_insert]
    by_cases same : id = latest
    · subst same
      simp [fits]
    · have older := (List.mem_cons.mp listed).resolve_left same
      simpa [same] using known id older

/-- Bounds can be added along a settled list of functions that fit. -/
theorem Settled.exists_addBounds (settled : program.Settled finished)
    (fits : ∀ id ∈ finished, program.FitsCycles id) :
    ∃ bounds, finished.reverse.foldlM program.addBound .empty = .ok bounds := by
  induction finished with
  | nil => exact ⟨.empty, rfl⟩
  | cons latest earlier ih =>
    obtain ⟨fitsLatest, fitsEarlier⟩ := List.forall_mem_cons.mp fits
    obtain ⟨before, added⟩ := ih settled.2.2 fitsEarlier
    have known := settled.2.2.exact_of_addBounds added
    have last := (settled.addBound_eq_ok_iff fun other listed => (known other listed).2).mpr
      ⟨fitsLatest, rfl⟩
    refine ⟨before.insert latest (program.exactBound latest), ?_⟩
    rw [List.reverse_cons, List.foldlM_append, bind_eq_ok_iff]
    refine ⟨before, added, ?_⟩
    rw [List.foldlM_cons, last]
    rfl

end Bounds

/-! ## The analysis -/

section Analysis

variable {program : Program} {profile : Option Profile} {analysis : Analysis}

/-- The bounds of an analysis are exact, and what it bounds are the functions that outside code
can get to. -/
theorem exact_of_analyze (analyzed : program.analyze profile = .ok analysis) :
    program.Analyzable ∧ analysis.reachable = program.reachable ∧
      (∀ id, id ∈ analysis.bounds.keys ↔ program.Reaches id) ∧
      ∀ id, program.Reaches id → analysis.bound? id = some (program.exactBound id) := by
  unfold analyze at analyzed
  simp only [bind_eq_ok_iff, Except.ok.injEq] at analyzed
  obtain ⟨order, ordered, bounds, added, rfl⟩ := analyzed
  have settled := (callOrder_settled ordered).1
  rw [← List.reverse_reverse order] at added
  have exact := settled.exact_of_addBounds added
  have listed {id} (reached : program.Reaches id) : id ∈ order.reverse :=
    List.mem_reverse.mpr ((mem_callOrder_iff ordered).mpr reached)
  refine ⟨⟨exists_callOrder_iff.mp ⟨order, ordered⟩, fun reached => (exact _ (listed reached)).1⟩,
    rfl, fun id => ⟨fun bounded => ?_, fun reached => ?_⟩,
    fun id reached => (exact id (listed reached)).2⟩
  · have known := mem_order_of_bound added (Table.mem_keys.mp bounded)
    simpa [mem_callOrder_iff ordered] using known
  · rw [Table.mem_keys, (exact id (listed reached)).2]
    rfl

/-- An analyzable program is analyzed. -/
theorem Analyzable.exists_analysis (analyzable : program.Analyzable) (profile : Option Profile) :
    ∃ analysis, program.analyze profile = .ok analysis := by
  obtain ⟨order, ordered, reaching⟩ := analyzable.toSoundCalls.callOrder
  obtain ⟨bounds, added⟩ := (callOrder_settled ordered).1.exists_addBounds fun id listed =>
    analyzable.fits (reaching id (List.mem_reverse.mp listed))
  rw [List.reverse_reverse] at added
  unfold analyze
  simp only [ordered, bind_eq_ok_iff]
  exact ⟨_, order, rfl, bounds, added, rfl⟩

/-- While bounds are added along the order, every call met has a price. -/
theorem activationCycles_of_callOrder {before after : List FunctionId} {id callee : FunctionId}
    {function : Function} {bounds : Table FunctionId Nat}
    (ordered : program.callOrder = .ok (before ++ id :: after))
    (added : before.foldlM program.addBound .empty = .ok bounds)
    (found : program.function? id = some function) (called : callee ∈ function.callees) :
    program.activationCycles bounds id function.recursionLimit.isSome callee =
      .ok (outside program.exactBound id callee) := by
  have settled := (callOrder_settled ordered).1
  rw [List.reverse_append, List.reverse_cons, List.append_assoc] at settled
  have settled : program.Settled (id :: before.reverse) := settled.of_append
  rw [← List.reverse_reverse before] at added
  exact settled.activationCycles_eq found
    (fun other listed => (settled.2.2.exact_of_addBounds added other listed).2) called

end Analysis

/-- The analysis succeeds exactly on analyzable programs: over the functions that outside code can
get to, no callee is missing, no calls form a circle, except that functions with a recursion limit
may call themselves, no loop is without a bound, and no sum or product of the exact bounds leaves
the range of cycle counts. It then bounds exactly the reachable functions, each by its exact
bound, which is the cost of its body next to the exact bounds of its callees, times the recursion
limit if the function calls itself. On the way no call is ever without a price, whether or not
the analysis succeeds later on. The search for the order with a stack ends as the visit does, so
it never asks for a mark out of range. -/
theorem analyze_iff_analyzable (program : Program) (profile : Option Profile) :
    ((∃ analysis, program.analyze profile = .ok analysis) ↔ program.Analyzable) ∧
    (∀ analysis, program.analyze profile = .ok analysis →
      (∀ id, id ∈ analysis.reachable.functions.keys ↔ program.Reaches id) ∧
      (∀ id, id ∈ analysis.bounds.keys ↔ id ∈ analysis.reachable.functions.keys) ∧
      ∀ id function, program.Reaches id → program.function? id = some function →
        analysis.bound? id = some (program.exactBound id) ∧
          program.exactBound id = function.exactBound program.exactBound id) ∧
    (∀ before after id function callee bounds,
      program.callOrder = .ok (before ++ id :: after) →
      before.foldlM program.addBound .empty = .ok bounds →
      program.function? id = some function → callee ∈ function.callees →
        program.activationCycles bounds id function.recursionLimit.isSome callee =
          .ok (outside program.exactBound id callee)) ∧
    ∀ outcome, Search.Runs program (Search.start program) outcome ↔
      outcome = program.callOrder.mapError .failed := by
  refine ⟨⟨?_, fun analyzable => analyzable.exists_analysis profile⟩, fun analysis analyzed => ?_,
    fun before after id function callee bounds ordered added found called =>
      activationCycles_of_callOrder ordered added found called, Search.runs_iff program⟩
  · rintro ⟨analysis, analyzed⟩
    exact (exact_of_analyze analyzed).1
  obtain ⟨analyzable, reachable, keys, exact⟩ := exact_of_analyze analyzed
  have reaches : ∀ id, id ∈ analysis.reachable.functions.keys ↔ program.Reaches id := fun id => by
    rw [reachable, mem_reachable_functions]
  refine ⟨reaches, fun id => (keys id).trans (reaches id).symm, fun id function reached found =>
    ⟨exact id reached, ?_⟩⟩
  obtain ⟨order, ordered⟩ := exists_callOrder_iff.mpr analyzable.toSoundCalls
  exact (callOrder_settled ordered).1.exactBound_eq
    (List.mem_reverse.mpr ((mem_callOrder_iff ordered).mpr reached)) found

end Timebound.Program
