import Mathlib.Data.List.Nodup
import Mathlib.Data.List.Perm.Subperm
import Timebound.Timing.CallOrder

/-!
# What the callee-first order lists

When the depth-first visit succeeds, its list holds every function that outside
code can get to, and each of them stands after all functions it calls, itself
apart. The depth that bounds the visit never runs out: the functions being
visited are pairwise distinct and exist. Which programs have an order, and the
set that the search for reachable functions computes, are separate matters.
-/

namespace Timebound.Program

/-- Functions that outside code can get to: the existing roots and, from any of
them on, the existing functions they call. -/
inductive Reaches (program : Program) : FunctionId → Prop where
  /-- A root can be entered. -/
  | root {id : FunctionId} {function : Function} (found : program.function? id = some function)
      (isRoot : function.isRoot = true) : Reaches program id
  /-- An existing callee can be entered through its caller. -/
  | call {caller callee : FunctionId} {function target : Function}
      (reached : Reaches program caller) (found : program.function? caller = some function)
      (called : callee ∈ function.callees) (existing : program.function? callee = some target) :
      Reaches program callee

/-- Functions that outside code can get to exist. -/
theorem Reaches.isSome {program : Program} {id : FunctionId} (reached : program.Reaches id) :
    (program.function? id).isSome := by
  cases reached with
  | root found _ => simp [found]
  | call _ _ _ existing => simp [existing]

/-- A list of finished functions, latest first: none is listed twice, each exists,
and each calls only functions finished before it, or itself within a limit. -/
def Settled (program : Program) : List FunctionId → Prop
  | [] => True
  | id :: earlier => id ∉ earlier ∧ (∃ function, program.function? id = some function ∧
      ∀ callee ∈ function.callees, callee ∈ earlier ∨
        (callee = id ∧ function.recursionLimit.isSome)) ∧ Settled program earlier

/-- What a visit below the `active` functions does to the finished ones. -/
structure Extends (program : Program) (active finished result : List FunctionId) : Prop where
  /-- The result is settled. -/
  settled : program.Settled result
  /-- Nothing finished is forgotten. -/
  kept : finished ⊆ result
  /-- No active function gets finished. -/
  fresh : ∀ id ∈ result, id ∈ finished ∨ id ∉ active

/-- Doing nothing extends a settled list. -/
theorem Extends.refl {program : Program} {finished : List FunctionId}
    (settled : program.Settled finished) (active : List FunctionId) :
    program.Extends active finished finished :=
  ⟨settled, fun _ h => h, fun _ h => .inl h⟩

/-- Extensions below the same active functions compose. -/
theorem Extends.trans {program : Program} {active first second third : List FunctionId}
    (one : program.Extends active first second) (two : program.Extends active second third) :
    program.Extends active first third where
  settled := two.settled
  kept := fun _ h => two.kept (one.kept h)
  fresh := fun id h => (two.fresh id h).elim (one.fresh id) .inr

/-- Distinct functions with slots below a size are no more than the size. -/
theorem length_le_of_slot_lt {ids : List FunctionId} {size : Nat} (distinct : ids.Nodup)
    (below : ∀ id ∈ ids, id.slot < size) : ids.length ≤ size := by
  have inside : ids.map Id.slot ⊆ List.range size := by
    intro slot listed
    obtain ⟨id, member, rfl⟩ := List.mem_map.mp listed
    exact List.mem_range.mpr (below id member)
  have injective : (ids.map Id.slot).Nodup :=
    distinct.map fun a b same => by cases a; cases b; simp_all
  have counted := (List.subperm_of_subset injective inside).length_le
  simpa using counted

/-- Distinct existing functions are no more than there are slots. -/
theorem length_le_slotCount {program : Program} {ids : List FunctionId} (distinct : ids.Nodup)
    (live : ∀ id ∈ ids, (program.function? id).isSome) :
    ids.length ≤ program.functions.slotCount := by
  refine length_le_of_slot_lt distinct fun id member => ?_
  obtain ⟨function, found⟩ := Option.isSome_iff_exists.mp (live id member)
  exact Arena.slot_lt_of_get? found

/-- A call without fault goes to the function itself within its limit, or to an
existing function that is not active. -/
theorem callFault?_eq_none {program : Program} {active : List FunctionId} {id callee : FunctionId}
    {function : Function} (sound : program.callFault? active id function callee = none) :
    (callee = id ∧ function.recursionLimit.isSome) ∨
      (callee ≠ id ∧ (program.function? callee).isSome ∧ callee ∉ active) := by
  unfold callFault? at sound
  by_cases same : callee = id
  · rw [if_pos same] at sound
    split at sound
    · exact .inl ⟨same, ‹_›⟩
    · simp at sound
  · rw [if_neg same] at sound
    cases found : program.function? callee with
    | none => simp [found] at sound
    | some target =>
      by_cases listed : callee ∈ active
      · simp [found, listed] at sound
      · exact .inr ⟨same, rfl, listed⟩

/-- The functions a successful sequence of visits was asked for are finished, and
the finished list stays settled, when each single visit does as much. -/
theorem foldlM_visit {program : Program} (active : List FunctionId)
    {visitOne : List FunctionId → FunctionId → Except Failure (List FunctionId)}
    (ids : List FunctionId)
    (single : ∀ id ∈ ids, ∀ finished result, program.Settled finished →
      visitOne finished id = .ok result → program.Extends active finished result ∧ id ∈ result)
    {finished result : List FunctionId} (settled : program.Settled finished)
    (done : ids.foldlM visitOne finished = .ok result) :
    program.Extends active finished result ∧ ∀ id ∈ ids, id ∈ result := by
  induction ids generalizing finished with
  | nil =>
    simp only [List.foldlM_nil, pure, Except.pure, Except.ok.injEq] at done
    subst done
    exact ⟨.refl settled active, by simp⟩
  | cons id rest ih =>
    rw [List.foldlM_cons, bind_eq_ok_iff] at done
    obtain ⟨middle, first, others⟩ := done
    obtain ⟨grown, listed⟩ := single id (by simp) finished middle settled first
    obtain ⟨further, all⟩ := ih (fun other h => single other (by simp [h])) grown.settled others
    refine ⟨grown.trans further, fun other member => ?_⟩
    rcases List.mem_cons.mp member with rfl | later
    · exact further.kept listed
    · exact all other later

/-- A visit of an existing function that is not active finishes it, after all
functions it calls. -/
theorem visit_extends {program : Program} (depth : Nat) :
    ∀ {active finished result : List FunctionId} {id : FunctionId},
      program.functions.slotCount ≤ depth + active.length → (id :: active).Nodup →
      (∀ other ∈ id :: active, (program.function? other).isSome) → program.Settled finished →
      program.visit depth active finished id = .ok result →
      program.Extends active finished result ∧ id ∈ result := by
  induction depth with
  | zero =>
    -- More functions would be active than there are slots.
    intro active finished result id enough distinct live settled done
    have counted := length_le_slotCount distinct live
    simp only [List.length_cons] at counted
    omega
  | succ depth ih =>
    intro active finished result id enough distinct live settled done
    unfold visit at done
    by_cases seen : id ∈ finished
    · simp only [List.contains_eq_mem, seen, decide_true, if_true, Except.ok.injEq] at done
      subst done
      exact ⟨.refl settled active, seen⟩
    · simp only [List.contains_eq_mem, seen, decide_false, Bool.false_eq_true, if_false] at done
      obtain ⟨function, found⟩ := Option.isSome_iff_exists.mp (live id (by simp))
      simp only [found] at done
      cases faults : function.callees.reverse.findSome? (program.callFault? active id function) with
      | some cause => simp [faults] at done
      | none =>
        simp only [faults] at done
        have sound : ∀ callee ∈ function.callees,
            program.callFault? active id function callee = none := fun callee called =>
          List.findSome?_eq_none_iff.mp faults callee (List.mem_reverse.mpr called)
        obtain ⟨below, visited, made⟩ := bind_eq_ok_iff.mp done
        simp only [Except.ok.injEq] at made
        subst made
        obtain ⟨grown, all⟩ := foldlM_visit (id :: active) _
          (fun callee called start stop settledStart step => by
            obtain ⟨called, other⟩ := List.mem_filter.mp called
            have apart : callee ≠ id := by simpa using other
            rcases callFault?_eq_none (sound callee called) with ⟨same, _⟩ | ⟨_, existing, idle⟩
            · exact absurd same apart
            · refine ih (by simp only [List.length_cons]; omega) ?_ ?_ settledStart step
              · exact List.nodup_cons.mpr ⟨by simp [apart, idle], distinct⟩
              · exact List.forall_mem_cons.mpr ⟨existing, live⟩) settled visited
        have unseen : id ∉ below := fun listed => by
          rcases grown.fresh id listed with old | new
          · exact seen old
          · simp at new
        refine ⟨⟨⟨unseen, ⟨function, found, fun callee called => ?_⟩, grown.settled⟩, ?_, ?_⟩,
          by simp⟩
        · rcases callFault?_eq_none (sound callee called) with self | ⟨apart, _, _⟩
          · exact .inr self
          · exact .inl (all callee (List.mem_filter.mpr ⟨called, by simpa using apart⟩))
        · exact fun other h => List.mem_cons_of_mem _ (grown.kept h)
        · intro other member
          rcases List.mem_cons.mp member with rfl | older
          · exact .inr (List.nodup_cons.mp distinct).1
          · exact (grown.fresh other older).imp_right fun idle h =>
              idle (List.mem_cons_of_mem _ h)

/-- The order is settled when read backwards, and it lists every root. -/
theorem callOrder_settled {program : Program} {order : List FunctionId}
    (ordered : program.callOrder = .ok order) :
    program.Settled order.reverse ∧ ∀ id function, program.function? id = some function →
      function.isRoot = true → id ∈ order := by
  unfold callOrder at ordered
  obtain ⟨finished, visited, made⟩ := bind_eq_ok_iff.mp ordered
  simp only [Except.ok.injEq] at made
  subst made
  obtain ⟨grown, all⟩ := foldlM_visit [] _
    (fun id listed start stop settled step => by
      obtain ⟨⟨_, function⟩, entry, rfl⟩ := List.mem_map.mp listed
      have found := Arena.mem_entries.mp (List.mem_filter.mp entry).1
      refine visit_extends _ (by simp) (by simp) ?_ settled step
      simp [function?, found]) (show program.Settled [] from trivial) visited
  refine ⟨by rw [List.reverse_reverse]; exact grown.settled, fun id function found isRoot => ?_⟩
  refine List.mem_reverse.mpr (all id (List.mem_map.mpr ⟨(id, function), ?_, rfl⟩))
  exact List.mem_filter.mpr ⟨Arena.mem_entries.mpr found, isRoot⟩

/-- The functions of a settled list exist. -/
theorem Settled.isSome {program : Program} {finished : List FunctionId}
    (settled : program.Settled finished) {id : FunctionId} (listed : id ∈ finished) :
    (program.function? id).isSome = true := by
  induction finished with
  | nil => simp at listed
  | cons latest earlier ih =>
    obtain ⟨_, ⟨function, found, _⟩, settledEarlier⟩ := settled
    rcases List.mem_cons.mp listed with rfl | older
    · rw [found]
      rfl
    · exact ih settledEarlier older

/-- A settled list is closed under calls. -/
theorem Settled.mem_of_called {program : Program} {finished : List FunctionId}
    (settled : program.Settled finished) {id callee : FunctionId} {function : Function}
    (listed : id ∈ finished) (found : program.function? id = some function)
    (called : callee ∈ function.callees) : callee ∈ finished := by
  induction finished with
  | nil => simp at listed
  | cons latest earlier ih =>
    obtain ⟨_, ⟨same, foundLatest, before⟩, settledEarlier⟩ := settled
    rcases List.mem_cons.mp listed with rfl | older
    · rw [found] at foundLatest
      cases foundLatest
      rcases before callee called with old | ⟨self, _⟩
      · exact List.mem_cons_of_mem _ old
      · simp [self]
    · exact List.mem_cons_of_mem _ (ih settledEarlier older)

/-- In a settled list a function that calls itself has a limit. -/
theorem Settled.limited {program : Program} {finished : List FunctionId}
    (settled : program.Settled finished) {id : FunctionId} {function : Function}
    (listed : id ∈ finished) (found : program.function? id = some function)
    (called : id ∈ function.callees) : function.recursionLimit.isSome = true := by
  induction finished with
  | nil => cases listed
  | cons latest earlier ih =>
    obtain ⟨fresh, ⟨same, foundLatest, before⟩, settledEarlier⟩ := settled
    rcases List.mem_cons.mp listed with rfl | older
    · cases found.symm.trans foundLatest
      exact ((before id called).resolve_left fresh).2
    · exact ih settledEarlier older

/-- In a settled list, read backwards, calls go to earlier places. -/
theorem Settled.idxOf_lt {program : Program} {finished : List FunctionId}
    (settled : program.Settled finished) {id callee : FunctionId} {function : Function}
    (listed : id ∈ finished) (found : program.function? id = some function)
    (called : callee ∈ function.callees) :
    callee = id ∨ finished.reverse.idxOf callee < finished.reverse.idxOf id := by
  induction finished with
  | nil => simp at listed
  | cons latest earlier ih =>
    have ⟨fresh, ⟨same, foundLatest, before⟩, settledEarlier⟩ := settled
    rw [List.reverse_cons, List.idxOf_append, List.idxOf_append]
    simp only [List.mem_reverse]
    rcases List.mem_cons.mp listed with rfl | older
    · rw [found] at foundLatest
      cases foundLatest
      rcases before callee called with old | ⟨self, _⟩
      · have place : earlier.reverse.idxOf callee < earlier.reverse.length :=
          List.idxOf_lt_length_iff.mpr (List.mem_reverse.mpr old)
        rw [if_pos old, if_neg fresh]
        exact .inr (by omega)
      · exact .inl self
    · have old := settledEarlier.mem_of_called older found called
      rw [if_pos old, if_pos older]
      exact ih settledEarlier older

/-- Every function that outside code can get to is in the order. -/
theorem mem_callOrder_of_reaches {program : Program} {order : List FunctionId}
    (ordered : program.callOrder = .ok order) {id : FunctionId} (reached : program.Reaches id) :
    id ∈ order := by
  obtain ⟨settled, roots⟩ := callOrder_settled ordered
  induction reached with
  | root found isRoot => exact roots _ _ found isRoot
  | call _ found called _ ih =>
    rw [← List.mem_reverse] at ih ⊢
    exact settled.mem_of_called ih found called

end Timebound.Program
