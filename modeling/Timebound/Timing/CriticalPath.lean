import Timebound.Program.Basic
import Timebound.Timing.Frequency

/-!
# Critical paths

From a root, a critical path goes to the callee with the greatest product of
call frequency and bound, a tie going to the lowest id, and on from there until
no callee is left. Measured frequencies, where a profile has them, replace the
worst-case ones. A path never meets a function twice.
-/

namespace Timebound

/-- Measured call frequencies by names of caller and callee. -/
structure Profile where
  /-- The measurements, latest first. -/
  records : List (String × String × Nat) := []

namespace Profile

/-- Add a measurement, which replaces earlier ones of the same pair. -/
def record (profile : Profile) (caller callee : String) (frequency : Nat) : Profile :=
  ⟨(caller, callee, frequency) :: profile.records⟩

/-- The measured frequency of a pair. -/
def frequency? (profile : Profile) (caller callee : String) : Option Nat :=
  (profile.records.find? fun entry => entry.1 == caller && entry.2.1 == callee).map (·.2.2)

/-- The latest measurement of a pair counts, and others stay as they were. -/
theorem frequency?_record (profile : Profile) (caller callee : String) (frequency : Nat)
    (source target : String) :
    (profile.record caller callee frequency).frequency? source target =
      if caller = source ∧ callee = target then some frequency
      else profile.frequency? source target := by
  unfold frequency? record
  by_cases same : caller = source ∧ callee = target
  · simp [same]
  · have differs : (caller == source && callee == target) = false := by simpa using same
    simp [differs, same]

end Profile

/-- A function on a critical path. -/
structure PathEntry where
  /-- The id of the function. -/
  id : FunctionId
  /-- The name of the function. -/
  name : String
  /-- Calls per activation of the entry before; one for the root. -/
  frequency : Nat
  deriving DecidableEq

/-- The chain of calls that dominates the cost of a root. -/
structure CriticalPath where
  /-- The name of the root. -/
  root : String
  /-- The bound of the root. -/
  bound : Nat
  /-- The functions on the path, root first. -/
  entries : List PathEntry
  deriving DecidableEq

/-- The consecutive pairs of a path: caller, callee and frequency. -/
def CriticalPath.edges (path : CriticalPath) : List (FunctionId × FunctionId × Nat) :=
  (path.entries.zip path.entries.tail).map fun pair =>
    (pair.1.id, pair.2.id, pair.2.frequency)

namespace Program

/-- The entry for a call, with the rank of the callee: frequency times bound. -/
def rankedCallee? (program : Program) (profile : Option Profile) (bounds : Table FunctionId Nat)
    (caller : Function) (call : FunctionId × Nat) : Option (Nat × PathEntry) := do
  let target ← program.function? call.1
  let bound ← bounds.get? call.1
  let measured := profile.bind (·.frequency? caller.name target.name)
  let frequency := measured.getD call.2
  some (frequency * bound, ⟨call.1, target.name, frequency⟩)

/-- The better of two ranked entries; the earlier one unless the later ranks higher. -/
def betterRanked (best : Option (Nat × PathEntry)) (next : Nat × PathEntry) :
    Option (Nat × PathEntry) :=
  match best with
  | some (rank, entry) => if next.1 ≤ rank then some (rank, entry) else some next
  | none => some next

/-- The next entry of a path: the dominating callee not yet on the path. -/
def nextOnPath? (program : Program) (profile : Option Profile) (bounds : Table FunctionId Nat)
    (visited : List FunctionId) (current : FunctionId) : Option PathEntry := do
  let caller ← program.function? current
  let calls := caller.callFrequencies.entries.filter fun call => !visited.contains call.1
  let ranked := calls.filterMap (program.rankedCallee? profile bounds caller)
  (ranked.foldl betterRanked none).map (·.2)

/-- The entries below a function. The length bounds how many there can be. -/
def descend (program : Program) (profile : Option Profile) (bounds : Table FunctionId Nat) :
    Nat → List FunctionId → FunctionId → List PathEntry
  | 0, _, _ => []
  | length + 1, visited, current =>
    match program.nextOnPath? profile bounds visited current with
    | none => []
    | some entry => entry :: descend program profile bounds length (entry.id :: visited) entry.id

/-- The critical path of a root. -/
def criticalPath? (program : Program) (profile : Option Profile) (bounds : Table FunctionId Nat)
    (root : FunctionId × Function) : Option CriticalPath :=
  (bounds.get? root.1).map fun bound =>
    ⟨root.2.name, bound, ⟨root.1, root.2.name, 1⟩ ::
      program.descend profile bounds program.functions.slotCount [root.1] root.1⟩

end Program

end Timebound
