import Timebound.Timing.Analysis

/-!
# Optimization passes

A pass tells whether it has work, changes a program, and certifies a change from
the recorded pre-images. It only reports; whether a change is kept is decided by
the optimizer. A pass may depend on how often it was executed before, which its
operations are told.

Estimates of cycles are signed words of 64 bits, and sums and differences of them
wrap around. This is the arithmetic of a release build, which does not check for
overflow. Numbers of nodes are those of programs in memory and are exact.
-/

namespace Timebound

/-- A number as a signed word of 64 bits. -/
def signedWord (n : Int) : Int := n.bmod cycleLimit

/-- What a pass reports about one execution. -/
structure Outcome where
  /-- Whether the program was changed. -/
  modified : Bool := false
  /-- The estimated change of worst-case cycles, a signed word. -/
  cycleImpact : Int := 0
  /-- The change of the number of statements and expression nodes. -/
  sizeImpact : Int := 0
  /-- Named counts. -/
  counters : Table String Nat := .empty
  deriving DecidableEq

namespace Outcome

/-- Add to a named count; adding nothing leaves no trace. -/
def count (outcome : Outcome) (name : String) (amount : Nat) : Outcome :=
  if amount = 0 then outcome
  else { outcome with
    counters := outcome.counters.alter name fun seen => some (seen.getD 0 + amount) }

/-- The value of a named count. -/
def counter (outcome : Outcome) (name : String) : Nat := (outcome.counters.get? name).getD 0

/-- Counting adds to its own count and to no other. -/
theorem counter_count (outcome : Outcome) (name other : String) (amount : Nat) :
    (outcome.count name amount).counter other =
      outcome.counter other + if other = name then amount else 0 := by
  unfold count counter
  by_cases nothing : amount = 0
  · simp [nothing]
  · by_cases same : other = name
    · simp [nothing, same, Table.get?_alter]
    · simp [nothing, same, Table.get?_alter]

/-- Counting does not say whether anything was changed. -/
@[simp] theorem modified_count (outcome : Outcome) (name : String) (amount : Nat) :
    (outcome.count name amount).modified = outcome.modified := by
  unfold count
  split <;> rfl

/-- Counting reports no change of size. -/
@[simp] theorem sizeImpact_count (outcome : Outcome) (name : String) (amount : Nat) :
    (outcome.count name amount).sizeImpact = outcome.sizeImpact := by
  unfold count
  split <;> rfl

end Outcome

/-- A unit of transformation. The first argument of the operations is the number
of earlier executions in the same run. -/
structure Pass where
  /-- The name in statistics and failures. -/
  name : String
  /-- Whether an execution could do anything. -/
  applicable : Nat → Program → Analysis → Bool
  /-- Change a program. The program is meaningful even if the execution fails. -/
  transform : Nat → Program → Analysis → Program × Except Failure Outcome
  /-- Whether the recorded change, which led to this program, kept the behaviour. -/
  certify : Changes → Program → Bool

/-- A finished execution of a pass. -/
structure Execution where
  /-- The program left behind. -/
  program : Program
  /-- What the execution touched. -/
  changes : Changes
  /-- The report of the pass, or its failure. -/
  result : Except Failure Outcome

/-- Execute a pass and record what it touches. -/
def Pass.execute (pass : Pass) (earlier : Nat) (program : Program) (analysis : Analysis) :
    Execution :=
  let (left, result) := pass.transform earlier program.openJournal analysis
  ⟨left.closeJournal, left.changes, result⟩

end Timebound
