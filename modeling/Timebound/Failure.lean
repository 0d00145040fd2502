import Timebound.Decimal.Fixed
import Timebound.Program.Error

/-!
# Failures

The three ways an optimization run can fail: a function without a finite cycle
bound, a pass whose change is rejected, and a bound that grew too much. Each
failure carries its cause; the wording is in the `message` functions.
-/

namespace Timebound

/-- Why a function has no finite cycle bound. -/
inductive Cause where
  /-- A bound does not fit into 64 bits. -/
  | overflow
  /-- The number of iterations of a loop is not known. -/
  | unboundedLoop
  /-- A function calls itself and has no recursion limit. -/
  | unannotatedRecursion
  /-- A called function does not exist. -/
  | missingCallee (id : FunctionId)
  /-- A call closes a cycle through the function of this name. -/
  | callCycle (name : String)
  /-- A called function has no bound. -/
  | unboundedCallee (label : String)
  /-- The program is not consistent. -/
  | inconsistent (error : ProgramError)
  /-- A cause given by a pass in its own words. -/
  | stated (reason : String)
  deriving DecidableEq

/-- The wording of a cause. -/
def Cause.message : Cause → String
  | overflow => "cycle bound overflows u64"
  | unboundedLoop => "loop without a provable iteration bound"
  | unannotatedRecursion => "unannotated recursion"
  | missingCallee id => "call to missing function " ++ id.text
  | callCycle name => "call cycle through `" ++ name ++ "`"
  | unboundedCallee label => "callee `" ++ label ++ "` has no finite bound"
  | inconsistent error => error.message
  | stated reason => reason

/-- Why a change made by a pass is rejected. -/
inductive Objection where
  /-- The certificate of the pass does not hold. -/
  | certificateRejected
  /-- The changed program is not consistent. -/
  | inconsistent (error : ProgramError)
  /-- An objection in free words. -/
  | stated (reason : String)
  deriving DecidableEq

/-- The wording of an objection. -/
def Objection.message : Objection → String
  | certificateRejected => "determinism certificate rejected the transformation"
  | inconsistent error => error.message
  | stated reason => reason

/-- A failure of an analysis or of an optimization run. -/
inductive Failure where
  /-- A function has no finite bound. -/
  | analysis (function : String) (cause : Cause)
  /-- A pass did not keep the observable behaviour. -/
  | determinism (pass : String) (objection : Objection)
  /-- The bound of a function grew by more than allowed. -/
  | degradation (function : String) (oldCycles newCycles : Nat) (percent : Float)

/-- The message of a failure. Percentages have two decimal places. -/
def Failure.message : Failure → String
  | analysis function cause =>
    "WCET analysis of `" ++ function ++ "` failed: " ++ cause.message
  | determinism pass objection =>
    "pass `" ++ pass ++ "` violated determinism: " ++ objection.message
  | degradation function oldCycles newCycles percent =>
    "WCET of `" ++ function ++ "` degraded from " ++ toString oldCycles ++ " to " ++
      toString newCycles ++ " cycles (" ++ Decimal.fixed 2 percent ++ "%)"

/-- Two steps in a row succeed exactly when the first does and the second does with its result. -/
theorem bind_eq_ok_iff {ε α β : Type} {first : Except ε α} {second : α → Except ε β} {result : β} :
    (first >>= second) = .ok result ↔
      ∃ middle, first = .ok middle ∧ second middle = .ok result := by
  cases first <;> simp [bind, Except.bind]

end Timebound
