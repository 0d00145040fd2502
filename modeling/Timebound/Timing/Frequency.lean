import Timebound.Program.Function
import Timebound.Timing.Cost

/-!
# Call frequencies

How often a body calls each function in the worst case: every call site counts
the product of the bounds of the loops around it, both arms of a branch count,
and the condition of a loop counts once more than its body. Frequencies stop at
the largest 64-bit number.
-/

namespace Timebound

/-- A frequency, cut off at the largest 64-bit number. -/
def capped (frequency : Nat) : Nat := min frequency (cycleLimit - 1)

mutual

/-- The call sites of an expression evaluated at a frequency, in evaluation order. -/
def Expr.callSites (frequency : Nat) : Expr → List (FunctionId × Nat)
  | .lit _ | .var _ | .global _ => []
  | .load _ index => index.callSites frequency
  | .unary _ _ operand => operand.callSites frequency
  | .binary _ _ left right => left.callSites frequency ++ right.callSites frequency
  | .call callee args => Args.callSites frequency args ++ [(callee, frequency)]

/-- The call sites of arguments evaluated at a frequency. -/
def Args.callSites (frequency : Nat) : List Expr → List (FunctionId × Nat)
  | [] => []
  | arg :: args => arg.callSites frequency ++ Args.callSites frequency args

end

mutual

/-- The call sites of a statement executed at a frequency. A loop without a bound
counts as never entered; such a body has no cost. -/
def Stmt.callSites (frequency : Nat) : Stmt → List (FunctionId × Nat)
  | .bind _ _ value | .assign _ value | .setGlobal _ value | .emit _ value | .eval value =>
    value.callSites frequency
  | .store _ index value => index.callSites frequency ++ value.callSites frequency
  | .branch cond thenBody elseBody _ =>
    cond.callSites frequency ++
      (Block.callSites frequency thenBody ++ Block.callSites frequency elseBody)
  | .loop _ bound condition body =>
    let inner := capped (frequency * bound.limit?.getD 0)
    condition.toList.flatMap (Expr.callSites (capped (inner + frequency))) ++
      Block.callSites inner body
  | .ret value => value.toList.flatMap (Expr.callSites frequency)

/-- The call sites of a block executed at a frequency. -/
def Block.callSites (frequency : Nat) : List Stmt → List (FunctionId × Nat)
  | [] => []
  | s :: rest => s.callSites frequency ++ Block.callSites frequency rest

end

/-- Add up the frequencies of call sites per callee. -/
def tallySites (sites : List (FunctionId × Nat)) : Table FunctionId Nat :=
  sites.foldl (fun tally site =>
    tally.alter site.1 fun seen => some (capped (seen.getD 0 + site.2))) .empty

/-- The worst-case number of calls of each callee per activation. -/
def Function.callFrequencies (function : Function) : Table FunctionId Nat :=
  tallySites (Block.callSites 1 function.body)

end Timebound
