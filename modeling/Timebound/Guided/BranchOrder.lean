import Timebound.Program.Stmt

/-!
# Branch order

A branch whose first arm is known to be the less likely one gets its arms
swapped and its condition negated, so that the likely arm comes first. A leading
negation is taken off rather than doubled.
-/

namespace Timebound

/-- The scale of likelihoods. -/
def certainty : Nat := 1000

/-- Whether the first arm of a branch is the less likely one. -/
def isUnlikely (likelihood : Option Nat) : Bool := likelihood.any (· < certainty / 2)

/-- The opposite of a condition, without doubling a leading negation. -/
def Expr.opposite : Expr → Expr
  | .unary .not _ operand => operand
  | other => other.not

/-- A condition and its opposite decide on the same guard. -/
@[simp] theorem Expr.guard_opposite (e : Expr) : e.opposite.guard = e.guard := by
  unfold opposite
  split <;> simp_all [guard, Expr.not]

/-- The opposite of a condition is negated when the condition is not. -/
@[simp] theorem Expr.negated_opposite (e : Expr) : e.opposite.negated = !e.negated := by
  unfold opposite
  split <;> simp_all [negated, Expr.not]

/-- The likelihood of the other arm. -/
def otherLikelihood (likelihood : Nat) : Nat := certainty - min likelihood certainty

mutual

/-- Put the likely arms of a statement first, in nested blocks too. -/
def Stmt.reorder : Stmt → Stmt
  | .branch cond thenBody elseBody likelihood =>
    let newThen := Block.reorder thenBody
    let newElse := Block.reorder elseBody
    if isUnlikely likelihood then
      .branch cond.opposite newElse newThen (likelihood.map otherLikelihood)
    else .branch cond newThen newElse likelihood
  | .loop counter bound condition body => .loop counter bound condition (Block.reorder body)
  | .bind name type value => .bind name type value
  | .assign name value => .assign name value
  | .setGlobal id value => .setGlobal id value
  | .store id index value => .store id index value
  | .emit channel value => .emit channel value
  | .eval value => .eval value
  | .ret value => .ret value

/-- Put the likely arms of a block first. -/
def Block.reorder : List Stmt → List Stmt
  | [] => []
  | s :: rest => s.reorder :: Block.reorder rest

end

mutual

/-- The number of branches of a statement that are reordered. -/
def Stmt.reorderCount : Stmt → Nat
  | .branch _ thenBody elseBody likelihood =>
    Block.reorderCount thenBody + Block.reorderCount elseBody +
      if isUnlikely likelihood then 1 else 0
  | .loop _ _ _ body => Block.reorderCount body
  | .bind .. | .assign .. | .setGlobal .. | .store .. | .emit .. | .eval _ | .ret _ => 0

/-- The number of branches of a block that are reordered. -/
def Block.reorderCount : List Stmt → Nat
  | [] => 0
  | s :: rest => s.reorderCount + Block.reorderCount rest

end

end Timebound
