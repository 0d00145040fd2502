import Timebound.Failure
import Timebound.Program.Stmt

/-!
# Cycle costs

Every node has a fixed cost plus the costs of its parts. A loop pays its
condition and body once per iteration and the condition once more, a branch pays
its dearer arm, and a call pays the cost of its callee, which is a parameter
here. Costs are natural numbers, and every sum and product on the way must stay
below 2^64. Leading logical negations of a branch condition are free, and a load
into a new local that directly follows the load of the element before it is
cheaper.
-/

namespace Timebound

/-- The bound that all cycle counts stay below. -/
def cycleLimit : Nat := Width.w64.patterns

/-- A cycle count, provided it stays below the limit. -/
def checkedCycles (cycles : Nat) : Except Cause Nat :=
  if cycles < cycleLimit then .ok cycles else .error .overflow

/-- A checked count is the count itself, and it is below the limit. -/
theorem checkedCycles_eq_ok_iff {cycles checked : Nat} :
    checkedCycles cycles = .ok checked ↔ cycles = checked ∧ cycles < cycleLimit := by
  unfold checkedCycles
  split
  · simp_all
  · simp_all
    omega

/-! ## The cost table -/

namespace CycleCost

def literal : Nat := 1
def localRead : Nat := 1
def globalRead : Nat := 2
def load : Nat := 4
/-- What a load saves when it directly follows the load of the element before it. -/
def sequentialDiscount : Nat := 2
def simple : Nat := 1
def multiply : Nat := 3
def divide : Nat := 20
def call : Nat := 10
def assign : Nat := 1
def globalWrite : Nat := 2
def store : Nat := 4
def emit : Nat := 8
def branch : Nat := 2
def loopEntry : Nat := 2
def loopTurn : Nat := 3
def ret : Nat := 1

end CycleCost

/-- The cost of a binary operator without its operands. -/
def BinaryOp.cycles : BinaryOp → Nat
  | mul => CycleCost.multiply
  | div | rem => CycleCost.divide
  | _ => CycleCost.simple

/-- The cost of one expression node without its operands and its callee. -/
def Expr.ownCycles : Expr → Nat
  | .lit _ => CycleCost.literal
  | .var _ => CycleCost.localRead
  | .global _ => CycleCost.globalRead
  | .load _ _ => CycleCost.load
  | .unary _ _ _ => CycleCost.simple
  | .binary op _ _ _ => op.cycles
  | .call _ _ => CycleCost.call

/-! ## Sequential loads -/

/-- The global and index of a statement that binds a load at a literal index. -/
def Stmt.literalLoad? : Stmt → Option (GlobalId × Int)
  | .bind _ _ (.load id (.lit index)) => some (id, index.value)
  | _ => none

/-- Whether the second statement loads the element right after the one the first loads. -/
def Stmt.loadsNext (first second : Stmt) : Bool :=
  match first.literalLoad?, second.literalLoad? with
  | some (g, k), some (h, l) => g == h && l == k + 1
  | _, _ => false

/-- What a statement saves by following another one. -/
def Stmt.discountAfter (previous : Option Stmt) (s : Stmt) : Nat :=
  if previous.any (·.loadsNext s) then CycleCost.sequentialDiscount else 0

/-! ## Costs of expressions and blocks -/

mutual

/-- The cost of an expression, given the cost of each callee's activation. -/
def Expr.cycles (callee : FunctionId → Except Cause Nat) : Expr → Except Cause Nat
  | .lit _ => .ok CycleCost.literal
  | .var _ => .ok CycleCost.localRead
  | .global _ => .ok CycleCost.globalRead
  | .load _ index => do
    let cost ← index.cycles callee
    checkedCycles (CycleCost.load + cost)
  | .unary _ _ operand => do
    let cost ← operand.cycles callee
    checkedCycles (CycleCost.simple + cost)
  | .binary op _ left right => do
    let leftCost ← left.cycles callee
    let rightCost ← right.cycles callee
    let operands ← checkedCycles (leftCost + rightCost)
    checkedCycles (op.cycles + operands)
  | .call id args => do
    let passing ← Args.cycles callee CycleCost.call args
    let activation ← callee id
    checkedCycles (passing + activation)

/-- A running total plus the costs of arguments. -/
def Args.cycles (callee : FunctionId → Except Cause Nat) (total : Nat) :
    List Expr → Except Cause Nat
  | [] => .ok total
  | arg :: args => do
    let cost ← arg.cycles callee
    let total ← checkedCycles (total + cost)
    Args.cycles callee total args

end

/-- The cost of an optional expression; nothing when there is none. -/
def Expr.optionalCycles (callee : FunctionId → Except Cause Nat) :
    Option Expr → Except Cause Nat
  | none => .ok 0
  | some e => e.cycles callee

mutual

/-- The cost of a statement. -/
def Stmt.cycles (callee : FunctionId → Except Cause Nat) : Stmt → Except Cause Nat
  | .bind _ _ value | .assign _ value => do
    let cost ← value.cycles callee
    checkedCycles (CycleCost.assign + cost)
  | .setGlobal _ value => do
    let cost ← value.cycles callee
    checkedCycles (CycleCost.globalWrite + cost)
  | .store _ index value => do
    let indexCost ← index.cycles callee
    let valueCost ← value.cycles callee
    let operands ← checkedCycles (indexCost + valueCost)
    checkedCycles (CycleCost.store + operands)
  | .emit _ value => do
    let cost ← value.cycles callee
    checkedCycles (CycleCost.emit + cost)
  | .eval value => value.cycles callee
  | .branch cond thenBody elseBody _ => do
    let guardCost ← cond.guard.cycles callee
    let thenCost ← Block.cyclesFrom callee none 0 thenBody
    let elseCost ← Block.cyclesFrom callee none 0 elseBody
    let decision ← checkedCycles (guardCost + CycleCost.branch)
    checkedCycles (decision + max thenCost elseCost)
  | .loop _ bound condition body => match bound.limit? with
    | none => .error .unboundedLoop
    | some trips => do
      let condCost ← Expr.optionalCycles callee condition
      let bodyCost ← Block.cyclesFrom callee none 0 body
      let work ← checkedCycles (condCost + bodyCost)
      let turn ← checkedCycles (work + CycleCost.loopTurn)
      let turns ← checkedCycles (trips * turn)
      let entry ← checkedCycles (CycleCost.loopEntry + condCost)
      checkedCycles (entry + turns)
  | .ret value => do
    let cost ← Expr.optionalCycles callee value
    checkedCycles (CycleCost.ret + cost)

/-- A running total plus the costs of statements that follow `previous`. -/
def Block.cyclesFrom (callee : FunctionId → Except Cause Nat) (previous : Option Stmt)
    (total : Nat) : List Stmt → Except Cause Nat
  | [] => .ok total
  | s :: rest => do
    let cost ← s.cycles callee
    let total ← checkedCycles (total + (cost - s.discountAfter previous))
    Block.cyclesFrom callee (some s) total rest

end

/-- The cost of a block. -/
def Block.cycles (callee : FunctionId → Except Cause Nat) (block : Block) : Except Cause Nat :=
  Block.cyclesFrom callee none 0 block

end Timebound
