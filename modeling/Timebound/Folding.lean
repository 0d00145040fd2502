import Timebound.Pass

/-!
# Literal folding

Replaces operators on literal operands by the literal they evaluate to. An
operator is folded only if its operands have its declared type, shift amounts
and operands of logical negation excepted, and if it has a value: a division by
zero stays in place. Folding goes from the leaves up, so nested literal
arithmetic collapses in one walk.
-/

namespace Timebound

namespace Expr

/-- The literal that an expression with literal operands folds to. -/
def folded? : Expr → Option Literal
  | unary op type operand => do
    let value ← operand.literal?
    if op = .not ∨ value.type = type then some (op.eval type value) else none
  | binary op type left right => do
    let a ← left.literal?
    let b ← right.literal?
    if a.type = type ∧ (op.isShift ∨ b.type = type) then op.eval type a b else none
  | _ => none

/-- Replace an expression by the literal it folds to, if it does. -/
def collapse (e : Expr) : Expr := (e.folded?.map lit).getD e

/-- The number of folds at the root: one or none. -/
def collapses (e : Expr) : Nat := if e.folded?.isSome then 1 else 0

end Expr

mutual

/-- Fold an expression from its leaves up. -/
def Expr.fold : Expr → Expr
  | .lit value => .lit value
  | .var name => .var name
  | .global id => .global id
  | .load id index => .load id index.fold
  | .unary op type operand => (Expr.unary op type operand.fold).collapse
  | .binary op type left right => (Expr.binary op type left.fold right.fold).collapse
  | .call callee args => .call callee (Args.fold args)

/-- Fold every argument. -/
def Args.fold : List Expr → List Expr
  | [] => []
  | arg :: args => arg.fold :: Args.fold args

end

mutual

/-- The number of nodes replaced when an expression is folded. -/
def Expr.foldCount : Expr → Nat
  | .lit _ | .var _ | .global _ => 0
  | .load _ index => index.foldCount
  | .unary op type operand => operand.foldCount + (Expr.unary op type operand.fold).collapses
  | .binary op type left right =>
    left.foldCount + right.foldCount + (Expr.binary op type left.fold right.fold).collapses
  | .call _ args => Args.foldCount args

/-- The number of nodes replaced when arguments are folded. -/
def Args.foldCount : List Expr → Nat
  | [] => 0
  | arg :: args => arg.foldCount + Args.foldCount args

end

mutual

/-- Fold every expression of a statement. -/
def Stmt.fold : Stmt → Stmt
  | .bind name type value => .bind name type value.fold
  | .assign name value => .assign name value.fold
  | .setGlobal id value => .setGlobal id value.fold
  | .store id index value => .store id index.fold value.fold
  | .emit channel value => .emit channel value.fold
  | .eval value => .eval value.fold
  | .branch cond thenBody elseBody likelihood =>
    .branch cond.fold (Block.fold thenBody) (Block.fold elseBody) likelihood
  | .loop counter bound condition body =>
    .loop counter bound (condition.map Expr.fold) (Block.fold body)
  | .ret value => .ret (value.map Expr.fold)

/-- Fold every expression of a block. -/
def Block.fold : List Stmt → List Stmt
  | [] => []
  | s :: rest => s.fold :: Block.fold rest

end

mutual

/-- The number of nodes replaced when a statement is folded. -/
def Stmt.foldCount : Stmt → Nat
  | .bind _ _ value | .assign _ value | .setGlobal _ value | .emit _ value | .eval value =>
    value.foldCount
  | .store _ index value => index.foldCount + value.foldCount
  | .branch cond thenBody elseBody _ =>
    cond.foldCount + (Block.foldCount thenBody + Block.foldCount elseBody)
  | .loop _ _ condition body => (condition.map Expr.foldCount).getD 0 + Block.foldCount body
  | .ret value => (value.map Expr.foldCount).getD 0

/-- The number of nodes replaced when a block is folded. -/
def Block.foldCount : List Stmt → Nat
  | [] => 0
  | s :: rest => s.foldCount + Block.foldCount rest

end

namespace Block

/-- Whether some node of a block folds as it stands. -/
def foldable (block : Block) : Bool := (nodes block).any fun e => e.folded?.isSome

/-- Fold a block again and again until a walk replaces nothing; give the block and
the number of replaced nodes. Every walk but the last makes the block smaller. -/
def foldRounds : Nat → Block → Block × Nat
  | 0, block => (block, 0)
  | rounds + 1, block =>
    if foldCount block = 0 then (block, 0)
    else
      let (settled, more) := foldRounds rounds (fold block)
      (settled, foldCount block + more)

/-- Fold a block until nothing is left to fold. -/
def foldFully (block : Block) : Block × Nat := foldRounds (size block) block

/-- The costs of all expression nodes, callees left out. -/
def nodeCycles (block : Block) : Nat :=
  (nodes block).foldr (fun e rest => e.ownCycles + rest) 0

end Block

namespace Folding

/-- Fold the body of one function and report it. -/
def foldFunction (state : Program × Outcome) (id : FunctionId) : Program × Outcome :=
  let (program, outcome) := state
  match program.function? id with
  | none => state
  | some function =>
    let (body, count) := Block.foldFully function.body
    let counted := outcome.count "constants_folded" count
    let report : Outcome := { counted with
      cycleImpact := signedWord (counted.cycleImpact -
        ((Block.nodeCycles function.body : Int) - Block.nodeCycles body))
      sizeImpact := counted.sizeImpact + ((Block.size body : Int) - function.size) }
    ((program.updateFunction? id fun f => { f with body }).getD program, report)

/-- The functions with something to fold, in slot order. -/
def candidates (program : Program) : List FunctionId :=
  (program.functions.entries.filter fun entry => Block.foldable entry.2.body).map (·.1)

/-- Fold every function that has something to fold. -/
def foldProgram (program : Program) : Program × Outcome :=
  let (folded, outcome) := (candidates program).foldl foldFunction (program, {})
  (folded, { outcome with modified := outcome.counter "constants_folded" != 0 })

/-- Literal folding as a pass. A folded value is the one the target computes, so
every change is certified. -/
def pass : Pass where
  name := "constant-folding"
  applicable _ program _ := !(candidates program).isEmpty
  transform _ program _ :=
    let (folded, outcome) := foldProgram program
    (folded, .ok outcome)
  certify _ _ := true

/-- The literal that an operator on two literals folds to. -/
def binary? (op : BinaryOp) (type : ScalarType) (left right : Literal) : Option Literal :=
  (Expr.binary op type (.lit left) (.lit right)).folded?

end Folding

end Timebound
