import Timebound.Effect.Trace

/-!
# Unrolling

A short loop of an exact number of iterations without condition is replaced by
copies of its body in the enclosing block. The counter becomes a local variable
in front of each copy, and the locals that a copy introduces at its top level are
marked with the counter and the number of the copy. The counter must occur
nowhere but inside such loops, and not in a loop nested in one of its own.
-/

namespace Timebound

/-! ## Naming the locals of a copy -/

/-- A naming that leaves one name alone. -/
def keepName (relabel : String → String) (name : String) : String → String :=
  fun other => if other = name then other else relabel other

/-- A naming that gives one name a new value. -/
def setName (relabel : String → String) (name fresh : String) : String → String :=
  fun other => if other = name then fresh else relabel other

mutual

/-- Apply a new naming to a statement, and give the naming for the statements
after it. With a mark, a new local is renamed; without, it hides an outer name. -/
def Stmt.rebind (relabel : String → String) (mark : Option String) :
    Stmt → Stmt × (String → String)
  | .bind name type value => match mark with
    | some mark =>
      (.bind (mark ++ name) type (value.rename relabel), setName relabel name (mark ++ name))
    | none => (.bind name type (value.rename relabel), keepName relabel name)
  | .assign name value => (.assign (relabel name) (value.rename relabel), relabel)
  | .setGlobal id value => (.setGlobal id (value.rename relabel), relabel)
  | .store id index value => (.store id (index.rename relabel) (value.rename relabel), relabel)
  | .emit channel value => (.emit channel (value.rename relabel), relabel)
  | .eval value => (.eval (value.rename relabel), relabel)
  | .branch cond thenBody elseBody likelihood =>
    (.branch (cond.rename relabel) (Block.rebind relabel none thenBody)
      (Block.rebind relabel none elseBody) likelihood, relabel)
  | .loop (some counter) bound condition body =>
    let inner := keepName relabel counter
    (.loop (some counter) bound (condition.map (Expr.rename inner))
      (Block.rebind inner none body), relabel)
  | .loop none bound condition body =>
    (.loop none bound (condition.map (Expr.rename relabel)) (Block.rebind relabel none body),
      relabel)
  | .ret value => (.ret (value.map (Expr.rename relabel)), relabel)

/-- Apply a new naming to a block, following the names it hides. -/
def Block.rebind (relabel : String → String) (mark : Option String) : List Stmt → List Stmt
  | [] => []
  | s :: rest =>
    let (renamed, next) := s.rebind relabel mark
    renamed :: Block.rebind next mark rest

end

/-! ## Counters -/

/-- Whether a statement itself binds, assigns or reads a local. -/
def Stmt.mentions (s : Stmt) (name : String) : Bool :=
  let binds := match s with
    | .bind bound _ _ | .assign bound _ => bound == name
    | _ => false
  binds || s.ownNodes.any fun e => match e with
    | .var read => read == name
    | _ => false

mutual

/-- The counters of the loops of a statement. -/
def Stmt.counters : Stmt → List String
  | .branch _ thenBody elseBody _ => Block.counters thenBody ++ Block.counters elseBody
  | .loop counter _ _ body => counter.toList ++ Block.counters body
  | .bind .. | .assign .. | .setGlobal .. | .store .. | .emit .. | .eval _ | .ret _ => []

/-- The counters of the loops of a block. -/
def Block.counters : List Stmt → List String
  | [] => []
  | s :: rest => s.counters ++ Block.counters rest

end

mutual

/-- Whether a name occurs in a statement only as the counter of loops that are not
nested in each other, and inside those loops. -/
def Stmt.keepsPrivate (name : String) : Stmt → Bool
  | .branch cond thenBody elseBody likelihood =>
    !(Stmt.branch cond thenBody elseBody likelihood).mentions name &&
      (Block.keepsPrivate name thenBody && Block.keepsPrivate name elseBody)
  | .loop counter bound condition body =>
    if counter = some name then !(Block.counters body).contains name
    else !(Stmt.loop counter bound condition body).mentions name && Block.keepsPrivate name body
  | .bind bound type value => !(Stmt.bind bound type value).mentions name
  | .assign bound value => !(Stmt.assign bound value).mentions name
  | .setGlobal id value => !(Stmt.setGlobal id value).mentions name
  | .store id index value => !(Stmt.store id index value).mentions name
  | .emit channel value => !(Stmt.emit channel value).mentions name
  | .eval value => !(Stmt.eval value).mentions name
  | .ret value => !(Stmt.ret value).mentions name

/-- Whether a name occurs in a block only as a private counter. -/
def Block.keepsPrivate (name : String) : List Stmt → Bool
  | [] => true
  | s :: rest => s.keepsPrivate name && Block.keepsPrivate name rest

end

/-- The counters of a body that unrolling may bind in an enclosing block. -/
def Function.privateCounters (function : Function) (body : Block) : List String :=
  (Block.counters body).filter fun counter =>
    !(function.params.any fun param => param.name == counter) && Block.keepsPrivate counter body

/-! ## Copies -/

/-- The mark of the locals of one copy. -/
def copyMark (counter : Option String) (copy : Nat) : String :=
  "__" ++ counter.getD "loop" ++ "_" ++ toString copy ++ "_"

/-- One copy of a loop body, with the counter bound in front. -/
def loopCopy (counter : Option String) (body : Block) (copy : Nat) : Block :=
  counter.toList.map (fun name => .bind name .u64 (.lit (.ofInt .u64 copy))) ++
    Block.rebind id (some (copyMark counter copy)) body

/-- The iterations of a loop that is to be unrolled. -/
def unrolledTrips? (limit : Nat) (counters : List String) (counter : Option String)
    (bound : TripBound) (condition : Option Expr) : Option Nat :=
  match bound, condition with
  | .exact trips, none =>
    if trips ≤ limit ∧ counter.all counters.contains then some trips else none
  | _, _ => none

mutual

/-- Unroll the loops of a statement, inner ones first. -/
def Stmt.unroll (limit : Nat) (counters : List String) : Stmt → List Stmt
  | .branch cond thenBody elseBody likelihood =>
    [.branch cond (Block.unroll limit counters thenBody) (Block.unroll limit counters elseBody)
      likelihood]
  | .loop counter bound condition body =>
    let inner := Block.unroll limit counters body
    match unrolledTrips? limit counters counter bound condition with
    | some trips => (List.range trips).flatMap (loopCopy counter inner)
    | none => [.loop counter bound condition inner]
  | .bind name type value => [.bind name type value]
  | .assign name value => [.assign name value]
  | .setGlobal id value => [.setGlobal id value]
  | .store id index value => [.store id index value]
  | .emit channel value => [.emit channel value]
  | .eval value => [.eval value]
  | .ret value => [.ret value]

/-- Unroll the loops of a block. -/
def Block.unroll (limit : Nat) (counters : List String) : List Stmt → List Stmt
  | [] => []
  | s :: rest => s.unroll limit counters ++ Block.unroll limit counters rest

end

mutual

/-- The number of loops of a statement that unrolling replaces. -/
def Stmt.unrollCount (limit : Nat) (counters : List String) : Stmt → Nat
  | .branch _ thenBody elseBody _ =>
    Block.unrollCount limit counters thenBody + Block.unrollCount limit counters elseBody
  | .loop counter bound condition body =>
    Block.unrollCount limit counters body +
      if (unrolledTrips? limit counters counter bound condition).isSome then 1 else 0
  | .bind .. | .assign .. | .setGlobal .. | .store .. | .emit .. | .eval _ | .ret _ => 0

/-- The number of loops of a block that unrolling replaces. -/
def Block.unrollCount (limit : Nat) (counters : List String) : List Stmt → Nat
  | [] => 0
  | s :: rest => s.unrollCount limit counters + Block.unrollCount limit counters rest

end

end Timebound
