import Timebound.Program.Basic
import Timebound.Timing.Cost

/-!
# Inlining

A statement that is nothing but a call, keeps its result or drops it, can be
replaced by the body of the callee. Parameters become local variables that hold
the arguments, and every local name of the callee gets a mark made of the callee's
name and the number of the call site, so that the expansion can be put into the
block of the statement. Bodies that return from anywhere but their end are left
alone. Sites are numbered with 32 bits, and after the last number the first one is
given out again, as in a release build, which does not check for overflow.
-/

namespace Timebound

/-! ## Local names -/

mutual

/-- Apply a new naming to every local name of a statement. -/
def Stmt.rename (relabel : String → String) : Stmt → Stmt
  | .bind name type value => .bind (relabel name) type (value.rename relabel)
  | .assign name value => .assign (relabel name) (value.rename relabel)
  | .setGlobal id value => .setGlobal id (value.rename relabel)
  | .store id index value => .store id (index.rename relabel) (value.rename relabel)
  | .emit channel value => .emit channel (value.rename relabel)
  | .eval value => .eval (value.rename relabel)
  | .branch cond thenBody elseBody likelihood =>
    .branch (cond.rename relabel) (Block.rename relabel thenBody) (Block.rename relabel elseBody)
      likelihood
  | .loop counter bound condition body =>
    .loop (counter.map relabel) bound (condition.map (Expr.rename relabel))
      (Block.rename relabel body)
  | .ret value => .ret (value.map (Expr.rename relabel))

/-- Apply a new naming to every local name of a block. -/
def Block.rename (relabel : String → String) : List Stmt → List Stmt
  | [] => []
  | s :: rest => s.rename relabel :: Block.rename relabel rest

end

/-! ## Bodies that return at their end only -/

mutual

/-- Whether a statement returns at any depth. -/
def Stmt.returns : Stmt → Bool
  | .ret _ => true
  | .branch _ thenBody elseBody _ => Block.returns thenBody || Block.returns elseBody
  | .loop _ _ _ body => Block.returns body
  | .bind .. | .assign .. | .setGlobal .. | .store .. | .emit .. | .eval _ => false

/-- Whether a block returns at any depth. -/
def Block.returns : List Stmt → Bool
  | [] => false
  | s :: rest => s.returns || Block.returns rest

end

namespace Block

/-- The value of a return that ends a block, and the statements before it. -/
def splitEnd (body : Block) : Block × Option Expr :=
  match body.getLast? with
  | some (.ret value) => (body.dropLast, value)
  | _ => (body, none)

/-- The body without its final return, and the returned value. Refused when the
body returns from anywhere else. -/
def splitReturn? (body : Block) : Option (Block × Option Expr) :=
  let split := splitEnd body
  if returns split.1 then none else some split

end Block

/-! ## Expanding calls -/

/-- A function whose body can stand in for a call. -/
structure Inlinable where
  /-- The function. -/
  function : Function
  /-- The statements before its final return. -/
  init : Block
  /-- The returned value. -/
  value : Option Expr

namespace Inlinable

/-- The mark of the local names of an expansion. -/
def mark (callee : Inlinable) (site : Nat) : String :=
  "__" ++ callee.function.name ++ "_" ++ toString site ++ "_"

/-- The name that a local of the callee has in an expansion. -/
def localName (callee : Inlinable) (site : Nat) (name : String) : String :=
  callee.mark site ++ name

/-- The statements of an expansion: parameters, then the body. -/
def statements (callee : Inlinable) (site : Nat) (args : List Expr) : Block :=
  (callee.function.params.zip args).map (fun (param, arg) =>
    .bind (callee.localName site param.name) param.type arg) ++
    Block.rename (callee.localName site) callee.init

/-- The returned value of an expansion. -/
def result (callee : Inlinable) (site : Nat) : Option Expr :=
  callee.value.map (Expr.rename (callee.localName site))

end Inlinable

/-- The number of site numbers. -/
def siteLimit : Nat := Width.w32.patterns

/-- The number of the site after another one. -/
def nextSite (site : Nat) : Nat := (site + 1) % siteLimit

/-- Statements in which calls have been expanded. -/
structure Inlined where
  /-- The statements. -/
  body : Block
  /-- The number of the next site. -/
  next : Nat
  /-- Expanded calls. -/
  count : Nat

/-- A statement in which nothing is expanded. -/
def Inlined.unchanged (s : Stmt) (site : Nat) : Inlined := ⟨[s], site, 0⟩

@[simp] theorem Inlined.body_unchanged (s : Stmt) (site : Nat) :
    (unchanged s site).body = [s] := rfl

namespace Stmt

/-- The call, if a statement is nothing but a call. -/
def wholeCall? : Stmt → Option (FunctionId × List Expr)
  | bind _ _ (.call callee args) | assign _ (.call callee args) | eval (.call callee args) =>
    some (callee, args)
  | _ => none

/-- What is left of a statement whose call has given a result. A result may be
missing only if it is not kept. -/
def afterCall? : Stmt → Option Expr → Option Block
  | bind name type _, some value => some [bind name type value]
  | assign name _, some value => some [assign name value]
  | eval _, some value => some [eval value]
  | eval _, none => some []
  | _, _ => none

/-- Expand a statement that is nothing but a call. -/
def inlineCall (find : FunctionId → Option Inlinable) (s : Stmt) (site : Nat) : Inlined :=
  let expansion := do
    let (callee, args) ← s.wholeCall?
    let target ← find callee
    let rest ← s.afterCall? (target.result site)
    some (target.statements site args ++ rest)
  match expansion with
  | some statements => ⟨statements, nextSite site, 1⟩
  | none => .unchanged s site

end Stmt

mutual

/-- Expand the calls of a statement, those in its nested blocks first. -/
def Stmt.inline (find : FunctionId → Option Inlinable) : Stmt → Nat → Inlined
  | .branch cond thenBody elseBody likelihood, site =>
    let inThen := Block.inline find thenBody site
    let inElse := Block.inline find elseBody inThen.next
    ⟨[.branch cond inThen.body inElse.body likelihood], inElse.next, inThen.count + inElse.count⟩
  | .loop counter bound condition body, site =>
    let inBody := Block.inline find body site
    ⟨[.loop counter bound condition inBody.body], inBody.next, inBody.count⟩
  | .bind name type value, site => (Stmt.bind name type value).inlineCall find site
  | .assign name value, site => (Stmt.assign name value).inlineCall find site
  | .eval value, site => (Stmt.eval value).inlineCall find site
  | .setGlobal id value, site => .unchanged (.setGlobal id value) site
  | .store id index value, site => .unchanged (.store id index value) site
  | .emit channel value, site => .unchanged (.emit channel value) site
  | .ret value, site => .unchanged (.ret value) site

/-- Expand the calls of a block; sites are numbered in the order of expansion. -/
def Block.inline (find : FunctionId → Option Inlinable) : List Stmt → Nat → Inlined
  | [], site => ⟨[], site, 0⟩
  | s :: rest, site =>
    let first := s.inline find site
    let others := Block.inline find rest first.next
    ⟨first.body ++ others.body, others.next, first.count + others.count⟩

end

namespace Program

/-- The functions that calls in `caller` may be replaced by: wanted ones that do
not call themselves, are small enough and pass fewer parameters than a call costs. -/
def inlinable? (program : Program) (caller : FunctionId) (maxSize : Nat)
    (wanted : OrderedSet FunctionId) (id : FunctionId) : Option Inlinable := do
  let function ← program.function? id
  if wanted.contains id && id != caller && !function.calls id && decide (function.size ≤ maxSize) &&
      decide (function.params.length < CycleCost.call) then
    let (init, value) ← Block.splitReturn? function.body
    some ⟨function, init, value⟩
  else none

end Program

end Timebound
