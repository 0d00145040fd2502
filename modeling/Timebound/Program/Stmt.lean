import Timebound.Program.Expr

/-!
# Statements and blocks

A block is a list of statements; branches and loops hold nested blocks. The
walks over a block visit the expressions of a statement before its nested
blocks, and the then-arm of a branch before its else-arm.
-/

namespace Timebound

/-- What is known about the number of iterations of a loop. -/
inductive TripBound where
  /-- The loop runs this often. -/
  | exact (trips : Nat)
  /-- The loop is declared to run at most this often. -/
  | declared (trips : Nat)
  /-- Nothing is known. -/
  | unknown
  deriving DecidableEq

/-- The largest number of iterations, when there is one. -/
def TripBound.limit? : TripBound → Option Nat
  | exact trips | declared trips => some trips
  | unknown => none

/-- A statement of a function body. -/
inductive Stmt where
  /-- Introduce a local variable, visible to the end of its block. -/
  | bind (name : String) (type : ScalarType) (value : Expr)
  /-- Change the innermost local variable of a name. -/
  | assign (name : String) (value : Expr)
  /-- Write a scalar global. -/
  | setGlobal (id : GlobalId) (value : Expr)
  /-- Write one element of a global. -/
  | store (id : GlobalId) (index value : Expr)
  /-- Send a value to a device channel. -/
  | emit (channel : Nat) (value : Expr)
  /-- Evaluate an expression for its effects. -/
  | eval (value : Expr)
  /-- Run one of two arms; the likelihood of the first is in thousandths. -/
  | branch (cond : Expr) (thenBody elseBody : List Stmt) (likelihood : Option Nat)
  /-- Run a body while the condition holds, within the bound; the counter takes
  the values 0, 1, 2 and so on. -/
  | loop (counter : Option String) (bound : TripBound) (condition : Option Expr)
      (body : List Stmt)
  /-- Leave the function. -/
  | ret (value : Option Expr)

/-- A sequence of statements with a scope of its own. -/
abbrev Block := List Stmt

instance : Inhabited Stmt := ⟨.ret none⟩

/-! ## Equality -/

mutual

/-- Whether two statements are the same tree. -/
def Stmt.same : Stmt → Stmt → Bool
  | .bind n t v, .bind m u w => n == m && t == u && v == w
  | .assign n v, .assign m w => n == m && v == w
  | .setGlobal g v, .setGlobal h w => g == h && v == w
  | .store g i v, .store h j w => g == h && i == j && v == w
  | .emit c v, .emit d w => c == d && v == w
  | .eval v, .eval w => v == w
  | .branch c t e l, .branch d u f m =>
    c == d && Block.same t u && Block.same e f && l == m
  | .loop n b c s, .loop m d e t => n == m && b == d && c == e && Block.same s t
  | .ret v, .ret w => v == w
  | _, _ => false

/-- Whether two blocks are the same. -/
def Block.same : List Stmt → List Stmt → Bool
  | [], [] => true
  | s :: ss, t :: ts => s.same t && Block.same ss ts
  | _, _ => false

end

mutual

theorem Stmt.same_iff : ∀ s t : Stmt, s.same t = true ↔ s = t
  | .bind .., t => by cases t <;> simp [Stmt.same, and_assoc]
  | .assign .., t => by cases t <;> simp [Stmt.same]
  | .setGlobal .., t => by cases t <;> simp [Stmt.same]
  | .store .., t => by cases t <;> simp [Stmt.same, and_assoc]
  | .emit .., t => by cases t <;> simp [Stmt.same]
  | .eval _, t => by cases t <;> simp [Stmt.same]
  | .branch _ a b _, t => by
    cases t <;> simp [Stmt.same, Block.same_iff a, Block.same_iff b, and_assoc]
  | .loop _ _ _ a, t => by cases t <;> simp [Stmt.same, Block.same_iff a, and_assoc]
  | .ret _, t => by cases t <;> simp [Stmt.same]

theorem Block.same_iff : ∀ a b : List Stmt, Block.same a b = true ↔ a = b
  | [], b => by cases b <;> simp [Block.same]
  | s :: ss, b => by cases b <;> simp [Block.same, Stmt.same_iff s, Block.same_iff ss]

end

instance : DecidableEq Stmt := fun s t => decidable_of_iff _ (Stmt.same_iff s t)

/-! ## Parts of a statement -/

namespace Stmt

/-- The expressions a statement holds itself, in evaluation order. -/
def exprs : Stmt → List Expr
  | bind _ _ value | assign _ value | setGlobal _ value | emit _ value | eval value => [value]
  | store _ index value => [index, value]
  | branch cond _ _ _ => [cond]
  | loop _ _ condition _ => condition.toList
  | ret value => value.toList

/-- The nested blocks of a statement. -/
def blocks : Stmt → List Block
  | branch _ thenBody elseBody _ => [thenBody, elseBody]
  | loop _ _ _ body => [body]
  | _ => []

/-- The global a statement writes. -/
def target? : Stmt → Option GlobalId
  | setGlobal id _ | store id _ _ => some id
  | _ => none

/-- The name a statement binds. -/
def boundName? : Stmt → Option String
  | bind name _ _ => some name
  | _ => none

/-- The expression nodes a statement holds itself. -/
def ownNodes (s : Stmt) : List Expr := s.exprs.flatMap Expr.nodes

end Stmt

mutual

/-- Every expression node of a statement and its nested blocks. -/
def Stmt.nodes : Stmt → List Expr
  | .branch cond thenBody elseBody _ => cond.nodes ++ (Block.nodes thenBody ++ Block.nodes elseBody)
  | .loop _ _ condition body => condition.toList.flatMap Expr.nodes ++ Block.nodes body
  | .bind _ _ value | .assign _ value | .setGlobal _ value | .emit _ value | .eval value =>
    value.nodes
  | .store _ index value => index.nodes ++ value.nodes
  | .ret value => value.toList.flatMap Expr.nodes

/-- Every expression node of a block. -/
def Block.nodes : List Stmt → List Expr
  | [] => []
  | s :: rest => s.nodes ++ Block.nodes rest

end

mutual

/-- The number of statements and expression nodes of a statement. -/
def Stmt.size : Stmt → Nat
  | .branch cond thenBody elseBody _ => 1 + cond.size + (Block.size thenBody + Block.size elseBody)
  | .loop _ _ condition body => 1 + (condition.map Expr.size).getD 0 + Block.size body
  | .bind _ _ value | .assign _ value | .setGlobal _ value | .emit _ value | .eval value =>
    1 + value.size
  | .store _ index value => 1 + (index.size + value.size)
  | .ret value => 1 + (value.map Expr.size).getD 0

/-- The number of statements and expression nodes of a block. -/
def Block.size : List Stmt → Nat
  | [] => 0
  | s :: rest => s.size + Block.size rest

end

namespace Block

/-- The nodes of a concatenation are those of its parts. -/
theorem nodes_append (first second : Block) :
    nodes (first ++ second) = nodes first ++ nodes second := by
  induction first with
  | nil => rfl
  | cons s rest ih => simp [nodes, ih]

/-- The size of a concatenation is the sum of the sizes of its parts. -/
theorem size_append (first second : Block) : size (first ++ second) = size first + size second := by
  induction first with
  | nil => simp [size]
  | cons s rest ih => simp [size, ih, Nat.add_assoc]

end Block

/-! ## References out of a body -/

/-- The function a call node calls. -/
def Expr.callee? : Expr → Option FunctionId
  | .call callee _ => some callee
  | _ => none

/-- The global a node reads. -/
def Expr.readGlobal? : Expr → Option GlobalId
  | .global id | .load id _ => some id
  | _ => none

/-- The globals an expression reads, in evaluation order. -/
def Expr.globals (e : Expr) : List GlobalId := e.nodes.filterMap Expr.readGlobal?

mutual

/-- The globals a statement mentions: what it writes, then what it reads, then
those of its nested blocks. -/
def Stmt.globals : Stmt → List GlobalId
  | .branch cond thenBody elseBody _ =>
    cond.globals ++ (Block.globals thenBody ++ Block.globals elseBody)
  | .loop _ _ condition body => condition.toList.flatMap Expr.globals ++ Block.globals body
  | .setGlobal id value => id :: value.globals
  | .store id index value => id :: (index.globals ++ value.globals)
  | .bind _ _ value | .assign _ value | .emit _ value | .eval value => value.globals
  | .ret value => value.toList.flatMap Expr.globals

/-- The globals a block mentions. -/
def Block.globals : List Stmt → List GlobalId
  | [] => []
  | s :: rest => s.globals ++ Block.globals rest

end

namespace Block

/-- The functions a block calls, each once, in the order of their first calls. -/
def callees (block : Block) : List FunctionId := (nodes block).filterMap Expr.callee? |>.eraseDups

/-- A block calls a function when one of its nodes does. -/
theorem mem_callees {block : Block} {id : FunctionId} :
    id ∈ callees block ↔ ∃ args, .call id args ∈ nodes block := by
  unfold callees
  rw [List.mem_eraseDups, List.mem_filterMap]
  constructor
  · rintro ⟨node, listed, called⟩
    cases node with
    | call callee args =>
      simp only [Expr.callee?, Option.some.injEq] at called
      exact ⟨args, called ▸ listed⟩
    | _ => simp [Expr.callee?] at called
  · rintro ⟨args, listed⟩
    exact ⟨_, listed, rfl⟩

/-- The globals a block mentions, each once, in the order of first mention. -/
def referencedGlobals (block : Block) : List GlobalId := (globals block).eraseDups

end Block

end Timebound
