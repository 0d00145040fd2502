import Timebound.Program.Id
import Timebound.Program.Literal

/-!
# Expressions

Expressions are trees over literals, local variables, reads of globals and
calls. Operands are evaluated left to right, and `Expr.nodes` lists a tree with
each node before its operands in that order; most facts about a tree are facts
about this list.
-/

namespace Timebound

/-- An expression of a function body. -/
inductive Expr where
  /-- A constant. -/
  | lit (value : Literal)
  /-- A read of a local variable or parameter. -/
  | var (name : String)
  /-- A read of a scalar global. -/
  | global (id : GlobalId)
  /-- A read of one element of a global. -/
  | load (id : GlobalId) (index : Expr)
  /-- An operator of a declared type on one operand. -/
  | unary (op : UnaryOp) (type : ScalarType) (operand : Expr)
  /-- An operator of a declared type on two operands. -/
  | binary (op : BinaryOp) (type : ScalarType) (left right : Expr)
  /-- A call with its arguments. -/
  | call (callee : FunctionId) (args : List Expr)

/-- The arguments of a call. -/
abbrev Args := List Expr

instance : Inhabited Expr := ⟨.var ""⟩

/-! ## Equality -/

mutual

/-- Whether two expressions are the same tree. -/
def Expr.same : Expr → Expr → Bool
  | .lit a, .lit b => a == b
  | .var a, .var b => a == b
  | .global a, .global b => a == b
  | .load a i, .load b j => a == b && i.same j
  | .unary o t a, .unary p u b => o == p && t == u && a.same b
  | .binary o t a b, .binary p u c d => o == p && t == u && a.same c && b.same d
  | .call f as, .call g bs => f == g && Args.same as bs
  | _, _ => false

/-- Whether two argument lists are the same. -/
def Args.same : List Expr → List Expr → Bool
  | [], [] => true
  | a :: as, b :: bs => a.same b && Args.same as bs
  | _, _ => false

end

mutual

theorem Expr.same_iff : ∀ a b : Expr, a.same b = true ↔ a = b
  | .lit _, b => by cases b <;> simp [Expr.same]
  | .var _, b => by cases b <;> simp [Expr.same]
  | .global _, b => by cases b <;> simp [Expr.same]
  | .load _ i, b => by cases b <;> simp [Expr.same, Expr.same_iff i]
  | .unary _ _ a, b => by cases b <;> simp [Expr.same, Expr.same_iff a, and_assoc]
  | .binary _ _ a c, b => by
    cases b <;> simp [Expr.same, Expr.same_iff a, Expr.same_iff c, and_assoc]
  | .call _ as, b => by cases b <;> simp [Expr.same, Args.same_iff as]

theorem Args.same_iff : ∀ as bs : List Expr, Args.same as bs = true ↔ as = bs
  | [], bs => by cases bs <;> simp [Args.same]
  | a :: as, bs => by cases bs <;> simp [Args.same, Expr.same_iff a, Args.same_iff as]

end

instance : DecidableEq Expr := fun a b => decidable_of_iff _ (Expr.same_iff a b)

namespace Expr

/-! ## Parts of an expression -/

/-- Logical negation. -/
def not (operand : Expr) : Expr := .unary .not .bool operand

/-- The constant, if the expression is one. -/
def literal? : Expr → Option Literal
  | lit value => some value
  | _ => none

/-- The direct operands, in evaluation order. -/
def children : Expr → List Expr
  | lit _ | var _ | global _ => []
  | load _ index => [index]
  | unary _ _ operand => [operand]
  | binary _ _ left right => [left, right]
  | call _ args => args

/-- A condition without its leading logical negations. -/
def guard : Expr → Expr
  | unary .not _ operand => operand.guard
  | other => other

/-- Whether a condition has an odd number of leading logical negations. -/
def negated : Expr → Bool
  | unary .not _ operand => !operand.negated
  | _ => false

end Expr

mutual

/-- Every node of a tree, each before its operands. -/
def Expr.nodes : Expr → List Expr
  | .lit value => [.lit value]
  | .var name => [.var name]
  | .global id => [.global id]
  | .load id index => .load id index :: index.nodes
  | .unary op type operand => .unary op type operand :: operand.nodes
  | .binary op type left right => .binary op type left right :: (left.nodes ++ right.nodes)
  | .call callee args => .call callee args :: Args.nodes args

/-- Every node of an argument list. -/
def Args.nodes : List Expr → List Expr
  | [] => []
  | arg :: args => arg.nodes ++ Args.nodes args

end

mutual

/-- The number of nodes of a tree. -/
def Expr.size : Expr → Nat
  | .lit _ | .var _ | .global _ => 1
  | .load _ index => index.size + 1
  | .unary _ _ operand => operand.size + 1
  | .binary _ _ left right => left.size + right.size + 1
  | .call _ args => Args.size args + 1

/-- The number of nodes of an argument list. -/
def Args.size : List Expr → Nat
  | [] => 0
  | arg :: args => arg.size + Args.size args

end

mutual

/-- Apply a new naming to every local variable of a tree. -/
def Expr.rename (relabel : String → String) : Expr → Expr
  | .lit value => .lit value
  | .var name => .var (relabel name)
  | .global id => .global id
  | .load id index => .load id (index.rename relabel)
  | .unary op type operand => .unary op type (operand.rename relabel)
  | .binary op type left right => .binary op type (left.rename relabel) (right.rename relabel)
  | .call callee args => .call callee (Args.rename relabel args)

/-- Apply a new naming to every local variable of an argument list. -/
def Args.rename (relabel : String → String) : List Expr → List Expr
  | [] => []
  | arg :: args => arg.rename relabel :: Args.rename relabel args

end

mutual

/-- The node list has one entry per node. -/
theorem Expr.length_nodes : ∀ e : Expr, e.nodes.length = e.size
  | .lit _ => rfl
  | .var _ => rfl
  | .global _ => rfl
  | .load _ index => by simp [Expr.nodes, Expr.size, Expr.length_nodes index]
  | .unary _ _ operand => by simp [Expr.nodes, Expr.size, Expr.length_nodes operand]
  | .binary _ _ left right => by
    simp [Expr.nodes, Expr.size, Expr.length_nodes left, Expr.length_nodes right]
  | .call _ args => by simp [Expr.nodes, Expr.size, Args.length_nodes args]

/-- The node list of arguments has one entry per node. -/
theorem Args.length_nodes : ∀ args : List Expr, (Args.nodes args).length = Args.size args
  | [] => rfl
  | arg :: args => by
    simp [Args.nodes, Args.size, Expr.length_nodes arg, Args.length_nodes args]

end

mutual

/-- Renaming a tree renames each of its nodes. -/
theorem Expr.nodes_rename (relabel : String → String) : ∀ e : Expr,
    (e.rename relabel).nodes = e.nodes.map (Expr.rename relabel)
  | .lit _ | .var _ | .global _ => rfl
  | .load _ index => by simp [Expr.rename, Expr.nodes, Expr.nodes_rename relabel index]
  | .unary _ _ operand => by simp [Expr.rename, Expr.nodes, Expr.nodes_rename relabel operand]
  | .binary _ _ left right => by
    simp [Expr.rename, Expr.nodes, Expr.nodes_rename relabel left, Expr.nodes_rename relabel right]
  | .call _ args => by simp [Expr.rename, Expr.nodes, Args.nodes_rename relabel args]

/-- Renaming arguments renames each of their nodes. -/
theorem Args.nodes_rename (relabel : String → String) : ∀ args : List Expr,
    Args.nodes (Args.rename relabel args) = (Args.nodes args).map (Expr.rename relabel)
  | [] => rfl
  | arg :: args => by
    simp [Args.rename, Args.nodes, Expr.nodes_rename relabel arg, Args.nodes_rename relabel args]

end

/-- Renaming keeps the number of arguments. -/
@[simp] theorem Args.length_rename (relabel : String → String) (args : List Expr) :
    (Args.rename relabel args).length = args.length := by
  induction args with
  | nil => rfl
  | cons arg args ih => simp [Args.rename, ih]

/-- The nodes of an optional expression, as those of a list of at most one argument. -/
theorem Args.nodes_toList (e : Option Expr) :
    Args.nodes e.toList = e.toList.flatMap Expr.nodes := by
  cases e <;> simp [Args.nodes]

/-- Taking negations off a condition leaves part of its nodes. -/
theorem Expr.nodes_guard_subset (e : Expr) : e.guard.nodes ⊆ e.nodes := by
  fun_induction Expr.guard e with
  | case1 _ operand ih =>
    simp only [Expr.nodes]
    exact fun node listed => List.mem_cons_of_mem _ (ih listed)
  | case2 other _ => exact fun _ listed => listed

end Timebound
