import Timebound.Program.Consistency

/-!
# References out of a body

A body refers to functions by its calls and to globals by what it reads and writes, at any
depth of blocks and expressions. The walks that list the nodes and the globals of a body
meet every such place (`Block.mem_nodes_iff`, `Block.mem_globals_iff`). So the check of a
program finds no fault exactly when every reference of every function leads to something
that exists, calls with the right number of arguments (`Program.fault?_eq_none_iff`).
-/

namespace Timebound

/-! ## Places in expressions -/

/-- An expression that stands somewhere in another one. -/
inductive Expr.Within (part : Expr) : Expr → Prop where
  /-- An expression stands in itself. -/
  | whole : Within part part
  /-- What stands in an operand stands in the expression. -/
  | operand {child outer : Expr} (listed : child ∈ outer.children) (inner : Within part child) :
      Within part outer

/-- The nodes of arguments are those of each of them. -/
theorem Args.nodes_eq_flatMap (args : List Expr) : Args.nodes args = args.flatMap Expr.nodes := by
  induction args with
  | nil => rfl
  | cons arg args ih => rw [Args.nodes, ih, List.flatMap_cons]

/-- The nodes of an expression are the expression and those of its operands. -/
theorem Expr.nodes_eq_cons (e : Expr) : e.nodes = e :: e.children.flatMap Expr.nodes := by
  cases e with
  | call callee args => rw [Expr.nodes, Args.nodes_eq_flatMap, Expr.children]
  | _ => simp [Expr.nodes, Expr.children]

mutual

/-- Every node of an expression stands in it. -/
theorem Expr.within_of_mem_nodes {part : Expr} : ∀ {e : Expr}, part ∈ e.nodes → part.Within e
  | .lit _, listed | .var _, listed | .global _, listed => List.mem_singleton.mp listed ▸ .whole
  | .load _ index, listed => by
    rcases List.mem_cons.mp listed with rfl | inner
    · exact .whole
    · exact .operand List.mem_cons_self (Expr.within_of_mem_nodes inner)
  | .unary _ _ operand, listed => by
    rcases List.mem_cons.mp listed with rfl | inner
    · exact .whole
    · exact .operand List.mem_cons_self (Expr.within_of_mem_nodes inner)
  | .binary _ _ left right, listed => by
    rcases List.mem_cons.mp listed with rfl | inner
    · exact .whole
    · rcases List.mem_append.mp inner with first | second
      · exact .operand List.mem_cons_self (Expr.within_of_mem_nodes first)
      · exact .operand (List.mem_cons_of_mem _ List.mem_cons_self) (Expr.within_of_mem_nodes second)
  | .call _ args, listed => by
    rcases List.mem_cons.mp listed with rfl | inner
    · exact .whole
    · obtain ⟨arg, passed, deeper⟩ := Args.within_of_mem_nodes inner
      exact .operand passed deeper

/-- Every node of arguments stands in one of them. -/
theorem Args.within_of_mem_nodes {part : Expr} : ∀ {args : List Expr}, part ∈ Args.nodes args →
    ∃ arg ∈ args, part.Within arg
  | [], listed => absurd listed List.not_mem_nil
  | arg :: args, listed => by
    rcases List.mem_append.mp listed with first | later
    · exact ⟨arg, List.mem_cons_self, Expr.within_of_mem_nodes first⟩
    · obtain ⟨other, passed, inner⟩ := Args.within_of_mem_nodes later
      exact ⟨other, List.mem_cons_of_mem _ passed, inner⟩

end

/-- The nodes of an expression are what stands in it. -/
theorem Expr.mem_nodes_iff {part e : Expr} : part ∈ e.nodes ↔ part.Within e := by
  refine ⟨Expr.within_of_mem_nodes, fun within => ?_⟩
  induction within with
  | whole =>
    rw [Expr.nodes_eq_cons]
    exact List.mem_cons_self
  | operand listed _ ih =>
    rw [Expr.nodes_eq_cons]
    exact List.mem_cons_of_mem _ (List.mem_flatMap.mpr ⟨_, listed, ih⟩)

/-! ## Places in blocks -/

/-- A statement that stands somewhere in a block. -/
inductive Block.Holds : Block → Stmt → Prop where
  /-- A block holds its statements. -/
  | here {block : Block} {s : Stmt} (listed : s ∈ block) : Holds block s
  /-- A block holds what the nested blocks of its statements hold. -/
  | nested {block inner : Block} {outer s : Stmt} (listed : outer ∈ block)
      (part : inner ∈ outer.blocks) (held : Holds inner s) : Holds block s

/-- An expression that stands somewhere in a block. -/
def Block.Contains (block : Block) (e : Expr) : Prop :=
  ∃ s, Block.Holds block s ∧ ∃ root ∈ s.exprs, e.Within root

/-- Nested blocks are smaller than their statement. -/
theorem Stmt.sizeOf_block_lt {s : Stmt} {inner : Block} (part : inner ∈ s.blocks) :
    sizeOf inner < sizeOf s := by
  cases s with
  | branch cond thenBody elseBody likelihood =>
    simp only [Stmt.blocks, List.mem_cons, List.not_mem_nil, or_false] at part
    rcases part with rfl | rfl
    · simp only [Stmt.branch.sizeOf_spec]
      omega
    · simp only [Stmt.branch.sizeOf_spec]
      omega
  | loop counter bound condition body =>
    cases List.mem_singleton.mp part
    simp only [Stmt.loop.sizeOf_spec]
    omega
  | _ => exact absurd part List.not_mem_nil

section Places

variable {own : Stmt → Prop} {deep : Block → Prop}
  (unfolds : ∀ block, deep block ↔ ∃ s ∈ block, own s ∨ ∃ inner ∈ s.blocks, deep inner)

include unfolds

/-- What is found in a block is found at a place in it. -/
theorem Block.exists_held (block : Block) (found : deep block) :
    ∃ held, Block.Holds block held ∧ own held := by
  obtain ⟨s, listed, itself | ⟨inner, part, below⟩⟩ := (unfolds block).mp found
  · exact ⟨s, .here listed, itself⟩
  · have smaller : sizeOf inner < sizeOf block :=
      Nat.lt_trans (Stmt.sizeOf_block_lt part) (List.sizeOf_lt_of_mem listed)
    obtain ⟨held, place, ownHeld⟩ := Block.exists_held inner below
    exact ⟨held, .nested listed part place, ownHeld⟩
termination_by sizeOf block

/-- A walk that goes through the statements of a block and their nested blocks meets exactly
the places of the block. -/
theorem Block.walk_iff {block : Block} : deep block ↔ ∃ s, Block.Holds block s ∧ own s := by
  refine ⟨Block.exists_held unfolds block, ?_⟩
  rintro ⟨s, place, found⟩
  induction place with
  | here listed => exact (unfolds _).mpr ⟨_, listed, .inl found⟩
  | nested listed part _ ih => exact (unfolds _).mpr ⟨_, listed, .inr ⟨_, part, ih found⟩⟩

end Places

/-- The nodes of a block are those of its statements. -/
theorem Block.nodes_eq_flatMap (block : Block) : Block.nodes block = block.flatMap Stmt.nodes := by
  induction block with
  | nil => rfl
  | cons s rest ih => rw [Block.nodes, ih, List.flatMap_cons]

/-- The nodes of a statement are those of its expressions and of its nested blocks. -/
theorem Stmt.mem_nodes {s : Stmt} {node : Expr} : node ∈ s.nodes ↔
    (∃ root ∈ s.exprs, node ∈ root.nodes) ∨ ∃ inner ∈ s.blocks, node ∈ Block.nodes inner := by
  cases s <;> simp [Stmt.nodes, Stmt.exprs, Stmt.blocks]

/-- The nodes of a block are the expressions that stand in it. -/
theorem Block.mem_nodes_iff {block : Block} {node : Expr} :
    node ∈ Block.nodes block ↔ Block.Contains block node := by
  have unfolds (block : Block) : node ∈ Block.nodes block ↔
      ∃ s ∈ block, (∃ root ∈ s.exprs, node.Within root) ∨
        ∃ inner ∈ s.blocks, node ∈ Block.nodes inner := by
    simp only [Block.nodes_eq_flatMap block, List.mem_flatMap, Stmt.mem_nodes, Expr.mem_nodes_iff]
  exact Block.walk_iff unfolds

/-- The globals of a block are those of its statements. -/
theorem Block.globals_eq_flatMap (block : Block) :
    Block.globals block = block.flatMap Stmt.globals := by
  induction block with
  | nil => rfl
  | cons s rest ih => rw [Block.globals, ih, List.flatMap_cons]

/-- A statement writes a global, reads it in one of its expressions, or mentions it in a
nested block. -/
theorem Stmt.mem_globals {s : Stmt} {id : GlobalId} : id ∈ s.globals ↔
    (s.target? = some id ∨ ∃ root ∈ s.exprs, id ∈ root.globals) ∨
      ∃ inner ∈ s.blocks, id ∈ Block.globals inner := by
  cases s <;> simp [Stmt.globals, Stmt.exprs, Stmt.blocks, Stmt.target?, eq_comm]

/-- An expression reads the globals that it loads from or takes the value of. -/
theorem Expr.mem_globals {e : Expr} {id : GlobalId} : id ∈ e.globals ↔
    Expr.Within (.global id) e ∨ ∃ index, Expr.Within (.load id index) e := by
  unfold Expr.globals
  simp only [List.mem_filterMap, ← Expr.mem_nodes_iff]
  constructor
  · rintro ⟨node, listed, read⟩
    cases node with
    | global read' =>
      cases read
      exact .inl listed
    | load read' index =>
      cases read
      exact .inr ⟨index, listed⟩
    | _ => cases read
  · rintro (listed | ⟨index, listed⟩)
    · exact ⟨_, listed, rfl⟩
    · exact ⟨_, listed, rfl⟩

/-- The globals of a block are those that a statement in it writes and those that an
expression in it reads. -/
theorem Block.mem_globals_iff {block : Block} {id : GlobalId} : id ∈ Block.globals block ↔
    (∃ s, Block.Holds block s ∧ s.target? = some id) ∨ Block.Contains block (.global id) ∨
      ∃ index, Block.Contains block (.load id index) := by
  have unfolds (block : Block) : id ∈ Block.globals block ↔
      ∃ s ∈ block, (s.target? = some id ∨ ∃ root ∈ s.exprs, id ∈ root.globals) ∨
        ∃ inner ∈ s.blocks, id ∈ Block.globals inner := by
    simp only [Block.globals_eq_flatMap block, List.mem_flatMap, Stmt.mem_globals]
  rw [Block.walk_iff unfolds]
  simp only [Expr.mem_globals, Block.Contains]
  grind

/-! ## Resolved bodies -/

/-- What references can lead to. -/
structure Scope where
  /-- The number of parameters of a function. -/
  arity? : FunctionId → Option Nat
  /-- Whether a global exists. -/
  hasGlobal : GlobalId → Bool

/-- The reference of a node, if it is one, leads to something that exists. -/
def Expr.Resolves (scope : Scope) : Expr → Prop
  | .call callee args => scope.arity? callee = some args.length
  | .global id | .load id _ => scope.hasGlobal id = true
  | .lit _ | .var _ | .unary .. | .binary .. => True

/-- All references of an expression lead to something that exists. -/
def Expr.Resolved (scope : Scope) (e : Expr) : Prop := ∀ node ∈ e.nodes, node.Resolves scope

mutual

/-- All references of a statement lead to something that exists. -/
def Stmt.Resolved (scope : Scope) : Stmt → Prop
  | .bind _ _ value | .assign _ value | .emit _ value | .eval value => value.Resolved scope
  | .setGlobal id value => scope.hasGlobal id = true ∧ value.Resolved scope
  | .store id index value =>
    scope.hasGlobal id = true ∧ index.Resolved scope ∧ value.Resolved scope
  | .branch cond thenBody elseBody _ =>
    cond.Resolved scope ∧ Block.Resolved scope thenBody ∧ Block.Resolved scope elseBody
  | .loop _ _ condition body => (∀ e ∈ condition, e.Resolved scope) ∧ Block.Resolved scope body
  | .ret value => ∀ e ∈ value, e.Resolved scope

/-- All references of a block lead to something that exists. -/
def Block.Resolved (scope : Scope) : List Stmt → Prop
  | [] => True
  | s :: rest => s.Resolved scope ∧ Block.Resolved scope rest

end

section Resolved

variable {scope : Scope}

/-- A resolved expression reads globals that exist. -/
theorem Expr.Resolved.hasGlobal {e : Expr} (resolved : e.Resolved scope) {id : GlobalId}
    (read : id ∈ e.globals) : scope.hasGlobal id = true := by
  rcases Expr.mem_globals.mp read with value | ⟨index, element⟩
  · exact resolved _ (Expr.mem_nodes_iff.mpr value)
  · exact resolved _ (Expr.mem_nodes_iff.mpr element)

mutual

/-- A statement is resolved when the nodes and globals that the walks list are. -/
theorem Stmt.resolved_iff : ∀ s : Stmt, s.Resolved scope ↔
    (∀ node ∈ s.nodes, node.Resolves scope) ∧ ∀ id ∈ s.globals, scope.hasGlobal id = true
  | .bind _ _ value | .assign _ value | .emit _ value | .eval value => by
    simp only [Stmt.Resolved, Stmt.nodes, Stmt.globals]
    exact ⟨fun resolved => ⟨resolved, fun _ => resolved.hasGlobal⟩, fun both => both.1⟩
  | .setGlobal _ value => by
    simp only [Stmt.Resolved, Stmt.nodes, Stmt.globals, List.forall_mem_cons]
    exact ⟨fun ⟨known, resolved⟩ => ⟨resolved, known, fun _ => resolved.hasGlobal⟩,
      fun ⟨resolved, known, _⟩ => ⟨known, resolved⟩⟩
  | .store _ index value => by
    simp only [Stmt.Resolved, Stmt.nodes, Stmt.globals, List.forall_mem_cons,
      List.forall_mem_append]
    exact ⟨fun ⟨known, first, second⟩ => ⟨⟨first, second⟩, known, fun _ => first.hasGlobal,
      fun _ => second.hasGlobal⟩, fun ⟨⟨first, second⟩, known, _⟩ => ⟨known, first, second⟩⟩
  | .branch cond thenBody elseBody _ => by
    have inThen := Block.resolved_iff thenBody
    have inElse := Block.resolved_iff elseBody
    simp only [Stmt.Resolved, Stmt.nodes, Stmt.globals, List.forall_mem_append, inThen, inElse]
    exact ⟨fun ⟨tested, first, second⟩ => ⟨⟨tested, first.1, second.1⟩,
      fun _ => Expr.Resolved.hasGlobal tested, first.2, second.2⟩,
      fun ⟨⟨tested, firstNodes, secondNodes⟩, _, first, second⟩ =>
        ⟨tested, ⟨firstNodes, first⟩, ⟨secondNodes, second⟩⟩⟩
  | .loop _ _ none body => by
    have inner := Block.resolved_iff body
    simp [Stmt.Resolved, Stmt.nodes, Stmt.globals, inner]
  | .loop _ _ (some condition) body => by
    have inner := Block.resolved_iff body
    simp only [Stmt.Resolved, Stmt.nodes, Stmt.globals, Option.toList_some, List.flatMap_singleton,
      List.forall_mem_append, inner, Option.mem_some_iff, forall_eq']
    exact ⟨fun ⟨tested, nodes, globals⟩ =>
      ⟨⟨tested, nodes⟩, fun _ => Expr.Resolved.hasGlobal tested, globals⟩,
      fun ⟨⟨tested, nodes⟩, _, globals⟩ => ⟨tested, nodes, globals⟩⟩
  | .ret none => by simp [Stmt.Resolved, Stmt.nodes, Stmt.globals]
  | .ret (some value) => by
    simp only [Stmt.Resolved, Stmt.nodes, Stmt.globals, Option.toList_some, List.flatMap_singleton,
      Option.mem_some_iff, forall_eq']
    exact ⟨fun resolved => ⟨resolved, fun _ => Expr.Resolved.hasGlobal resolved⟩,
      fun both => both.1⟩

/-- A block is resolved when the nodes and globals that the walks list are. -/
theorem Block.resolved_iff : ∀ block : Block, Block.Resolved scope block ↔
    (∀ node ∈ Block.nodes block, node.Resolves scope) ∧
      ∀ id ∈ Block.globals block, scope.hasGlobal id = true
  | [] => by simp [Block.Resolved, Block.nodes, Block.globals]
  | s :: rest => by
    have first := Stmt.resolved_iff s
    have others := Block.resolved_iff rest
    simp only [Block.Resolved, Block.nodes, Block.globals, List.forall_mem_append, first, others]
    exact and_and_and_comm

end

/-- A block is resolved when its statements are. -/
theorem Block.resolved_iff_forall {block : Block} :
    Block.Resolved scope block ↔ ∀ s ∈ block, s.Resolved scope := by
  induction block with
  | nil => simp [Block.Resolved]
  | cons s rest ih => simp [Block.Resolved, ih]

/-- A resolved block stays so where its callees and its globals stay. -/
theorem Block.Resolved.transfer {other : Scope} {block : Block}
    (resolved : Block.Resolved scope block)
    (functions : ∀ callee ∈ Block.callees block, other.arity? callee = scope.arity? callee)
    (globals : ∀ id ∈ Block.globals block, other.hasGlobal id = true) :
    Block.Resolved other block := by
  rw [Block.resolved_iff] at resolved ⊢
  refine ⟨fun node listed => ?_, globals⟩
  have reads (id : GlobalId) (read : node.readGlobal? = some id) : other.hasGlobal id = true := by
    refine globals id (Block.mem_globals_iff.mpr ?_)
    rw [Block.mem_nodes_iff] at listed
    cases node with
    | global _ =>
      cases read
      exact .inr (.inl listed)
    | load _ index =>
      cases read
      exact .inr (.inr ⟨index, listed⟩)
    | _ => cases read
  cases node with
  | call callee args =>
    have called := functions callee (Block.mem_callees.mpr ⟨args, listed⟩)
    exact called.trans (resolved.1 _ listed)
  | global id => exact reads id rfl
  | load id _ => exact reads id rfl
  | _ => trivial

end Resolved

/-! ## Consistent programs -/

namespace Program

variable {program : Program}

/-- What the references of a program can lead to. -/
def scope (program : Program) : Scope where
  arity? id := (program.function? id).map fun function => function.params.length
  hasGlobal id := (program.global? id).isSome

/-- A node has no fault when its reference leads somewhere. -/
theorem nodeFault?_eq_none_iff {name : String} {node : Expr} :
    program.nodeFault? name node = none ↔ node.Resolves program.scope := by
  cases node with
  | call callee args =>
    simp only [nodeFault?, Expr.Resolves, scope]
    cases program.function? callee <;> simp
  | global id | load id _ =>
    simp only [nodeFault?, Expr.Resolves, scope]
    cases program.global? id <;> simp
  | _ => simp [nodeFault?, Expr.Resolves]

/-- A program has no fault when the bodies of its functions are resolved. -/
theorem fault?_eq_none_iff_resolved : program.fault? = none ↔
    ∀ id function, program.function? id = some function →
      Block.Resolved program.scope function.body := by
  have one (function : Function) : program.functionFault? function = none ↔
      Block.Resolved program.scope function.body := by
    have exists_iff (id : GlobalId) : (if (program.global? id).isSome then none else
        some (ProgramError.danglingReference function.name (.global id))) = none ↔
          program.scope.hasGlobal id = true := by
      simp only [scope]
      cases program.global? id <;> simp
    rw [functionFault?, Option.or_eq_none_iff, List.findSome?_eq_none_iff,
      List.findSome?_eq_none_iff, Block.resolved_iff]
    simp only [nodeFault?_eq_none_iff, Function.referencedGlobals, Block.referencedGlobals,
      List.mem_eraseDups, exists_iff]
  simp only [fault?, List.findSome?_eq_none_iff, one, Prod.forall, Arena.mem_entries]
  rfl

/-- All references of all functions lead to something that exists, wherever they stand. -/
structure Consistent (program : Program) : Prop where
  /-- A call goes to a function with as many parameters as it has arguments. -/
  call : ∀ id function, program.function? id = some function → ∀ callee args,
    Block.Contains function.body (.call callee args) →
      ∃ target, program.function? callee = some target ∧ args.length = target.params.length
  /-- A global whose value is read exists. -/
  read : ∀ id function, program.function? id = some function → ∀ global,
    Block.Contains function.body (.global global) → (program.global? global).isSome = true
  /-- A global from which an element is loaded exists. -/
  load : ∀ id function, program.function? id = some function → ∀ global index,
    Block.Contains function.body (.load global index) → (program.global? global).isSome = true
  /-- A global that is written exists. -/
  write : ∀ id function, program.function? id = some function → ∀ global value,
    Block.Holds function.body (.setGlobal global value) → (program.global? global).isSome = true
  /-- A global of which an element is written exists. -/
  store : ∀ id function, program.function? id = some function → ∀ global index value,
    Block.Holds function.body (.store global index value) → (program.global? global).isSome = true

/-- The check of a program finds no fault exactly when the program is consistent. -/
theorem fault?_eq_none_iff : program.fault? = none ↔ program.Consistent := by
  rw [fault?_eq_none_iff_resolved]
  constructor
  · intro resolved
    have nodes (id : FunctionId) (function : Function)
        (found : program.function? id = some function) (node : Expr)
        (place : Block.Contains function.body node) : node.Resolves program.scope :=
      ((Block.resolved_iff _).mp (resolved id function found)).1 node
        (Block.mem_nodes_iff.mpr place)
    have written (id : FunctionId) (function : Function)
        (found : program.function? id = some function) (s : Stmt) (global : GlobalId)
        (place : Block.Holds function.body s) (target : s.target? = some global) :
        (program.global? global).isSome = true :=
      ((Block.resolved_iff _).mp (resolved id function found)).2 global
        (Block.mem_globals_iff.mpr (.inl ⟨s, place, target⟩))
    refine ⟨fun id function found callee args place => ?_,
      fun id function found global place => nodes id function found _ place,
      fun id function found global index place => nodes id function found _ place,
      fun id function found global value place => written id function found _ global place rfl,
      fun id function found global index value place =>
        written id function found _ global place rfl⟩
    have arity := nodes id function found _ place
    obtain ⟨target, existing, count⟩ := Option.map_eq_some_iff.mp arity
    exact ⟨target, existing, count.symm⟩
  · intro consistent id function found
    rw [Block.resolved_iff]
    refine ⟨fun node listed => ?_, fun global listed => ?_⟩
    · have place := Block.mem_nodes_iff.mp listed
      cases node with
      | call callee args =>
        obtain ⟨target, existing, count⟩ := consistent.call id function found callee args place
        exact Option.map_eq_some_iff.mpr ⟨target, existing, count.symm⟩
      | global read => exact consistent.read id function found read place
      | load loaded index => exact consistent.load id function found loaded index place
      | _ => trivial
    · rcases Block.mem_globals_iff.mp listed with ⟨s, place, target⟩ | read | ⟨index, loaded⟩
      · cases s with
        | setGlobal written value =>
          cases target
          exact consistent.write id function found global value place
        | store written index value =>
          cases target
          exact consistent.store id function found global index value place
        | _ => cases target
      · exact consistent.read id function found global read
      · exact consistent.load id function found global index loaded

/-- In a program without faults every callee exists. -/
theorem isSome_of_called (faultless : program.fault? = none) {id callee : FunctionId}
    {function : Function} (found : program.function? id = some function)
    (called : callee ∈ function.callees) : (program.function? callee).isSome = true := by
  obtain ⟨args, listed⟩ := Block.mem_callees.mp called
  have resolved :=
    (Block.resolved_iff _).mp (fault?_eq_none_iff_resolved.mp faultless id function found)
  obtain ⟨target, existing, _⟩ := Option.map_eq_some_iff.mp (resolved.1 _ listed)
  exact Option.isSome_iff_exists.mpr ⟨target, existing⟩

/-- In a program without faults every global that is mentioned exists. -/
theorem isSome_of_mentioned (faultless : program.fault? = none) {id : FunctionId}
    {function : Function} {global : GlobalId} (found : program.function? id = some function)
    (mentioned : global ∈ function.referencedGlobals) :
    (program.global? global).isSome = true := by
  have resolved :=
    (Block.resolved_iff _).mp (fault?_eq_none_iff_resolved.mp faultless id function found)
  exact resolved.2 global (List.mem_eraseDups.mp mentioned)

end Program

end Timebound
