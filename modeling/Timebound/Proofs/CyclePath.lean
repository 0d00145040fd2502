import Timebound.Timing.Analysis

/-!
# Paths and what they cost

A path through a body chooses an arm at every branch and a number of iterations
at every loop with a condition; a return at any depth ends it. Its cost is that of
the nodes on it, and it makes calls in a certain order. An activation puts a path
through the body of a function together with one activation for every call on it,
so activations are the complete runs of a program as far as costs go. The bound
that `Block.cycles` gives covers every path: see `Block.Path.le_cycles`. How often
a function may call itself is said by `Activation.WithinLimits`.
-/

namespace Timebound

/-! ## Expressions -/

mutual

/-- The cost of evaluating an expression, without what its calls start. -/
def Expr.pathCycles : Expr → Nat
  | .lit _ => CycleCost.literal
  | .var _ => CycleCost.localRead
  | .global _ => CycleCost.globalRead
  | .load _ index => CycleCost.load + index.pathCycles
  | .unary _ _ operand => CycleCost.simple + operand.pathCycles
  | .binary op _ left right => op.cycles + (left.pathCycles + right.pathCycles)
  | .call _ args => CycleCost.call + Args.pathCycles args

/-- The cost of evaluating arguments, without what their calls start. -/
def Args.pathCycles : List Expr → Nat
  | [] => 0
  | arg :: args => arg.pathCycles + Args.pathCycles args

end

mutual

/-- The functions called by evaluating an expression, in order. -/
def Expr.pathCalls : Expr → List FunctionId
  | .lit _ | .var _ | .global _ => []
  | .load _ index => index.pathCalls
  | .unary _ _ operand => operand.pathCalls
  | .binary _ _ left right => left.pathCalls ++ right.pathCalls
  | .call callee args => Args.pathCalls args ++ [callee]

/-- The functions called by evaluating arguments, in order. -/
def Args.pathCalls : List Expr → List FunctionId
  | [] => []
  | arg :: args => arg.pathCalls ++ Args.pathCalls args

end

/-- Leading negations call nothing. -/
theorem Expr.pathCalls_guard (e : Expr) : e.guard.pathCalls = e.pathCalls := by
  fun_induction Expr.guard e with
  | case1 type operand ih => rw [ih, Expr.pathCalls]
  | case2 => rfl

/-! ## Statements -/

mutual

/-- A path through a statement: its cost without what its calls start, the
functions it calls in order, and whether it ends the activation. -/
inductive Stmt.Path : Stmt → Nat → List FunctionId → Bool → Prop where
  | bind (name : String) (type : ScalarType) (value : Expr) :
      Stmt.Path (.bind name type value) (CycleCost.assign + value.pathCycles) value.pathCalls false
  | assign (name : String) (value : Expr) :
      Stmt.Path (.assign name value) (CycleCost.assign + value.pathCycles) value.pathCalls false
  | setGlobal (id : GlobalId) (value : Expr) :
      Stmt.Path (.setGlobal id value) (CycleCost.globalWrite + value.pathCycles) value.pathCalls
        false
  | store (id : GlobalId) (index value : Expr) :
      Stmt.Path (.store id index value)
        (CycleCost.store + (index.pathCycles + value.pathCycles))
        (index.pathCalls ++ value.pathCalls) false
  | emit (channel : Nat) (value : Expr) :
      Stmt.Path (.emit channel value) (CycleCost.emit + value.pathCycles) value.pathCalls false
  | eval (value : Expr) : Stmt.Path (.eval value) value.pathCycles value.pathCalls false
  /-- The first arm runs; negations in front of the condition are free. -/
  | branchThen (cond : Expr) {thenBody elseBody : Block} {likelihood : Option Nat} {cycles : Nat}
      {calls : List FunctionId} {ends : Bool} (arm : Block.Path none thenBody cycles calls ends) :
      Stmt.Path (.branch cond thenBody elseBody likelihood)
        (cond.guard.pathCycles + CycleCost.branch + cycles) (cond.guard.pathCalls ++ calls) ends
  /-- The second arm runs. -/
  | branchElse (cond : Expr) {thenBody elseBody : Block} {likelihood : Option Nat} {cycles : Nat}
      {calls : List FunctionId} {ends : Bool} (arm : Block.Path none elseBody cycles calls ends) :
      Stmt.Path (.branch cond thenBody elseBody likelihood)
        (cond.guard.pathCycles + CycleCost.branch + cycles) (cond.guard.pathCalls ++ calls) ends
  | loop {counter : Option String} {bound : TripBound} {condition : Option Expr} {body : Block}
      {trips cycles : Nat} {calls : List FunctionId} {ends : Bool}
      (limit : bound.limit? = some trips) (turns : Turns condition body trips cycles calls ends) :
      Stmt.Path (.loop counter bound condition body) (CycleCost.loopEntry + cycles) calls ends
  | ret (value : Option Expr) :
      Stmt.Path (.ret value) (CycleCost.ret + Args.pathCycles value.toList)
        (Args.pathCalls value.toList) true

/-- A path through statements that follow `previous` in their block. -/
inductive Block.Path : Option Stmt → Block → Nat → List FunctionId → Bool → Prop where
  | nil {previous : Option Stmt} : Block.Path previous [] 0 [] false
  /-- A statement ends the activation, and what follows it does not run. -/
  | last {previous : Option Stmt} {s : Stmt} {rest : Block} {cycles : Nat}
      {calls : List FunctionId} (first : Stmt.Path s cycles calls true) :
      Block.Path previous (s :: rest) (cycles - s.discountAfter previous) calls true
  | next {previous : Option Stmt} {s : Stmt} {rest : Block} {cycles others : Nat}
      {calls later : List FunctionId} {ends : Bool} (first : Stmt.Path s cycles calls false)
      (follow : Block.Path (some s) rest others later ends) :
      Block.Path previous (s :: rest) (cycles - s.discountAfter previous + others)
        (calls ++ later) ends

/-- A path through the iterations of a loop, at most the given number of them. -/
inductive Turns : Option Expr → Block → Nat → Nat → List FunctionId → Bool → Prop where
  /-- A loop without condition ends when no iteration is left. -/
  | done {body : Block} : Turns none body 0 0 [] false
  /-- A loop with a condition may end early, without another test. -/
  | leave {condition : Expr} {body : Block} {trips : Nat} :
      Turns (some condition) body trips 0 [] false
  /-- A loop with a condition may end by one more test. -/
  | fail (condition : Expr) {body : Block} {trips : Nat} :
      Turns (some condition) body trips condition.pathCycles condition.pathCalls false
  /-- An iteration tests the condition, runs the body and goes on. -/
  | turn {condition : Option Expr} {body : Block} {trips cycles others : Nat}
      {calls later : List FunctionId} {ends : Bool}
      (once : Block.Path none body cycles calls false)
      (again : Turns condition body trips others later ends) :
      Turns condition body (trips + 1)
        (Args.pathCycles condition.toList + cycles + CycleCost.loopTurn + others)
        (Args.pathCalls condition.toList ++ calls ++ later) ends
  /-- An iteration ends the activation. -/
  | ret {condition : Option Expr} {body : Block} {trips cycles : Nat} {calls : List FunctionId}
      (once : Block.Path none body cycles calls true) :
      Turns condition body (trips + 1)
        (Args.pathCycles condition.toList + cycles + CycleCost.loopTurn)
        (Args.pathCalls condition.toList ++ calls) true

end

/-! ## Calls on a path -/

mutual

/-- The calls made by an expression are nodes of it. -/
theorem Expr.mem_nodes_of_pathCalls : ∀ (e : Expr) {id : FunctionId}, id ∈ e.pathCalls →
    ∃ args, .call id args ∈ e.nodes
  | .lit _, id, made | .var _, id, made | .global _, id, made => by simp [Expr.pathCalls] at made
  | .load _ index, id, made => by
    obtain ⟨args, listed⟩ := Expr.mem_nodes_of_pathCalls index made
    exact ⟨args, by simp [Expr.nodes, listed]⟩
  | .unary _ _ operand, id, made => by
    obtain ⟨args, listed⟩ := Expr.mem_nodes_of_pathCalls operand made
    exact ⟨args, by simp [Expr.nodes, listed]⟩
  | .binary _ _ left right, id, made => by
    rcases List.mem_append.mp made with one | two
    · obtain ⟨args, listed⟩ := Expr.mem_nodes_of_pathCalls left one
      exact ⟨args, by simp [Expr.nodes, listed]⟩
    · obtain ⟨args, listed⟩ := Expr.mem_nodes_of_pathCalls right two
      exact ⟨args, by simp [Expr.nodes, listed]⟩
  | .call callee passed, id, made => by
    rcases List.mem_append.mp made with inner | self
    · obtain ⟨args, listed⟩ := Args.mem_nodes_of_pathCalls passed inner
      exact ⟨args, by simp [Expr.nodes, listed]⟩
    · rw [List.mem_singleton] at self
      exact ⟨passed, by simp [Expr.nodes, self]⟩

/-- The calls made by arguments are nodes of them. -/
theorem Args.mem_nodes_of_pathCalls : ∀ (args : List Expr) {id : FunctionId},
    id ∈ Args.pathCalls args → ∃ passed, .call id passed ∈ Args.nodes args
  | [], id, made => by simp [Args.pathCalls] at made
  | arg :: args, id, made => by
    rcases List.mem_append.mp made with one | others
    · obtain ⟨passed, listed⟩ := Expr.mem_nodes_of_pathCalls arg one
      exact ⟨passed, by simp [Args.nodes, listed]⟩
    · obtain ⟨passed, listed⟩ := Args.mem_nodes_of_pathCalls args others
      exact ⟨passed, by simp [Args.nodes, listed]⟩

end

mutual

/-- The calls on a path through a statement are nodes of it. -/
theorem Stmt.Path.mem_nodes : ∀ {s : Stmt} {cycles : Nat} {calls : List FunctionId} {ends : Bool}
    {id : FunctionId}, Stmt.Path s cycles calls ends → id ∈ calls →
      ∃ args, .call id args ∈ s.nodes
  | _, _, _, _, _, .bind _ _ value, made | _, _, _, _, _, .assign _ value, made
  | _, _, _, _, _, .setGlobal _ value, made | _, _, _, _, _, .emit _ value, made
  | _, _, _, _, _, .eval value, made => by
    simpa only [Stmt.nodes] using Expr.mem_nodes_of_pathCalls value made
  | _, _, _, _, _, .store _ index value, made => by
    simp only [Stmt.nodes]
    rcases List.mem_append.mp made with one | two
    · obtain ⟨args, listed⟩ := Expr.mem_nodes_of_pathCalls index one
      exact ⟨args, List.mem_append_left _ listed⟩
    · obtain ⟨args, listed⟩ := Expr.mem_nodes_of_pathCalls value two
      exact ⟨args, List.mem_append_right _ listed⟩
  | _, _, _, _, _, .branchThen cond arm, made => by
    simp only [Stmt.nodes]
    rcases List.mem_append.mp made with one | two
    · obtain ⟨args, listed⟩ := Expr.mem_nodes_of_pathCalls cond.guard one
      exact ⟨args, List.mem_append_left _ (cond.nodes_guard_subset listed)⟩
    · obtain ⟨args, listed⟩ := Block.Path.mem_nodes arm two
      exact ⟨args, by simp [listed]⟩
  | _, _, _, _, _, .branchElse cond arm, made => by
    simp only [Stmt.nodes]
    rcases List.mem_append.mp made with one | two
    · obtain ⟨args, listed⟩ := Expr.mem_nodes_of_pathCalls cond.guard one
      exact ⟨args, List.mem_append_left _ (cond.nodes_guard_subset listed)⟩
    · obtain ⟨args, listed⟩ := Block.Path.mem_nodes arm two
      exact ⟨args, by simp [listed]⟩
  | _, _, _, _, _, .loop _ turns, made => by
    simp only [Stmt.nodes]
    rw [← Args.nodes_toList]
    exact Turns.mem_nodes turns made
  | _, _, _, _, _, .ret value, made => by
    simp only [Stmt.nodes]
    rw [← Args.nodes_toList]
    exact Args.mem_nodes_of_pathCalls value.toList made

/-- The calls on a path through a block are nodes of it. -/
theorem Block.Path.mem_nodes : ∀ {previous : Option Stmt} {block : Block} {cycles : Nat}
    {calls : List FunctionId} {ends : Bool} {id : FunctionId},
    Block.Path previous block cycles calls ends → id ∈ calls →
      ∃ args, .call id args ∈ Block.nodes block
  | _, _, _, _, _, _, .nil, made => by simp at made
  | _, _, _, _, _, _, .last first, made => by
    obtain ⟨args, listed⟩ := Stmt.Path.mem_nodes first made
    exact ⟨args, by simp [Block.nodes, listed]⟩
  | _, _, _, _, _, _, .next first follow, made => by
    rcases List.mem_append.mp made with one | two
    · obtain ⟨args, listed⟩ := Stmt.Path.mem_nodes first one
      exact ⟨args, by simp [Block.nodes, listed]⟩
    · obtain ⟨args, listed⟩ := Block.Path.mem_nodes follow two
      exact ⟨args, by simp [Block.nodes, listed]⟩

/-- The calls on a path through iterations are nodes of the condition or the body. -/
theorem Turns.mem_nodes : ∀ {condition : Option Expr} {body : Block} {trips cycles : Nat}
    {calls : List FunctionId} {ends : Bool} {id : FunctionId},
    Turns condition body trips cycles calls ends → id ∈ calls →
      ∃ args, .call id args ∈ Args.nodes condition.toList ++ Block.nodes body
  | _, _, _, _, _, _, _, .done, made | _, _, _, _, _, _, _, .leave, made => by simp at made
  | _, _, _, _, _, _, _, .fail condition, made => by
    obtain ⟨args, listed⟩ := Expr.mem_nodes_of_pathCalls condition made
    exact ⟨args, by simp [Args.nodes, listed]⟩
  | condition, _, _, _, _, _, _, .turn once again, made => by
    rcases List.mem_append.mp made with now | later
    · rcases List.mem_append.mp now with one | two
      · obtain ⟨args, listed⟩ := Args.mem_nodes_of_pathCalls condition.toList one
        exact ⟨args, List.mem_append_left _ listed⟩
      · obtain ⟨args, listed⟩ := Block.Path.mem_nodes once two
        exact ⟨args, List.mem_append_right _ listed⟩
    · exact Turns.mem_nodes again later
  | condition, _, _, _, _, _, _, .ret once, made => by
    rcases List.mem_append.mp made with one | two
    · obtain ⟨args, listed⟩ := Args.mem_nodes_of_pathCalls condition.toList one
      exact ⟨args, List.mem_append_left _ listed⟩
    · obtain ⟨args, listed⟩ := Block.Path.mem_nodes once two
      exact ⟨args, List.mem_append_right _ listed⟩

end

/-! ## Activations -/

/-- An activation of a function: the cost of its own path, and the activations
started by the calls on that path, in order. -/
inductive Activation where
  | mk (id : FunctionId) (own : Nat) (calls : List Activation)

namespace Activation

/-- The activated function. -/
def id : Activation → FunctionId
  | mk id _ _ => id

end Activation

mutual

/-- The cost of an activation: its own path and all activations below it. -/
def Activation.cycles : Activation → Nat
  | .mk _ own calls => own + Activations.cycles calls

/-- The cost of several activations. -/
def Activations.cycles : List Activation → Nat
  | [] => 0
  | run :: others => run.cycles + Activations.cycles others

end

mutual

/-- How often a function is activated by an activation, this one included. -/
def Activation.count (target : FunctionId) : Activation → Nat
  | .mk id _ calls => (if id = target then 1 else 0) + Activations.count target calls

/-- How often a function is activated by several activations. -/
def Activations.count (target : FunctionId) : List Activation → Nat
  | [] => 0
  | run :: others => run.count target + Activations.count target others

end

namespace Program

/-- The complete runs of a program: activations whose own path goes through the
body of their function and makes just the calls that are answered below it. -/
inductive Runs (program : Program) : Activation → Prop where
  | mk {id : FunctionId} {own : Nat} {calls : List Activation} {function : Function} {ends : Bool}
      (found : program.function? id = some function)
      (path : Block.Path none function.body own (calls.map Activation.id) ends)
      (below : ∀ run ∈ calls, Runs program run) : Runs program (.mk id own calls)

/-- The largest number of activations allowed per outermost call, for a function
that calls itself and has such a limit. -/
def activationLimit? (program : Program) (id : FunctionId) : Option Nat := do
  let function ← program.function? id
  if function.calls id then function.recursionLimit else none

end Program

mutual

/-- Every function that calls itself keeps its limit in each outermost call: one
that is made while no other activation of the function is open. -/
def Activation.WithinLimits (program : Program) (opened : List FunctionId) : Activation → Prop
  | .mk id own calls =>
    (id ∉ opened → ∀ limit, program.activationLimit? id = some limit →
      (Activation.mk id own calls).count id ≤ limit) ∧
      Activations.WithinLimits program (id :: opened) calls

/-- Limits are kept by several activations. -/
def Activations.WithinLimits (program : Program) (opened : List FunctionId) :
    List Activation → Prop
  | [] => True
  | run :: others =>
    run.WithinLimits program opened ∧ Activations.WithinLimits program opened others

end

/-! ## Costs cover paths -/

section Costs

variable {callee : FunctionId → Except Cause Nat}

/-- Calls that all have a price, with the sum of the prices. -/
inductive Priced (callee : FunctionId → Except Cause Nat) : List FunctionId → Nat → Prop where
  | nil : Priced callee [] 0
  | cons {id : FunctionId} {calls : List FunctionId} {price total : Nat}
      (known : callee id = .ok price) (others : Priced callee calls total) :
      Priced callee (id :: calls) (price + total)

/-- Prices of calls in a row add up. -/
theorem Priced.append {first second : List FunctionId} {one two : Nat}
    (left : Priced callee first one) (right : Priced callee second two) :
    Priced callee (first ++ second) (one + two) := by
  induction left with
  | nil => simpa using right
  | cons known _ ih =>
    rw [Nat.add_assoc]
    exact .cons known ih

mutual

/-- The cost of an expression is that of its nodes and the prices of its calls. -/
theorem Expr.cycles_eq : ∀ (e : Expr) {total : Nat}, e.cycles callee = .ok total →
    ∃ price, Priced callee e.pathCalls price ∧ total = e.pathCycles + price
  | .lit _, total, done => by
    simp only [Expr.cycles, Except.ok.injEq] at done
    exact ⟨0, .nil, by simp [Expr.pathCycles, done]⟩
  | .var _, total, done => by
    simp only [Expr.cycles, Except.ok.injEq] at done
    exact ⟨0, .nil, by simp [Expr.pathCycles, done]⟩
  | .global _, total, done => by
    simp only [Expr.cycles, Except.ok.injEq] at done
    exact ⟨0, .nil, by simp [Expr.pathCycles, done]⟩
  | .load _ index, total, done => by
    simp only [Expr.cycles, bind_eq_ok_iff, checkedCycles_eq_ok_iff] at done
    obtain ⟨cost, inner, rfl, _⟩ := done
    obtain ⟨price, priced, rfl⟩ := Expr.cycles_eq index inner
    exact ⟨price, priced, by simp only [Expr.pathCycles]; omega⟩
  | .unary _ _ operand, total, done => by
    simp only [Expr.cycles, bind_eq_ok_iff, checkedCycles_eq_ok_iff] at done
    obtain ⟨cost, inner, rfl, _⟩ := done
    obtain ⟨price, priced, rfl⟩ := Expr.cycles_eq operand inner
    exact ⟨price, priced, by simp only [Expr.pathCycles]; omega⟩
  | .binary op _ left right, total, done => by
    simp only [Expr.cycles, bind_eq_ok_iff, checkedCycles_eq_ok_iff] at done
    obtain ⟨leftCost, leftDone, rightCost, rightDone, _, ⟨rfl, _⟩, rfl, _⟩ := done
    obtain ⟨one, leftPriced, rfl⟩ := Expr.cycles_eq left leftDone
    obtain ⟨two, rightPriced, rfl⟩ := Expr.cycles_eq right rightDone
    exact ⟨one + two, leftPriced.append rightPriced, by simp only [Expr.pathCycles]; omega⟩
  | .call id args, total, done => by
    simp only [Expr.cycles, bind_eq_ok_iff, checkedCycles_eq_ok_iff] at done
    obtain ⟨passing, argsDone, activation, known, rfl, _⟩ := done
    obtain ⟨price, priced, rfl⟩ := Args.cycles_eq args argsDone
    refine ⟨price + activation, priced.append (.cons known .nil), ?_⟩
    simp only [Expr.pathCycles]
    omega

/-- The cost of arguments is that of their nodes and the prices of their calls. -/
theorem Args.cycles_eq : ∀ (args : List Expr) {start total : Nat},
    Args.cycles callee start args = .ok total →
      ∃ price, Priced callee (Args.pathCalls args) price ∧
        total = start + Args.pathCycles args + price
  | [], start, total, done => by
    simp only [Args.cycles, Except.ok.injEq] at done
    exact ⟨0, .nil, by simp [Args.pathCycles, done]⟩
  | arg :: args, start, total, done => by
    simp only [Args.cycles, bind_eq_ok_iff, checkedCycles_eq_ok_iff] at done
    obtain ⟨cost, argDone, _, ⟨rfl, _⟩, argsDone⟩ := done
    obtain ⟨one, argPriced, rfl⟩ := Expr.cycles_eq arg argDone
    obtain ⟨two, argsPriced, rfl⟩ := Args.cycles_eq args argsDone
    exact ⟨one + two, argPriced.append argsPriced, by simp only [Args.pathCycles]; omega⟩

end

/-- The cost of an optional expression, as that of a list of at most one argument. -/
theorem Expr.optionalCycles_eq {e : Option Expr} {total : Nat}
    (done : Expr.optionalCycles callee e = .ok total) :
    ∃ price, Priced callee (Args.pathCalls e.toList) price ∧
      total = Args.pathCycles e.toList + price := by
  cases e with
  | none =>
    simp only [Expr.optionalCycles, Except.ok.injEq] at done
    exact ⟨0, .nil, by simp [Args.pathCycles, done]⟩
  | some e =>
    obtain ⟨price, priced, rfl⟩ := Expr.cycles_eq e done
    refine ⟨price, ?_, by simp [Args.pathCycles]⟩
    simpa [Args.pathCalls] using priced

/-- A running total never shrinks. -/
theorem Block.le_cyclesFrom {block : Block} : ∀ {previous : Option Stmt} {start total : Nat},
    Block.cyclesFrom callee previous start block = .ok total → start ≤ total := by
  induction block with
  | nil =>
    intro previous start total done
    simp only [Block.cyclesFrom, Except.ok.injEq] at done
    omega
  | cons s rest ih =>
    intro previous start total done
    simp only [Block.cyclesFrom, bind_eq_ok_iff, checkedCycles_eq_ok_iff] at done
    obtain ⟨cost, _, _, ⟨rfl, _⟩, others⟩ := done
    have grown := ih others
    omega

/-- What a statement saves is no more than its path costs: only loads at a literal
index save anything. -/
theorem Stmt.Path.discount_le {s : Stmt} {cycles : Nat} {calls : List FunctionId} {ends : Bool}
    (path : Stmt.Path s cycles calls ends) (previous : Option Stmt) :
    s.discountAfter previous ≤ cycles := by
  cases loaded : s.literalLoad? with
  | none => cases previous <;> simp [Stmt.discountAfter, Stmt.loadsNext, loaded]
  | some place =>
    unfold Stmt.literalLoad? at loaded
    split at loaded
    · cases path
      simp only [Stmt.discountAfter, Expr.pathCycles, CycleCost.sequentialDiscount,
        CycleCost.assign, CycleCost.load]
      split <;> omega
    · simp at loaded

mutual

/-- The cost of a statement covers every path through it. -/
theorem Stmt.Path.le_cycles : ∀ {s : Stmt} {cycles : Nat} {calls : List FunctionId} {ends : Bool}
    {total : Nat}, Stmt.Path s cycles calls ends → s.cycles callee = .ok total →
      ∃ price, Priced callee calls price ∧ cycles + price ≤ total
  | _, _, _, _, total, .bind _ _ value, done => by
    simp only [Stmt.cycles, bind_eq_ok_iff, checkedCycles_eq_ok_iff] at done
    obtain ⟨cost, inner, rfl, _⟩ := done
    obtain ⟨price, priced, rfl⟩ := Expr.cycles_eq value inner
    exact ⟨price, priced, by omega⟩
  | _, _, _, _, total, .assign _ value, done => by
    simp only [Stmt.cycles, bind_eq_ok_iff, checkedCycles_eq_ok_iff] at done
    obtain ⟨cost, inner, rfl, _⟩ := done
    obtain ⟨price, priced, rfl⟩ := Expr.cycles_eq value inner
    exact ⟨price, priced, by omega⟩
  | _, _, _, _, total, .setGlobal _ value, done => by
    simp only [Stmt.cycles, bind_eq_ok_iff, checkedCycles_eq_ok_iff] at done
    obtain ⟨cost, inner, rfl, _⟩ := done
    obtain ⟨price, priced, rfl⟩ := Expr.cycles_eq value inner
    exact ⟨price, priced, by omega⟩
  | _, _, _, _, total, .store _ index value, done => by
    simp only [Stmt.cycles, bind_eq_ok_iff, checkedCycles_eq_ok_iff] at done
    obtain ⟨indexCost, indexDone, valueCost, valueDone, _, ⟨rfl, _⟩, rfl, _⟩ := done
    obtain ⟨one, indexPriced, rfl⟩ := Expr.cycles_eq index indexDone
    obtain ⟨two, valuePriced, rfl⟩ := Expr.cycles_eq value valueDone
    exact ⟨one + two, indexPriced.append valuePriced, by omega⟩
  | _, _, _, _, total, .emit _ value, done => by
    simp only [Stmt.cycles, bind_eq_ok_iff, checkedCycles_eq_ok_iff] at done
    obtain ⟨cost, inner, rfl, _⟩ := done
    obtain ⟨price, priced, rfl⟩ := Expr.cycles_eq value inner
    exact ⟨price, priced, by omega⟩
  | _, _, _, _, total, .eval value, done => by
    simp only [Stmt.cycles] at done
    obtain ⟨price, priced, rfl⟩ := Expr.cycles_eq value done
    exact ⟨price, priced, by omega⟩
  | _, _, _, _, total, .branchThen cond arm, done => by
    simp only [Stmt.cycles, bind_eq_ok_iff, checkedCycles_eq_ok_iff] at done
    obtain ⟨guardCost, guardDone, thenCost, thenDone, elseCost, _, _, ⟨rfl, _⟩, rfl, _⟩ := done
    obtain ⟨one, guardPriced, rfl⟩ := Expr.cycles_eq cond.guard guardDone
    obtain ⟨two, armPriced, covered⟩ := Block.Path.le_cycles arm thenDone
    exact ⟨one + two, guardPriced.append armPriced, by omega⟩
  | _, _, _, _, total, .branchElse cond arm, done => by
    simp only [Stmt.cycles, bind_eq_ok_iff, checkedCycles_eq_ok_iff] at done
    obtain ⟨guardCost, guardDone, thenCost, _, elseCost, elseDone, _, ⟨rfl, _⟩, rfl, _⟩ := done
    obtain ⟨one, guardPriced, rfl⟩ := Expr.cycles_eq cond.guard guardDone
    obtain ⟨two, armPriced, covered⟩ := Block.Path.le_cycles arm elseDone
    exact ⟨one + two, guardPriced.append armPriced, by omega⟩
  | _, _, _, _, total, .loop limit turns, done => by
    simp only [Stmt.cycles, limit, bind_eq_ok_iff, checkedCycles_eq_ok_iff] at done
    obtain ⟨condCost, condDone, bodyCost, bodyDone, _, ⟨rfl, _⟩, _, ⟨rfl, _⟩, _, ⟨rfl, _⟩,
      _, ⟨rfl, _⟩, rfl, _⟩ := done
    obtain ⟨price, priced, covered⟩ := Turns.le_cycles turns condDone bodyDone
    exact ⟨price, priced, by omega⟩
  | _, _, _, _, total, .ret value, done => by
    simp only [Stmt.cycles, bind_eq_ok_iff, checkedCycles_eq_ok_iff] at done
    obtain ⟨cost, inner, rfl, _⟩ := done
    obtain ⟨price, priced, rfl⟩ := Expr.optionalCycles_eq inner
    exact ⟨price, priced, by omega⟩

/-- The cost of statements covers every path through them. -/
theorem Block.Path.le_cycles : ∀ {previous : Option Stmt} {block : Block} {cycles : Nat}
    {calls : List FunctionId} {ends : Bool} {start total : Nat},
    Block.Path previous block cycles calls ends →
      Block.cyclesFrom callee previous start block = .ok total →
        ∃ price, Priced callee calls price ∧ start + cycles + price ≤ total
  | _, _, _, _, _, start, total, .nil, done => by
    simp only [Block.cyclesFrom, Except.ok.injEq] at done
    exact ⟨0, .nil, by omega⟩
  | previous, _, _, _, _, start, total, .last first, done => by
    simp only [Block.cyclesFrom, bind_eq_ok_iff, checkedCycles_eq_ok_iff] at done
    obtain ⟨cost, firstDone, _, ⟨rfl, _⟩, others⟩ := done
    obtain ⟨price, priced, covered⟩ := Stmt.Path.le_cycles first firstDone
    have saved := first.discount_le previous
    have grown := Block.le_cyclesFrom others
    exact ⟨price, priced, by omega⟩
  | previous, _, _, _, _, start, total, .next first follow, done => by
    simp only [Block.cyclesFrom, bind_eq_ok_iff, checkedCycles_eq_ok_iff] at done
    obtain ⟨cost, firstDone, _, ⟨rfl, _⟩, others⟩ := done
    obtain ⟨one, firstPriced, covered⟩ := Stmt.Path.le_cycles first firstDone
    obtain ⟨two, laterPriced, rest⟩ := Block.Path.le_cycles follow others
    have saved := first.discount_le previous
    exact ⟨one + two, firstPriced.append laterPriced, by omega⟩

/-- The iterations of a loop cost no more than its bound times the cost of one, and
one more test of the condition. -/
theorem Turns.le_cycles : ∀ {condition : Option Expr} {body : Block} {trips cycles : Nat}
    {calls : List FunctionId} {ends : Bool} {condCost bodyCost : Nat},
    Turns condition body trips cycles calls ends →
      Expr.optionalCycles callee condition = .ok condCost →
        Block.cyclesFrom callee none 0 body = .ok bodyCost →
          ∃ price, Priced callee calls price ∧
            cycles + price ≤ condCost + trips * (condCost + bodyCost + CycleCost.loopTurn)
  | _, _, _, _, _, _, _, _, .done, _, _ => ⟨0, .nil, by omega⟩
  | _, _, _, _, _, _, _, _, .leave, _, _ => ⟨0, .nil, by omega⟩
  | _, _, _, _, _, _, _, _, .fail condition, condDone, _ => by
    obtain ⟨price, priced, rfl⟩ := Expr.cycles_eq condition condDone
    exact ⟨price, priced, by omega⟩
  | _, _, _, _, _, _, _, _, .turn once again, condDone, bodyDone => by
    obtain ⟨one, condPriced, rfl⟩ := Expr.optionalCycles_eq condDone
    obtain ⟨two, bodyPriced, bodyCovered⟩ := Block.Path.le_cycles once bodyDone
    obtain ⟨three, laterPriced, covered⟩ := Turns.le_cycles again condDone bodyDone
    refine ⟨one + two + three, (condPriced.append bodyPriced).append laterPriced, ?_⟩
    rw [Nat.add_one_mul]
    omega
  | _, _, _, _, _, _, _, _, .ret once, condDone, bodyDone => by
    obtain ⟨one, condPriced, rfl⟩ := Expr.optionalCycles_eq condDone
    obtain ⟨two, bodyPriced, bodyCovered⟩ := Block.Path.le_cycles once bodyDone
    refine ⟨one + two, condPriced.append bodyPriced, ?_⟩
    rw [Nat.add_one_mul]
    omega

end

end Costs

end Timebound
