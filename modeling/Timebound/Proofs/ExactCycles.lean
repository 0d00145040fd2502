import Timebound.Proofs.LivePart

/-!
# Exact cycle counts

The cost of a body without regard to the limit of cycle counts: a recursion over the body in
unbounded natural numbers, given a price for every callee (`Block.exactCycles`), and all sums and
products that it forms on the way (`Block.sums`). The cost that is computed with the limit exists
exactly when every loop has a bound and every one of these numbers is below the limit, and then it
is the exact one (`Block.exact`). The same holds for the bound of a function
(`Program.functionBound_exact`).
-/

namespace Timebound

/-! ## Costs without a limit -/

mutual

/-- The cost of an expression, given the price of each callee. -/
def Expr.exactCycles (price : FunctionId → Nat) : Expr → Nat
  | .lit _ => CycleCost.literal
  | .var _ => CycleCost.localRead
  | .global _ => CycleCost.globalRead
  | .load _ index => CycleCost.load + index.exactCycles price
  | .unary _ _ operand => CycleCost.simple + operand.exactCycles price
  | .binary op _ left right => op.cycles + (left.exactCycles price + right.exactCycles price)
  | .call id args => Args.exactCycles price CycleCost.call args + price id

/-- A running total plus the costs of arguments. -/
def Args.exactCycles (price : FunctionId → Nat) (total : Nat) : List Expr → Nat
  | [] => total
  | arg :: args => Args.exactCycles price (total + arg.exactCycles price) args

end

/-- The cost of an optional expression; nothing when there is none. -/
def Expr.exactOptional (price : FunctionId → Nat) (e : Option Expr) : Nat :=
  (e.map (Expr.exactCycles price)).getD 0

/-- The cost of one turn of a loop with these costs of its condition and its body. -/
def turnCycles (test body : Nat) : Nat := test + body + CycleCost.loopTurn

mutual

/-- The cost of a statement. A loop without a bound has none and counts as never entered. -/
def Stmt.exactCycles (price : FunctionId → Nat) : Stmt → Nat
  | .bind _ _ value | .assign _ value => CycleCost.assign + value.exactCycles price
  | .setGlobal _ value => CycleCost.globalWrite + value.exactCycles price
  | .store _ index value => CycleCost.store + (index.exactCycles price + value.exactCycles price)
  | .emit _ value => CycleCost.emit + value.exactCycles price
  | .eval value => value.exactCycles price
  | .branch cond thenBody elseBody _ =>
    cond.guard.exactCycles price + CycleCost.branch +
      max (Block.exactCycles price none 0 thenBody) (Block.exactCycles price none 0 elseBody)
  | .loop _ bound condition body =>
    CycleCost.loopEntry + Expr.exactOptional price condition + bound.limit?.getD 0 *
      turnCycles (Expr.exactOptional price condition) (Block.exactCycles price none 0 body)
  | .ret value => CycleCost.ret + Expr.exactOptional price value

/-- A running total plus the costs of statements that follow `previous`. -/
def Block.exactCycles (price : FunctionId → Nat) (previous : Option Stmt) (total : Nat) :
    List Stmt → Nat
  | [] => total
  | s :: rest =>
    Block.exactCycles price (some s) (total + (s.exactCycles price - s.discountAfter previous)) rest

end

/-! ## Sums and products on the way -/

mutual

/-- The sums formed on the way to the cost of an expression. -/
def Expr.sums (price : FunctionId → Nat) : Expr → List Nat
  | .lit _ | .var _ | .global _ => []
  | .load _ index => index.sums price ++ [CycleCost.load + index.exactCycles price]
  | .unary _ _ operand => operand.sums price ++ [CycleCost.simple + operand.exactCycles price]
  | .binary op _ left right =>
    left.sums price ++ (right.sums price ++ [left.exactCycles price + right.exactCycles price,
      op.cycles + (left.exactCycles price + right.exactCycles price)])
  | .call id args =>
    Args.sums price CycleCost.call args ++ [Args.exactCycles price CycleCost.call args + price id]

/-- The sums formed while arguments are added to a running total. -/
def Args.sums (price : FunctionId → Nat) (total : Nat) : List Expr → List Nat
  | [] => []
  | arg :: args => arg.sums price ++ (total + arg.exactCycles price) ::
    Args.sums price (total + arg.exactCycles price) args

end

/-- The sums formed on the way to the cost of an optional expression. -/
def Expr.optionalSums (price : FunctionId → Nat) (e : Option Expr) : List Nat :=
  (e.map (Expr.sums price)).getD []

/-- The sums and the product formed from the parts of a loop. -/
def loopSums (trips test body : Nat) : List Nat :=
  [test + body, turnCycles test body, trips * turnCycles test body, CycleCost.loopEntry + test,
    CycleCost.loopEntry + test + trips * turnCycles test body]

mutual

/-- The sums and products formed on the way to the cost of a statement. -/
def Stmt.sums (price : FunctionId → Nat) : Stmt → List Nat
  | .bind _ _ value | .assign _ value =>
    value.sums price ++ [CycleCost.assign + value.exactCycles price]
  | .setGlobal _ value => value.sums price ++ [CycleCost.globalWrite + value.exactCycles price]
  | .store _ index value =>
    index.sums price ++ (value.sums price ++ [index.exactCycles price + value.exactCycles price,
      CycleCost.store + (index.exactCycles price + value.exactCycles price)])
  | .emit _ value => value.sums price ++ [CycleCost.emit + value.exactCycles price]
  | .eval value => value.sums price
  | .branch cond thenBody elseBody _ =>
    cond.guard.sums price ++ (Block.sums price none 0 thenBody ++
      (Block.sums price none 0 elseBody ++
      [cond.guard.exactCycles price + CycleCost.branch,
        cond.guard.exactCycles price + CycleCost.branch + max
          (Block.exactCycles price none 0 thenBody) (Block.exactCycles price none 0 elseBody)]))
  | .loop _ bound condition body =>
    Expr.optionalSums price condition ++ (Block.sums price none 0 body ++
      loopSums (bound.limit?.getD 0) (Expr.exactOptional price condition)
        (Block.exactCycles price none 0 body))
  | .ret value => Expr.optionalSums price value ++ [CycleCost.ret + Expr.exactOptional price value]

/-- The sums and products formed while statements are added to a running total. -/
def Block.sums (price : FunctionId → Nat) (previous : Option Stmt) (total : Nat) :
    List Stmt → List Nat
  | [] => []
  | s :: rest =>
    s.sums price ++ (total + (s.exactCycles price - s.discountAfter previous)) ::
      Block.sums price (some s) (total + (s.exactCycles price - s.discountAfter previous)) rest

end

/-! ## Costs with the limit -/

/-- A cost that is computed with the limit and is a number exactly when all numbers on the way
to it are below the limit. -/
def Exact (cost : Except Cause Nat) (value : Nat) (sums : List Nat) : Prop :=
  ∀ total, cost = .ok total ↔ total = value ∧ ∀ sum ∈ sums, sum < cycleLimit

namespace Exact

/-- A number that needs no sum is exact. -/
theorem ok (value : Nat) : Exact (.ok value) value [] := by
  intro total
  simp [eq_comm]

/-- A checked number is exact. -/
theorem checked (value : Nat) : Exact (checkedCycles value) value [value] := by
  intro total
  rw [checkedCycles_eq_ok_iff]
  simp [eq_comm]

/-- What is exact given an exact number is exact. -/
theorem bind {cost : Except Cause Nat} {next : Nat → Except Cause Nat} {value other : Nat}
    {sums more : List Nat} (first : Exact cost value sums)
    (second : Exact (next value) other more) : Exact (cost >>= next) other (sums ++ more) := by
  intro total
  rw [bind_eq_ok_iff]
  constructor
  · rintro ⟨middle, done, later⟩
    obtain ⟨rfl, small⟩ := (first middle).mp done
    obtain ⟨same, others⟩ := (second total).mp later
    exact ⟨same, List.forall_mem_append.mpr ⟨small, others⟩⟩
  · rintro ⟨same, small⟩
    obtain ⟨early, late⟩ := List.forall_mem_append.mp small
    exact ⟨value, (first value).mpr ⟨rfl, early⟩, (second total).mpr ⟨same, late⟩⟩

end Exact

/-- Whether a statement is a loop without a bound. -/
def Stmt.endless : Stmt → Bool
  | .loop _ bound _ _ => bound.limit?.isNone
  | _ => false

/-- What stands in some statements of a block stands in the block. -/
theorem Block.Holds.mono {block larger : Block} {held : Stmt} (place : Block.Holds block held)
    (part : block ⊆ larger) : Block.Holds larger held := by
  cases place with
  | here listed => exact .here (part listed)
  | nested listed inside deeper => exact .nested (part listed) inside deeper

section Known

variable (price : FunctionId → Nat)

mutual

/-- The cost of an expression is exact if the price of every callee is known. -/
theorem Expr.exact : ∀ e : Expr,
    Exact (e.cycles fun id => .ok (price id)) (e.exactCycles price) (e.sums price)
  | .lit _ | .var _ | .global _ => .ok _
  | .load _ index => (Expr.exact index).bind (.checked _)
  | .unary _ _ operand => (Expr.exact operand).bind (.checked _)
  | .binary _ _ left right =>
    (Expr.exact left).bind ((Expr.exact right).bind ((Exact.checked _).bind (.checked _)))
  | .call id args => (Args.exact args CycleCost.call).bind ((Exact.ok (price id)).bind (.checked _))

/-- The cost of arguments is exact if the price of every callee is known. -/
theorem Args.exact : ∀ (args : List Expr) (total : Nat),
    Exact (Args.cycles (fun id => .ok (price id)) total args) (Args.exactCycles price total args)
      (Args.sums price total args)
  | [], _ => .ok _
  | arg :: args, _ => (Expr.exact arg).bind ((Exact.checked _).bind (Args.exact args _))

end

/-- The cost of an optional expression is exact if the price of every callee is known. -/
theorem Expr.exact_optional (e : Option Expr) :
    Exact (Expr.optionalCycles (fun id => .ok (price id)) e) (Expr.exactOptional price e)
      (Expr.optionalSums price e) := by
  cases e with
  | none => exact .ok _
  | some e => exact e.exact price

mutual

/-- The cost of a statement without endless loops is exact if the price of every callee is
known. -/
theorem Stmt.exact : ∀ s : Stmt, (∀ held, Block.Holds [s] held → held.endless = false) →
    Exact (s.cycles fun id => .ok (price id)) (s.exactCycles price) (s.sums price)
  | .bind _ _ value, _ | .assign _ value, _ | .setGlobal _ value, _ | .emit _ value, _ =>
    (value.exact price).bind (.checked _)
  | .store _ index value, _ =>
    (index.exact price).bind ((value.exact price).bind ((Exact.checked _).bind (.checked _)))
  | .eval value, _ => value.exact price
  | .branch cond thenBody elseBody _, bounded =>
    (cond.guard.exact price).bind ((Block.exact thenBody none 0 fun held place =>
      bounded held (.nested List.mem_cons_self List.mem_cons_self place)).bind
      ((Block.exact elseBody none 0 fun held place =>
        bounded held (.nested List.mem_cons_self (List.mem_cons_of_mem _ List.mem_cons_self)
          place)).bind ((Exact.checked _).bind (.checked _))))
  | .loop counter bound condition body, bounded => by
    have finite := bounded _ (.here List.mem_cons_self)
    have inner := Block.exact body none 0 fun held place =>
      bounded held (.nested List.mem_cons_self List.mem_cons_self place)
    cases limit : bound.limit? with
    | none => simp [Stmt.endless, limit] at finite
    | some trips =>
      simp only [Stmt.cycles, Stmt.exactCycles, Stmt.sums, limit]
      exact (Expr.exact_optional price condition).bind (inner.bind ((Exact.checked _).bind
        ((Exact.checked _).bind ((Exact.checked _).bind ((Exact.checked _).bind (.checked _))))))
  | .ret value, _ => (Expr.exact_optional price value).bind (.checked _)

/-- The cost of statements without endless loops is exact if the price of every callee is
known. -/
theorem Block.exact : ∀ (block : List Stmt) (previous : Option Stmt) (total : Nat),
    (∀ held, Block.Holds block held → held.endless = false) →
    Exact (Block.cyclesFrom (fun id => .ok (price id)) previous total block)
      (Block.exactCycles price previous total block) (Block.sums price previous total block)
  | [], _, _, _ => .ok _
  | s :: rest, _, _, bounded =>
    (Stmt.exact s fun held place => bounded held (place.mono (by simp))).bind
      ((Exact.checked _).bind (Block.exact rest _ _ fun held place =>
        bounded held (place.mono (List.subset_cons_self _ _))))

end

end Known

/-! ## Endless loops -/

section Endless

variable {callee : FunctionId → Except Cause Nat}

/-- Every statement of a block with a cost has one. -/
theorem Block.exists_cycles_of_mem {block : Block} {s : Stmt} (listed : s ∈ block) :
    ∀ {previous : Option Stmt} {start total : Nat},
      Block.cyclesFrom callee previous start block = .ok total →
        ∃ cost, s.cycles callee = .ok cost := by
  induction block with
  | nil => exact absurd listed List.not_mem_nil
  | cons first rest ih =>
    intro previous start total known
    simp only [Block.cyclesFrom, bind_eq_ok_iff] at known
    obtain ⟨cost, done, _, _, later⟩ := known
    rcases List.mem_cons.mp listed with rfl | behind
    · exact ⟨cost, done⟩
    · exact ih behind later

/-- Every nested block of a statement with a cost has one. -/
theorem Stmt.exists_cycles_of_block {s : Stmt} {cost : Nat} (known : s.cycles callee = .ok cost)
    {inner : Block} (part : inner ∈ s.blocks) :
    ∃ total, Block.cyclesFrom callee none 0 inner = .ok total := by
  cases s with
  | branch cond thenBody elseBody likelihood =>
    simp only [Stmt.cycles, bind_eq_ok_iff] at known
    obtain ⟨_, _, thenCost, thenDone, elseCost, elseDone, _⟩ := known
    simp only [Stmt.blocks, List.mem_cons, List.not_mem_nil, or_false] at part
    rcases part with rfl | rfl
    · exact ⟨thenCost, thenDone⟩
    · exact ⟨elseCost, elseDone⟩
  | loop counter bound condition body =>
    cases List.mem_singleton.mp part
    cases limit : bound.limit? with
    | none => simp [Stmt.cycles, limit] at known
    | some trips =>
      simp only [Stmt.cycles, limit, bind_eq_ok_iff] at known
      obtain ⟨_, _, bodyCost, bodyDone, _⟩ := known
      exact ⟨bodyCost, bodyDone⟩
  | _ => exact absurd part List.not_mem_nil

/-- A block with a cost holds no endless loop. -/
theorem Block.not_endless_of_cycles {block : Block} {held : Stmt} (place : Block.Holds block held) :
    ∀ {previous : Option Stmt} {start total : Nat},
      Block.cyclesFrom callee previous start block = .ok total → held.endless = false := by
  induction place with
  | @here block s listed =>
    intro previous start total known
    obtain ⟨cost, done⟩ := Block.exists_cycles_of_mem listed known
    cases s with
    | loop counter bound condition body =>
      cases limit : bound.limit? with
      | none => simp [Stmt.cycles, limit] at done
      | some trips => simp [Stmt.endless, limit]
    | _ => rfl
  | nested listed part _ ih =>
    intro previous start total known
    obtain ⟨cost, done⟩ := Block.exists_cycles_of_mem listed known
    obtain ⟨_, inside⟩ := Stmt.exists_cycles_of_block done part
    exact ih inside

end Endless

/-! ## Dependence on prices -/

section Prices

variable {price other : FunctionId → Nat}

mutual

/-- The exact cost of an expression depends on the prices of the functions it calls only. -/
theorem Expr.exactCycles_congr : ∀ e : Expr,
    (∀ id args, .call id args ∈ e.nodes → price id = other id) →
      e.exactCycles price = e.exactCycles other
  | .lit _, _ | .var _, _ | .global _, _ => rfl
  | .load _ index, same => by
    rw [Expr.exactCycles, Expr.exactCycles, Expr.exactCycles_congr index fun id args called =>
      same id args (by simp [Expr.nodes, called])]
  | .unary _ _ operand, same => by
    rw [Expr.exactCycles, Expr.exactCycles, Expr.exactCycles_congr operand fun id args called =>
      same id args (by simp [Expr.nodes, called])]
  | .binary _ _ left right, same => by
    have first := Expr.exactCycles_congr left fun id args called =>
      same id args (by simp [Expr.nodes, called])
    have second := Expr.exactCycles_congr right fun id args called =>
      same id args (by simp [Expr.nodes, called])
    rw [Expr.exactCycles, Expr.exactCycles, first, second]
  | .call id passed, same => by
    have inner := Args.exactCycles_congr passed CycleCost.call fun id args called =>
      same id args (by simp [Expr.nodes, called])
    have own := same id passed (by simp [Expr.nodes])
    rw [Expr.exactCycles, Expr.exactCycles, inner, own]

/-- The exact cost of arguments depends on the prices of the functions they call only. -/
theorem Args.exactCycles_congr : ∀ (passed : List Expr) (total : Nat),
    (∀ id args, .call id args ∈ Args.nodes passed → price id = other id) →
      Args.exactCycles price total passed = Args.exactCycles other total passed
  | [], _, _ => rfl
  | arg :: passed, total, same => by
    have first := Expr.exactCycles_congr arg fun id args called =>
      same id args (by simp [Args.nodes, called])
    rw [Args.exactCycles, Args.exactCycles, first]
    exact Args.exactCycles_congr passed _ fun id args called =>
      same id args (by simp [Args.nodes, called])

end

/-- The exact cost of an optional expression depends on the prices of the functions it calls
only. -/
theorem Expr.exactOptional_congr {e : Option Expr}
    (same : ∀ id args, .call id args ∈ e.toList.flatMap Expr.nodes → price id = other id) :
    Expr.exactOptional price e = Expr.exactOptional other e := by
  cases e with
  | none => rfl
  | some e => exact Expr.exactCycles_congr e fun id args called => same id args (by simp [called])

mutual

/-- The exact cost of a statement depends on the prices of the functions it calls only. -/
theorem Stmt.exactCycles_congr : ∀ s : Stmt,
    (∀ id args, .call id args ∈ s.nodes → price id = other id) →
      s.exactCycles price = s.exactCycles other
  | .bind _ _ value, same | .assign _ value, same | .setGlobal _ value, same
  | .emit _ value, same | .eval value, same => by
    have inner := Expr.exactCycles_congr value fun id args called =>
      same id args (by simp [Stmt.nodes, called])
    simp only [Stmt.exactCycles, inner]
  | .store _ index value, same => by
    have first := Expr.exactCycles_congr index fun id args called =>
      same id args (by simp [Stmt.nodes, called])
    have second := Expr.exactCycles_congr value fun id args called =>
      same id args (by simp [Stmt.nodes, called])
    simp only [Stmt.exactCycles, first, second]
  | .branch cond thenBody elseBody _, same => by
    have decided := Expr.exactCycles_congr cond.guard fun id args called =>
      same id args (by simp [Stmt.nodes, cond.nodes_guard_subset called])
    have thenSame := Block.exactCycles_congr thenBody none 0 fun id args called =>
      same id args (by simp [Stmt.nodes, called])
    have elseSame := Block.exactCycles_congr elseBody none 0 fun id args called =>
      same id args (by simp [Stmt.nodes, called])
    simp only [Stmt.exactCycles, decided, thenSame, elseSame]
  | .loop _ _ condition body, same => by
    have decided : Expr.exactOptional price condition = Expr.exactOptional other condition :=
      Expr.exactOptional_congr fun id args called => same id args
        (by rw [Stmt.nodes]; exact List.mem_append_left _ called)
    have bodySame := Block.exactCycles_congr body none 0 fun id args called =>
      same id args (by simp [Stmt.nodes, called])
    simp only [Stmt.exactCycles, decided, bodySame]
  | .ret value, same => by
    have inner : Expr.exactOptional price value = Expr.exactOptional other value :=
      Expr.exactOptional_congr fun id args called => same id args (by rwa [Stmt.nodes])
    simp only [Stmt.exactCycles, inner]

/-- The exact cost of statements depends on the prices of the functions they call only. -/
theorem Block.exactCycles_congr : ∀ (block : Block) (previous : Option Stmt) (total : Nat),
    (∀ id args, .call id args ∈ Block.nodes block → price id = other id) →
      Block.exactCycles price previous total block = Block.exactCycles other previous total block
  | [], _, _, _ => rfl
  | s :: rest, previous, total, same => by
    have first := Stmt.exactCycles_congr s fun id args called =>
      same id args (by simp [Block.nodes, called])
    rw [Block.exactCycles, Block.exactCycles, first]
    exact Block.exactCycles_congr rest _ _ fun id args called =>
      same id args (by simp [Block.nodes, called])

end

end Prices

/-! ## Bounds of functions -/

/-- Prices seen from the body of a function: a recursive call costs nothing there. -/
def outside (price : FunctionId → Nat) (self callee : FunctionId) : Nat :=
  if callee = self then 0 else price callee

namespace Function

variable (price : FunctionId → Nat) (id : FunctionId) (function : Function)

/-- The number of activations that a function which calls itself is charged for. -/
def activations? : Option Nat := if function.calls id then function.recursionLimit else none

/-- The exact cost of one activation. -/
def exactActivation : Nat := Block.exactCycles (outside price id) none 0 function.body

/-- The exact bound of a function, given the bounds of the others. -/
def exactBound : Nat := function.exactActivation price id * (function.activations? id).getD 1

/-- The sums and products formed on the way to the exact bound of a function. -/
def sums : List Nat :=
  Block.sums (outside price id) none 0 function.body ++
    ((function.activations? id).map (function.exactActivation price id * ·)).toList

/-- The exact bound of a function depends on the bounds of the functions it calls only. -/
theorem exactBound_congr {price other : FunctionId → Nat} {id : FunctionId} {function : Function}
    (same : ∀ callee ∈ function.callees, callee ≠ id → price callee = other callee) :
    function.exactBound price id = function.exactBound other id := by
  have body : function.exactActivation price id = function.exactActivation other id := by
    refine Block.exactCycles_congr function.body none 0 fun callee args called => ?_
    unfold outside
    split
    · rfl
    · rename_i apart
      exact same callee (Block.mem_callees.mpr ⟨args, called⟩) apart
  rw [exactBound, exactBound, body]

end Function

namespace Program

/-- The bound of a function without endless loops is exact, if the bounds of its callees are
known. -/
theorem functionBound_exact {program : Program} {bounds : Table FunctionId Nat}
    {price : FunctionId → Nat} {id : FunctionId} {function : Function}
    (priced : ∀ callee ∈ function.callees, program.activationCycles bounds id
      function.recursionLimit.isSome callee = .ok (outside price id callee))
    (bounded : ∀ held, Block.Holds function.body held → held.endless = false) :
    Exact (program.functionBound bounds id function) (function.exactBound price id)
      (function.sums price id) := by
  have known : Block.cycles (program.activationCycles bounds id function.recursionLimit.isSome)
      function.body = Block.cyclesFrom (fun callee => .ok (outside price id callee)) none 0
        function.body :=
    Block.cyclesFrom_congr function.body none 0 fun callee args called =>
      priced callee (Block.mem_callees.mpr ⟨args, called⟩)
  unfold functionBound Function.exactBound Function.sums
  dsimp only
  rw [known]
  refine (Block.exact (outside price id) function.body none 0 bounded).bind ?_
  unfold Function.activations?
  cases function.recursionLimit with
  | none =>
    rw [ite_self, Option.getD_none, Nat.mul_one]
    exact .ok _
  | some limit =>
    dsimp only
    split
    · exact .checked _
    · rw [Option.getD_none, Nat.mul_one]
      exact .ok _

end Program

end Timebound
