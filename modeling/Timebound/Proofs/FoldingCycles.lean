import Timebound.Proofs.CycleSavings
import Timebound.Proofs.FoldingFixpoint

/-!
# Folding makes nothing dearer

A literal is the cheapest expression, so folding an operator lowers its cost. Two rules look
beyond a node. Leading negations of a branch condition are free, and may be folded into a literal
that is not, but what they stood before costs as much. A load at a literal index may save cycles
behind another one; folding keeps literal indices and makes more of them, so savings only grow.
Hence a folded body costs no more (`Block.foldsCheaply_fold`), and neither do its nodes
(`Block.nodeCycles_fold`).
-/

namespace Timebound

/-! ## Expressions -/

/-- No node is cheaper than a literal. -/
theorem Expr.literal_le_ownCycles (e : Expr) : CycleCost.literal ≤ e.ownCycles := by
  cases e with
  | binary op type left right =>
    rw [Expr.ownCycles]
    cases op <;> decide
  | _ => exact Nat.le_of_ble_eq_true rfl

section Costs

variable {callee : FunctionId → Except Cause Nat}

/-- No expression is cheaper than a literal. -/
theorem Expr.literal_le_cycles {e : Expr} {cost : Nat} (known : e.cycles callee = .ok cost) :
    CycleCost.literal ≤ cost := by
  refine Nat.le_trans e.literal_le_ownCycles ?_
  cases e with
  | lit value | var name | global id =>
    cases known
    exact Nat.le_refl _
  | load id index | unary op type operand =>
    simp only [Expr.cycles, bind_eq_ok_iff, checkedCycles_eq_ok_iff] at known
    obtain ⟨inner, _, sum, _⟩ := known
    rw [Expr.ownCycles]
    omega
  | binary op type left right =>
    simp only [Expr.cycles, bind_eq_ok_iff, checkedCycles_eq_ok_iff] at known
    obtain ⟨_, _, _, _, operands, _, sum, _⟩ := known
    rw [Expr.ownCycles]
    omega
  | call id args =>
    simp only [Expr.cycles, bind_eq_ok_iff, checkedCycles_eq_ok_iff] at known
    obtain ⟨passing, passed, _, _, sum, _⟩ := known
    have entry := Args.le_cycles args passed
    rw [Expr.ownCycles]
    omega

/-- Folding the root of an expression makes it no dearer. -/
theorem Expr.lowers_collapse (e : Expr) : Lowers (e.cycles callee) (e.collapse.cycles callee) := by
  unfold Expr.collapse
  cases e.folded? with
  | none => exact .refl _
  | some value => exact fun cost known => ⟨_, e.literal_le_cycles known, rfl⟩

mutual

/-- A folded expression costs no more. -/
theorem Expr.lowers_fold : ∀ e : Expr, Lowers (e.cycles callee) (e.fold.cycles callee)
  | .lit _ | .var _ | .global _ => .refl _
  | .load _ index => by
    simp only [Expr.fold, Expr.cycles]
    exact (Expr.lowers_fold index).bind fun cost less smaller => .checked (by omega)
  | .unary op type operand => by
    refine Lowers.trans ?_ (Expr.unary op type operand.fold).lowers_collapse
    simp only [Expr.cycles]
    exact (Expr.lowers_fold operand).bind fun cost less smaller => .checked (by omega)
  | .binary op type left right => by
    refine Lowers.trans ?_ (Expr.binary op type left.fold right.fold).lowers_collapse
    simp only [Expr.cycles]
    refine (Expr.lowers_fold left).bind fun leftCost leftLess first =>
      (Expr.lowers_fold right).bind fun rightCost rightLess second => ?_
    exact (Lowers.checked (by omega)).bind fun cost less smaller => .checked (by omega)
  | .call id args => by
    simp only [Expr.fold, Expr.cycles]
    refine (Args.lowers_fold args (Nat.le_refl _)).bind fun passing newPassing passed =>
      (Lowers.refl (callee id)).bind fun activation newActivation run => ?_
    exact .checked (by omega)

/-- Folded arguments cost no more. -/
theorem Args.lowers_fold : ∀ (args : List Expr) {start newStart : Nat}, newStart ≤ start →
    Lowers (Args.cycles callee start args) (Args.cycles callee newStart (Args.fold args))
  | [], start, newStart, sofar => by
    intro cost known
    cases known
    exact ⟨newStart, sofar, rfl⟩
  | arg :: args, start, newStart, sofar => by
    simp only [Args.fold, Args.cycles]
    refine (Expr.lowers_fold arg).bind fun cost less smaller => ?_
    exact (Lowers.checked (by omega)).bind fun total newTotal lower => Args.lowers_fold args lower

end

/-- A folded optional expression costs no more. -/
theorem Expr.optionalLowers_fold (e : Option Expr) :
    Lowers (Expr.optionalCycles callee e) (Expr.optionalCycles callee (e.map Expr.fold)) := by
  cases e with
  | none => exact .refl _
  | some e => exact e.lowers_fold

/-- A condition costs no more without its leading negations. -/
theorem Expr.lowers_guard (e : Expr) : Lowers (e.cycles callee) (e.guard.cycles callee) := by
  fun_induction Expr.guard e with
  | case1 type operand ih =>
    refine Lowers.trans (fun cost known => ?_) ih
    simp only [Expr.cycles, bind_eq_ok_iff, checkedCycles_eq_ok_iff] at known
    obtain ⟨less, inner, sum, _⟩ := known
    exact ⟨less, by omega, inner⟩
  | case2 other _ => exact .refl _

/-- The guard of a folded condition costs no more. -/
theorem Expr.lowers_guard_fold (e : Expr) :
    Lowers (e.guard.cycles callee) (e.fold.guard.cycles callee) := by
  fun_induction Expr.guard e with
  | case1 type operand ih =>
    rw [Expr.fold, Expr.collapse]
    cases (Expr.unary .not type operand.fold).folded? with
    | none => exact ih
    | some value => exact fun cost known => ⟨_, Expr.literal_le_cycles known, rfl⟩
  | case2 other _ => exact other.lowers_fold.trans other.fold.lowers_guard

/-! ## Savings of loads -/

/-- A load at a literal index is one after folding. -/
theorem Stmt.literalLoad?_fold {s : Stmt} {place : GlobalId × Int}
    (loads : s.literalLoad? = some place) : s.fold.literalLoad? = some place := by
  unfold Stmt.literalLoad? at loads
  split at loads
  · exact loads
  · cases loads

/-- A folded statement saves no less behind a folded one. -/
theorem Stmt.discountAfter_fold (previous : Option Stmt) (s : Stmt) :
    s.discountAfter previous ≤ s.fold.discountAfter (previous.map Stmt.fold) := by
  unfold Stmt.discountAfter
  split
  · rename_i follows
    rw [Stmt.any_loadsNext, Option.any_eq_true] at follows
    obtain ⟨place, loaded, next⟩ := follows
    obtain ⟨first, rfl, loads⟩ := Option.bind_eq_some_iff.mp loaded
    have later := Stmt.literalLoad?_fold (of_decide_eq_true next)
    rw [if_pos]
    rw [Stmt.any_loadsNext, Option.map_some, Option.bind_some, Stmt.literalLoad?_fold loads]
    exact decide_eq_true later
  · exact Nat.zero_le _

/-! ## Statements -/

/-- A block that costs no more than another one behind the folded statement before it. -/
def Block.FoldsCheaply (callee : FunctionId → Except Cause Nat) (block folded : Block) : Prop :=
  ∀ previous total, Block.Costs callee previous block total →
    ∃ less, less ≤ total ∧ Block.Costs callee (previous.map Stmt.fold) folded less

/-- A block that costs no more has a lower cost. -/
theorem Block.FoldsCheaply.lowers {block folded : Block}
    (cheaper : Block.FoldsCheaply callee block folded) :
    Lowers (Block.cycles callee block) (Block.cycles callee folded) := by
  intro total known
  obtain ⟨costs, below⟩ := Block.cycles_eq_ok_iff.mp known
  obtain ⟨less, smaller, recosts⟩ := cheaper none total costs
  exact ⟨less, smaller, Block.cycles_eq_ok_iff.mpr ⟨recosts, by omega⟩⟩

mutual

/-- A folded statement costs no more. -/
theorem Stmt.lowers_fold : ∀ s : Stmt, Lowers (s.cycles callee) (s.fold.cycles callee)
  | .bind _ _ value | .assign _ value | .setGlobal _ value | .emit _ value => by
    simp only [Stmt.fold, Stmt.cycles]
    exact value.lowers_fold.bind fun cost less smaller => .checked (by omega)
  | .store _ index value => by
    simp only [Stmt.fold, Stmt.cycles]
    refine index.lowers_fold.bind fun indexCost newIndex first =>
      value.lowers_fold.bind fun valueCost newValue second => ?_
    exact (Lowers.checked (by omega)).bind fun cost less smaller => .checked (by omega)
  | .eval value => value.lowers_fold
  | .branch cond thenBody elseBody _ =>
    Stmt.lowers_branch cond.lowers_guard_fold (Block.foldsCheaply_fold thenBody).lowers
      (Block.foldsCheaply_fold elseBody).lowers _ _
  | .loop _ _ condition body =>
    Stmt.lowers_loop (Expr.optionalLowers_fold condition) (Block.foldsCheaply_fold body).lowers
  | .ret value => by
    simp only [Stmt.fold, Stmt.cycles]
    exact (Expr.optionalLowers_fold value).bind fun cost less smaller => .checked (by omega)

/-- A folded block costs no more. -/
theorem Block.foldsCheaply_fold : ∀ block : List Stmt,
    Block.FoldsCheaply callee block (Block.fold block)
  | [] => by
    rintro previous _ ⟨⟩
    exact ⟨0, Nat.le_refl 0, .nil _⟩
  | s :: rest => by
    intro previous total costs
    cases costs with
    | cons first behind =>
      obtain ⟨less, smaller, refirst⟩ := Stmt.lowers_fold s _ first
      obtain ⟨sum, lower, rebehind⟩ := Block.foldsCheaply_fold rest (some s) _ behind
      have saved := s.discountAfter_fold previous
      exact ⟨_, by omega, .cons refirst rebehind⟩

end

end Costs

/-! ## Nodes -/

/-- A relation of rows of nodes that holds between every tree and the folded one. -/
structure RelatesFolds (related : List Expr → List Expr → Prop) : Prop where
  /-- It holds for no nodes. -/
  nothing : related [] []
  /-- It holds for two rows together if it holds for each. -/
  together : ∀ {a b c d}, related a b → related c d → related (a ++ c) (b ++ d)
  /-- It holds for every tree. -/
  each : ∀ e : Expr, related e.nodes e.fold.nodes

section Nodes

variable {related : List Expr → List Expr → Prop}

/-- Such a relation holds for optional expressions. -/
theorem RelatesFolds.optional (relates : RelatesFolds related) (e : Option Expr) :
    related (e.toList.flatMap Expr.nodes) ((e.map Expr.fold).toList.flatMap Expr.nodes) := by
  cases e with
  | none => exact relates.nothing
  | some e => simpa using relates.each e

mutual

/-- Such a relation holds for statements. -/
theorem RelatesFolds.stmt (relates : RelatesFolds related) : ∀ s : Stmt,
    related s.nodes s.fold.nodes
  | .bind _ _ value | .assign _ value | .setGlobal _ value | .emit _ value | .eval value =>
    relates.each value
  | .store _ index value => relates.together (relates.each index) (relates.each value)
  | .branch cond thenBody elseBody _ => relates.together (relates.each cond)
    (relates.together (relates.block thenBody) (relates.block elseBody))
  | .loop _ _ condition body =>
    relates.together (relates.optional condition) (relates.block body)
  | .ret value => relates.optional value

/-- Such a relation holds for blocks. -/
theorem RelatesFolds.block (relates : RelatesFolds related) : ∀ block : List Stmt,
    related (Block.nodes block) (Block.nodes (Block.fold block))
  | [] => relates.nothing
  | s :: rest => relates.together (relates.stmt s) (relates.block rest)

end

end Nodes

/-- The costs of nodes without their operands. -/
def nodeCosts (nodes : List Expr) : Nat := nodes.foldr (fun e rest => e.ownCycles + rest) 0

/-- The costs of nodes add up. -/
theorem nodeCosts_append (first second : List Expr) :
    nodeCosts (first ++ second) = nodeCosts first + nodeCosts second := by
  induction first with
  | nil => exact (Nat.zero_add _).symm
  | cons e rest ih =>
    change e.ownCycles + nodeCosts (rest ++ second) = e.ownCycles + nodeCosts rest + _
    rw [ih, Nat.add_assoc]

/-- The nodes of an expression cost no more after a fold at its root. -/
theorem Expr.nodeCosts_collapse {e : Expr} {below : List Expr} (parts : e.nodes = e :: below) :
    nodeCosts e.collapse.nodes ≤ e.ownCycles + nodeCosts below := by
  unfold Expr.collapse
  cases e.folded? with
  | none =>
    rw [Option.map_none, Option.getD_none, parts]
    exact Nat.le_refl _
  | some value => exact Nat.le_trans e.literal_le_ownCycles (Nat.le_add_right _ _)

mutual

/-- The nodes of a folded expression cost no more. -/
theorem Expr.nodeCosts_fold : ∀ e : Expr, nodeCosts e.fold.nodes ≤ nodeCosts e.nodes
  | .lit _ | .var _ | .global _ => Nat.le_refl _
  | .load _ index => Nat.add_le_add_left (Expr.nodeCosts_fold index) _
  | .unary op type operand =>
    Nat.le_trans (Expr.nodeCosts_collapse rfl) (Nat.add_le_add_left (Expr.nodeCosts_fold operand) _)
  | .binary op type left right => by
    have first := Expr.nodeCosts_fold left
    have second := Expr.nodeCosts_fold right
    refine Nat.le_trans (Expr.nodeCosts_collapse rfl) (Nat.add_le_add_left ?_ op.cycles)
    change nodeCosts _ ≤ nodeCosts (left.nodes ++ right.nodes)
    rw [nodeCosts_append, nodeCosts_append]
    omega
  | .call _ args => Nat.add_le_add_left (Args.nodeCosts_fold args) _

/-- The nodes of folded arguments cost no more. -/
theorem Args.nodeCosts_fold : ∀ args : List Expr,
    nodeCosts (Args.nodes (Args.fold args)) ≤ nodeCosts (Args.nodes args)
  | [] => Nat.le_refl _
  | arg :: args => by
    have first := Expr.nodeCosts_fold arg
    have others := Args.nodeCosts_fold args
    rw [Args.fold, Args.nodes, Args.nodes, nodeCosts_append, nodeCosts_append]
    omega

end

/-- The nodes of a folded block cost no more. -/
theorem Block.nodeCycles_fold (block : Block) :
    Block.nodeCycles (Block.fold block) ≤ Block.nodeCycles block := by
  have relates : RelatesFolds fun old new => nodeCosts new ≤ nodeCosts old := by
    refine ⟨Nat.le_refl _, fun first second => ?_, Expr.nodeCosts_fold⟩
    rw [nodeCosts_append, nodeCosts_append]
    exact Nat.add_le_add first second
  exact relates.block block

end Timebound
