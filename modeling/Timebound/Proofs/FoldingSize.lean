import Timebound.Folding

/-!
# Folding makes bodies smaller

Every fold replaces an operator and its operands by one literal, so a folded body is smaller by
at least the number of folds (`Block.size_fold`). A body in which nothing is counted as folded
has no operator on literals that could be (`Block.folded?_of_foldCount`).
-/

namespace Timebound

/-! ## Sizes -/

/-- Every expression has a node. -/
theorem Expr.size_pos (e : Expr) : 0 < e.size := by
  cases e <;> simp [Expr.size]

/-- Only operators fold, and they have an operand. -/
theorem Expr.two_le_size_of_folded {e : Expr} {value : Literal} (folds : e.folded? = some value) :
    2 ≤ e.size := by
  cases e with
  | unary op type operand =>
    have inner := operand.size_pos
    rw [Expr.size]
    omega
  | binary op type left right =>
    have first := left.size_pos
    rw [Expr.size]
    omega
  | _ => simp [Expr.folded?] at folds

/-- A fold at the root leaves one node. -/
theorem Expr.size_collapse (e : Expr) : e.collapse.size + e.collapses ≤ e.size := by
  unfold Expr.collapse Expr.collapses
  cases folds : e.folded? with
  | none => exact Nat.le_refl _
  | some value => exact e.two_le_size_of_folded folds

mutual

/-- A folded expression is smaller by the number of folds. -/
theorem Expr.size_fold : ∀ e : Expr, e.fold.size + e.foldCount ≤ e.size
  | .lit _ | .var _ | .global _ => Nat.le_refl _
  | .load _ index => by
    have inner := Expr.size_fold index
    simp only [Expr.fold, Expr.foldCount, Expr.size]
    omega
  | .unary op type operand => by
    have inner := Expr.size_fold operand
    have root := (Expr.unary op type operand.fold).size_collapse
    simp only [Expr.fold, Expr.foldCount, Expr.size] at root ⊢
    omega
  | .binary op type left right => by
    have first := Expr.size_fold left
    have second := Expr.size_fold right
    have root := (Expr.binary op type left.fold right.fold).size_collapse
    simp only [Expr.fold, Expr.foldCount, Expr.size] at root ⊢
    omega
  | .call _ args => by
    have inner := Args.size_fold args
    simp only [Expr.fold, Expr.foldCount, Expr.size]
    omega

/-- Folded arguments are smaller by the number of folds. -/
theorem Args.size_fold : ∀ args : List Expr,
    Args.size (Args.fold args) + Args.foldCount args ≤ Args.size args
  | [] => Nat.le_refl _
  | arg :: args => by
    have first := Expr.size_fold arg
    have others := Args.size_fold args
    simp only [Args.fold, Args.foldCount, Args.size]
    omega

end

/-- A folded optional expression is smaller by the number of folds. -/
theorem Expr.optionalSize_fold (e : Option Expr) :
    ((e.map Expr.fold).map Expr.size).getD 0 + (e.map Expr.foldCount).getD 0 ≤
      (e.map Expr.size).getD 0 := by
  cases e with
  | none => exact Nat.le_refl _
  | some e => exact e.size_fold

mutual

/-- A folded statement is smaller by the number of folds. -/
theorem Stmt.size_fold : ∀ s : Stmt, s.fold.size + s.foldCount ≤ s.size
  | .bind _ _ value | .assign _ value | .setGlobal _ value | .emit _ value | .eval value => by
    have inner := value.size_fold
    simp only [Stmt.fold, Stmt.foldCount, Stmt.size]
    omega
  | .store _ index value => by
    have first := index.size_fold
    have second := value.size_fold
    simp only [Stmt.fold, Stmt.foldCount, Stmt.size]
    omega
  | .branch cond thenBody elseBody _ => by
    have guard := cond.size_fold
    have first := Block.size_fold thenBody
    have second := Block.size_fold elseBody
    simp only [Stmt.fold, Stmt.foldCount, Stmt.size]
    omega
  | .loop _ _ condition body => by
    have guard := Expr.optionalSize_fold condition
    have inner := Block.size_fold body
    simp only [Stmt.fold, Stmt.foldCount, Stmt.size]
    omega
  | .ret value => by
    have inner := Expr.optionalSize_fold value
    simp only [Stmt.fold, Stmt.foldCount, Stmt.size]
    omega

/-- A folded block is smaller by the number of folds. -/
theorem Block.size_fold : ∀ block : List Stmt,
    Block.size (Block.fold block) + Block.foldCount block ≤ Block.size block
  | [] => Nat.le_refl _
  | s :: rest => by
    have first := Stmt.size_fold s
    have others := Block.size_fold rest
    simp only [Block.fold, Block.foldCount, Block.size]
    omega

end

/-- Folding a block again and again makes it smaller by the number of folds. -/
theorem Block.size_foldRounds (rounds : Nat) (block : Block) :
    Block.size (Block.foldRounds rounds block).1 + (Block.foldRounds rounds block).2 ≤
      Block.size block := by
  induction rounds generalizing block with
  | zero => exact Nat.le_refl _
  | succ rounds ih =>
    unfold Block.foldRounds
    split
    · exact Nat.le_refl _
    · have once := Block.size_fold block
      have later := ih (Block.fold block)
      dsimp only
      omega

/-! ## What is left to fold -/

/-- Nothing folds at the root when no fold is counted there. -/
theorem Expr.collapses_eq_zero_iff {e : Expr} : e.collapses = 0 ↔ e.folded? = none := by
  unfold Expr.collapses
  cases e.folded? <;> simp

mutual

/-- When no fold is counted in an expression, folding leaves it alone and no node folds. -/
theorem Expr.folded?_of_foldCount : ∀ e : Expr, e.foldCount = 0 →
    e.fold = e ∧ ∀ node ∈ e.nodes, node.folded? = none
  | .lit _, _ | .var _, _ | .global _, _ => by simp [Expr.fold, Expr.nodes, Expr.folded?]
  | .load id index, settled => by
    have ⟨same, inner⟩ := Expr.folded?_of_foldCount index settled
    refine ⟨by rw [Expr.fold, same], fun node listed => ?_⟩
    rcases List.mem_cons.mp listed with rfl | deeper
    · rfl
    · exact inner node deeper
  | .unary op type operand, settled => by
    rw [Expr.foldCount, Nat.add_eq_zero_iff] at settled
    have ⟨same, inner⟩ := Expr.folded?_of_foldCount operand settled.1
    have root := Expr.collapses_eq_zero_iff.mp settled.2
    rw [same] at root
    refine ⟨by rw [Expr.fold, same, Expr.collapse, root]; rfl, fun node listed => ?_⟩
    rcases List.mem_cons.mp listed with rfl | deeper
    · exact root
    · exact inner node deeper
  | .binary op type left right, settled => by
    rw [Expr.foldCount, Nat.add_eq_zero_iff, Nat.add_eq_zero_iff] at settled
    have ⟨sameLeft, first⟩ := Expr.folded?_of_foldCount left settled.1.1
    have ⟨sameRight, second⟩ := Expr.folded?_of_foldCount right settled.1.2
    have root := Expr.collapses_eq_zero_iff.mp settled.2
    rw [sameLeft, sameRight] at root
    refine ⟨by rw [Expr.fold, sameLeft, sameRight, Expr.collapse, root]; rfl, fun node listed => ?_⟩
    rcases List.mem_cons.mp listed with rfl | deeper
    · exact root
    · exact (List.mem_append.mp deeper).elim (first node) (second node)
  | .call callee args, settled => by
    have ⟨same, inner⟩ := Args.folded?_of_foldCount args settled
    refine ⟨by rw [Expr.fold, same], fun node listed => ?_⟩
    rcases List.mem_cons.mp listed with rfl | deeper
    · rfl
    · exact inner node deeper

/-- When no fold is counted in arguments, folding leaves them alone and no node folds. -/
theorem Args.folded?_of_foldCount : ∀ args : List Expr, Args.foldCount args = 0 →
    Args.fold args = args ∧ ∀ node ∈ Args.nodes args, node.folded? = none
  | [], _ => ⟨rfl, fun _ listed => absurd listed List.not_mem_nil⟩
  | arg :: args, settled => by
    rw [Args.foldCount, Nat.add_eq_zero_iff] at settled
    have ⟨same, first⟩ := Expr.folded?_of_foldCount arg settled.1
    have ⟨sameRest, others⟩ := Args.folded?_of_foldCount args settled.2
    refine ⟨by rw [Args.fold, same, sameRest], fun node listed => ?_⟩
    exact (List.mem_append.mp listed).elim (first node) (others node)

end

/-- When no fold is counted in an optional expression, no node of it folds. -/
theorem Expr.optionalFolded?_of_foldCount {e : Option Expr}
    (settled : (e.map Expr.foldCount).getD 0 = 0) {node : Expr}
    (listed : node ∈ e.toList.flatMap Expr.nodes) : node.folded? = none := by
  cases e with
  | none => exact absurd listed List.not_mem_nil
  | some e =>
    rw [Option.toList_some, List.flatMap_singleton] at listed
    exact (e.folded?_of_foldCount settled).2 node listed

mutual

/-- When no fold is counted in a statement, no node of it folds. -/
theorem Stmt.folded?_of_foldCount : ∀ s : Stmt, s.foldCount = 0 →
    ∀ node ∈ s.nodes, node.folded? = none
  | .bind _ _ value, settled | .assign _ value, settled | .setGlobal _ value, settled
  | .emit _ value, settled | .eval value, settled => (value.folded?_of_foldCount settled).2
  | .store _ index value, settled => fun node listed => by
    rw [Stmt.foldCount, Nat.add_eq_zero_iff] at settled
    exact (List.mem_append.mp listed).elim ((index.folded?_of_foldCount settled.1).2 node)
      ((value.folded?_of_foldCount settled.2).2 node)
  | .branch cond thenBody elseBody _, settled => fun node listed => by
    rw [Stmt.foldCount, Nat.add_eq_zero_iff, Nat.add_eq_zero_iff] at settled
    rcases List.mem_append.mp listed with guard | arms
    · exact (cond.folded?_of_foldCount settled.1).2 node guard
    · exact (List.mem_append.mp arms).elim
        (Block.folded?_of_foldCount thenBody settled.2.1 node)
        (Block.folded?_of_foldCount elseBody settled.2.2 node)
  | .loop _ _ condition body, settled => fun node listed => by
    rw [Stmt.foldCount, Nat.add_eq_zero_iff] at settled
    exact (List.mem_append.mp listed).elim (Expr.optionalFolded?_of_foldCount settled.1)
      (Block.folded?_of_foldCount body settled.2 node)
  | .ret value, settled => fun node listed => Expr.optionalFolded?_of_foldCount settled listed

/-- When no fold is counted in a block, no node of it folds. -/
theorem Block.folded?_of_foldCount : ∀ block : List Stmt, Block.foldCount block = 0 →
    ∀ node ∈ Block.nodes block, node.folded? = none
  | [], _ => fun _ listed => absurd listed List.not_mem_nil
  | s :: rest, settled => fun node listed => by
    rw [Block.foldCount, Nat.add_eq_zero_iff] at settled
    exact (List.mem_append.mp listed).elim (Stmt.folded?_of_foldCount s settled.1 node)
      (Block.folded?_of_foldCount rest settled.2 node)

end

/-- In a block that has something to fold, something is folded. -/
theorem Block.foldFully_pos {block : Block} (foldable : Block.foldable block = true) :
    0 < (Block.foldFully block).2 := by
  have counted : Block.foldCount block ≠ 0 := by
    intro settled
    obtain ⟨node, listed, folds⟩ := List.any_eq_true.mp foldable
    rw [Block.folded?_of_foldCount block settled node listed] at folds
    cases folds
  have large := Block.size_fold block
  have rounds : Block.size block = (Block.size block - 1) + 1 := by omega
  rw [Block.foldFully, rounds, Block.foldRounds, if_neg counted]
  dsimp only
  omega

end Timebound
