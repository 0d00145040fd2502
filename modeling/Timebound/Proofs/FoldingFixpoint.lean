import Timebound.Proofs.PassReports

/-!
# One walk folds everything

A walk goes from the leaves up, so when it comes to an operator its operands are folded as far as
they go. Either the operator folds then, and a literal is left, or it never will: no node of a
folded body folds (`Block.unfoldable_fold`). Hence nothing is counted in a second walk, which
leaves the body as it is, and folding again and again is folding once (`Block.foldFully_eq`).
Nodes are counted exactly in bodies where some node folds as it stands, so a program without
candidates is left, in which every body is the folded one (`Folding.foldProgram_foldsTo`).
-/

namespace Timebound

/-! ## Nodes that do not fold -/

/-- Nodes of which none folds as it stands. -/
def Unfoldable (nodes : List Expr) : Prop := ∀ node ∈ nodes, node.folded? = none

/-- No node of two lists folds when none of either does. -/
theorem unfoldable_append {first second : List Expr} :
    Unfoldable (first ++ second) ↔ Unfoldable first ∧ Unfoldable second :=
  List.forall_mem_append

/-- No node of a tree folds when its root does not and none below it does. -/
theorem unfoldable_cons {node : Expr} {rest : List Expr} :
    Unfoldable (node :: rest) ↔ node.folded? = none ∧ Unfoldable rest :=
  List.forall_mem_cons

/-- A block has nothing to fold when no node of it folds. -/
theorem Block.foldable_eq_false_iff {block : Block} :
    Block.foldable block = false ↔ Unfoldable (Block.nodes block) := by
  rw [Block.foldable, List.any_eq_false]
  exact forall₂_congr fun node _ => by rw [Bool.not_eq_true, Option.isSome_eq_false_iff,
    Option.isNone_iff_eq_none]

/-! ## Folded trees -/

/-- When no node below the root folds, none is left that does once the root is folded: the root
is a literal then or does not fold. -/
theorem Expr.unfoldable_collapse {e : Expr} {below : List Expr} (parts : e.nodes = e :: below)
    (operands : Unfoldable below) : Unfoldable e.collapse.nodes := by
  unfold Expr.collapse
  cases folds : e.folded? with
  | none =>
    rw [Option.map_none, Option.getD_none, parts]
    exact unfoldable_cons.mpr ⟨folds, operands⟩
  | some value => exact unfoldable_cons.mpr ⟨rfl, fun _ listed => absurd listed List.not_mem_nil⟩

mutual

/-- No node of a folded expression folds. -/
theorem Expr.unfoldable_fold : ∀ e : Expr, Unfoldable e.fold.nodes
  | .lit _ | .var _ | .global _ => by simp [Unfoldable, Expr.fold, Expr.nodes, Expr.folded?]
  | .load _ index => unfoldable_cons.mpr ⟨rfl, Expr.unfoldable_fold index⟩
  | .unary _ _ operand => Expr.unfoldable_collapse rfl (Expr.unfoldable_fold operand)
  | .binary _ _ left right =>
    Expr.unfoldable_collapse rfl
      (unfoldable_append.mpr ⟨Expr.unfoldable_fold left, Expr.unfoldable_fold right⟩)
  | .call _ args => unfoldable_cons.mpr ⟨rfl, Args.unfoldable_fold args⟩

/-- No node of folded arguments folds. -/
theorem Args.unfoldable_fold : ∀ args : List Expr, Unfoldable (Args.nodes (Args.fold args))
  | [] => fun _ listed => absurd listed List.not_mem_nil
  | arg :: args => unfoldable_append.mpr ⟨Expr.unfoldable_fold arg, Args.unfoldable_fold args⟩

end

/-- No node of a folded optional expression folds. -/
theorem Expr.unfoldable_optional (e : Option Expr) :
    Unfoldable ((e.map Expr.fold).toList.flatMap Expr.nodes) := by
  cases e with
  | none => exact fun _ listed => absurd listed List.not_mem_nil
  | some e =>
    rw [Option.map_some, Option.toList_some, List.flatMap_singleton]
    exact e.unfoldable_fold

mutual

/-- No node of a folded statement folds. -/
theorem Stmt.unfoldable_fold : ∀ s : Stmt, Unfoldable s.fold.nodes
  | .bind _ _ value | .assign _ value | .setGlobal _ value | .emit _ value | .eval value =>
    value.unfoldable_fold
  | .store _ index value => unfoldable_append.mpr ⟨index.unfoldable_fold, value.unfoldable_fold⟩
  | .branch cond thenBody elseBody _ =>
    unfoldable_append.mpr ⟨cond.unfoldable_fold, unfoldable_append.mpr
      ⟨Block.unfoldable_fold thenBody, Block.unfoldable_fold elseBody⟩⟩
  | .loop _ _ condition body =>
    unfoldable_append.mpr ⟨Expr.unfoldable_optional condition, Block.unfoldable_fold body⟩
  | .ret value => Expr.unfoldable_optional value

/-- No node of a folded block folds. -/
theorem Block.unfoldable_fold : ∀ block : List Stmt, Unfoldable (Block.nodes (Block.fold block))
  | [] => fun _ listed => absurd listed List.not_mem_nil
  | s :: rest => unfoldable_append.mpr ⟨Stmt.unfoldable_fold s, Block.unfoldable_fold rest⟩

end

/-! ## What is counted -/

mutual

/-- No fold is counted in an expression of which no node folds. Its operands stay as they are, so
the walk comes to the same operators that stand there. -/
theorem Expr.foldCount_of_unfoldable : ∀ e : Expr, Unfoldable e.nodes → e.foldCount = 0
  | .lit _, _ | .var _, _ | .global _, _ => rfl
  | .load _ index, settled => Expr.foldCount_of_unfoldable index (unfoldable_cons.mp settled).2
  | .unary _ _ operand, settled => by
    obtain ⟨root, below⟩ := unfoldable_cons.mp settled
    have inner := Expr.foldCount_of_unfoldable operand below
    rw [Expr.foldCount, inner, (operand.folded?_of_foldCount inner).1, Nat.zero_add]
    exact Expr.collapses_eq_zero_iff.mpr root
  | .binary _ _ left right, settled => by
    obtain ⟨root, below⟩ := unfoldable_cons.mp settled
    obtain ⟨inLeft, inRight⟩ := unfoldable_append.mp below
    have first := Expr.foldCount_of_unfoldable left inLeft
    have second := Expr.foldCount_of_unfoldable right inRight
    rw [Expr.foldCount, first, second, (left.folded?_of_foldCount first).1,
      (right.folded?_of_foldCount second).1, Nat.zero_add]
    exact Expr.collapses_eq_zero_iff.mpr root
  | .call _ args, settled => Args.foldCount_of_unfoldable args (unfoldable_cons.mp settled).2

/-- No fold is counted in arguments of which no node folds. -/
theorem Args.foldCount_of_unfoldable : ∀ args : List Expr, Unfoldable (Args.nodes args) →
    Args.foldCount args = 0
  | [], _ => rfl
  | arg :: args, settled => by
    obtain ⟨first, others⟩ := unfoldable_append.mp settled
    rw [Args.foldCount, Expr.foldCount_of_unfoldable arg first,
      Args.foldCount_of_unfoldable args others]

end

/-- No fold is counted in an optional expression of which no node folds. -/
theorem Expr.optionalFoldCount_of_unfoldable {e : Option Expr}
    (settled : Unfoldable (e.toList.flatMap Expr.nodes)) : (e.map Expr.foldCount).getD 0 = 0 := by
  cases e with
  | none => rfl
  | some e =>
    rw [Option.toList_some, List.flatMap_singleton] at settled
    exact e.foldCount_of_unfoldable settled

mutual

/-- No fold is counted in a statement of which no node folds. -/
theorem Stmt.foldCount_of_unfoldable : ∀ s : Stmt, Unfoldable s.nodes → s.foldCount = 0
  | .bind _ _ value, settled | .assign _ value, settled | .setGlobal _ value, settled
  | .emit _ value, settled | .eval value, settled => value.foldCount_of_unfoldable settled
  | .store _ index value, settled => by
    obtain ⟨first, second⟩ := unfoldable_append.mp settled
    rw [Stmt.foldCount, index.foldCount_of_unfoldable first, value.foldCount_of_unfoldable second]
  | .branch cond thenBody elseBody _, settled => by
    obtain ⟨guard, arms⟩ := unfoldable_append.mp settled
    obtain ⟨inThen, inElse⟩ := unfoldable_append.mp arms
    rw [Stmt.foldCount, cond.foldCount_of_unfoldable guard,
      Block.foldCount_of_unfoldable thenBody inThen, Block.foldCount_of_unfoldable elseBody inElse]
  | .loop _ _ condition body, settled => by
    obtain ⟨guard, inside⟩ := unfoldable_append.mp settled
    rw [Stmt.foldCount, Expr.optionalFoldCount_of_unfoldable guard,
      Block.foldCount_of_unfoldable body inside]
  | .ret _, settled => Expr.optionalFoldCount_of_unfoldable settled

/-- No fold is counted in a block of which no node folds. -/
theorem Block.foldCount_of_unfoldable : ∀ block : List Stmt, Unfoldable (Block.nodes block) →
    Block.foldCount block = 0
  | [], _ => rfl
  | s :: rest, settled => by
    obtain ⟨first, others⟩ := unfoldable_append.mp settled
    rw [Block.foldCount, Stmt.foldCount_of_unfoldable s first,
      Block.foldCount_of_unfoldable rest others]

end

/-- Folds are counted in a block exactly when some node of it folds as it stands. -/
theorem Block.foldCount_eq_zero_iff {block : Block} :
    Block.foldCount block = 0 ↔ Unfoldable (Block.nodes block) :=
  ⟨Block.folded?_of_foldCount block, Block.foldCount_of_unfoldable block⟩

/-! ## Blocks without folds -/

/-- An optional expression without folds is left alone. -/
theorem Expr.optionalFold_of_foldCount {e : Option Expr}
    (settled : (e.map Expr.foldCount).getD 0 = 0) : e.map Expr.fold = e := by
  cases e with
  | none => rfl
  | some e => exact congrArg some (e.folded?_of_foldCount settled).1

mutual

/-- A statement without folds is left alone. -/
theorem Stmt.fold_of_foldCount : ∀ s : Stmt, s.foldCount = 0 → s.fold = s
  | .bind _ _ value, settled | .assign _ value, settled | .setGlobal _ value, settled
  | .emit _ value, settled | .eval value, settled => by
    rw [Stmt.fold, (value.folded?_of_foldCount settled).1]
  | .store _ index value, settled => by
    rw [Stmt.foldCount, Nat.add_eq_zero_iff] at settled
    rw [Stmt.fold, (index.folded?_of_foldCount settled.1).1,
      (value.folded?_of_foldCount settled.2).1]
  | .branch cond thenBody elseBody _, settled => by
    rw [Stmt.foldCount, Nat.add_eq_zero_iff, Nat.add_eq_zero_iff] at settled
    rw [Stmt.fold, (cond.folded?_of_foldCount settled.1).1,
      Block.fold_of_foldCount thenBody settled.2.1, Block.fold_of_foldCount elseBody settled.2.2]
  | .loop _ _ condition body, settled => by
    rw [Stmt.foldCount, Nat.add_eq_zero_iff] at settled
    rw [Stmt.fold, Expr.optionalFold_of_foldCount settled.1,
      Block.fold_of_foldCount body settled.2]
  | .ret _, settled => by rw [Stmt.fold, Expr.optionalFold_of_foldCount settled]

/-- A block without folds is left alone. -/
theorem Block.fold_of_foldCount : ∀ block : List Stmt, Block.foldCount block = 0 →
    Block.fold block = block
  | [], _ => rfl
  | s :: rest, settled => by
    rw [Block.foldCount, Nat.add_eq_zero_iff] at settled
    rw [Block.fold, Stmt.fold_of_foldCount s settled.1, Block.fold_of_foldCount rest settled.2]

end

namespace Block

/-- Nothing is counted in a second walk. -/
theorem foldCount_fold (block : Block) : foldCount (fold block) = 0 :=
  foldCount_of_unfoldable _ (unfoldable_fold block)

/-- A second walk leaves the block as it is. -/
theorem fold_fold (block : Block) : fold (fold block) = fold block :=
  fold_of_foldCount _ (foldCount_fold block)

/-- Rounds on a block without folds do nothing. -/
theorem foldRounds_of_foldCount {block : Block} (settled : foldCount block = 0) (rounds : Nat) :
    foldRounds rounds block = (block, 0) := by
  cases rounds with
  | zero => rfl
  | succ rounds => rw [foldRounds, if_pos settled]

/-- All rounds together do what the first one does. -/
theorem foldRounds_succ (rounds : Nat) (block : Block) :
    foldRounds (rounds + 1) block = (fold block, foldCount block) := by
  rw [foldRounds]
  split
  · rename_i settled
    rw [fold_of_foldCount block settled, settled]
  · rw [foldRounds_of_foldCount (foldCount_fold block)]
    rfl

/-- Folding until nothing is left to fold takes one walk. -/
theorem foldFully_eq (block : Block) : foldFully block = (fold block, foldCount block) := by
  unfold foldFully
  cases size : Block.size block with
  | succ rounds => exact foldRounds_succ rounds block
  | zero =>
    have nothing := size_fold block
    have settled : foldCount block = 0 := by omega
    rw [fold_of_foldCount block settled, settled]
    rfl

end Block

/-! ## Programs -/

/-- The function with its body folded. -/
def Function.folded (function : Function) : Function :=
  { function with body := Block.fold function.body }

/-- A program in which every body is the folded one of another program. -/
structure Program.FoldsTo (program folded : Program) : Prop where
  /-- The functions are the same but for their bodies. -/
  functions : ∀ id, folded.function? id = (program.function? id).map Function.folded
  /-- The globals are the same. -/
  globals : ∀ id, folded.global? id = program.global? id
  /-- The functions are in the same slots. -/
  functionSlots : folded.functions.slotCount = program.functions.slotCount
  /-- The globals are in the same slots. -/
  globalSlots : folded.globals.slotCount = program.globals.slotCount

namespace Folding

/-- Folding one function folds its body and leaves everything else. -/
theorem foldFunction_lookup (state : Program × Outcome) (id other : FunctionId) :
    (foldFunction state id).1.function? other =
      (if other = id then (state.1.function? other).map Function.folded
        else state.1.function? other) ∧
    (foldFunction state id).1.globals = state.1.globals ∧
    (foldFunction state id).1.functions.slotCount = state.1.functions.slotCount := by
  rcases foldFunction_cases state id with ⟨missing, same⟩ | ⟨function, folds⟩
  · rw [same]
    refine ⟨?_, rfl, rfl⟩
    split
    · rename_i self
      rw [self, missing, Option.map_none]
    · rfl
  · have lookup := Program.function?_update folds.found folds.updated other
    obtain ⟨functions, arena, updated⟩ := Option.map_eq_some_iff.mp folds.updated
    rw [lookup, ← updated]
    refine ⟨?_, rfl, Arena.slotCount_update arena⟩
    split
    · rename_i self
      rw [self, folds.found, Option.map_some, Block.foldFully_eq]
      rfl
    · rfl

/-- Folding functions in a row folds their bodies and leaves everything else. -/
theorem foldl_foldFunction_lookup (ids : List FunctionId) (state : Program × Outcome)
    (other : FunctionId) :
    (ids.foldl foldFunction state).1.function? other =
      (if other ∈ ids then (state.1.function? other).map Function.folded
        else state.1.function? other) ∧
    (ids.foldl foldFunction state).1.globals = state.1.globals ∧
    (ids.foldl foldFunction state).1.functions.slotCount = state.1.functions.slotCount := by
  -- A function that is listed twice is folded twice, which makes no difference.
  have twice (function : Function) : function.folded.folded = function.folded :=
    congrArg (fun body => { function with body }) (Block.fold_fold function.body)
  induction ids generalizing state with
  | nil => exact ⟨by simp, rfl, rfl⟩
  | cons id rest ih =>
    obtain ⟨here, globals, slots⟩ := foldFunction_lookup state id other
    obtain ⟨later, globalsLater, slotsLater⟩ := ih (foldFunction state id)
    refine ⟨?_, globalsLater.trans globals, slotsLater.trans slots⟩
    rw [List.foldl_cons, later, here]
    by_cases self : other = id
    · subst self
      by_cases listed : other ∈ rest <;> simp [listed, Function.comp_def, twice]
    · simp [self]

/-- Folding a program folds every body. -/
theorem foldProgram_foldsTo (program : Program) : program.FoldsTo (foldProgram program).1 := by
  have lookup := foldl_foldFunction_lookup (candidates program) (program, {})
  have globals : (foldProgram program).1.globals = program.globals := (lookup ⟨0⟩).2.1
  refine ⟨fun id => (lookup id).1.trans ?_, fun id => congrArg (Arena.get? · id) globals,
    (lookup ⟨0⟩).2.2, congrArg Arena.slotCount globals⟩
  split
  · rfl
  · rename_i unlisted
    cases found : program.function? id with
    | none => rfl
    | some function =>
      -- There is nothing to fold in a function that is no candidate.
      have settled : Block.foldable function.body = false := by
        refine Bool.eq_false_iff.mpr fun foldable => unlisted ?_
        exact List.mem_map.mpr ⟨(id, function),
          List.mem_filter.mpr ⟨Arena.mem_entries.mpr found, foldable⟩, rfl⟩
      have counted := Block.foldCount_eq_zero_iff.mpr (Block.foldable_eq_false_iff.mp settled)
      have same : function.folded = function :=
        congrArg (fun body => { function with body }) (Block.fold_of_foldCount _ counted)
      rw [Option.map_some, same]

/-- A program in which every body is folded has no candidates. -/
theorem candidates_eq_nil {program folded : Program} (folds : program.FoldsTo folded) :
    candidates folded = [] := by
  rw [candidates, List.map_eq_nil_iff, List.filter_eq_nil_iff]
  rintro ⟨id, function⟩ entry
  have found : folded.function? id = some function := Arena.mem_entries.mp entry
  rw [folds.functions id] at found
  obtain ⟨before, _, rfl⟩ := Option.map_eq_some_iff.mp found
  rw [Bool.not_eq_true]
  exact Block.foldable_eq_false_iff.mpr (Block.unfoldable_fold before.body)

/-- One walk is all there is to fold. No node of a folded body folds, so a second walk counts
nothing and changes nothing, and more rounds than two do what two do. A walk counts folds exactly
if some node folds as it stands. Folding an expression twice is folding it once. After the pass
every body is the folded one, and the pass is not applicable any more. -/
theorem transform_leaves_nothing (earlier later : Nat) (program : Program)
    (analysis refreshed : Analysis) :
    (∀ block : Block,
      Block.foldable (Block.fold block) = false ∧
      Block.foldCount (Block.fold block) = 0 ∧
      Block.fold (Block.fold block) = Block.fold block ∧
      (0 < Block.foldCount block ↔ Block.foldable block = true) ∧
      Block.foldFully block = (Block.fold block, Block.foldCount block) ∧
      ∀ rounds, Block.foldRounds (rounds + 2) block = Block.foldRounds 2 block) ∧
    (∀ e : Expr, e.fold.fold = e.fold ∧ ∀ node ∈ e.fold.nodes, node.folded? = none) ∧
    (∀ id, (pass.transform earlier program analysis).1.function? id =
      (program.function? id).map fun function =>
        { function with body := Block.fold function.body }) ∧
    pass.applicable later (pass.transform earlier program analysis).1 refreshed = false := by
  have folds : program.FoldsTo (pass.transform earlier program analysis).1 :=
    foldProgram_foldsTo program
  refine ⟨fun block => ⟨?_, Block.foldCount_fold block, Block.fold_fold block, ?_,
    Block.foldFully_eq block, fun rounds => ?_⟩, fun e => ⟨?_, e.unfoldable_fold⟩,
    folds.functions, ?_⟩
  · exact Block.foldable_eq_false_iff.mpr (Block.unfoldable_fold block)
  · rw [Nat.pos_iff_ne_zero, ne_eq, Block.foldCount_eq_zero_iff, ← Block.foldable_eq_false_iff,
      Bool.not_eq_false]
  · rw [Block.foldRounds_succ, Block.foldRounds_succ]
  · exact (e.fold.folded?_of_foldCount (e.fold.foldCount_of_unfoldable e.unfoldable_fold)).1
  · change (!(candidates (pass.transform earlier program analysis).1).isEmpty) = false
    rw [candidates_eq_nil folds]
    rfl

end Folding

end Timebound
