import Timebound.Folding
import Timebound.Proofs.Invocation

/-!
# Folding keeps the meaning of programs

An operator that folds has literal operands, so evaluating it touches nothing and gives
the literal it folds to; one that has no value on its operands does not fold, and still
stops the run. From the leaves up, folded expressions therefore do what the original
ones do, calls in their arguments included, and so do statements, blocks, functions and
programs.
-/

namespace Timebound

/-! ## Expressions -/

/-- Evaluating an expression that folds gives the literal and does nothing else. -/
theorem Expr.eval_of_folded (setting : Setting) (locals : Locals) {e : Expr} {value : Literal}
    (folds : e.folded? = some value) : e.eval setting locals = pure (some value) := by
  cases e with
  | unary op type operand =>
    cases operand with
    | lit held =>
      simp only [Expr.folded?, Expr.literal?, Option.bind_eq_bind, Option.bind_some,
        Option.ite_none_right_eq_some, Option.some.injEq] at folds
      rw [← folds.2]
      rfl
    | _ => simp [Expr.folded?, Expr.literal?] at folds
  | binary op type left right =>
    cases left with
    | lit first => cases right with
      | lit second =>
        simp only [Expr.folded?, Expr.literal?, Option.bind_eq_bind, Option.bind_some,
          Option.ite_none_right_eq_some] at folds
        have evaluated : (Expr.binary op type (.lit first) (.lit second)).eval setting locals =
            some <$> Run.need .noResult (op.eval type first second) := rfl
        rw [evaluated, folds.2]
        rfl
      | _ => simp [Expr.folded?, Expr.literal?] at folds
    | _ => simp [Expr.folded?, Expr.literal?] at folds
  | _ => simp [Expr.folded?] at folds

/-- Replacing an expression by the literal it folds to keeps its meaning. -/
theorem Expr.eval_collapse (setting : Setting) (locals : Locals) (e : Expr) :
    e.collapse.eval setting locals = e.eval setting locals := by
  unfold Expr.collapse
  cases folds : e.folded? with
  | none => rfl
  | some value => exact (Expr.eval_of_folded setting locals folds).symm

mutual

/-- A folded expression does what the expression does. -/
theorem Expr.eval_fold (setting : Setting) (locals : Locals) : ∀ e : Expr,
    e.fold.eval setting locals = e.eval setting locals
  | .lit _ | .var _ | .global _ => rfl
  | .load _ index => by
    have inner := Expr.eval_fold setting locals index
    simp only [Expr.fold, Expr.eval, inner]
  | .unary _ _ operand => by
    have inner := Expr.eval_fold setting locals operand
    rw [Expr.fold, Expr.eval_collapse]
    simp only [Expr.eval, inner]
  | .binary _ _ left right => by
    have first := Expr.eval_fold setting locals left
    have second := Expr.eval_fold setting locals right
    rw [Expr.fold, Expr.eval_collapse]
    simp only [Expr.eval, first, second]
  | .call _ args => by
    have inner := Args.eval_fold setting locals args
    simp only [Expr.fold, Expr.eval, inner]

/-- Folded arguments do what the arguments do. -/
theorem Args.eval_fold (setting : Setting) (locals : Locals) : ∀ args : List Expr,
    Args.eval setting locals (Args.fold args) = Args.eval setting locals args
  | [] => rfl
  | arg :: args => by
    have first := Expr.eval_fold setting locals arg
    have others := Args.eval_fold setting locals args
    simp only [Args.fold, Args.eval, first, others]

end

/-- A folded expression has the value of the expression. -/
theorem Expr.value_fold (setting : Setting) (locals : Locals) (e : Expr) :
    e.fold.value setting locals = e.value setting locals := by
  rw [Expr.value, Expr.value, Expr.eval_fold]

/-- A folded condition holds when the condition does. -/
theorem Expr.holds_fold (setting : Setting) (condition : Option Expr) :
    Expr.holds setting (condition.map Expr.fold) = Expr.holds setting condition := by
  funext locals
  cases condition with
  | none => rfl
  | some e => simp only [Option.map_some, Expr.holds, Expr.value_fold]

/-! ## Bodies -/

/-- Folding keeps the name that a statement binds. -/
theorem Stmt.boundName?_fold (s : Stmt) : s.fold.boundName? = s.boundName? := by
  cases s <;> rfl

mutual

/-- A folded statement does what the statement does. -/
theorem Stmt.run_fold (setting : Setting) : ∀ s : Stmt, s.fold.run setting = s.run setting
  | .bind _ _ value | .assign _ value | .setGlobal _ value | .emit _ value => by
    funext locals
    simp only [Stmt.fold, Stmt.run, Expr.value_fold]
  | .store _ index value => by
    funext locals
    simp only [Stmt.fold, Stmt.run, Expr.value_fold]
  | .eval value => by
    funext locals
    simp only [Stmt.fold, Stmt.run, Expr.eval_fold]
  | .branch cond thenBody elseBody _ => by
    have first := Block.run_fold setting thenBody
    have second := Block.run_fold setting elseBody
    funext locals
    simp only [Stmt.fold, Stmt.run, Expr.value_fold, first, second]
  | .loop counter bound condition body => by
    have inner := Block.run_fold setting body
    funext locals
    simp only [Stmt.fold, Stmt.run, Expr.holds_fold, inner]
  | .ret none => rfl
  | .ret (some value) => by
    funext locals
    simp only [Stmt.fold, Option.map_some, Stmt.run, Expr.eval_fold]

/-- A folded block does what the block does. -/
theorem Block.run_fold (setting : Setting) : ∀ block : Block,
    Block.run setting (Block.fold block) = Block.run setting block
  | [] => rfl
  | s :: rest => by
    have first := Stmt.run_fold setting s
    have others := Block.run_fold setting rest
    funext locals
    simp only [Block.fold, Block.run, first, others, Stmt.boundName?_fold]

end

/-- Folding a block again and again keeps its meaning. -/
theorem Block.run_foldRounds (setting : Setting) (rounds : Nat) (block : Block) :
    Block.run setting (Block.foldRounds rounds block).1 = Block.run setting block := by
  induction rounds generalizing block with
  | zero => rfl
  | succ rounds ih =>
    unfold Block.foldRounds
    split
    · rfl
    · exact (ih (Block.fold block)).trans (Block.run_fold setting block)

/-! ## Programs -/

namespace Folding

/-- Folding one function leaves its settled body in the program. -/
theorem foldFunction_program (state : Program × Outcome) {id : FunctionId} {function : Function}
    (found : state.1.function? id = some function) :
    (foldFunction state id).1 = (state.1.updateFunction? id fun f =>
      { f with body := (Block.foldFully function.body).1 }).getD state.1 := by
  unfold foldFunction
  simp only [found]

/-- Folding one function keeps the meaning of the program. -/
theorem foldFunction_sameMeaning (state : Program × Outcome) (id : FunctionId) :
    (foldFunction state id).1.SameMeaning state.1 := by
  cases found : state.1.function? id with
  | none =>
    unfold foldFunction
    simp only [found]
    exact fun _ => rfl
  | some function =>
    rw [foldFunction_program state found]
    cases updated : state.1.updateFunction? id fun f =>
        { f with body := (Block.foldFully function.body).1 } with
    | none => exact fun _ => rfl
    | some changed =>
      exact Program.sameMeaning_update found updated rfl fun setting =>
        Block.run_foldRounds setting _ function.body

/-- Folding functions in a row keeps the meaning of the program. -/
theorem foldl_foldFunction_sameMeaning (ids : List FunctionId) (state : Program × Outcome) :
    (ids.foldl foldFunction state).1.SameMeaning state.1 := by
  induction ids generalizing state with
  | nil => exact fun _ => rfl
  | cons id rest ih =>
    intro other
    exact (ih (foldFunction state id) other).trans (foldFunction_sameMeaning state id other)

/-- Folding is invisible: after the pass every function does the same as before, for all
arguments, globals and output, and to any depth of calls. So do a folded statement, which
therefore makes the writes of the statement in their order, and a folded expression,
wherever they stand. -/
theorem transform_keeps_meaning (earlier : Nat) (program : Program) (analysis : Analysis) :
    (∀ patience depth id args,
      (pass.transform earlier program analysis).1.invoke patience depth id args =
        program.invoke patience depth id args) ∧
    (∀ (setting : Setting) (locals : Locals) (s : Stmt),
      s.fold.run setting locals = s.run setting locals) ∧
    ∀ (setting : Setting) (locals : Locals) (e : Expr),
      e.fold.eval setting locals = e.eval setting locals := by
  have same : (pass.transform earlier program analysis).1.SameMeaning program :=
    foldl_foldFunction_sameMeaning (candidates program) (program, {})
  exact ⟨fun patience depth id args => same.invoke patience depth id args,
    fun setting locals s => congrFun (Stmt.run_fold setting s) locals, Expr.eval_fold⟩

end Folding

end Timebound
