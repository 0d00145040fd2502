import Timebound.Folding
import Timebound.Proofs.EffectInlining
import Timebound.Proofs.References

/-!
# Rewrites that keep references

A block whose references lead to something that exists is resolved in a scope. Folding
literals, renaming locals, unrolling loops, putting likely arms first and grouping loads
keep blocks resolved in any scope. Expanding calls does so when the bodies that are put in
place are resolved themselves, since they bring their references along.
-/

namespace Timebound

variable {scope : Scope}

/-! ## Expressions -/

/-- A load is resolved when its global exists and its index is resolved. -/
theorem Expr.resolved_load {id : GlobalId} {index : Expr} : (Expr.load id index).Resolved scope ↔
    scope.hasGlobal id = true ∧ index.Resolved scope := by
  unfold Expr.Resolved
  rw [Expr.nodes, List.forall_mem_cons, Expr.Resolves]

/-- A unary operator is resolved when its operand is. -/
theorem Expr.resolved_unary {op : UnaryOp} {type : ScalarType} {operand : Expr} :
    (Expr.unary op type operand).Resolved scope ↔ operand.Resolved scope := by
  unfold Expr.Resolved
  rw [Expr.nodes, List.forall_mem_cons, Expr.Resolves, true_and]

/-- A binary operator is resolved when its operands are. -/
theorem Expr.resolved_binary {op : BinaryOp} {type : ScalarType} {left right : Expr} :
    (Expr.binary op type left right).Resolved scope ↔
      left.Resolved scope ∧ right.Resolved scope := by
  unfold Expr.Resolved
  rw [Expr.nodes, List.forall_mem_cons, List.forall_mem_append, Expr.Resolves, true_and]

/-- A call is resolved when its callee has a parameter for each argument and the arguments
are resolved. -/
theorem Expr.resolved_call {callee : FunctionId} {args : List Expr} :
    (Expr.call callee args).Resolved scope ↔
      scope.arity? callee = some args.length ∧ ∀ arg ∈ args, arg.Resolved scope := by
  unfold Expr.Resolved
  rw [Expr.nodes, List.forall_mem_cons, Args.nodes_eq_flatMap, List.forall_mem_flatMap,
    Expr.Resolves]

/-- Renaming keeps expressions resolved. -/
theorem Expr.resolved_rename {relabel : String → String} {e : Expr} :
    (e.rename relabel).Resolved scope ↔ e.Resolved scope := by
  have one (node : Expr) : (node.rename relabel).Resolves scope ↔ node.Resolves scope := by
    cases node <;> simp [Expr.rename, Expr.Resolves]
  unfold Expr.Resolved
  rw [Expr.nodes_rename, List.forall_mem_map]
  exact forall₂_congr fun node _ => one node

/-- The opposite of a resolved condition is resolved. -/
theorem Expr.Resolved.opposite {e : Expr} (resolved : e.Resolved scope) :
    e.opposite.Resolved scope := by
  unfold Expr.opposite
  split
  · exact Expr.resolved_unary.mp resolved
  · exact Expr.resolved_unary.mpr resolved

/-! ## Blocks -/

@[simp] theorem Block.resolved_append {first second : Block} :
    Block.Resolved scope (first ++ second) ↔
      Block.Resolved scope first ∧ Block.Resolved scope second := by
  simp only [Block.resolved_iff_forall, List.forall_mem_append]

mutual

/-- Renaming keeps statements resolved. -/
theorem Stmt.resolved_rename {relabel : String → String} : ∀ s : Stmt,
    (s.rename relabel).Resolved scope ↔ s.Resolved scope
  | .bind .. | .assign .. | .setGlobal .. | .store .. | .emit .. | .eval _ => by
    simp only [Stmt.rename, Stmt.Resolved, Expr.resolved_rename]
  | .branch _ thenBody elseBody _ => by
    simp only [Stmt.rename, Stmt.Resolved, Expr.resolved_rename, Block.resolved_rename thenBody,
      Block.resolved_rename elseBody]
  | .loop _ _ condition body => by
    cases condition <;>
      simp [Stmt.rename, Stmt.Resolved, Expr.resolved_rename, Block.resolved_rename body]
  | .ret value => by cases value <;> simp [Stmt.rename, Stmt.Resolved, Expr.resolved_rename]

/-- Renaming keeps blocks resolved. -/
theorem Block.resolved_rename {relabel : String → String} : ∀ block : Block,
    Block.Resolved scope (Block.rename relabel block) ↔ Block.Resolved scope block
  | [] => Iff.rfl
  | s :: rest => by
    simp only [Block.rename, Block.Resolved, Stmt.resolved_rename s, Block.resolved_rename rest]

end

/-- Renaming the locals of a block keeps it resolved. -/
theorem Block.resolved_rebind {relabel : String → String} {mark : Option String} {block : Block} :
    Block.Resolved scope (Block.rebind relabel mark block) ↔ Block.Resolved scope block := by
  -- both become the same block when all names are made the same
  have blank : Block.rename (fun _ => "") (Block.rebind relabel mark block) =
      Block.rename (fun _ => "") block := Block.rename_const_rebind "" relabel mark block
  rw [← Block.resolved_rename (Block.rebind relabel mark block), blank, Block.resolved_rename]

/-! ## Unrolling -/

/-- Copies of a resolved loop body are resolved. -/
theorem resolved_loopCopy {counter : Option String} {body : Block} {copy : Nat}
    (resolved : Block.Resolved scope body) : Block.Resolved scope (loopCopy counter body copy) := by
  have literal (value : Literal) : (Expr.lit value).Resolved scope := by
    intro node listed
    cases List.mem_singleton.mp listed
    trivial
  unfold loopCopy
  rw [Block.resolved_append]
  refine ⟨?_, Block.resolved_rebind.mpr resolved⟩
  cases counter with
  | none => trivial
  | some name => exact ⟨literal _, trivial⟩

mutual

/-- Unrolling keeps statements resolved. -/
theorem Stmt.Resolved.unroll {limit : Nat} {counters : List String} : ∀ {s : Stmt},
    s.Resolved scope → Block.Resolved scope (s.unroll limit counters)
  | .bind .., resolved | .assign .., resolved | .setGlobal .., resolved | .store .., resolved
  | .emit .., resolved | .eval _, resolved | .ret _, resolved => ⟨resolved, trivial⟩
  | .branch _ thenBody elseBody _, resolved =>
    ⟨⟨resolved.1, Block.Resolved.unroll resolved.2.1, Block.Resolved.unroll resolved.2.2⟩, trivial⟩
  | .loop counter bound condition body, resolved => by
    have inner : Block.Resolved scope (Block.unroll limit counters body) :=
      Block.Resolved.unroll resolved.2
    rw [Stmt.unroll]
    split
    · rw [Block.resolved_iff_forall, List.forall_mem_flatMap]
      intro copy _
      exact Block.resolved_iff_forall.mp (resolved_loopCopy inner)
    · exact ⟨⟨resolved.1, inner⟩, trivial⟩

/-- Unrolling keeps blocks resolved. -/
theorem Block.Resolved.unroll {limit : Nat} {counters : List String} : ∀ {block : Block},
    Block.Resolved scope block → Block.Resolved scope (Block.unroll limit counters block)
  | [], _ => trivial
  | _ :: _, resolved => Block.resolved_append.mpr
    ⟨Stmt.Resolved.unroll resolved.1, Block.Resolved.unroll resolved.2⟩

end

/-! ## Order of arms and loads -/

mutual

/-- Putting likely arms first keeps statements resolved. -/
theorem Stmt.Resolved.reorder : ∀ {s : Stmt}, s.Resolved scope → s.reorder.Resolved scope
  | .bind .., resolved | .assign .., resolved | .setGlobal .., resolved | .store .., resolved
  | .emit .., resolved | .eval _, resolved | .ret _, resolved => resolved
  | .branch cond thenBody elseBody _, resolved => by
    have inThen := Block.Resolved.reorder resolved.2.1
    have inElse := Block.Resolved.reorder resolved.2.2
    simp only [Stmt.reorder]
    split
    · exact ⟨resolved.1.opposite, inElse, inThen⟩
    · exact ⟨resolved.1, inThen, inElse⟩
  | .loop _ _ _ body, resolved => ⟨resolved.1, Block.Resolved.reorder resolved.2⟩

/-- Putting likely arms first keeps blocks resolved. -/
theorem Block.Resolved.reorder : ∀ {block : Block},
    Block.Resolved scope block → Block.Resolved scope (Block.reorder block)
  | [], _ => trivial
  | _ :: _, resolved => ⟨Stmt.Resolved.reorder resolved.1, Block.Resolved.reorder resolved.2⟩

end

/-- Arranging the runs of a block keeps it resolved. -/
theorem Block.Resolved.arrange {block : Block} (resolved : Block.Resolved scope block) :
    Block.Resolved scope (Block.arrange block) := by
  rw [Block.resolved_iff_forall] at resolved ⊢
  exact fun s listed => resolved s ((Block.arrange_perm block).mem_iff.mp listed)

mutual

/-- Grouping loads keeps statements resolved. -/
theorem Stmt.Resolved.group : ∀ {s : Stmt}, s.Resolved scope → s.group.Resolved scope
  | .bind .., resolved | .assign .., resolved | .setGlobal .., resolved | .store .., resolved
  | .emit .., resolved | .eval _, resolved | .ret _, resolved => resolved
  | .branch .., resolved =>
    ⟨resolved.1, (Block.Resolved.groupNested resolved.2.1).arrange,
      (Block.Resolved.groupNested resolved.2.2).arrange⟩
  | .loop .., resolved => ⟨resolved.1, (Block.Resolved.groupNested resolved.2).arrange⟩

/-- Grouping loads in nested blocks keeps blocks resolved. -/
theorem Block.Resolved.groupNested : ∀ {block : Block},
    Block.Resolved scope block → Block.Resolved scope (Block.groupNested block)
  | [], _ => trivial
  | _ :: _, resolved => ⟨Stmt.Resolved.group resolved.1, Block.Resolved.groupNested resolved.2⟩

end

/-! ## Expanding calls -/

/-- A body that can stand in for a call is resolved. -/
structure Inlinable.Resolved (scope : Scope) (callee : Inlinable) : Prop where
  /-- The statements are. -/
  init : Block.Resolved scope callee.init
  /-- So is the returned value. -/
  value : ∀ e ∈ callee.value, e.Resolved scope

/-- The body of a resolved function, without its final return, is resolved. -/
theorem Block.Resolved.splitEnd {body : Block} (resolved : Block.Resolved scope body) :
    Block.Resolved scope (Block.splitEnd body).1 ∧
      ∀ e ∈ (Block.splitEnd body).2, e.Resolved scope := by
  unfold Block.splitEnd
  split
  · rename_i value last
    obtain ⟨init, rfl⟩ := List.getLast?_eq_some_iff.mp last
    rw [List.dropLast_concat]
    have ⟨before, final⟩ := Block.resolved_append.mp resolved
    exact ⟨before, final.1⟩
  · exact ⟨resolved, nofun⟩

/-- An expansion is resolved when the arguments and the body are. -/
theorem Inlinable.Resolved.statements {callee : Inlinable} (resolved : callee.Resolved scope)
    {site : Nat} {args : List Expr} (passed : ∀ arg ∈ args, arg.Resolved scope) :
    Block.Resolved scope (callee.statements site args) := by
  unfold Inlinable.statements
  rw [Block.resolved_append, Block.resolved_rename]
  refine ⟨?_, resolved.init⟩
  rw [Block.resolved_iff_forall, List.forall_mem_map]
  rintro ⟨param, arg⟩ listed
  exact passed arg (List.of_mem_zip listed).2

section

variable {find : FunctionId → Option Inlinable}

/-- Expanding a statement that is a call keeps it resolved. -/
theorem Stmt.Resolved.inlineCall
    (bodies : ∀ callee target, find callee = some target → target.Resolved scope) {s : Stmt}
    (resolved : s.Resolved scope) (site : Nat) :
    Block.Resolved scope (s.inlineCall find site).body := by
  rcases Stmt.inlineCall_cases find s site with
    alone | ⟨callee, args, target, rest, whole, found, left, made⟩
  · rw [alone]
    exact ⟨resolved, trivial⟩
  · have body := bodies callee target found
    have passed : ∀ arg ∈ args, arg.Resolved scope := by
      unfold Stmt.wholeCall? at whole
      split at whole
      case h_4 => cases whole
      all_goals
        cases whole
        exact (Expr.resolved_call.mp resolved).2
    have result : ∀ e ∈ target.result site, e.Resolved scope := by
      intro e given
      obtain ⟨value, returned, rfl⟩ := Option.map_eq_some_iff.mp given
      exact Expr.resolved_rename.mpr (body.value value returned)
    have after : Block.Resolved scope rest := by
      generalize target.result site = given at left result
      unfold Stmt.afterCall? at left
      split at left
      case h_5 => cases left
      case h_4 =>
        cases left
        trivial
      all_goals
        cases left
        exact ⟨result _ rfl, trivial⟩
    rw [made, Block.resolved_append]
    exact ⟨body.statements passed, after⟩

mutual

/-- Expanding calls keeps statements resolved. -/
theorem Stmt.Resolved.inline
    (bodies : ∀ callee target, find callee = some target → target.Resolved scope) :
    ∀ {s : Stmt}, s.Resolved scope → ∀ site, Block.Resolved scope (s.inline find site).body
  | .branch .., resolved, site =>
    ⟨⟨resolved.1, Block.Resolved.inline bodies resolved.2.1 site,
      Block.Resolved.inline bodies resolved.2.2 _⟩, trivial⟩
  | .loop .., resolved, site =>
    ⟨⟨resolved.1, Block.Resolved.inline bodies resolved.2 site⟩, trivial⟩
  | .bind .., resolved, site | .assign .., resolved, site | .eval _, resolved, site =>
    Stmt.Resolved.inlineCall bodies resolved site
  | .setGlobal .., resolved, _ | .store .., resolved, _ | .emit .., resolved, _
  | .ret _, resolved, _ => ⟨resolved, trivial⟩

/-- Expanding calls keeps blocks resolved. -/
theorem Block.Resolved.inline
    (bodies : ∀ callee target, find callee = some target → target.Resolved scope) :
    ∀ {block : Block}, Block.Resolved scope block → ∀ site,
      Block.Resolved scope (Block.inline find block site).body
  | [], _, _ => trivial
  | _ :: _, resolved, site => Block.resolved_append.mpr
    ⟨Stmt.Resolved.inline bodies resolved.1 site, Block.Resolved.inline bodies resolved.2 _⟩

end

end

/-! ## Folding -/

/-- Replacing an expression by the literal it folds to keeps it resolved. -/
theorem Expr.Resolved.collapse {e : Expr} (resolved : e.Resolved scope) :
    e.collapse.Resolved scope := by
  unfold Expr.collapse
  cases e.folded? with
  | none => exact resolved
  | some value =>
    intro node listed
    cases List.mem_singleton.mp listed
    trivial

/-- Folding keeps the number of arguments. -/
theorem Args.length_fold (args : List Expr) : (Args.fold args).length = args.length := by
  induction args with
  | nil => rfl
  | cons arg args ih => rw [Args.fold, List.length_cons, ih, List.length_cons]

mutual

/-- Folding keeps expressions resolved. -/
theorem Expr.Resolved.fold : ∀ {e : Expr}, e.Resolved scope → e.fold.Resolved scope
  | .lit _, resolved | .var _, resolved | .global _, resolved => resolved
  | .load _ _, resolved => by
    have ⟨known, index⟩ := Expr.resolved_load.mp resolved
    exact Expr.resolved_load.mpr ⟨known, Expr.Resolved.fold index⟩
  | .unary _ _ _, resolved => by
    have operand := Expr.resolved_unary.mp resolved
    exact Expr.Resolved.collapse (Expr.resolved_unary.mpr (Expr.Resolved.fold operand))
  | .binary _ _ _ _, resolved => by
    have ⟨left, right⟩ := Expr.resolved_binary.mp resolved
    exact Expr.Resolved.collapse
      (Expr.resolved_binary.mpr ⟨Expr.Resolved.fold left, Expr.Resolved.fold right⟩)
  | .call _ args, resolved => by
    have ⟨known, passed⟩ := Expr.resolved_call.mp resolved
    rw [← Args.length_fold args] at known
    exact Expr.resolved_call.mpr ⟨known, Args.resolved_fold passed⟩

/-- Folding keeps arguments resolved. -/
theorem Args.resolved_fold : ∀ {args : List Expr}, (∀ arg ∈ args, arg.Resolved scope) →
    ∀ arg ∈ Args.fold args, arg.Resolved scope
  | [], _ => nofun
  | _ :: _, passed => by
    have ⟨first, others⟩ := List.forall_mem_cons.mp passed
    exact List.forall_mem_cons.mpr ⟨Expr.Resolved.fold first, Args.resolved_fold others⟩

end

/-- Folding keeps an optional expression resolved. -/
theorem Expr.resolved_map_fold {e : Option Expr} (resolved : ∀ value ∈ e, value.Resolved scope) :
    ∀ value ∈ e.map Expr.fold, value.Resolved scope := by
  intro value given
  obtain ⟨old, held, rfl⟩ := Option.map_eq_some_iff.mp given
  exact (resolved old held).fold

mutual

/-- Folding keeps statements resolved. -/
theorem Stmt.Resolved.fold : ∀ {s : Stmt}, s.Resolved scope → s.fold.Resolved scope
  | .bind .., resolved | .assign .., resolved | .emit .., resolved | .eval _, resolved =>
    Expr.Resolved.fold resolved
  | .setGlobal .., resolved => ⟨resolved.1, resolved.2.fold⟩
  | .store .., resolved => ⟨resolved.1, resolved.2.1.fold, resolved.2.2.fold⟩
  | .branch .., resolved =>
    ⟨resolved.1.fold, Block.Resolved.fold resolved.2.1, Block.Resolved.fold resolved.2.2⟩
  | .loop .., resolved =>
    ⟨Expr.resolved_map_fold resolved.1, Block.Resolved.fold resolved.2⟩
  | .ret _, resolved => Expr.resolved_map_fold resolved

/-- Folding keeps blocks resolved. -/
theorem Block.Resolved.fold : ∀ {block : Block},
    Block.Resolved scope block → Block.Resolved scope (Block.fold block)
  | [], _ => trivial
  | _ :: _, resolved => ⟨Stmt.Resolved.fold resolved.1, Block.Resolved.fold resolved.2⟩

end

/-- Folding again and again keeps blocks resolved. -/
theorem Block.Resolved.foldRounds (rounds : Nat) : ∀ {block : Block},
    Block.Resolved scope block → Block.Resolved scope (Block.foldRounds rounds block).1 := by
  induction rounds with
  | zero => exact fun resolved => resolved
  | succ rounds ih =>
    intro block resolved
    rw [Block.foldRounds]
    split
    · exact resolved
    · exact ih resolved.fold

end Timebound
