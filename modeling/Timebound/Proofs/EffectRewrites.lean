import Timebound.Guided.Pass
import Timebound.Proofs.EffectWork

/-!
# Rewrites that keep effects

Effects do not show local names, write short loops out, order the arms of a branch
by what is tested, and collect reads in sets. So renaming, unrolling, putting likely
arms first and grouping loads keep the effects of a block, whatever calls are replaced
by, and add no calls.
-/

namespace Timebound

/-! ## Calls -/

/-- The function and the number of arguments of a call node. -/
def Expr.callShape? : Expr → Option (FunctionId × Nat)
  | .call callee args => some (callee, args.length)
  | _ => none

/-- The calls of an expression. -/
def Expr.callShapes (e : Expr) : List (FunctionId × Nat) := e.nodes.filterMap Expr.callShape?

/-- The calls of an optional expression. -/
def Expr.optionalCallShapes (e : Option Expr) : List (FunctionId × Nat) :=
  (e.toList.flatMap Expr.nodes).filterMap Expr.callShape?

/-- The calls of a statement. -/
def Stmt.callShapes (s : Stmt) : List (FunctionId × Nat) := s.nodes.filterMap Expr.callShape?

/-- The calls of a block. -/
def Block.callShapes (block : Block) : List (FunctionId × Nat) :=
  (Block.nodes block).filterMap Expr.callShape?

/-- The calls of a block are its call nodes with their numbers of arguments. -/
theorem Block.mem_callShapes {block : Block} {id : FunctionId} {count : Nat} :
    (id, count) ∈ Block.callShapes block ↔
      ∃ args, .call id args ∈ Block.nodes block ∧ args.length = count := by
  unfold Block.callShapes
  rw [List.mem_filterMap]
  constructor
  · rintro ⟨node, listed, shaped⟩
    cases node with
    | call callee args =>
      simp only [Expr.callShape?, Option.some.injEq, Prod.mk.injEq] at shaped
      exact ⟨args, shaped.1 ▸ listed, shaped.2⟩
    | _ => simp [Expr.callShape?] at shaped
  · rintro ⟨args, listed, rfl⟩
    exact ⟨_, listed, rfl⟩

section Shapes

@[simp] theorem Block.callShapes_nil : Block.callShapes [] = [] := rfl

@[simp] theorem Block.callShapes_cons (s : Stmt) (rest : Block) :
    Block.callShapes (s :: rest) = s.callShapes ++ Block.callShapes rest := by
  simp [Block.callShapes, Stmt.callShapes, Block.nodes]

@[simp] theorem Block.callShapes_append (first second : Block) :
    Block.callShapes (first ++ second) = Block.callShapes first ++ Block.callShapes second := by
  simp [Block.callShapes, Block.nodes_append]

@[simp] theorem Stmt.callShapes_bind (name : String) (type : ScalarType) (value : Expr) :
    (Stmt.bind name type value).callShapes = value.callShapes := by
  rw [Stmt.callShapes, Stmt.nodes, Expr.callShapes]

@[simp] theorem Stmt.callShapes_assign (name : String) (value : Expr) :
    (Stmt.assign name value).callShapes = value.callShapes := by
  rw [Stmt.callShapes, Stmt.nodes, Expr.callShapes]

@[simp] theorem Stmt.callShapes_setGlobal (id : GlobalId) (value : Expr) :
    (Stmt.setGlobal id value).callShapes = value.callShapes := by
  rw [Stmt.callShapes, Stmt.nodes, Expr.callShapes]

@[simp] theorem Stmt.callShapes_store (id : GlobalId) (index value : Expr) :
    (Stmt.store id index value).callShapes = index.callShapes ++ value.callShapes := by
  simp [Stmt.callShapes, Stmt.nodes, Expr.callShapes]

@[simp] theorem Stmt.callShapes_emit (channel : Nat) (value : Expr) :
    (Stmt.emit channel value).callShapes = value.callShapes := by
  rw [Stmt.callShapes, Stmt.nodes, Expr.callShapes]

@[simp] theorem Stmt.callShapes_eval (value : Expr) :
    (Stmt.eval value).callShapes = value.callShapes := by
  rw [Stmt.callShapes, Stmt.nodes, Expr.callShapes]

@[simp] theorem Stmt.callShapes_branch (cond : Expr) (thenBody elseBody : Block)
    (likelihood : Option Nat) :
    (Stmt.branch cond thenBody elseBody likelihood).callShapes =
      cond.callShapes ++ (Block.callShapes thenBody ++ Block.callShapes elseBody) := by
  simp [Stmt.callShapes, Stmt.nodes, Expr.callShapes, Block.callShapes]

@[simp] theorem Stmt.callShapes_loop (counter : Option String) (bound : TripBound)
    (condition : Option Expr) (body : Block) :
    (Stmt.loop counter bound condition body).callShapes =
      Expr.optionalCallShapes condition ++ Block.callShapes body := by
  rw [Stmt.callShapes, Stmt.nodes, List.filterMap_append, Expr.optionalCallShapes,
    Block.callShapes]

@[simp] theorem Stmt.callShapes_ret (value : Option Expr) :
    (Stmt.ret value).callShapes = Expr.optionalCallShapes value := by
  rw [Stmt.callShapes, Stmt.nodes, Expr.optionalCallShapes]

/-- Renaming keeps the calls of an expression. -/
@[simp] theorem Expr.callShapes_rename (relabel : String → String) (e : Expr) :
    (e.rename relabel).callShapes = e.callShapes := by
  unfold Expr.callShapes
  rw [Expr.nodes_rename, List.filterMap_map]
  congr 1
  funext node
  cases node <;> simp [Expr.rename, Expr.callShape?]

/-- Renaming keeps the calls of an optional expression. -/
@[simp] theorem Expr.optionalCallShapes_rename (relabel : String → String) (e : Option Expr) :
    Expr.optionalCallShapes (e.map (Expr.rename relabel)) = Expr.optionalCallShapes e := by
  cases e with
  | none => rfl
  | some e => simpa [Expr.optionalCallShapes, Expr.callShapes] using e.callShapes_rename relabel

end Shapes

/-! ## Renaming -/

section Renaming

variable (opened : FunctionId → Option (Trace → Trace)) (relabel : String → String)

/-- Renaming keeps literals. -/
theorem Expr.literal?_rename (e : Expr) : (e.rename relabel).literal? = e.literal? := by
  cases e <;> rfl

mutual

/-- Renaming keeps the effects of an expression. -/
theorem Expr.effects_rename : ∀ e : Expr, (e.rename relabel).effects opened = e.effects opened
  | .lit _ | .var _ | .global _ => rfl
  | .load _ index => by
    funext trace
    simp only [Expr.rename, Expr.effects, Expr.effects_rename index, Expr.literal?_rename]
  | .unary _ _ operand => by
    funext trace
    simp only [Expr.rename, Expr.effects, Expr.effects_rename operand]
  | .binary _ _ left right => by
    funext trace
    simp only [Expr.rename, Expr.effects, Expr.effects_rename left, Expr.effects_rename right]
  | .call _ args => by
    funext trace
    simp only [Expr.rename, Expr.effects, Args.effects_rename args]

/-- Renaming keeps the effects of arguments. -/
theorem Args.effects_rename : ∀ args : List Expr,
    Args.effects opened (Args.rename relabel args) = Args.effects opened args
  | [] => rfl
  | arg :: args => by
    funext trace
    simp only [Args.rename, Args.effects, Expr.effects_rename arg, Args.effects_rename args]

end

/-- Renaming keeps the effects of an optional expression. -/
theorem Args.effects_rename_toList (e : Option Expr) :
    Args.effects opened (e.map (Expr.rename relabel)).toList = Args.effects opened e.toList := by
  cases e with
  | none => rfl
  | some e =>
    funext trace
    simp only [Option.map_some, Option.toList_some, Args.effects, Expr.effects_rename]

/-- Renaming goes below the negations in front of a condition. -/
theorem Expr.guard_rename (e : Expr) : (e.rename relabel).guard = e.guard.rename relabel := by
  fun_induction Expr.guard e with
  | case1 type operand ih => rw [Expr.rename, Expr.guard, ih]
  | case2 e notNegation =>
    cases e with
    | unary op type operand => cases op <;> simp_all [Expr.rename, Expr.guard]
    | _ => rfl

/-- Renaming keeps the negations in front of a condition. -/
theorem Expr.negated_rename (e : Expr) : (e.rename relabel).negated = e.negated := by
  fun_induction Expr.negated e with
  | case1 type operand ih => rw [Expr.rename, Expr.negated, ih]
  | case2 e notNegation =>
    cases e with
    | unary op type operand => cases op <;> simp_all [Expr.rename, Expr.negated]
    | _ => rfl

/-- Whether a loop is written out does not depend on the names in its condition. -/
theorem TripBound.writtenTrips?_rename (bound : TripBound) (condition : Option Expr) :
    bound.writtenTrips? (condition.map (Expr.rename relabel)) = bound.writtenTrips? condition := by
  cases condition <;> cases bound <;> rfl

mutual

/-- Renaming keeps the effects of a statement. -/
theorem Stmt.effects_rename : ∀ s : Stmt, (s.rename relabel).effects opened = s.effects opened
  | .bind _ _ value | .assign _ value | .eval value | .setGlobal _ value | .emit _ value => by
    funext trace
    simp only [Stmt.rename, Stmt.effects, Expr.effects_rename opened relabel value]
  | .store _ index value => by
    funext trace
    simp only [Stmt.rename, Stmt.effects, Expr.effects_rename opened relabel index,
      Expr.effects_rename opened relabel value]
  | .branch cond thenBody elseBody _ => by
    funext trace
    simp only [Stmt.rename, Stmt.effects, Expr.guard_rename, Expr.negated_rename,
      Expr.effects_rename opened relabel cond.guard, Block.effects_rename thenBody,
      Block.effects_rename elseBody]
  | .loop _ bound condition body => by
    funext trace
    simp only [Stmt.rename, Stmt.effects, TripBound.writtenTrips?_rename,
      Args.effects_rename_toList, Block.effects_rename body]
  | .ret value => by
    funext trace
    simp only [Stmt.rename, Stmt.effects, Args.effects_rename_toList]

/-- Renaming keeps the effects of a block. -/
theorem Block.effects_rename : ∀ block : Block,
    Block.effects opened (Block.rename relabel block) = Block.effects opened block
  | [] => rfl
  | s :: rest => by
    funext trace
    simp only [Block.rename, Block.effects, Stmt.effects_rename s, Block.effects_rename rest]

end

mutual

/-- Renaming keeps the calls of a statement. -/
theorem Stmt.callShapes_rename : ∀ s : Stmt, (s.rename relabel).callShapes = s.callShapes
  | .bind .. | .assign .. | .eval _ | .setGlobal .. | .emit .. | .store .. | .ret _ => by
    simp [Stmt.rename]
  | .branch _ thenBody elseBody _ => by
    simp [Stmt.rename, Block.callShapes_rename thenBody, Block.callShapes_rename elseBody]
  | .loop _ _ _ body => by simp [Stmt.rename, Block.callShapes_rename body]

/-- Renaming keeps the calls of a block. -/
theorem Block.callShapes_rename : ∀ block : Block,
    Block.callShapes (Block.rename relabel block) = Block.callShapes block
  | [] => rfl
  | s :: rest => by simp [Block.rename, Stmt.callShapes_rename s, Block.callShapes_rename rest]

end

end Renaming

/-! ## Copies

Marked copies differ from the original in local names only, so they become equal when
all names are made the same one. -/

section Copies

variable (blank : String)

mutual

/-- A renamed expression becomes the original when all names are made the same. -/
theorem Expr.rename_const_rename (relabel : String → String) : ∀ e : Expr,
    (e.rename relabel).rename (fun _ => blank) = e.rename fun _ => blank
  | .lit _ | .var _ | .global _ => rfl
  | .load _ index => by simp only [Expr.rename, Expr.rename_const_rename relabel index]
  | .unary _ _ operand => by simp only [Expr.rename, Expr.rename_const_rename relabel operand]
  | .binary _ _ left right => by
    simp only [Expr.rename, Expr.rename_const_rename relabel left,
      Expr.rename_const_rename relabel right]
  | .call _ args => by simp only [Expr.rename, Args.rename_const_rename relabel args]

/-- Renamed arguments become the originals when all names are made the same. -/
theorem Args.rename_const_rename (relabel : String → String) : ∀ args : List Expr,
    Args.rename (fun _ => blank) (Args.rename relabel args) = Args.rename (fun _ => blank) args
  | [] => rfl
  | arg :: args => by
    simp only [Args.rename, Expr.rename_const_rename relabel arg,
      Args.rename_const_rename relabel args]

end

mutual

/-- A rebound statement becomes the original when all names are made the same. -/
theorem Stmt.rename_const_rebind (relabel : String → String) (mark : Option String) :
    ∀ s : Stmt, (s.rebind relabel mark).1.rename (fun _ => blank) = s.rename fun _ => blank
  | .bind _ _ value => by
    cases mark <;> simp only [Stmt.rebind, Stmt.rename, Expr.rename_const_rename]
  | .assign _ value | .setGlobal _ value | .emit _ value | .eval value => by
    simp only [Stmt.rebind, Stmt.rename, Expr.rename_const_rename]
  | .store _ index value => by simp only [Stmt.rebind, Stmt.rename, Expr.rename_const_rename]
  | .branch cond thenBody elseBody _ => by
    simp only [Stmt.rebind, Stmt.rename, Expr.rename_const_rename,
      Block.rename_const_rebind relabel none thenBody,
      Block.rename_const_rebind relabel none elseBody]
  | .loop (some counter) _ condition body => by
    have inner := Block.rename_const_rebind (keepName relabel counter) none body
    cases condition <;>
      simp only [Stmt.rebind, Stmt.rename, inner, Option.map_some, Option.map_none,
        Expr.rename_const_rename]
  | .loop none _ condition body => by
    have inner := Block.rename_const_rebind relabel none body
    cases condition <;>
      simp only [Stmt.rebind, Stmt.rename, inner, Option.map_some, Option.map_none,
        Expr.rename_const_rename]
  | .ret value => by
    cases value <;>
      simp only [Stmt.rebind, Stmt.rename, Option.map_some, Option.map_none,
        Expr.rename_const_rename]

/-- A rebound block becomes the original when all names are made the same. -/
theorem Block.rename_const_rebind (relabel : String → String) (mark : Option String) :
    ∀ block : Block, Block.rename (fun _ => blank) (Block.rebind relabel mark block) =
      Block.rename (fun _ => blank) block
  | [] => rfl
  | s :: rest => by
    simp only [Block.rebind, Block.rename, Stmt.rename_const_rebind relabel mark s,
      Block.rename_const_rebind _ mark rest]

end

end Copies

section Unrolling

variable (opened : FunctionId → Option (Trace → Trace))

/-- Rebinding keeps the effects of a block. -/
theorem Block.effects_rebind (relabel : String → String) (mark : Option String) (block : Block) :
    Block.effects opened (Block.rebind relabel mark block) = Block.effects opened block := by
  rw [← Block.effects_rename opened (fun _ => "") (Block.rebind relabel mark block),
    Block.rename_const_rebind, Block.effects_rename]

/-- Rebinding keeps the calls of a block. -/
theorem Block.callShapes_rebind (relabel : String → String) (mark : Option String)
    (block : Block) :
    Block.callShapes (Block.rebind relabel mark block) = Block.callShapes block := by
  rw [← Block.callShapes_rename (fun _ => "") (Block.rebind relabel mark block),
    Block.rename_const_rebind, Block.callShapes_rename]

/-- The effects of a block are those of its statements in order. -/
theorem Block.effects_eq_foldl (block : Block) (trace : Trace) :
    Block.effects opened block trace =
      block.foldl (fun trace s => s.effects opened trace) trace := by
  induction block generalizing trace with
  | nil => rfl
  | cons s rest ih => rw [Block.effects, ih, List.foldl_cons]

/-- The effects of a concatenation are those of its parts in order. -/
theorem Block.effects_append (first second : Block) (trace : Trace) :
    Block.effects opened (first ++ second) trace =
      Block.effects opened second (Block.effects opened first trace) := by
  simp only [Block.effects_eq_foldl, List.foldl_append]

/-- A copy of a loop body has the effects of the body. -/
theorem effects_loopCopy (counter : Option String) (body : Block) (copy : Nat) :
    Block.effects opened (loopCopy counter body copy) = Block.effects opened body := by
  funext trace
  unfold loopCopy
  rw [Block.effects_append, Block.effects_rebind]
  cases counter <;> rfl

/-- Copies of a loop body repeat its effects. -/
theorem effects_copies (counter : Option String) (body : Block) (copies : List Nat) :
    Block.effects opened (copies.flatMap (loopCopy counter body)) =
      (Block.effects opened body)^[copies.length] := by
  induction copies with
  | nil => rfl
  | cons copy copies ih =>
    funext trace
    rw [List.flatMap_cons, Block.effects_append, effects_loopCopy, ih, List.length_cons,
      Function.iterate_succ_apply]

/-- A loop that is unrolled within the limit for writing out is written out. -/
theorem writtenTrips?_of_unrolled {limit : Nat} {counters : List String}
    {counter : Option String} {bound : TripBound} {condition : Option Expr} {trips : Nat}
    (small : limit ≤ maxWrittenTrips)
    (unrolled : unrolledTrips? limit counters counter bound condition = some trips) :
    bound.writtenTrips? condition = some trips := by
  unfold unrolledTrips? at unrolled
  split at unrolled
  · rename_i count
    split at unrolled
    · rename_i within
      cases unrolled
      have fits : trips ≤ maxWrittenTrips := Nat.le_trans within.1 small
      simp only [TripBound.writtenTrips?, fits, if_true]
    · simp at unrolled
  · simp at unrolled

mutual

/-- Unrolling loops no longer than those that are written out keeps the effects of a
statement. -/
theorem Stmt.effects_unroll {limit : Nat} (small : limit ≤ maxWrittenTrips)
    (counters : List String) : ∀ s : Stmt,
    Block.effects opened (s.unroll limit counters) = s.effects opened
  | .bind .. | .assign .. | .eval _ | .setGlobal .. | .emit .. | .store .. | .ret _ => rfl
  | .branch cond thenBody elseBody _ => by
    funext trace
    simp only [Stmt.unroll, Block.effects, Stmt.effects,
      Block.effects_unroll small counters thenBody,
      Block.effects_unroll small counters elseBody]
  | .loop counter bound condition body => by
    have inner := Block.effects_unroll small counters body
    funext trace
    simp only [Stmt.unroll]
    cases unrolled : unrolledTrips? limit counters counter bound condition with
    | some trips =>
      have written := writtenTrips?_of_unrolled small unrolled
      simp only [effects_copies, inner, List.length_range, Stmt.effects, written]
    | none => simp only [Block.effects, Stmt.effects, inner]

/-- Unrolling loops no longer than those that are written out keeps the effects of a
block. -/
theorem Block.effects_unroll {limit : Nat} (small : limit ≤ maxWrittenTrips)
    (counters : List String) : ∀ block : Block,
    Block.effects opened (Block.unroll limit counters block) = Block.effects opened block
  | [] => rfl
  | s :: rest => by
    funext trace
    rw [Block.unroll, Block.effects_append, Stmt.effects_unroll small counters s,
      Block.effects_unroll small counters rest, Block.effects]

end

/-- A copy of a loop body has the calls of the body. -/
theorem callShapes_loopCopy (counter : Option String) (body : Block) (copy : Nat) :
    Block.callShapes (loopCopy counter body copy) = Block.callShapes body := by
  unfold loopCopy
  rw [Block.callShapes_append, Block.callShapes_rebind]
  cases counter <;> rfl

/-- Copies of a loop body have no calls but those of the body. -/
theorem callShapes_copies (counter : Option String) (body : Block) (copies : List Nat) :
    Block.callShapes (copies.flatMap (loopCopy counter body)) ⊆ Block.callShapes body := by
  induction copies with
  | nil => simp
  | cons copy copies ih =>
    rw [List.flatMap_cons, Block.callShapes_append, callShapes_loopCopy]
    exact List.append_subset.mpr ⟨List.Subset.refl _, ih⟩

mutual

/-- Unrolling adds no calls to a statement. -/
theorem Stmt.callShapes_unroll (limit : Nat) (counters : List String) : ∀ s : Stmt,
    Block.callShapes (s.unroll limit counters) ⊆ s.callShapes
  | .bind .. | .assign .. | .eval _ | .setGlobal .. | .emit .. | .store .. | .ret _ => by
    simp [Stmt.unroll]
  | .branch cond thenBody elseBody _ => by
    have thenPart := Block.callShapes_unroll limit counters thenBody
    have elsePart := Block.callShapes_unroll limit counters elseBody
    simp only [Stmt.unroll, Block.callShapes_cons, Block.callShapes_nil, List.append_nil,
      Stmt.callShapes_branch]
    grind
  | .loop counter bound condition body => by
    have inner := Block.callShapes_unroll limit counters body
    simp only [Stmt.unroll]
    cases unrolledTrips? limit counters counter bound condition with
    | some trips =>
      have copies := callShapes_copies counter (Block.unroll limit counters body) (List.range trips)
      simp only [Stmt.callShapes_loop]
      grind
    | none =>
      simp only [Block.callShapes_cons, Block.callShapes_nil, List.append_nil,
        Stmt.callShapes_loop]
      grind

/-- Unrolling adds no calls to a block. -/
theorem Block.callShapes_unroll (limit : Nat) (counters : List String) : ∀ block : Block,
    Block.callShapes (Block.unroll limit counters block) ⊆ Block.callShapes block
  | [] => by simp [Block.unroll]
  | s :: rest => by
    have first := Stmt.callShapes_unroll limit counters s
    have others := Block.callShapes_unroll limit counters rest
    simp only [Block.unroll, Block.callShapes_append, Block.callShapes_cons]
    grind

end

end Unrolling

/-! ## Order of arms -/

section Arms

variable (opened : FunctionId → Option (Trace → Trace))

mutual

/-- Putting likely arms first keeps the effects of a statement. -/
theorem Stmt.effects_reorder : ∀ s : Stmt, s.reorder.effects opened = s.effects opened
  | .bind .. | .assign .. | .eval _ | .setGlobal .. | .emit .. | .store .. | .ret _ => rfl
  | .branch cond thenBody elseBody likelihood => by
    have thenSame := Block.effects_reorder thenBody
    have elseSame := Block.effects_reorder elseBody
    funext trace
    simp only [Stmt.reorder]
    split
    · -- both the arms and the polarity of the condition are swapped
      simp only [Stmt.effects, Expr.guard_opposite, Expr.negated_opposite, thenSame, elseSame]
      cases cond.negated <;> rfl
    · simp only [Stmt.effects, thenSame, elseSame]
  | .loop _ _ _ body => by
    funext trace
    simp only [Stmt.reorder, Stmt.effects, Block.effects_reorder body]

/-- Putting likely arms first keeps the effects of a block. -/
theorem Block.effects_reorder : ∀ block : Block,
    Block.effects opened (Block.reorder block) = Block.effects opened block
  | [] => rfl
  | s :: rest => by
    funext trace
    simp only [Block.reorder, Block.effects, Stmt.effects_reorder s, Block.effects_reorder rest]

end

/-- The opposite of a condition has the same calls. -/
theorem Expr.callShapes_opposite (e : Expr) : e.opposite.callShapes = e.callShapes := by
  unfold Expr.opposite
  split <;> rfl

mutual

/-- Putting likely arms first adds no calls to a statement. -/
theorem Stmt.callShapes_reorder : ∀ s : Stmt, s.reorder.callShapes ⊆ s.callShapes
  | .bind .. | .assign .. | .eval _ | .setGlobal .. | .emit .. | .store .. | .ret _ =>
    List.Subset.refl _
  | .branch cond thenBody elseBody likelihood => by
    have thenPart := Block.callShapes_reorder thenBody
    have elsePart := Block.callShapes_reorder elseBody
    simp only [Stmt.reorder]
    split
    · simp only [Stmt.callShapes_branch, Expr.callShapes_opposite]
      grind
    · simp only [Stmt.callShapes_branch]
      grind
  | .loop _ _ _ body => by
    have inner := Block.callShapes_reorder body
    simp only [Stmt.reorder, Stmt.callShapes_loop]
    grind

/-- Putting likely arms first adds no calls to a block. -/
theorem Block.callShapes_reorder : ∀ block : Block,
    Block.callShapes (Block.reorder block) ⊆ Block.callShapes block
  | [] => List.Subset.refl _
  | s :: rest => by
    have first := Stmt.callShapes_reorder s
    have others := Block.callShapes_reorder rest
    simp only [Block.reorder, Block.callShapes_cons]
    grind

end

end Arms

/-! ## Order of loads -/

section Loads

variable (opened : FunctionId → Option (Trace → Trace))

/-- Reads form a set, so their order does not matter. -/
theorem Trace.read_comm (trace : Trace) (first second : Read) :
    (trace.read first).read second = (trace.read second).read first := by
  unfold Trace.read
  congr 1
  apply Table.ext_get?
  intro key
  simp only [OrderedSet.add, Table.get?_insert]
  split <;> split <;> rfl

/-- The effect of a load at a literal index is a read. -/
theorem Stmt.effects_of_literalLoad {s : Stmt} (loads : s.literalLoad?.isSome) :
    ∃ seen, s.effects opened = (·.read seen) := by
  unfold Stmt.literalLoad? at loads
  split at loads
  · exact ⟨_, rfl⟩
  · simp at loads

/-- The order of loads at literal indices does not matter. -/
theorem Block.effects_perm {run sorted : Block} (loads : ∀ s ∈ run, s.literalLoad?.isSome)
    (same : sorted.Perm run) : Block.effects opened sorted = Block.effects opened run := by
  funext trace
  rw [Block.effects_eq_foldl, Block.effects_eq_foldl]
  refine same.foldl_eq' (fun s inside t within before => ?_) trace
  obtain ⟨first, firstRead⟩ := Stmt.effects_of_literalLoad opened (loads s (same.subset inside))
  obtain ⟨second, secondRead⟩ := Stmt.effects_of_literalLoad opened (loads t (same.subset within))
  rw [firstRead, secondRead]
  exact Trace.read_comm _ _ _

/-- The pieces of a block are runs of loads and single statements. -/
theorem Block.runsFrom_loads (run block : Block) (loads : ∀ s ∈ run, s.literalLoad?.isSome) :
    ∀ piece ∈ Block.runsFrom run block,
      (∀ s ∈ piece, s.literalLoad?.isSome) ∨ ∃ s, piece = [s] := by
  induction block generalizing run with
  | nil =>
    intro piece listed
    rw [Block.runsFrom, List.mem_singleton] at listed
    exact .inl (listed ▸ loads)
  | cons s rest ih =>
    intro piece listed
    rw [Block.runsFrom] at listed
    split at listed
    · rename_i joins
      have load : s.literalLoad?.isSome := by
        rw [Stmt.joinsRun, Bool.and_eq_true] at joins
        exact joins.1
      refine ih (run ++ [s]) (fun t inside => ?_) piece listed
      rcases List.mem_append.mp inside with before | last
      · exact loads t before
      · exact List.mem_singleton.mp last ▸ load
    · split at listed
      · rename_i starts
        have load : s.literalLoad?.isSome := by
          rw [Stmt.joinsRun, Bool.and_eq_true] at starts
          exact starts.1
        rcases List.mem_cons.mp listed with rfl | later
        · exact .inl loads
        · exact ih [s] (fun t inside => List.mem_singleton.mp inside ▸ load) piece later
      · rcases List.mem_cons.mp listed with rfl | later
        · exact .inl loads
        · rcases List.mem_cons.mp later with rfl | last
          · exact .inr ⟨s, rfl⟩
          · exact ih [] (by simp) piece last

/-- Arranging a piece of a block keeps its effects. -/
theorem Block.effects_arrangeRun {piece : Block}
    (loads : (∀ s ∈ piece, s.literalLoad?.isSome) ∨ ∃ s, piece = [s]) :
    Block.effects opened (Block.arrangeRun piece) = Block.effects opened piece := by
  have same := Block.arrangeRun_perm piece
  rcases loads with loads | ⟨s, rfl⟩
  · exact Block.effects_perm opened loads same
  · rw [List.perm_singleton.mp same]

/-- Arranging the runs of a block keeps its effects. -/
theorem Block.effects_arrange (block : Block) :
    Block.effects opened (Block.arrange block) = Block.effects opened block := by
  have pieces (runs : List Block)
      (loads : ∀ piece ∈ runs, (∀ s ∈ piece, s.literalLoad?.isSome) ∨ ∃ s, piece = [s]) :
      Block.effects opened (runs.flatMap Block.arrangeRun) = Block.effects opened runs.flatten := by
    induction runs with
    | nil => rfl
    | cons run runs ih =>
      funext trace
      rw [List.flatMap_cons, List.flatten_cons, Block.effects_append, Block.effects_append,
        Block.effects_arrangeRun opened (loads run (by simp)),
        ih fun piece listed => loads piece (by simp [listed])]
  have whole := pieces _ (Block.runsFrom_loads [] block (by simp))
  rw [Block.flatten_runsFrom, List.nil_append] at whole
  exact whole

mutual

/-- Grouping the loads nested in a statement keeps its effects. -/
theorem Stmt.effects_group : ∀ s : Stmt, s.group.effects opened = s.effects opened
  | .bind .. | .assign .. | .eval _ | .setGlobal .. | .emit .. | .store .. | .ret _ => rfl
  | .branch cond thenBody elseBody _ => by
    funext trace
    simp only [Stmt.group, Stmt.effects, Block.effects_arrange, Block.effects_groupNested thenBody,
      Block.effects_groupNested elseBody]
  | .loop _ _ _ body => by
    funext trace
    simp only [Stmt.group, Stmt.effects, Block.effects_arrange, Block.effects_groupNested body]

/-- Grouping the loads in the blocks nested in a block keeps its effects. -/
theorem Block.effects_groupNested : ∀ block : Block,
    Block.effects opened (Block.groupNested block) = Block.effects opened block
  | [] => rfl
  | s :: rest => by
    funext trace
    simp only [Block.groupNested, Block.effects, Stmt.effects_group s,
      Block.effects_groupNested rest]

end

/-- Grouping loads keeps the effects of a block. -/
theorem Block.effects_group (block : Block) :
    Block.effects opened (Block.group block) = Block.effects opened block := by
  rw [Block.group, Block.effects_arrange, Block.effects_groupNested]

/-- The calls of a block are those of its statements. -/
theorem Block.mem_callShapes_iff {block : Block} {shape : FunctionId × Nat} :
    shape ∈ Block.callShapes block ↔ ∃ s ∈ block, shape ∈ s.callShapes := by
  induction block with
  | nil => simp
  | cons s rest ih => simp [ih]

/-- Arranging the runs of a block adds no calls. -/
theorem Block.callShapes_arrange (block : Block) :
    Block.callShapes (Block.arrange block) ⊆ Block.callShapes block := by
  intro shape listed
  rw [Block.mem_callShapes_iff] at listed ⊢
  obtain ⟨s, inside, called⟩ := listed
  exact ⟨s, (Block.arrange_perm block).subset inside, called⟩

mutual

/-- Grouping the loads nested in a statement adds no calls. -/
theorem Stmt.callShapes_group : ∀ s : Stmt, s.group.callShapes ⊆ s.callShapes
  | .bind .. | .assign .. | .eval _ | .setGlobal .. | .emit .. | .store .. | .ret _ =>
    List.Subset.refl _
  | .branch cond thenBody elseBody _ => by
    have thenPart := Block.callShapes_groupNested thenBody
    have elsePart := Block.callShapes_groupNested elseBody
    have thenRuns := Block.callShapes_arrange (Block.groupNested thenBody)
    have elseRuns := Block.callShapes_arrange (Block.groupNested elseBody)
    simp only [Stmt.group, Stmt.callShapes_branch]
    grind
  | .loop _ _ _ body => by
    have inner := Block.callShapes_groupNested body
    have runs := Block.callShapes_arrange (Block.groupNested body)
    simp only [Stmt.group, Stmt.callShapes_loop]
    grind

/-- Grouping the loads in the blocks nested in a block adds no calls. -/
theorem Block.callShapes_groupNested : ∀ block : Block,
    Block.callShapes (Block.groupNested block) ⊆ Block.callShapes block
  | [] => List.Subset.refl _
  | s :: rest => by
    have first := Stmt.callShapes_group s
    have others := Block.callShapes_groupNested rest
    simp only [Block.groupNested, Block.callShapes_cons]
    grind

end

/-- Grouping loads adds no calls to a block. -/
theorem Block.callShapes_group (block : Block) :
    Block.callShapes (Block.group block) ⊆ Block.callShapes block :=
  List.Subset.trans (Block.callShapes_arrange _) (Block.callShapes_groupNested block)

end Loads

end Timebound
