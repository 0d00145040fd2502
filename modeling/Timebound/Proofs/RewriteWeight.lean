import Timebound.Proofs.EffectInlining
import Timebound.Proofs.ResolvedRewrites

/-!
# Weights that rewriting does not raise

The weight of a block is what its calls and loops can be expanded to: a call weighs what the price
of its callee says and one more, and a loop weighs one more than the copies it can be unrolled to.
When no body that may be put in the place of a call weighs more than the price of the callee,
every expanded call and every unrolled loop takes at least one off the weight
(`Block.weight_inline`, `Block.weight_unroll`). The other rewrites keep the weight: renaming,
putting likely arms first, grouping loads and folding.
-/

namespace Timebound

/-! ## Sums over statements -/

namespace Block

/-- The sum of a value over the statements of a block. -/
def sumOver (value : Stmt → Nat) (block : Block) : Nat :=
  block.foldr (fun s rest => value s + rest) 0

/-- The sum over a concatenation is that over its parts. -/
theorem sumOver_append (value : Stmt → Nat) (first second : Block) :
    sumOver value (first ++ second) = sumOver value first + sumOver value second := by
  induction first with
  | nil => exact (Nat.zero_add _).symm
  | cons s rest ih =>
    simp only [sumOver, List.cons_append, List.foldr_cons] at ih ⊢
    omega

/-- The order of the statements does not matter for a sum. -/
theorem sumOver_perm (value : Stmt → Nat) {first second : Block} (same : first.Perm second) :
    sumOver value first = sumOver value second := by
  induction same with
  | nil => rfl
  | cons s _ ih => simp only [sumOver, List.foldr_cons] at ih ⊢; omega
  | swap s t rest => simp only [sumOver, List.foldr_cons]; omega
  | trans _ _ first second => exact first.trans second

/-- The size of a block is that of its statements. -/
theorem size_eq_sumOver (block : Block) : size block = sumOver Stmt.size block := by
  induction block with
  | nil => rfl
  | cons s rest ih => rw [size, ih]; rfl

/-- The number of reordered branches is that in the statements. -/
theorem reorderCount_eq_sumOver (block : Block) :
    reorderCount block = sumOver Stmt.reorderCount block := by
  induction block with
  | nil => rfl
  | cons s rest ih => rw [reorderCount, ih]; rfl

end Block

/-! ## Weights -/

/-- The price of calls: each costs what its callee does, and one more. -/
def callsPrice (price : FunctionId → Nat) (shapes : List (FunctionId × Nat)) : Nat :=
  shapes.foldr (fun shape rest => price shape.1 + 1 + rest) 0

/-- The number of copies of its body that a loop can become. A loop that can only be dropped
counts its body once. -/
def TripBound.copies : TripBound → Option Expr → Nat
  | .exact trips, none => if trips = 0 then 1 else trips
  | _, _ => 1

mutual

/-- What the calls and loops of a statement can be expanded to. -/
def Stmt.weight (price : FunctionId → Nat) : Stmt → Nat
  | .bind _ _ value | .assign _ value | .setGlobal _ value | .emit _ value | .eval value =>
    callsPrice price value.callShapes
  | .store _ index value => callsPrice price index.callShapes + callsPrice price value.callShapes
  | .branch cond thenBody elseBody _ =>
    callsPrice price cond.callShapes + (Block.weight price thenBody + Block.weight price elseBody)
  | .loop _ bound condition body =>
    callsPrice price (Expr.optionalCallShapes condition) + 1 +
      bound.copies condition * Block.weight price body
  | .ret value => callsPrice price (Expr.optionalCallShapes value)

/-- What the calls and loops of a block can be expanded to. -/
def Block.weight (price : FunctionId → Nat) : List Stmt → Nat
  | [] => 0
  | s :: rest => s.weight price + Block.weight price rest

end

section Prices

variable {price other : FunctionId → Nat}

/-- The price of calls in a row is the sum of their prices. -/
theorem callsPrice_append (first second : List (FunctionId × Nat)) :
    callsPrice price (first ++ second) = callsPrice price first + callsPrice price second := by
  induction first with
  | nil => exact (Nat.zero_add _).symm
  | cons shape rest ih =>
    simp only [callsPrice, List.cons_append, List.foldr_cons] at ih ⊢
    omega

/-- Calls cost no more when no callee does. -/
theorem callsPrice_mono {shapes : List (FunctionId × Nat)}
    (cheaper : ∀ shape ∈ shapes, price shape.1 ≤ other shape.1) :
    callsPrice price shapes ≤ callsPrice other shapes := by
  induction shapes with
  | nil => exact Nat.le_refl _
  | cons shape rest ih =>
    have first := cheaper shape List.mem_cons_self
    have others := ih fun shape listed => cheaper shape (List.mem_cons_of_mem _ listed)
    simp only [callsPrice, List.foldr_cons] at others ⊢
    omega

/-- Every loop has a copy. -/
theorem TripBound.copies_pos (bound : TripBound) (condition : Option Expr) :
    0 < bound.copies condition := by
  unfold TripBound.copies
  split
  · split <;> omega
  · exact Nat.one_pos

/-- The weight of a block is that of its statements. -/
theorem Block.weight_eq_sumOver (block : Block) :
    Block.weight price block = Block.sumOver (Stmt.weight price) block := by
  induction block with
  | nil => rfl
  | cons s rest ih => rw [Block.weight, ih]; rfl

/-- The weight of a concatenation is that of its parts. -/
theorem Block.weight_append (first second : Block) :
    Block.weight price (first ++ second) =
      Block.weight price first + Block.weight price second := by
  simp only [Block.weight_eq_sumOver, Block.sumOver_append]

mutual

/-- A statement weighs no more when no callee costs more. -/
theorem Stmt.weight_mono : ∀ s : Stmt, (∀ shape ∈ s.callShapes, price shape.1 ≤ other shape.1) →
    s.weight price ≤ s.weight other
  | .bind _ _ value, cheaper | .assign _ value, cheaper | .setGlobal _ value, cheaper
  | .emit _ value, cheaper | .eval value, cheaper => by
    simp only [Stmt.callShapes_bind, Stmt.callShapes_assign, Stmt.callShapes_setGlobal,
      Stmt.callShapes_emit, Stmt.callShapes_eval] at cheaper
    exact callsPrice_mono cheaper
  | .store _ index value, cheaper => by
    rw [Stmt.callShapes_store, List.forall_mem_append] at cheaper
    exact Nat.add_le_add (callsPrice_mono cheaper.1) (callsPrice_mono cheaper.2)
  | .branch cond thenBody elseBody _, cheaper => by
    rw [Stmt.callShapes_branch, List.forall_mem_append, List.forall_mem_append] at cheaper
    exact Nat.add_le_add (callsPrice_mono cheaper.1) (Nat.add_le_add
      (Block.weight_mono thenBody cheaper.2.1) (Block.weight_mono elseBody cheaper.2.2))
  | .loop _ _ condition body, cheaper => by
    rw [Stmt.callShapes_loop, List.forall_mem_append] at cheaper
    exact Nat.add_le_add (Nat.add_le_add_right (callsPrice_mono cheaper.1) 1)
      (Nat.mul_le_mul_left _ (Block.weight_mono body cheaper.2))
  | .ret value, cheaper => by
    rw [Stmt.callShapes_ret] at cheaper
    exact callsPrice_mono cheaper

/-- A block weighs no more when no callee costs more. -/
theorem Block.weight_mono : ∀ block : List Stmt,
    (∀ shape ∈ Block.callShapes block, price shape.1 ≤ other shape.1) →
      Block.weight price block ≤ Block.weight other block
  | [], _ => Nat.le_refl _
  | s :: rest, cheaper => by
    rw [Block.callShapes_cons, List.forall_mem_append] at cheaper
    exact Nat.add_le_add (Stmt.weight_mono s cheaper.1) (Block.weight_mono rest cheaper.2)

end

end Prices

/-! ## Renaming and copies -/

section Copies

variable (price : FunctionId → Nat)

mutual

/-- Renaming keeps the weight of a statement. -/
theorem Stmt.weight_rename (relabel : String → String) : ∀ s : Stmt,
    (s.rename relabel).weight price = s.weight price
  | .bind .. | .assign .. | .setGlobal .. | .emit .. | .eval _ | .store .. | .ret _ => by
    simp only [Stmt.rename, Stmt.weight, Expr.callShapes_rename, Expr.optionalCallShapes_rename]
  | .branch _ thenBody elseBody _ => by
    simp only [Stmt.rename, Stmt.weight, Expr.callShapes_rename,
      Block.weight_rename relabel thenBody, Block.weight_rename relabel elseBody]
  | .loop _ bound condition body => by
    have copies : bound.copies (condition.map (Expr.rename relabel)) = bound.copies condition := by
      cases condition <;> cases bound <;> rfl
    simp only [Stmt.rename, Stmt.weight, Expr.optionalCallShapes_rename, copies,
      Block.weight_rename relabel body]

/-- Renaming keeps the weight of a block. -/
theorem Block.weight_rename (relabel : String → String) : ∀ block : List Stmt,
    Block.weight price (Block.rename relabel block) = Block.weight price block
  | [] => rfl
  | s :: rest => by
    simp only [Block.rename, Block.weight, Stmt.weight_rename relabel s,
      Block.weight_rename relabel rest]

end

/-- Marking the locals of a copy keeps the weight. -/
theorem Block.weight_rebind (relabel : String → String) (mark : Option String) (block : Block) :
    Block.weight price (Block.rebind relabel mark block) = Block.weight price block := by
  rw [← Block.weight_rename price (fun _ => "") (Block.rebind relabel mark block),
    Block.rename_const_rebind, Block.weight_rename]

/-- A copy of a loop body weighs as much as the body. -/
theorem weight_loopCopy (counter : Option String) (body : Block) (copy : Nat) :
    Block.weight price (loopCopy counter body copy) = Block.weight price body := by
  rw [loopCopy, Block.weight_append, Block.weight_rebind]
  cases counter
  · exact Nat.zero_add _
  · exact Nat.zero_add _

/-- Copies of a loop body weigh as much as the body, each. -/
theorem weight_copies (counter : Option String) (body : Block) (copies : List Nat) :
    Block.weight price (copies.flatMap (loopCopy counter body)) =
      copies.length * Block.weight price body := by
  induction copies with
  | nil => exact (Nat.zero_mul _).symm
  | cons copy rest ih =>
    rw [List.flatMap_cons, Block.weight_append, weight_loopCopy, ih, List.length_cons,
      Nat.succ_mul, Nat.add_comm]

end Copies

/-! ## Unrolling -/

section Unrolling

variable (price : FunctionId → Nat) (limit : Nat) (counters : List String)

/-- A loop that is unrolled has as many copies as iterations, or one if it has no iteration. -/
theorem copies_of_unrolled {counter : Option String} {bound : TripBound} {condition : Option Expr}
    {trips : Nat} (unrolled : unrolledTrips? limit counters counter bound condition = some trips) :
    bound.copies condition = if trips = 0 then 1 else trips := by
  unfold unrolledTrips? at unrolled
  split at unrolled
  · split at unrolled
    · cases unrolled
      rfl
    · cases unrolled
  · cases unrolled

mutual

/-- Every unrolled loop of a statement takes one off its weight. -/
theorem Stmt.weight_unroll : ∀ s : Stmt,
    Block.weight price (s.unroll limit counters) + s.unrollCount limit counters ≤ s.weight price
  | .bind .. | .assign .. | .setGlobal .. | .emit .. | .eval _ | .store .. | .ret _ =>
    Nat.le_refl _
  | .branch cond thenBody elseBody _ => by
    have first := Block.weight_unroll thenBody
    have second := Block.weight_unroll elseBody
    simp only [Stmt.unroll, Stmt.unrollCount, Block.weight, Stmt.weight]
    omega
  | .loop counter bound condition body => by
    have inner := Block.weight_unroll body
    simp only [Stmt.unroll, Stmt.unrollCount, Stmt.weight]
    cases unrolled : unrolledTrips? limit counters counter bound condition with
    | some trips =>
      have copies := copies_of_unrolled limit counters unrolled
      rw [weight_copies, List.length_range, copies]
      by_cases none : trips = 0
      · simp only [none, if_true, Option.isSome_some]
        omega
      · have least : 1 ≤ trips := Nat.one_le_iff_ne_zero.mpr none
        have scaled := Nat.mul_le_mul_left trips inner
        have kept : Block.unrollCount limit counters body ≤
            trips * Block.unrollCount limit counters body := Nat.le_mul_of_pos_left _ least
        rw [Nat.mul_add] at scaled
        simp only [none, if_false, Option.isSome_some, if_true]
        omega
    | none =>
      have copies := bound.copies_pos condition
      have scaled := Nat.mul_le_mul_left (bound.copies condition) inner
      have kept : Block.unrollCount limit counters body ≤
          bound.copies condition * Block.unrollCount limit counters body :=
        Nat.le_mul_of_pos_left _ copies
      rw [Nat.mul_add] at scaled
      simp only [Block.weight, Stmt.weight, Option.isSome_none, Bool.false_eq_true, if_false]
      omega

/-- Every unrolled loop of a block takes one off its weight. -/
theorem Block.weight_unroll : ∀ block : List Stmt,
    Block.weight price (Block.unroll limit counters block) +
      Block.unrollCount limit counters block ≤ Block.weight price block
  | [] => Nat.le_refl _
  | s :: rest => by
    have first := Stmt.weight_unroll s
    have others := Block.weight_unroll rest
    simp only [Block.unroll, Block.unrollCount, Block.weight, Block.weight_append]
    omega

end

mutual

/-- A statement without a loop to unroll is left alone. -/
theorem Stmt.unroll_eq_self : ∀ s : Stmt, s.unrollCount limit counters = 0 →
    s.unroll limit counters = [s]
  | .bind .., _ | .assign .., _ | .setGlobal .., _ | .emit .., _ | .eval _, _ | .store .., _
  | .ret _, _ => rfl
  | .branch cond thenBody elseBody _, settled => by
    rw [Stmt.unrollCount, Nat.add_eq_zero_iff] at settled
    rw [Stmt.unroll, Block.unroll_eq_self thenBody settled.1,
      Block.unroll_eq_self elseBody settled.2]
  | .loop counter bound condition body, settled => by
    rw [Stmt.unrollCount, Nat.add_eq_zero_iff] at settled
    have inner := Block.unroll_eq_self body settled.1
    cases unrolled : unrolledTrips? limit counters counter bound condition with
    | some trips =>
      rw [unrolled] at settled
      cases settled.2
    | none => simp only [Stmt.unroll, unrolled, inner]

/-- A block without a loop to unroll is left alone. -/
theorem Block.unroll_eq_self : ∀ block : List Stmt, Block.unrollCount limit counters block = 0 →
    Block.unroll limit counters block = block
  | [], _ => rfl
  | s :: rest, settled => by
    rw [Block.unrollCount, Nat.add_eq_zero_iff] at settled
    rw [Block.unroll, Stmt.unroll_eq_self s settled.1, Block.unroll_eq_self rest settled.2]
    rfl

end

end Unrolling

/-! ## Expanding calls -/

/-- The weight of a body that can stand in for a call. -/
def Inlinable.weight (price : FunctionId → Nat) (callee : Inlinable) : Nat :=
  Block.weight price callee.init + callsPrice price (Expr.optionalCallShapes callee.value)

/-- A body weighs what the part before its final return and the returned value do. -/
theorem Block.weight_splitEnd (price : FunctionId → Nat) (body : Block) :
    Block.weight price body = Block.weight price (Block.splitEnd body).1 +
      callsPrice price (Expr.optionalCallShapes (Block.splitEnd body).2) := by
  unfold Block.splitEnd
  split
  · rename_i value last
    obtain ⟨init, rfl⟩ := List.getLast?_eq_some_iff.mp last
    rw [List.dropLast_concat, Block.weight_append]
    rfl
  · rfl

/-- No body that may take the place of one of these calls weighs more than its callee costs. -/
def Affordable (price : FunctionId → Nat) (find : FunctionId → Option Inlinable)
    (shapes : List (FunctionId × Nat)) : Prop :=
  ∀ callee count target, (callee, count) ∈ shapes → find callee = some target →
    target.weight price ≤ price callee

section Counts

variable (find : FunctionId → Option Inlinable)

mutual

/-- A statement in which no call is expanded is left alone. -/
theorem Stmt.inline_eq_self : ∀ (s : Stmt) (site : Nat), (s.inline find site).count = 0 →
    (s.inline find site).body = [s]
  | .bind .., site, idle | .assign .., site, idle | .eval _, site, idle => by
    rcases Stmt.inlineCall_cases find _ site with alone | ⟨_, _, _, _, _, _, _, made⟩
    · exact congrArg Inlined.body alone
    · exact absurd ((congrArg Inlined.count made).symm.trans idle) Nat.one_ne_zero
  | .setGlobal .., _, _ | .store .., _, _ | .emit .., _, _ | .ret _, _, _ => rfl
  | .branch _ thenBody elseBody _, site, idle => by
    simp only [Stmt.inline, Nat.add_eq_zero_iff] at idle ⊢
    rw [Block.inline_eq_self thenBody site idle.1, Block.inline_eq_self elseBody _ idle.2]
  | .loop _ _ _ body, site, idle => by
    simp only [Stmt.inline] at idle ⊢
    rw [Block.inline_eq_self body site idle]

/-- A block in which no call is expanded is left alone. -/
theorem Block.inline_eq_self : ∀ (block : List Stmt) (site : Nat),
    (Block.inline find block site).count = 0 → (Block.inline find block site).body = block
  | [], _, _ => rfl
  | s :: rest, site, idle => by
    simp only [Block.inline, Nat.add_eq_zero_iff] at idle ⊢
    rw [Stmt.inline_eq_self s site idle.1, Block.inline_eq_self rest _ idle.2]
    rfl

end

end Counts

section Inlining

variable {price : FunctionId → Nat} {find : FunctionId → Option Inlinable}

/-- Affordable calls are affordable in every part. -/
theorem Affordable.mono {shapes fewer : List (FunctionId × Nat)}
    (affordable : Affordable price find shapes) (inside : fewer ⊆ shapes) :
    Affordable price find fewer :=
  fun callee count target listed found => affordable callee count target (inside listed) found

/-- A statement that is nothing but a call weighs what the call costs. -/
theorem Stmt.weight_of_wholeCall {s : Stmt} {callee : FunctionId} {args : List Expr}
    (whole : s.wholeCall? = some (callee, args)) :
    s.weight price = price callee + 1 + callsPrice price (Args.callShapes args) := by
  unfold Stmt.wholeCall? at whole
  split at whole
  case h_4 => cases whole
  all_goals
    cases whole
    rfl

/-- What is left of a statement after its call weighs what the result does. -/
theorem Stmt.weight_afterCall {s : Stmt} {result : Option Expr} {rest : Block}
    (left : s.afterCall? result = some rest) :
    Block.weight price rest = callsPrice price (Expr.optionalCallShapes result) := by
  unfold Stmt.afterCall? at left
  split at left
  case h_5 => cases left
  case h_4 =>
    cases left
    rfl
  all_goals
    cases left
    simp [Block.weight, Stmt.weight, Expr.optionalCallShapes, Expr.callShapes]

/-- Parameters weigh no more than the arguments. -/
theorem Inlinable.weight_params (label : String → String) (params : List Parameter)
    (args : List Expr) :
    Block.weight price ((params.zip args).map fun (param, arg) =>
      .bind (label param.name) param.type arg) ≤ callsPrice price (Args.callShapes args) := by
  induction params generalizing args with
  | nil => exact Nat.zero_le _
  | cons param params ih =>
    cases args with
    | nil => exact Nat.zero_le _
    | cons arg args =>
      rw [List.zip_cons_cons, List.map_cons, Block.weight, Args.callShapes_cons, callsPrice_append]
      exact Nat.add_le_add_left (ih args) _

/-- The statements that replace a call weigh no more than the arguments and the callee's body. -/
theorem Inlinable.weight_statements (target : Inlinable) (site : Nat) (args : List Expr) :
    Block.weight price (target.statements site args) ≤
      callsPrice price (Args.callShapes args) + Block.weight price target.init := by
  rw [Inlinable.statements, Block.weight_append, Block.weight_rename]
  exact Nat.add_le_add_right (Inlinable.weight_params _ target.function.params args) _

/-- An expansion weighs less than the call by one at least. -/
theorem Stmt.weight_inlineCall {s : Stmt} (affordable : Affordable price find s.callShapes)
    (site : Nat) :
    Block.weight price (s.inlineCall find site).body + (s.inlineCall find site).count ≤
      s.weight price := by
  rcases s.inlineCall_cases find site with
    alone | ⟨callee, args, target, rest, whole, found, left, made⟩
  · rw [alone]
    exact Nat.le_refl _
  · have called : (callee, args.length) ∈ s.callShapes := by
      rw [(Stmt.eq_of_wholeCall (fun _ => none) whole).2, Expr.callShapes_call]
      exact List.mem_cons_self
    have body := affordable callee args.length target called found
    have replaced : Block.weight price (target.statements site args) ≤ _ :=
      target.weight_statements site args
    have result : Block.weight price rest = callsPrice price (Expr.optionalCallShapes _) :=
      Stmt.weight_afterCall left
    rw [Inlinable.result, Expr.optionalCallShapes_rename] at result
    rw [Inlinable.weight] at body
    rw [made, Stmt.weight_of_wholeCall whole]
    dsimp only
    rw [Block.weight_append, result]
    omega

mutual

/-- Every expanded call of a statement takes one off its weight. -/
theorem Stmt.weight_inline : ∀ (s : Stmt) (site : Nat), Affordable price find s.callShapes →
    Block.weight price (s.inline find site).body + (s.inline find site).count ≤ s.weight price
  | .bind .., site, affordable | .assign .., site, affordable | .eval _, site, affordable =>
    Stmt.weight_inlineCall affordable site
  | .setGlobal .., _, _ | .store .., _, _ | .emit .., _, _ | .ret _, _, _ => Nat.le_refl _
  | .branch cond thenBody elseBody _, site, affordable => by
    rw [Stmt.callShapes_branch] at affordable
    have first := Block.weight_inline thenBody site (affordable.mono (by grind))
    have second := Block.weight_inline elseBody (Block.inline find thenBody site).next
      (affordable.mono (by grind))
    simp only [Stmt.inline, Block.weight, Stmt.weight]
    omega
  | .loop _ bound condition body, site, affordable => by
    rw [Stmt.callShapes_loop] at affordable
    have inner := Block.weight_inline body site (affordable.mono (by grind))
    -- The body counts once for each copy, the expanded calls count once.
    have scaled := Nat.mul_le_mul_left (bound.copies condition) inner
    have kept : (Block.inline find body site).count ≤
        bound.copies condition * (Block.inline find body site).count :=
      Nat.le_mul_of_pos_left _ (bound.copies_pos condition)
    rw [Nat.mul_add] at scaled
    simp only [Stmt.inline, Block.weight, Stmt.weight]
    omega

/-- Every expanded call of a block takes one off its weight. -/
theorem Block.weight_inline : ∀ (block : List Stmt) (site : Nat),
    Affordable price find (Block.callShapes block) →
      Block.weight price (Block.inline find block site).body +
        (Block.inline find block site).count ≤ Block.weight price block
  | [], _, _ => Nat.le_refl _
  | s :: rest, site, affordable => by
    rw [Block.callShapes_cons] at affordable
    have first := Stmt.weight_inline s site (affordable.mono (by grind))
    have others := Block.weight_inline rest (s.inline find site).next (affordable.mono (by grind))
    simp only [Block.inline, Block.weight, Block.weight_append]
    omega

end

end Inlining

/-! ## Order of arms -/

section Arms

/-- The other arm of a branch with an unlikely first arm is likely. -/
theorem isUnlikely_other {likelihood : Option Nat} (unlikely : isUnlikely likelihood = true) :
    isUnlikely (likelihood.map otherLikelihood) = false := by
  cases likelihood with
  | none => cases unlikely
  | some chance =>
    have below : chance < certainty / 2 := of_decide_eq_true unlikely
    refine decide_eq_false ?_
    simp only [otherLikelihood, certainty] at below ⊢
    omega

mutual

/-- Putting likely arms first keeps the weight of a statement and leaves no branch to reorder. -/
theorem Stmt.reorder_settles (price : FunctionId → Nat) : ∀ s : Stmt,
    s.reorder.weight price = s.weight price ∧ s.reorder.reorderCount = 0
  | .bind .. | .assign .. | .setGlobal .. | .emit .. | .eval _ | .store .. | .ret _ => ⟨rfl, rfl⟩
  | .branch cond thenBody elseBody likelihood => by
    have ⟨thenWeight, thenCount⟩ := Block.reorder_settles price thenBody
    have ⟨elseWeight, elseCount⟩ := Block.reorder_settles price elseBody
    simp only [Stmt.reorder]
    split
    · rename_i unlikely
      simp only [Stmt.weight, Stmt.reorderCount, Expr.callShapes_opposite, thenWeight, elseWeight,
        thenCount, elseCount, isUnlikely_other unlikely]
      exact ⟨by omega, rfl⟩
    · rename_i likely
      simp only [Stmt.weight, Stmt.reorderCount, thenWeight, elseWeight, thenCount, elseCount,
        likely]
      exact ⟨trivial, rfl⟩
  | .loop _ _ _ body => by
    have ⟨weight, count⟩ := Block.reorder_settles price body
    simp only [Stmt.reorder, Stmt.weight, Stmt.reorderCount, weight, count, and_self]

/-- Putting likely arms first keeps the weight of a block and leaves no branch to reorder. -/
theorem Block.reorder_settles (price : FunctionId → Nat) : ∀ block : List Stmt,
    Block.weight price (Block.reorder block) = Block.weight price block ∧
      Block.reorderCount (Block.reorder block) = 0
  | [] => ⟨rfl, rfl⟩
  | s :: rest => by
    have ⟨weight, count⟩ := Stmt.reorder_settles price s
    have ⟨otherWeight, otherCount⟩ := Block.reorder_settles price rest
    simp only [Block.reorder, Block.weight, Block.reorderCount, weight, count, otherWeight,
      otherCount, and_self]

end

mutual

/-- A statement without a branch to reorder is left alone. -/
theorem Stmt.reorder_eq_self : ∀ s : Stmt, s.reorderCount = 0 → s.reorder = s
  | .bind .., _ | .assign .., _ | .setGlobal .., _ | .emit .., _ | .eval _, _ | .store .., _
  | .ret _, _ => rfl
  | .branch cond thenBody elseBody likelihood, settled => by
    rw [Stmt.reorderCount, Nat.add_eq_zero_iff, Nat.add_eq_zero_iff] at settled
    have likely : ¬isUnlikely likelihood = true := fun unlikely => by
      rw [if_pos unlikely] at settled
      cases settled.2
    rw [Stmt.reorder, if_neg likely, Block.reorder_eq_self thenBody settled.1.1,
      Block.reorder_eq_self elseBody settled.1.2]
  | .loop _ _ _ body, settled => by rw [Stmt.reorder, Block.reorder_eq_self body settled]

/-- A block without a branch to reorder is left alone. -/
theorem Block.reorder_eq_self : ∀ block : List Stmt, Block.reorderCount block = 0 →
    Block.reorder block = block
  | [], _ => rfl
  | s :: rest, settled => by
    rw [Block.reorderCount, Nat.add_eq_zero_iff] at settled
    rw [Block.reorder, Stmt.reorder_eq_self s settled.1, Block.reorder_eq_self rest settled.2]

end

end Arms

/-! ## Order of loads -/

section Loads

variable (price : FunctionId → Nat)

/-- Arranging the runs of a block keeps its weight, its branches to reorder and its size. -/
theorem Block.arrange_keeps (block : Block) :
    Block.weight price (Block.arrange block) = Block.weight price block ∧
      Block.reorderCount (Block.arrange block) = Block.reorderCount block ∧
        Block.size (Block.arrange block) = Block.size block := by
  have same := Block.arrange_perm block
  simp only [Block.weight_eq_sumOver, Block.reorderCount_eq_sumOver, Block.size_eq_sumOver]
  exact ⟨Block.sumOver_perm _ same, Block.sumOver_perm _ same, Block.sumOver_perm _ same⟩

mutual

/-- Grouping the loads in a statement keeps its weight, its branches to reorder and its size. -/
theorem Stmt.group_keeps : ∀ s : Stmt, s.group.weight price = s.weight price ∧
    s.group.reorderCount = s.reorderCount ∧ s.group.size = s.size
  | .bind .. | .assign .. | .setGlobal .. | .emit .. | .eval _ | .store .. | .ret _ =>
    ⟨rfl, rfl, rfl⟩
  | .branch cond thenBody elseBody _ => by
    have ⟨thenWeight, thenCount, thenSize⟩ := Block.groupNested_keeps thenBody
    have ⟨elseWeight, elseCount, elseSize⟩ := Block.groupNested_keeps elseBody
    have ⟨thenRuns, thenRunCount, thenRunSize⟩ :=
      Block.arrange_keeps price (Block.groupNested thenBody)
    have ⟨elseRuns, elseRunCount, elseRunSize⟩ :=
      Block.arrange_keeps price (Block.groupNested elseBody)
    simp only [Stmt.group, Stmt.weight, Stmt.reorderCount, Stmt.size, thenRuns, thenRunCount,
      thenRunSize, elseRuns, elseRunCount, elseRunSize, thenWeight, thenCount, thenSize, elseWeight,
      elseCount, elseSize, and_self]
  | .loop _ _ _ body => by
    have ⟨weight, count, size⟩ := Block.groupNested_keeps body
    have ⟨runs, runCount, runSize⟩ := Block.arrange_keeps price (Block.groupNested body)
    simp only [Stmt.group, Stmt.weight, Stmt.reorderCount, Stmt.size, runs, runCount, runSize,
      weight, count, size, and_self]

/-- Grouping the loads in nested blocks keeps weight, branches to reorder and size. -/
theorem Block.groupNested_keeps : ∀ block : List Stmt,
    Block.weight price (Block.groupNested block) = Block.weight price block ∧
      Block.reorderCount (Block.groupNested block) = Block.reorderCount block ∧
        Block.size (Block.groupNested block) = Block.size block
  | [] => ⟨rfl, rfl, rfl⟩
  | s :: rest => by
    have ⟨weight, count, size⟩ := Stmt.group_keeps s
    have ⟨otherWeight, otherCount, otherSize⟩ := Block.groupNested_keeps rest
    simp only [Block.groupNested, Block.weight, Block.reorderCount, Block.size, weight, count, size,
      otherWeight, otherCount, otherSize, and_self]

end

/-- Grouping loads keeps the weight of a block, its branches to reorder and its size. -/
theorem Block.group_keeps (block : Block) :
    Block.weight price (Block.group block) = Block.weight price block ∧
      Block.reorderCount (Block.group block) = Block.reorderCount block ∧
        Block.size (Block.group block) = Block.size block := by
  have ⟨weight, count, size⟩ := Block.groupNested_keeps price block
  have ⟨runs, runCount, runSize⟩ := Block.arrange_keeps price (Block.groupNested block)
  exact ⟨runs.trans weight, runCount.trans count, runSize.trans size⟩

end Loads

/-! ## Folding -/

section Folds

/-- A fold at the root drops no call. -/
theorem Expr.callShapes_collapse (e : Expr) : e.collapse.callShapes = e.callShapes := by
  unfold Expr.collapse
  cases folds : e.folded? with
  | none => rfl
  | some value =>
    cases e with
    | unary op type operand =>
      cases operand with
      | lit _ => rfl
      | _ => simp [Expr.folded?, Expr.literal?] at folds
    | binary op type left right =>
      cases left with
      | lit _ => cases right with
        | lit _ => rfl
        | _ => simp [Expr.folded?, Expr.literal?] at folds
      | _ => simp [Expr.folded?, Expr.literal?] at folds
    | _ => simp [Expr.folded?] at folds

mutual

/-- Folding keeps the calls of an expression. -/
theorem Expr.callShapes_fold : ∀ e : Expr, e.fold.callShapes = e.callShapes
  | .lit _ | .var _ | .global _ => rfl
  | .load id index => Expr.callShapes_fold index
  | .unary op type operand => by
    rw [Expr.fold, Expr.callShapes_collapse]
    exact Expr.callShapes_fold operand
  | .binary op type left right => by
    have split (first second : Expr) : (Expr.binary op type first second).callShapes =
        first.callShapes ++ second.callShapes := List.filterMap_append
    rw [Expr.fold, Expr.callShapes_collapse, split, split, Expr.callShapes_fold left,
      Expr.callShapes_fold right]
  | .call callee args => by
    rw [Expr.fold, Expr.callShapes_call, Expr.callShapes_call, Args.length_fold,
      Args.callShapes_fold args]

/-- Folding keeps the calls of arguments. -/
theorem Args.callShapes_fold : ∀ args : List Expr,
    Args.callShapes (Args.fold args) = Args.callShapes args
  | [] => rfl
  | arg :: args => by
    rw [Args.fold, Args.callShapes_cons, Args.callShapes_cons, Expr.callShapes_fold arg,
      Args.callShapes_fold args]

end

/-- Folding keeps the calls of an optional expression. -/
theorem Expr.optionalCallShapes_fold (e : Option Expr) :
    Expr.optionalCallShapes (e.map Expr.fold) = Expr.optionalCallShapes e := by
  cases e with
  | none => rfl
  | some e => simpa [Expr.optionalCallShapes, Expr.callShapes] using e.callShapes_fold

mutual

/-- Folding keeps the weight of a statement, its branches to reorder and its calls. -/
theorem Stmt.fold_keeps (price : FunctionId → Nat) : ∀ s : Stmt,
    s.fold.weight price = s.weight price ∧ s.fold.reorderCount = s.reorderCount ∧
      s.fold.callShapes = s.callShapes
  | .bind .. | .assign .. | .setGlobal .. | .emit .. | .eval _ | .store .. | .ret _ => by
    simp [Stmt.fold, Stmt.weight, Stmt.reorderCount, Expr.callShapes_fold,
      Expr.optionalCallShapes_fold]
  | .branch _ thenBody elseBody _ => by
    have ⟨thenWeight, thenCount, thenCalls⟩ := Block.fold_keeps price thenBody
    have ⟨elseWeight, elseCount, elseCalls⟩ := Block.fold_keeps price elseBody
    simp only [Stmt.fold, Stmt.weight, Stmt.reorderCount, Stmt.callShapes_branch,
      Expr.callShapes_fold, thenWeight, thenCount, thenCalls, elseWeight, elseCount, elseCalls,
      and_self]
  | .loop _ bound condition body => by
    have ⟨weight, count, calls⟩ := Block.fold_keeps price body
    have copies : bound.copies (condition.map Expr.fold) = bound.copies condition := by
      cases condition <;> cases bound <;> rfl
    simp only [Stmt.fold, Stmt.weight, Stmt.reorderCount, Stmt.callShapes_loop,
      Expr.optionalCallShapes_fold, weight, count, calls, copies, and_self]

/-- Folding keeps the weight of a block, its branches to reorder and its calls. -/
theorem Block.fold_keeps (price : FunctionId → Nat) : ∀ block : List Stmt,
    Block.weight price (Block.fold block) = Block.weight price block ∧
      Block.reorderCount (Block.fold block) = Block.reorderCount block ∧
        Block.callShapes (Block.fold block) = Block.callShapes block
  | [] => ⟨rfl, rfl, rfl⟩
  | s :: rest => by
    have ⟨weight, count, calls⟩ := Stmt.fold_keeps price s
    have ⟨otherWeight, otherCount, otherCalls⟩ := Block.fold_keeps price rest
    simp only [Block.fold, Block.weight, Block.reorderCount, Block.callShapes_cons, weight, count,
      calls, otherWeight, otherCount, otherCalls, and_self]

end

/-- Folding a block again and again keeps its weight, its branches to reorder and its calls. -/
theorem Block.foldRounds_keeps (price : FunctionId → Nat) (rounds : Nat) (block : Block) :
    Block.weight price (Block.foldRounds rounds block).1 = Block.weight price block ∧
      Block.reorderCount (Block.foldRounds rounds block).1 = Block.reorderCount block ∧
        Block.callShapes (Block.foldRounds rounds block).1 = Block.callShapes block := by
  induction rounds generalizing block with
  | zero => exact ⟨rfl, rfl, rfl⟩
  | succ rounds ih =>
    unfold Block.foldRounds
    split
    · exact ⟨rfl, rfl, rfl⟩
    · obtain ⟨weight, count, calls⟩ := Block.fold_keeps price block
      obtain ⟨laterWeight, laterCount, laterCalls⟩ := ih (Block.fold block)
      exact ⟨laterWeight.trans weight, laterCount.trans count, laterCalls.trans calls⟩

end Folds

end Timebound
