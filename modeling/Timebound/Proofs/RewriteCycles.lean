import Timebound.Proofs.CycleSavings
import Timebound.Proofs.EffectInlining

/-!
# Costs of rewritten bodies

Unrolling, inlining and putting likely arms first never make a body dearer. Copies of a loop
body save the cost of a turn, which is more than the counter costs; an expansion saves the
call and the return, which is more than fewer than ten parameters cost; and a branch pays the
dearer arm in either order. Names do not cost anything. What a load saves by following another
one is not lost, since calls and loops load nothing themselves.
-/

namespace Timebound

/-! ## Names -/

section Names

variable (callee : FunctionId → Except Cause Nat) (relabel : String → String)

mutual

/-- Renaming keeps the cost of an expression. -/
theorem Expr.cycles_rename : ∀ e : Expr, (e.rename relabel).cycles callee = e.cycles callee
  | .lit _ | .var _ | .global _ => rfl
  | .load _ index => by
    simp only [Expr.rename, Expr.cycles, Expr.cycles_rename index]
  | .unary _ _ operand => by
    simp only [Expr.rename, Expr.cycles, Expr.cycles_rename operand]
  | .binary _ _ left right => by
    simp only [Expr.rename, Expr.cycles, Expr.cycles_rename left, Expr.cycles_rename right]
  | .call _ args => by
    simp only [Expr.rename, Expr.cycles, Args.cycles_rename args]

/-- Renaming keeps the cost of arguments. -/
theorem Args.cycles_rename : ∀ (args : List Expr) (total : Nat),
    Args.cycles callee total (Args.rename relabel args) = Args.cycles callee total args
  | [], _ => rfl
  | arg :: args, total => by
    simp only [Args.rename, Args.cycles, Expr.cycles_rename arg, Args.cycles_rename args]

end

/-- Renaming keeps the cost of an optional expression. -/
theorem Expr.optionalCycles_rename (e : Option Expr) :
    Expr.optionalCycles callee (e.map (Expr.rename relabel)) = Expr.optionalCycles callee e := by
  cases e with
  | none => rfl
  | some e => exact Expr.cycles_rename callee relabel e

/-- A renamed statement loads the same element. -/
theorem Stmt.literalLoad?_rename (s : Stmt) : (s.rename relabel).literalLoad? = s.literalLoad? := by
  cases s with
  | bind name type value =>
    cases value with
    | load id index => cases index <;> rfl
    | _ => rfl
  | _ => rfl

mutual

/-- Renaming keeps the cost of a statement. -/
theorem Stmt.cycles_rename : ∀ s : Stmt, (s.rename relabel).cycles callee = s.cycles callee
  | .bind .. | .assign .. | .setGlobal .. | .store .. | .emit .. | .eval _ | .ret _ => by
    simp only [Stmt.rename, Stmt.cycles, Expr.cycles_rename, Expr.optionalCycles_rename]
  | .branch cond thenBody elseBody _ => by
    simp only [Stmt.rename, Stmt.cycles, Expr.guard_rename, Expr.cycles_rename,
      Block.cyclesFrom_rename thenBody none none rfl,
      Block.cyclesFrom_rename elseBody none none rfl]
  | .loop _ _ condition body => by
    simp only [Stmt.rename, Stmt.cycles, Expr.optionalCycles_rename,
      Block.cyclesFrom_rename body none none rfl]

/-- Renaming keeps the cost of a block, also behind a renamed statement. -/
theorem Block.cyclesFrom_rename : ∀ (block : Block) (previous other : Option Stmt),
    previous.bind Stmt.literalLoad? = other.bind Stmt.literalLoad? → ∀ total,
      Block.cyclesFrom callee previous total (Block.rename relabel block) =
        Block.cyclesFrom callee other total block
  | [], _, _, _, _ => rfl
  | s :: rest, previous, other, same, total => by
    have saved := Stmt.discountAfter_congr same (s.literalLoad?_rename relabel)
    have later := Block.cyclesFrom_rename rest (some (s.rename relabel)) (some s)
      (s.literalLoad?_rename relabel)
    simp only [Block.rename, Block.cyclesFrom, Stmt.cycles_rename s, saved, later]

end

/-- Renaming keeps the cost of a block. -/
theorem Block.cycles_rename (block : Block) :
    Block.cycles callee (Block.rename relabel block) = Block.cycles callee block :=
  Block.cyclesFrom_rename callee relabel block none none rfl 0

/-- Marking the locals of a copy keeps its cost. -/
theorem Block.cycles_rebind (mark : Option String) (block : Block) :
    Block.cycles callee (Block.rebind relabel mark block) = Block.cycles callee block := by
  rw [← Block.cycles_rename callee (fun _ => "") (Block.rebind relabel mark block),
    Block.rename_const_rebind, Block.cycles_rename]

end Names

/-! ## Copies of loop bodies -/

section Copies

variable {callee : FunctionId → Except Cause Nat}

/-- A copy of a loop body costs the body and at most two cycles for the counter. -/
theorem costs_loopCopy {body : Block} {cost : Nat} (known : Block.cycles callee body = .ok cost)
    (counter : Option String) (copy : Nat) :
    ∃ less, less ≤ cost + 2 ∧ Block.Costs callee none (loopCopy counter body copy) less := by
  have copied := (Block.cycles_eq_ok_iff.mp
    ((Block.cycles_rebind callee id (some (copyMark counter copy)) body).trans known)).1
  cases counter with
  | none => exact ⟨cost, by omega, copied⟩
  | some name =>
    have head : Block.Costs callee none
        [.bind name .u64 (.lit (.ofInt .u64 copy))] 2 := .single rfl
    obtain ⟨less, smaller, done⟩ := head.append copied
    exact ⟨less, by omega, done⟩

/-- Copies of a loop body cost no more than the copies one by one. -/
theorem costs_copies {body : Block} {cost : Nat} (known : Block.cycles callee body = .ok cost)
    (counter : Option String) (copies : List Nat) :
    ∃ less, less ≤ copies.length * (cost + 2) ∧
      Block.Costs callee none (copies.flatMap (loopCopy counter body)) less := by
  induction copies with
  | nil => exact ⟨0, Nat.zero_le _, .nil none⟩
  | cons copy rest ih =>
    obtain ⟨others, fewer, later⟩ := ih
    obtain ⟨first, small, head⟩ := costs_loopCopy known counter copy
    obtain ⟨less, smaller, done⟩ := head.append later
    refine ⟨less, ?_, done⟩
    rw [List.length_cons, Nat.succ_mul]
    omega

/-- A loop that is unrolled has an exact bound and no condition. -/
theorem exact_of_unrolled {limit : Nat} {counters : List String} {counter : Option String}
    {bound : TripBound} {condition : Option Expr} {trips : Nat}
    (unrolled : unrolledTrips? limit counters counter bound condition = some trips) :
    bound = .exact trips ∧ condition = none := by
  unfold unrolledTrips? at unrolled
  split at unrolled
  · split at unrolled
    · cases unrolled
      exact ⟨rfl, rfl⟩
    · cases unrolled
  · cases unrolled

variable (limit : Nat) (counters : List String)

mutual

/-- Unrolling makes no statement dearer. -/
theorem Stmt.makesWay_unroll : ∀ s : Stmt,
    Stmt.MakesWay callee callee s (s.unroll limit counters)
  | .bind .. | .assign .. | .setGlobal .. | .store .. | .emit .. | .eval _ | .ret _ =>
    .keep rfl (.refl _)
  | .branch cond thenBody elseBody _ =>
    .keep rfl (Stmt.lowers_branch (.refl _) (Block.noDearer_unroll thenBody).lowers
      (Block.noDearer_unroll elseBody).lowers _ _)
  | .loop counter bound condition body => by
    have inner := Block.noDearer_unroll body
    rw [Stmt.unroll]
    cases unrolled : unrolledTrips? limit counters counter bound condition with
    | none => exact .keep rfl (Stmt.lowers_loop (.refl _) inner.lowers)
    | some trips =>
      obtain ⟨rfl, rfl⟩ := exact_of_unrolled unrolled
      refine .expand rfl fun cost known => ?_
      simp only [Stmt.cycles, TripBound.limit?, Expr.optionalCycles, bind_eq_ok_iff,
        checkedCycles_eq_ok_iff] at known
      obtain ⟨_, ⟨⟩, bodyCost, bodyKnown, _, ⟨rfl, _⟩, _, ⟨rfl, _⟩, _, ⟨rfl, _⟩, _, ⟨rfl, _⟩,
        rfl, _⟩ := known
      obtain ⟨newCost, newLess, newKnown⟩ := inner.lowers bodyCost bodyKnown
      obtain ⟨less, smaller, done⟩ := costs_copies newKnown counter (List.range trips)
      refine ⟨less, ?_, done⟩
      have turns : trips * (newCost + 2) ≤ trips * (0 + bodyCost + CycleCost.loopTurn) :=
        Nat.mul_le_mul_left trips (by simp only [CycleCost.loopTurn]; omega)
      rw [List.length_range] at smaller
      omega

/-- Unrolling makes no block dearer. -/
theorem Block.noDearer_unroll : ∀ block : List Stmt,
    Block.NoDearer callee callee block (Block.unroll limit counters block)
  | [] => .nil
  | s :: rest => .cons (Stmt.makesWay_unroll s) (Block.noDearer_unroll rest)

end

end Copies

/-! ## Order of arms -/

section Arms

variable {callee : FunctionId → Except Cause Nat}

/-- A branch costs the same with its arms swapped. -/
theorem Stmt.cycles_swap {cond other : Expr} (guard : cond.guard = other.guard)
    {first second : Block} {likelihood otherLikelihood : Option Nat} {total : Nat}
    (known : (Stmt.branch cond first second likelihood).cycles callee = .ok total) :
    (Stmt.branch other second first otherLikelihood).cycles callee = .ok total := by
  simp only [Stmt.cycles, bind_eq_ok_iff, guard] at known ⊢
  obtain ⟨guardCost, decided, one, oneKnown, two, twoKnown, decision, checked, done⟩ := known
  rw [Nat.max_comm] at done
  exact ⟨guardCost, decided, two, twoKnown, one, oneKnown, decision, checked, done⟩

/-- Putting likely arms first changes no load. -/
theorem Stmt.literalLoad?_reorder (s : Stmt) : s.reorder.literalLoad? = s.literalLoad? := by
  cases s with
  | branch cond thenBody elseBody likelihood =>
    rw [Stmt.reorder]
    split <;> rfl
  | _ => rfl

/-- Only what the statement before a block loads matters for its cost. -/
theorem Block.cyclesFrom_after {previous other : Option Stmt}
    (same : previous.bind Stmt.literalLoad? = other.bind Stmt.literalLoad?) (start : Nat)
    (block : Block) :
    Block.cyclesFrom callee previous start block = Block.cyclesFrom callee other start block := by
  cases block with
  | nil => rfl
  | cons s rest => simp only [Block.cyclesFrom, Stmt.discountAfter_congr same rfl]

mutual

/-- Putting likely arms first keeps the cost of a statement. Costs that leave the range may be
met in another order, so only what is known before and afterwards is the same. -/
theorem Stmt.cycles_reorder : ∀ (s : Stmt) {total : Nat},
    s.reorder.cycles callee = .ok total ↔ s.cycles callee = .ok total
  | .bind .., _ | .assign .., _ | .setGlobal .., _ | .store .., _ | .emit .., _ | .eval _, _
  | .ret _, _ => Iff.rfl
  | .branch cond thenBody elseBody likelihood, total => by
    have arms : (Stmt.branch cond (Block.reorder thenBody) (Block.reorder elseBody)
        likelihood).cycles callee = .ok total ↔
          (Stmt.branch cond thenBody elseBody likelihood).cycles callee = .ok total := by
      simp only [Stmt.cycles, bind_eq_ok_iff, Block.cyclesFrom_reorder thenBody none,
        Block.cyclesFrom_reorder elseBody none]
    rw [Stmt.reorder]
    split
    · rw [← arms]
      exact ⟨Stmt.cycles_swap cond.guard_opposite, Stmt.cycles_swap cond.guard_opposite.symm⟩
    · exact arms
  | .loop _ bound _ body, total => by
    simp only [Stmt.reorder, Stmt.cycles]
    cases bound.limit? with
    | none => exact Iff.rfl
    | some trips => simp only [bind_eq_ok_iff, Block.cyclesFrom_reorder body none]

/-- Putting likely arms first keeps the cost of a block behind any statement. -/
theorem Block.cyclesFrom_reorder : ∀ (block : List Stmt) (previous : Option Stmt)
    {start total : Nat}, Block.cyclesFrom callee previous start (Block.reorder block) = .ok total ↔
      Block.cyclesFrom callee previous start block = .ok total
  | [], _, _, _ => Iff.rfl
  | s :: rest, previous, start, total => by
    have saved : s.reorder.discountAfter previous = s.discountAfter previous :=
      Stmt.discountAfter_congr rfl s.literalLoad?_reorder
    have loads : (some s.reorder).bind Stmt.literalLoad? = (some s).bind Stmt.literalLoad? :=
      s.literalLoad?_reorder
    simp only [Block.reorder, Block.cyclesFrom, bind_eq_ok_iff, Stmt.cycles_reorder s, saved,
      Block.cyclesFrom_after loads, Block.cyclesFrom_reorder rest (some s)]

end

/-- Putting likely arms first makes no block dearer. -/
theorem Block.lowers_reorder (block : Block) :
    Lowers (Block.cycles callee block) (Block.cycles callee (Block.reorder block)) :=
  fun cost known => ⟨cost, Nat.le_refl cost, (Block.cyclesFrom_reorder block none).mpr known⟩

end Arms

/-! ## Expanded calls -/

/-- Calls whose price covers the body that takes their place: the statements before the final
return, the returned value and the return itself. -/
def Payable (callee : FunctionId → Except Cause Nat) (find : FunctionId → Option Inlinable)
    (shapes : List (FunctionId × Nat)) : Prop :=
  ∀ id count target price, (id, count) ∈ shapes → find id = some target → callee id = .ok price →
    target.function.params.length < CycleCost.call ∧
      ∃ body value, Block.Costs callee none target.init body ∧
        Expr.optionalCycles callee target.value = .ok value ∧
          body + value + (if target.value.isSome then CycleCost.ret else 0) ≤ price

section Expansions

variable {callee : FunctionId → Except Cause Nat} {find : FunctionId → Option Inlinable}

/-- Fewer calls are payable if more are. -/
theorem Payable.mono {shapes fewer : List (FunctionId × Nat)} (payable : Payable callee find shapes)
    (inside : fewer ⊆ shapes) : Payable callee find fewer :=
  fun id count target price listed found known =>
    payable id count target price (inside listed) found known

/-- Holding arguments in locals costs the arguments and one cycle for each parameter. -/
theorem costs_params (label : String → String) (params : List Parameter) :
    ∀ (args : List Expr) {start total : Nat}, 0 < start →
      Args.cycles callee start args = .ok total →
      ∃ less, start + less ≤ total + params.length ∧
        Block.Costs callee none ((params.zip args).map fun (param, arg) =>
          .bind (label param.name) param.type arg) less := by
  induction params with
  | nil =>
    intro args start total _ known
    have grown := Args.le_cycles args known
    exact ⟨0, grown, .nil none⟩
  | cons param params ih =>
    intro args start total positive known
    cases args with
    | nil =>
      cases known
      exact ⟨0, by omega, .nil none⟩
    | cons arg args =>
      simp only [Args.cycles, bind_eq_ok_iff, checkedCycles_eq_ok_iff] at known
      obtain ⟨cost, first, _, ⟨rfl, room⟩, later⟩ := known
      obtain ⟨others, fewer, rest⟩ := ih args (by omega) later
      have holds : (Stmt.bind (label param.name) param.type arg).cycles callee =
          .ok (CycleCost.assign + cost) := by
        simp only [Stmt.cycles, bind_eq_ok_iff, checkedCycles_eq_ok_iff]
        exact ⟨cost, first, rfl, by simp only [CycleCost.assign]; omega⟩
      have head : Block.Costs callee none [.bind (label param.name) param.type arg]
          (CycleCost.assign + cost) := .single holds
      obtain ⟨less, smaller, done⟩ := head.append rest
      refine ⟨less, ?_, done⟩
      simp only [CycleCost.assign] at smaller
      rw [List.length_cons]
      omega

/-- What a statement pays to keep the result of its call. -/
def Stmt.keepCycles : Stmt → Nat
  | .eval _ => 0
  | _ => CycleCost.assign

/-- A statement that is nothing but a call costs the arguments, the callee and keeping the
result. -/
theorem Stmt.cycles_of_wholeCall {s : Stmt} {id : FunctionId} {args : List Expr} {cost : Nat}
    (whole : s.wholeCall? = some (id, args)) (done : s.cycles callee = .ok cost) :
    ∃ passing price, Args.cycles callee CycleCost.call args = .ok passing ∧
      callee id = .ok price ∧ cost = s.keepCycles + (passing + price) ∧ cost < cycleLimit := by
  unfold Stmt.wholeCall? at whole
  split at whole
  case h_4 => cases whole
  case h_3 =>
    cases whole
    simp only [Stmt.cycles, Expr.cycles, bind_eq_ok_iff, checkedCycles_eq_ok_iff] at done
    obtain ⟨passing, passed, price, known, rfl, room⟩ := done
    exact ⟨passing, price, passed, known, (Nat.zero_add _).symm, room⟩
  all_goals
    cases whole
    simp only [Stmt.cycles, Expr.cycles, bind_eq_ok_iff, checkedCycles_eq_ok_iff] at done
    obtain ⟨_, ⟨passing, passed, price, known, rfl, _⟩, rfl, room⟩ := done
    exact ⟨passing, price, passed, known, rfl, room⟩

/-- What is left of a statement after its call costs the result and keeping it. -/
theorem Stmt.costs_afterCall {s : Stmt} {result : Option Expr} {rest : Block} {value : Nat}
    (left : s.afterCall? result = some rest)
    (known : Expr.optionalCycles callee result = .ok value)
    (room : s.keepCycles + value < cycleLimit) :
    ∃ less, less ≤ s.keepCycles + value ∧ Block.Costs callee none rest less := by
  unfold Stmt.afterCall? at left
  split at left
  case h_5 => cases left
  case h_4 =>
    cases left
    exact ⟨0, Nat.zero_le _, .nil none⟩
  case h_3 =>
    cases left
    exact ⟨value, Nat.le_add_left _ _, .single known⟩
  all_goals
    cases left
    refine ⟨CycleCost.assign + value, Nat.le_refl _, .single ?_⟩
    simp only [Stmt.cycles, bind_eq_ok_iff, checkedCycles_eq_ok_iff]
    exact ⟨value, known, rfl, room⟩

/-- Expanding a call makes no statement dearer. -/
theorem Stmt.makesWay_inlineCall {s : Stmt} (payable : Payable callee find s.callShapes)
    (site : Nat) : Stmt.MakesWay callee callee s (s.inlineCall find site).body := by
  rcases s.inlineCall_cases find site with
    alone | ⟨id, args, target, rest, whole, found, left, made⟩
  · rw [alone]
    exact .keep rfl (.refl _)
  · have loadless : s.literalLoad? = none := by
      unfold Stmt.wholeCall? at whole
      split at whole <;> first | rfl | cases whole
    rw [made]
    refine .expand loadless fun cost done => ?_
    have called : (id, args.length) ∈ s.callShapes := by
      rw [(Stmt.eq_of_wholeCall (fun _ => none) whole).2, Expr.callShapes_call]
      exact List.mem_cons_self
    obtain ⟨passing, price, passed, known, rfl, room⟩ := Stmt.cycles_of_wholeCall whole done
    obtain ⟨few, body, value, bodyCosts, valueKnown, covered⟩ :=
      payable id args.length target price called found known
    obtain ⟨params, paramsLess, paramsCost⟩ :=
      costs_params (target.localName site) target.function.params args (by decide) passed
    have renamed : Block.Costs callee none
        (Block.rename (target.localName site) target.init) body := by
      have cycles := Block.cycles_eq_ok_iff.mpr ⟨bodyCosts, by omega⟩
      rw [← Block.cycles_rename callee (target.localName site)] at cycles
      exact (Block.cycles_eq_ok_iff.mp cycles).1
    rw [← Expr.optionalCycles_rename callee (target.localName site)] at valueKnown
    obtain ⟨kept, keptLess, keptCosts⟩ := Stmt.costs_afterCall left valueKnown (by omega)
    obtain ⟨first, firstLess, firstCosts⟩ := paramsCost.append renamed
    obtain ⟨total, totalLess, totalCosts⟩ := firstCosts.append keptCosts
    refine ⟨total, ?_, totalCosts⟩
    -- The call itself pays for the parameters.
    simp only [CycleCost.call] at few paramsLess
    omega

mutual

/-- Inlining makes no statement dearer. -/
theorem Stmt.makesWay_inline : ∀ (s : Stmt) (site : Nat), Payable callee find s.callShapes →
    Stmt.MakesWay callee callee s (s.inline find site).body
  | .bind .., site, payable | .assign .., site, payable | .eval _, site, payable =>
    Stmt.makesWay_inlineCall payable site
  | .setGlobal .., _, _ | .store .., _, _ | .emit .., _, _ | .ret _, _, _ => .keep rfl (.refl _)
  | .branch cond thenBody elseBody _, site, payable => by
    rw [Stmt.callShapes_branch] at payable
    refine .keep rfl (Stmt.lowers_branch (.refl _) ?_ ?_ _ _)
    · exact (Block.noDearer_inline thenBody site (payable.mono (by grind))).lowers
    · exact (Block.noDearer_inline elseBody _ (payable.mono (by grind))).lowers
  | .loop _ _ condition body, site, payable => by
    rw [Stmt.callShapes_loop] at payable
    have inner := Block.noDearer_inline body site (payable.mono (by grind))
    exact .keep rfl (Stmt.lowers_loop (.refl _) inner.lowers)

/-- Inlining makes no block dearer. -/
theorem Block.noDearer_inline : ∀ (block : List Stmt) (site : Nat),
    Payable callee find (Block.callShapes block) →
      Block.NoDearer callee callee block (Block.inline find block site).body
  | [], _, _ => .nil
  | s :: rest, site, payable => by
    rw [Block.callShapes_cons] at payable
    exact .cons (Stmt.makesWay_inline s site (payable.mono (by grind)))
      (Block.noDearer_inline rest _ (payable.mono (by grind)))

end

end Expansions

end Timebound
