import Mathlib.Algebra.Order.Field.Rat
import Mathlib.Tactic.Linarith
import Timebound.Proofs.CriticalFunctions
import Timebound.Proofs.CycleBound

/-!
# Growth of cycle bounds

The cost of a body is built from constants and the prices of its calls by sums, maxima
and multiples, and what a sequential load saves does not depend on a price. So when no
price grows by more than a factor, the cost does not either (`Block.cycles_growsBy`).
Along the call order this carries over from touched functions to all functions: a
growth budget that holds for the touched ones holds for every function with a bound
before and after (`Program.bounds_withinBudget`). Budgets are exact rationals here;
percentages in floating point are a matter of the optimizer.
-/

namespace Timebound

/-! ## Costs that grow by a factor -/

/-- A cost that grows by no more than a factor. -/
def GrowsBy (factor : ℚ) (old new : Nat) : Prop := (new : ℚ) ≤ factor * old

namespace GrowsBy

variable {factor : ℚ} {old new otherOld otherNew : Nat}

/-- A cost that stays grows by any factor of at least one. -/
theorem refl (atLeast : 1 ≤ factor) (cost : Nat) : GrowsBy factor cost cost :=
  le_mul_of_one_le_left (Nat.cast_nonneg cost) atLeast

/-- Sums grow like their parts. -/
theorem add (first : GrowsBy factor old new) (second : GrowsBy factor otherOld otherNew) :
    GrowsBy factor (old + otherOld) (new + otherNew) := by
  unfold GrowsBy at first second ⊢
  push_cast
  linarith

/-- Multiples grow like the cost itself. -/
theorem mul_left (count : Nat) (each : GrowsBy factor old new) :
    GrowsBy factor (count * old) (count * new) := by
  unfold GrowsBy at each ⊢
  have scaled := mul_le_mul_of_nonneg_left each (Nat.cast_nonneg (α := ℚ) count)
  push_cast
  linarith

/-- The larger of two costs grows like both. -/
theorem larger (atLeast : 1 ≤ factor) (first : GrowsBy factor old new)
    (second : GrowsBy factor otherOld otherNew) :
    GrowsBy factor (max old otherOld) (max new otherNew) := by
  unfold GrowsBy at first second ⊢
  have nonneg : 0 ≤ factor := le_trans zero_le_one atLeast
  have left : factor * old ≤ factor * (max old otherOld : Nat) :=
    mul_le_mul_of_nonneg_left (Nat.cast_le.mpr (Nat.le_max_left _ _)) nonneg
  have right : factor * otherOld ≤ factor * (max old otherOld : Nat) :=
    mul_le_mul_of_nonneg_left (Nat.cast_le.mpr (Nat.le_max_right _ _)) nonneg
  rcases Nat.le_total new otherNew with above | below
  · rw [Nat.max_eq_right above]
    exact le_trans second right
  · rw [Nat.max_eq_left below]
    exact le_trans first left

end GrowsBy

/-! ## Costs of bodies -/

section Bodies

variable {factor : ℚ} {before after : FunctionId → Except Cause Nat}

/-- Among these nodes, no call with a price before and after gets dearer by more than a
factor. -/
def PricesGrowBy (factor : ℚ) (before after : FunctionId → Except Cause Nat)
    (nodes : List Expr) : Prop :=
  ∀ id args, .call id args ∈ nodes → ∀ old new, before id = .ok old → after id = .ok new →
    GrowsBy factor old new

/-- Prices that grow by a factor among some nodes do so among fewer. -/
theorem PricesGrowBy.mono {nodes fewer : List Expr} (grow : PricesGrowBy factor before after nodes)
    (part : fewer ⊆ nodes) : PricesGrowBy factor before after fewer :=
  fun id args listed => grow id args (part listed)

/-- The price of calls in a row grows like the price of each. -/
theorem Priced.growsBy (atLeast : 1 ≤ factor) {calls : List FunctionId} {old new : Nat}
    (priced : Priced before calls old) (repriced : Priced after calls new)
    (each : ∀ id ∈ calls, ∀ one other, before id = .ok one → after id = .ok other →
      GrowsBy factor one other) : GrowsBy factor old new := by
  induction priced generalizing new with
  | nil =>
    cases repriced
    exact .refl atLeast 0
  | cons known _ ih =>
    cases repriced with
    | cons knownAfter others =>
      have first := each _ List.mem_cons_self _ _ known knownAfter
      exact first.add (ih others fun id listed => each id (List.mem_cons_of_mem _ listed))

/-- The cost of an expression grows like the prices of its calls. -/
theorem Expr.cycles_growsBy (atLeast : 1 ≤ factor) {e : Expr} {old new : Nat}
    (grow : PricesGrowBy factor before after e.nodes) (done : e.cycles before = .ok old)
    (redone : e.cycles after = .ok new) : GrowsBy factor old new := by
  obtain ⟨price, priced, rfl⟩ := Expr.cycles_eq e done
  obtain ⟨newPrice, repriced, rfl⟩ := Expr.cycles_eq e redone
  refine (GrowsBy.refl atLeast e.pathCycles).add (priced.growsBy atLeast repriced fun id made => ?_)
  obtain ⟨args, listed⟩ := Expr.mem_nodes_of_pathCalls e made
  exact grow id args listed

/-- The cost of an optional expression grows like the prices of its calls. -/
theorem Expr.optionalCycles_growsBy (atLeast : 1 ≤ factor) {e : Option Expr} {old new : Nat}
    (grow : PricesGrowBy factor before after (e.toList.flatMap Expr.nodes))
    (done : Expr.optionalCycles before e = .ok old)
    (redone : Expr.optionalCycles after e = .ok new) : GrowsBy factor old new := by
  cases e with
  | none =>
    cases done
    cases redone
    exact .refl atLeast 0
  | some e => exact Expr.cycles_growsBy atLeast (by simpa using grow) done redone

/-- Where a statement saves something, its cost does not depend on prices. -/
theorem Stmt.growsBy_discounted (atLeast : 1 ≤ factor) {s : Stmt} {old new : Nat}
    (done : s.cycles before = .ok old) (redone : s.cycles after = .ok new)
    (grown : GrowsBy factor old new) (previous : Option Stmt) :
    GrowsBy factor (old - s.discountAfter previous) (new - s.discountAfter previous) := by
  cases loaded : s.literalLoad? with
  | none =>
    have nothing : s.discountAfter previous = 0 := by
      cases previous <;> simp [Stmt.discountAfter, Stmt.loadsNext, loaded]
    rw [nothing]
    exact grown
  | some place =>
    have same : old = new := by
      unfold Stmt.literalLoad? at loaded
      split at loaded
      · exact Except.ok.inj (done.symm.trans redone)
      · simp at loaded
    rw [same]
    exact .refl atLeast _

mutual

/-- The cost of a statement grows like the prices of its calls. -/
theorem Stmt.cycles_growsBy (atLeast : 1 ≤ factor) : ∀ (s : Stmt) {old new : Nat},
    PricesGrowBy factor before after s.nodes → s.cycles before = .ok old →
      s.cycles after = .ok new → GrowsBy factor old new
  | .bind _ _ value, old, new, grow, done, redone
  | .assign _ value, old, new, grow, done, redone
  | .setGlobal _ value, old, new, grow, done, redone
  | .emit _ value, old, new, grow, done, redone => by
    simp only [Stmt.cycles, bind_eq_ok_iff, checkedCycles_eq_ok_iff] at done redone
    obtain ⟨cost, inner, rfl, _⟩ := done
    obtain ⟨newCost, newInner, rfl, _⟩ := redone
    have operand :=
      Expr.cycles_growsBy atLeast (by simpa only [Stmt.nodes] using grow) inner newInner
    exact (GrowsBy.refl atLeast _).add operand
  | .store _ index value, old, new, grow, done, redone => by
    simp only [Stmt.cycles, bind_eq_ok_iff, checkedCycles_eq_ok_iff] at done redone
    obtain ⟨indexCost, indexDone, valueCost, valueDone, _, ⟨rfl, _⟩, rfl, _⟩ := done
    obtain ⟨newIndexCost, indexRedone, newValueCost, valueRedone, _, ⟨rfl, _⟩, rfl, _⟩ := redone
    have first :=
      Expr.cycles_growsBy atLeast (grow.mono (by simp [Stmt.nodes])) indexDone indexRedone
    have second :=
      Expr.cycles_growsBy atLeast (grow.mono (by simp [Stmt.nodes])) valueDone valueRedone
    exact (GrowsBy.refl atLeast _).add (first.add second)
  | .eval value, old, new, grow, done, redone => by
    simp only [Stmt.cycles] at done redone
    exact Expr.cycles_growsBy atLeast (by simpa only [Stmt.nodes] using grow) done redone
  | .branch cond thenBody elseBody _, old, new, grow, done, redone => by
    simp only [Stmt.cycles, bind_eq_ok_iff, checkedCycles_eq_ok_iff] at done redone
    obtain ⟨guardCost, guardDone, thenCost, thenDone, elseCost, elseDone, _, ⟨rfl, _⟩, rfl, _⟩ :=
      done
    obtain ⟨newGuardCost, guardRedone, newThenCost, thenRedone, newElseCost, elseRedone, _,
      ⟨rfl, _⟩, rfl, _⟩ := redone
    have guard := Expr.cycles_growsBy atLeast (grow.mono (by
      simp only [Stmt.nodes]
      exact fun node listed => List.mem_append_left _ (cond.nodes_guard_subset listed)))
      guardDone guardRedone
    have first := Block.cyclesFrom_growsBy atLeast thenBody (grow.mono (by simp [Stmt.nodes]))
      (.refl atLeast 0) thenDone thenRedone
    have second := Block.cyclesFrom_growsBy atLeast elseBody (grow.mono (by simp [Stmt.nodes]))
      (.refl atLeast 0) elseDone elseRedone
    have decision := guard.add (GrowsBy.refl atLeast CycleCost.branch)
    exact decision.add (first.larger atLeast second)
  | .loop _ bound condition body, old, new, grow, done, redone => by
    cases limit : bound.limit? with
    | none => simp [Stmt.cycles, limit] at done
    | some trips =>
      simp only [Stmt.cycles, limit, bind_eq_ok_iff, checkedCycles_eq_ok_iff] at done redone
      obtain ⟨condCost, condDone, bodyCost, bodyDone, _, ⟨rfl, _⟩, _, ⟨rfl, _⟩, _, ⟨rfl, _⟩,
        _, ⟨rfl, _⟩, rfl, _⟩ := done
      obtain ⟨newCondCost, condRedone, newBodyCost, bodyRedone, _, ⟨rfl, _⟩, _, ⟨rfl, _⟩, _,
        ⟨rfl, _⟩, _, ⟨rfl, _⟩, rfl, _⟩ := redone
      have test := Expr.optionalCycles_growsBy atLeast (grow.mono (by simp [Stmt.nodes]))
        condDone condRedone
      have inside := Block.cyclesFrom_growsBy atLeast body (grow.mono (by simp [Stmt.nodes]))
        (.refl atLeast 0) bodyDone bodyRedone
      have turn := (test.add inside).add (GrowsBy.refl atLeast CycleCost.loopTurn)
      have entry := (GrowsBy.refl atLeast CycleCost.loopEntry).add test
      exact entry.add (turn.mul_left trips)
  | .ret value, old, new, grow, done, redone => by
    simp only [Stmt.cycles, bind_eq_ok_iff, checkedCycles_eq_ok_iff] at done redone
    obtain ⟨cost, inner, rfl, _⟩ := done
    obtain ⟨newCost, newInner, rfl, _⟩ := redone
    have operand := Expr.optionalCycles_growsBy atLeast (by simpa only [Stmt.nodes] using grow)
      inner newInner
    exact (GrowsBy.refl atLeast _).add operand

/-- A running total plus the cost of statements grows like the total so far and the
prices of the calls. -/
theorem Block.cyclesFrom_growsBy (atLeast : 1 ≤ factor) : ∀ (block : Block)
    {previous : Option Stmt} {start newStart old new : Nat},
    PricesGrowBy factor before after (Block.nodes block) → GrowsBy factor start newStart →
      Block.cyclesFrom before previous start block = .ok old →
        Block.cyclesFrom after previous newStart block = .ok new → GrowsBy factor old new
  | [], _, _, _, old, new, _, sofar, done, redone => by
    cases done
    cases redone
    exact sofar
  | s :: rest, previous, _, _, old, new, grow, sofar, done, redone => by
    simp only [Block.cyclesFrom, bind_eq_ok_iff, checkedCycles_eq_ok_iff] at done redone
    obtain ⟨cost, firstDone, _, ⟨rfl, _⟩, others⟩ := done
    obtain ⟨newCost, firstRedone, _, ⟨rfl, _⟩, newOthers⟩ := redone
    have first := Stmt.cycles_growsBy atLeast s (grow.mono (by simp [Block.nodes])) firstDone
      firstRedone
    have saved := Stmt.growsBy_discounted atLeast firstDone firstRedone first previous
    exact Block.cyclesFrom_growsBy atLeast rest (grow.mono (by simp [Block.nodes]))
      (sofar.add saved) others newOthers

end

/-- The cost of a block grows like the prices of its calls. -/
theorem Block.cycles_growsBy (atLeast : 1 ≤ factor) {block : Block} {old new : Nat}
    (grow : PricesGrowBy factor before after (Block.nodes block))
    (done : Block.cycles before block = .ok old) (redone : Block.cycles after block = .ok new) :
    GrowsBy factor old new :=
  Block.cyclesFrom_growsBy atLeast block grow (.refl atLeast 0) done redone

end Bodies

/-! ## Bounds of programs -/

namespace Program

/-- The bound of a function that stays as it is grows like the bounds of its callees. -/
theorem functionBound_growsBy {factor : ℚ} (atLeast : 1 ≤ factor) {before after : Program}
    {bounds newBounds : Table FunctionId Nat} {id : FunctionId} {function : Function}
    {old new : Nat} (done : before.functionBound bounds id function = .ok old)
    (redone : after.functionBound newBounds id function = .ok new)
    (callees : ∀ callee ∈ function.callees, callee ≠ id → ∀ one other,
      bounds.get? callee = some one → newBounds.get? callee = some other →
        GrowsBy factor one other) : GrowsBy factor old new := by
  obtain ⟨activation, cost, shape⟩ := functionBound_cases done
  obtain ⟨newActivation, newCost, newShape⟩ := functionBound_cases redone
  have body : GrowsBy factor activation newActivation := by
    refine Block.cycles_growsBy atLeast (fun callee args listed one other known knownAfter => ?_)
      cost newCost
    by_cases self : callee = id
    · -- a recursive call has the same price whatever the tables say
      have same : before.activationCycles bounds id function.recursionLimit.isSome callee =
          after.activationCycles newBounds id function.recursionLimit.isSome callee := by
        simp only [activationCycles, self, if_true]
      rw [same, knownAfter] at known
      cases known
      exact .refl atLeast _
    · have bounded := ((activationCycles_eq_ok known).resolve_left fun self' => self self'.1).2
      have rebounded :=
        ((activationCycles_eq_ok knownAfter).resolve_left fun self' => self self'.1).2
      exact callees callee (Block.mem_callees.mpr ⟨args, listed⟩) self _ _ bounded rebounded
  rcases shape with ⟨limit, recursive, limited, rfl⟩ | ⟨rfl, straight⟩
  · rcases newShape with ⟨sameLimit, _, limitedAfter, rfl⟩ | ⟨_, straight⟩
    · cases limited.symm.trans limitedAfter
      rw [Nat.mul_comm activation, Nat.mul_comm newActivation]
      exact body.mul_left limit
    · simp [recursive, limited] at straight
  · rcases newShape with ⟨limit, recursive, limited, _⟩ | ⟨rfl, _⟩
    · simp [recursive, limited] at straight
    · exact body

/-- A function with a bound is in the call order. -/
theorem mem_callOrder_of_bound {program : Program} {profile : Option Profile} {analysis : Analysis}
    (analyzed : program.analyze profile = .ok analysis) {order : List FunctionId}
    (ordered : program.callOrder = .ok order) {id : FunctionId} {bound : Nat}
    (known : analysis.bound? id = some bound) : id ∈ order := by
  unfold analyze at analyzed
  simp only [ordered, bind_eq_ok_iff, Except.ok.injEq] at analyzed
  obtain ⟨_, rfl, bounds, added, rfl⟩ := analyzed
  have bounded : (bounds.get? id).isSome := Option.isSome_iff_exists.mpr ⟨bound, known⟩
  exact (mem_order_of_bound added bounded).resolve_left (by simp)

/-- When untouched functions stay as they are and the bound of no touched function grows
by more than a factor, no bound does. -/
theorem bounds_growBy {factor : ℚ} (atLeast : 1 ≤ factor) {before after : Program}
    {changes : Changes} {profile newProfile : Option Profile} {old new : Analysis}
    (kept : ∀ id, changes.touches id = false → after.function? id = before.function? id)
    (analyzed : before.analyze profile = .ok old) (reanalyzed : after.analyze newProfile = .ok new)
    (checked : ∀ id bound newBound, changes.touches id = true → old.bound? id = some bound →
      new.bound? id = some newBound → GrowsBy factor bound newBound) :
    ∀ id bound newBound, old.bound? id = some bound → new.bound? id = some newBound →
      GrowsBy factor bound newBound := by
  obtain ⟨order, ordered, grounded, _⟩ := analyze_grounded analyzed
  obtain ⟨_, _, newGrounded, _⟩ := analyze_grounded reanalyzed
  have settled := (callOrder_settled ordered).1
  intro id
  -- callees stand earlier in the order before the change
  induction place : order.idxOf id using Nat.strong_induction_on generalizing id with
  | _ place ih =>
    intro bound newBound known newKnown
    cases touched : changes.touches id with
    | true => exact checked id bound newBound touched known newKnown
    | false =>
      obtain ⟨function, found, computed⟩ := grounded id bound known
      obtain ⟨newFunction, newFound, recomputed⟩ := newGrounded id newBound newKnown
      rw [kept id touched, found] at newFound
      cases newFound
      have listed : id ∈ order.reverse :=
        List.mem_reverse.mpr (mem_callOrder_of_bound analyzed ordered known)
      refine functionBound_growsBy atLeast computed recomputed fun callee called apart => ?_
      have earlier := (settled.idxOf_lt listed found called).resolve_left apart
      rw [List.reverse_reverse] at earlier
      exact ih _ (place ▸ earlier) callee rfl

end Program

/-- A bound that grows within a budget, given in percent of the old bound. -/
def WithinBudget (percent : ℚ) (old new : Nat) : Prop :=
  100 * ((new : ℚ) - old) ≤ percent * old

/-- A budget in percent allows growth by a factor. -/
theorem withinBudget_iff {percent : ℚ} {old new : Nat} :
    WithinBudget percent old new ↔ GrowsBy (1 + percent / 100) old new := by
  unfold WithinBudget GrowsBy
  constructor <;> intro within <;> linarith

instance (percent : ℚ) (old new : Nat) : Decidable (WithinBudget percent old new) :=
  inferInstanceAs (Decidable (_ ≤ _))

namespace Program

/-- It is enough to check touched functions: when untouched functions stay as they are
and every touched function with a bound before and after keeps a growth budget, every
function with both bounds keeps it. In particular no bound grows if nothing is allowed. -/
theorem bounds_withinBudget {before after : Program} {changes : Changes}
    {profile newProfile : Option Profile} {old new : Analysis}
    (kept : ∀ id, changes.touches id = false → after.function? id = before.function? id)
    (analyzed : before.analyze profile = .ok old) (reanalyzed : after.analyze newProfile = .ok new)
    {percent : ℚ} (allowed : 0 ≤ percent)
    (checked : ∀ id bound newBound, changes.touches id = true → old.bound? id = some bound →
      new.bound? id = some newBound → WithinBudget percent bound newBound) :
    ∀ id bound newBound, old.bound? id = some bound → new.bound? id = some newBound →
      WithinBudget percent bound newBound ∧ (percent = 0 → newBound ≤ bound) := by
  intro id bound newBound known newKnown
  have atLeast : 1 ≤ 1 + percent / 100 := by linarith
  have touchedGrow : ∀ id bound newBound, changes.touches id = true → old.bound? id = some bound →
      new.bound? id = some newBound → GrowsBy (1 + percent / 100) bound newBound :=
    fun id bound newBound touched known newKnown =>
      withinBudget_iff.mp (checked id bound newBound touched known newKnown)
  have grown := bounds_growBy atLeast kept analyzed reanalyzed touchedGrow id bound newBound known
    newKnown
  refine ⟨withinBudget_iff.mpr grown, fun none => ?_⟩
  have flat : (newBound : ℚ) ≤ bound := by
    unfold GrowsBy at grown
    rw [none] at grown
    linarith
  exact_mod_cast flat

/-- An entry point that calls a function three times, which calls `step` and, once more,
itself. -/
def pump : Program where
  functions.slots := [
    some {
      name := entryPoint
      body := [.loop none (.exact 3) none [.eval (.call ⟨1⟩ [])]] },
    some {
      name := "stroke"
      body := [
        .eval (.call ⟨2⟩ []),
        .branch (.lit (.ofBool true)) [.eval (.call ⟨1⟩ [])] [] none]
      recursionLimit := some 2 },
    some {
      name := "step"
      body := [.emit 1 (.lit (.ofInt .u64 1))] }]

/-- `pump` while `step` is recorded to get a longer body. -/
def pumpEdited : Program :=
  (pump.openJournal.updateFunction? ⟨2⟩ fun step =>
    { step with body := .bind "x" .u64 (.lit (.ofInt .u64 1)) :: step.body }).getD {}

/-- Recording the edit touches `step` only, and leaves the other functions. -/
theorem touches_pumpEdited {id : FunctionId} :
    (pumpEdited.changes.touches id = true ↔ id = ⟨2⟩) ∧
      (id ≠ ⟨2⟩ → pumpEdited.closeJournal.function? id = pump.function? id) := by
  have updated : pump.openJournal.functions.update? ⟨2⟩ (fun step =>
      { step with body := .bind "x" .u64 (.lit (.ofInt .u64 1)) :: step.body }) =
        some pumpEdited.functions := rfl
  have recorded := Arena.contains_preImages_update rfl updated id
  have fresh : pump.openJournal.functions.preImages.contains id = false := rfl
  have changed := Arena.get?_update updated id
  constructor
  · rw [fresh] at recorded
    exact recorded.trans (by simp)
  · intro apart
    rw [if_neg apart] at changed
    exact changed

/-- The bound of `step` grows from 9 to 11 cycles, which is within a quarter. So is the
growth of the entry point, which is not touched. -/
theorem bounds_withinBudget_pump : ∃ old new,
    pump.analyze none = .ok old ∧ pumpEdited.closeJournal.analyze none = .ok new ∧
      pumpEdited.changes.touches ⟨2⟩ = true ∧ old.bound? ⟨2⟩ = some 9 ∧
      new.bound? ⟨2⟩ = some 11 ∧ WithinBudget 25 9 11 ∧
      pumpEdited.changes.touches ⟨0⟩ = false ∧ old.bound? ⟨0⟩ = some 233 ∧
      new.bound? ⟨0⟩ = some 245 ∧ WithinBudget 25 233 245 := by
  obtain ⟨old, analyzed⟩ : ∃ old, pump.analyze none = .ok old := ⟨_, rfl⟩
  obtain ⟨new, reanalyzed⟩ : ∃ new, pumpEdited.closeJournal.analyze none = .ok new := ⟨_, rfl⟩
  have bounds : old.bound? ⟨2⟩ = some 9 ∧ old.bound? ⟨0⟩ = some 233 := by
    cases analyzed
    exact ⟨rfl, rfl⟩
  have newBounds : new.bound? ⟨2⟩ = some 11 ∧ new.bound? ⟨0⟩ = some 245 := by
    cases reanalyzed
    exact ⟨rfl, rfl⟩
  have stepWithin : WithinBudget 25 9 11 := by
    norm_num [WithinBudget]
  have checked : ∀ id bound newBound, pumpEdited.changes.touches id = true →
      old.bound? id = some bound → new.bound? id = some newBound →
        WithinBudget 25 bound newBound := by
    intro id bound newBound touched known newKnown
    rw [touches_pumpEdited.1] at touched
    subst touched
    cases bounds.1.symm.trans known
    cases newBounds.1.symm.trans newKnown
    exact stepWithin
  have all := bounds_withinBudget
    (fun id untouched => touches_pumpEdited.2 fun same => by
      rw [touches_pumpEdited.1.mpr same] at untouched
      cases untouched) analyzed reanalyzed (by norm_num) checked
  exact ⟨old, new, analyzed, reanalyzed, by decide, bounds.1, newBounds.1, stepWithin, by decide,
    bounds.2, newBounds.2, (all ⟨0⟩ 233 245 bounds.2 newBounds.2).1⟩

end Program

end Timebound
