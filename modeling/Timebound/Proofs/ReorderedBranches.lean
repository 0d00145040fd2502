import Timebound.Proofs.CallFrequencies
import Timebound.Proofs.RewriteCycles
import Timebound.Proofs.RewriteWeight
import Timebound.Proofs.Semantics

/-!
# Branches with the likely arm first

A condition and its opposite send a run to opposite arms, whatever type their negations declare
and however many there are (`Expr.decide_opposite`), so a branch with swapped arms does what it
did. Cost and call frequencies do not depend on the order of the arms. After one reordering every
branch with a likelihood has the likely arm first, also where likelihoods are above the scale, so
a second one finds nothing to do.
-/

namespace Timebound

/-! ## Meaning -/

/-- The literal of a truth value is zero when the value is false. -/
theorem Literal.isZero_ofBool (value : Bool) : (Literal.ofBool value).isZero = !value := by
  cases value <;> rfl

section Meaning

variable (setting : Setting)

/-- A negation asks for a value and is one exactly when that is zero. -/
theorem Expr.value_not (type : ScalarType) (operand : Expr) (locals : Locals) :
    (Expr.unary .not type operand).value setting locals =
      (fun value => Literal.ofBool value.isZero) <$> operand.value setting locals := by
  simp [Expr.value, Expr.eval, UnaryOp.eval, Run.need]

/-- A decision on a negation goes the other way, whatever type it declares. -/
theorem Expr.decide_not (type : ScalarType) (operand : Expr) (locals : Locals) {α : Type}
    (first second : Run α) :
    (do let decision ← (Expr.unary .not type operand).value setting locals
        if decision.isZero then first else second) =
      (do let decision ← operand.value setting locals
          if decision.isZero then second else first) := by
  rw [Expr.value_not, bind_map_left]
  congr 1
  funext value
  cases value.isZero <;> simp [Literal.isZero_ofBool]

/-- A decision on the opposite of a condition goes the other way. -/
theorem Expr.decide_opposite (cond : Expr) (locals : Locals) {α : Type} (first second : Run α) :
    (do let decision ← cond.opposite.value setting locals
        if decision.isZero then first else second) =
      (do let decision ← cond.value setting locals
          if decision.isZero then second else first) := by
  unfold Expr.opposite
  split
  · exact (Expr.decide_not setting _ _ locals second first).symm
  · exact Expr.decide_not setting .bool cond locals first second

/-- Putting likely arms first keeps the name that a statement binds. -/
theorem Stmt.boundName?_reorder (s : Stmt) : s.reorder.boundName? = s.boundName? := by
  cases s with
  | branch cond thenBody elseBody likelihood =>
    rw [Stmt.reorder]
    split <;> rfl
  | _ => rfl

mutual

/-- A statement with the likely arms first does what the statement does. -/
theorem Stmt.run_reorder : ∀ s : Stmt, s.reorder.run setting = s.run setting
  | .bind .. | .assign .. | .setGlobal .. | .store .. | .emit .. | .eval _ | .ret _ => rfl
  | .branch cond thenBody elseBody likelihood => by
    have first := Block.run_reorder thenBody
    have second := Block.run_reorder elseBody
    funext locals
    rw [Stmt.reorder]
    split
    · simp only [Stmt.run, first, second, Expr.decide_opposite]
    · simp only [Stmt.run, first, second]
  | .loop _ _ _ body => by
    have inner := Block.run_reorder body
    funext locals
    simp only [Stmt.reorder, Stmt.run, inner]

/-- A block with the likely arms first does what the block does. -/
theorem Block.run_reorder : ∀ block : List Stmt,
    Block.run setting (Block.reorder block) = Block.run setting block
  | [] => rfl
  | s :: rest => by
    have first := Stmt.run_reorder s
    have others := Block.run_reorder rest
    funext locals
    simp only [Block.reorder, Block.run, first, others, Stmt.boundName?_reorder]

end

end Meaning

/-! ## Call frequencies -/

/-- The order of sites does not matter for the sum over them. -/
theorem sitesTotal_perm {callee : FunctionId} {sites others : List (FunctionId × Nat)}
    (same : sites.Perm others) : sitesTotal callee sites = sitesTotal callee others := by
  induction same with
  | nil => rfl
  | cons site _ ih => rw [sitesTotal_cons, sitesTotal_cons, ih]
  | swap first second rest => simp only [sitesTotal_cons]; omega
  | trans _ _ one two => exact one.trans two

/-- The order of sites does not matter for the frequencies. -/
theorem tallySites_perm {sites others : List (FunctionId × Nat)} (same : sites.Perm others) :
    tallySites sites = tallySites others := by
  refine Table.ext_get? fun callee => ?_
  rw [get?_tallySites, get?_tallySites, sitesTotal_perm same]
  simp only [(same.map _).mem_iff]

/-- The opposite of a condition makes the same calls. -/
theorem Expr.callSites_opposite (frequency : Nat) (e : Expr) :
    e.opposite.callSites frequency = e.callSites frequency := by
  unfold Expr.opposite
  split <;> rfl

mutual

/-- Putting likely arms first rearranges the calls of a statement. -/
theorem Stmt.callSites_reorder : ∀ (frequency : Nat) (s : Stmt),
    (s.reorder.callSites frequency).Perm (s.callSites frequency)
  | _, .bind .. | _, .assign .. | _, .setGlobal .. | _, .store .. | _, .emit .. | _, .eval _
  | _, .ret _ => .refl _
  | frequency, .branch cond thenBody elseBody likelihood => by
    have first := Block.callSites_reorder frequency thenBody
    have second := Block.callSites_reorder frequency elseBody
    rw [Stmt.reorder]
    split
    · simp only [Stmt.callSites, Expr.callSites_opposite]
      exact ((second.append first).trans List.perm_append_comm).append_left _
    · exact (first.append second).append_left _
  | frequency, .loop _ bound _ body => (Block.callSites_reorder _ body).append_left _

/-- Putting likely arms first rearranges the calls of a block. -/
theorem Block.callSites_reorder : ∀ (frequency : Nat) (block : List Stmt),
    (Block.callSites frequency (Block.reorder block)).Perm (Block.callSites frequency block)
  | _, [] => .nil
  | frequency, s :: rest =>
    (Stmt.callSites_reorder frequency s).append (Block.callSites_reorder frequency rest)

end

/-! ## Likelihoods -/

/-- A statement counts what its nested blocks count. -/
theorem Stmt.reorderCount_block_le {s : Stmt} {inner : Block} (part : inner ∈ s.blocks) :
    Block.reorderCount inner ≤ s.reorderCount := by
  cases s with
  | branch cond thenBody elseBody likelihood =>
    simp only [Stmt.blocks, List.mem_cons, List.not_mem_nil, or_false] at part
    rw [Stmt.reorderCount]
    rcases part with rfl | rfl <;> omega
  | loop counter bound condition body =>
    cases List.mem_singleton.mp part
    exact Nat.le_refl _
  | _ => exact absurd part List.not_mem_nil

/-- A block counts what its statements count. -/
theorem Block.reorderCount_mem_le {block : Block} {s : Stmt} (listed : s ∈ block) :
    s.reorderCount ≤ Block.reorderCount block := by
  induction block with
  | nil => cases listed
  | cons first rest ih =>
    rw [Block.reorderCount]
    rcases List.mem_cons.mp listed with rfl | later
    · exact Nat.le_add_right _ _
    · exact Nat.le_trans (ih later) (Nat.le_add_left _ _)

/-- A block counts what the statements anywhere in it count. -/
theorem Block.Holds.reorderCount_le {block : Block} {s : Stmt} (place : Block.Holds block s) :
    s.reorderCount ≤ Block.reorderCount block := by
  induction place with
  | here listed => exact Block.reorderCount_mem_le listed
  | nested listed part _ ih =>
    exact Nat.le_trans ih
      (Nat.le_trans (Stmt.reorderCount_block_le part) (Block.reorderCount_mem_le listed))

/-- Where there is nothing to reorder, no first arm is the less likely one. -/
theorem Block.Holds.likely {block : Block} {cond : Expr} {thenBody elseBody : Block}
    {likelihood : Nat}
    (place : Block.Holds block (.branch cond thenBody elseBody (some likelihood)))
    (settled : Block.reorderCount block = 0) : certainty / 2 ≤ likelihood := by
  have counted := place.reorderCount_le
  rw [settled, Nat.le_zero, Stmt.reorderCount, Nat.add_eq_zero_iff] at counted
  by_contra unlikely
  have reversed : isUnlikely (some likelihood) = true := decide_eq_true (Nat.lt_of_not_le unlikely)
  rw [if_pos reversed] at counted
  cases counted.2

/-! ## Reordered blocks -/

/-- Putting likely arms first is exact: whatever calls do, the reordered block sends the same
output, leaves the same globals, returns the same value and stops early for the same reason; it
has a cost exactly when the block has one, whatever callees cost, and the same one; and executed
at any frequency it has the same call frequencies. Every branch in it that has a likelihood is at
least as likely to take its first arm. A second reordering changes and counts nothing. -/
theorem Block.reorder_exact (block : Block) :
    (∀ setting, Block.run setting (Block.reorder block) = Block.run setting block) ∧
    (∀ callee total, Block.cycles callee (Block.reorder block) = .ok total ↔
      Block.cycles callee block = .ok total) ∧
    (∀ frequency, tallySites (Block.callSites frequency (Block.reorder block)) =
      tallySites (Block.callSites frequency block)) ∧
    (∀ cond thenBody elseBody likelihood,
      Block.Holds (Block.reorder block) (.branch cond thenBody elseBody (some likelihood)) →
        500 ≤ likelihood) ∧
    Block.reorder (Block.reorder block) = Block.reorder block ∧
    Block.reorderCount (Block.reorder block) = 0 := by
  have settled : Block.reorderCount (Block.reorder block) = 0 :=
    (Block.reorder_settles (fun _ => 0) block).2
  exact ⟨fun setting => Block.run_reorder setting block,
    fun callee total => Block.cyclesFrom_reorder block none,
    fun frequency => tallySites_perm (Block.callSites_reorder frequency block),
    fun cond thenBody elseBody likelihood place => place.likely settled,
    Block.reorder_eq_self _ settled, settled⟩

/-- A loop over a branch with a doubly negated condition and an unlikely first arm, in which a
branch with an unlikely arm is nested, and a branch whose likelihood is above the scale. -/
def sidetracks : Block :=
  [.loop none (.declared 3) none [
    .branch (.unary .not (.int .w32) (.not (.call ⟨1⟩ [])))
      [.branch (.var "flag") [.emit 1 (.var "flag")] [.eval (.call ⟨2⟩ [])] (some 0)]
      [.ret none] (some 499),
    .branch (.var "flag") [] [.eval (.call ⟨2⟩ [])] (some 4000)]]

/-- Both unlikely arms of the first branch go second, one negation is taken off and one put on,
and all is kept that should be. -/
theorem Block.reorder_exact_sidetracks :
    Block.reorder sidetracks =
      [.loop none (.declared 3) none [
        .branch (.not (.call ⟨1⟩ []))
          [.ret none]
          [.branch (.not (.var "flag")) [.eval (.call ⟨2⟩ [])] [.emit 1 (.var "flag")] (some 1000)]
          (some 501),
        .branch (.var "flag") [] [.eval (.call ⟨2⟩ [])] (some 4000)]] ∧
    Block.reorderCount sidetracks = 2 ∧
    Block.cycles (fun _ => .ok 7) (Block.reorder sidetracks) = .ok 188 ∧
    tallySites (Block.callSites 5 (Block.reorder sidetracks)) =
      tallySites (Block.callSites 5 sidetracks) ∧
    Block.Holds (Block.reorder sidetracks) (.branch (.not (.var "flag")) [.eval (.call ⟨2⟩ [])]
      [.emit 1 (.var "flag")] (some 1000)) ∧ 500 ≤ 1000 ∧
    Block.reorderCount (Block.reorder sidetracks) = 0 := by
  have place : Block.Holds (Block.reorder sidetracks) (.branch (.not (.var "flag"))
      [.eval (.call ⟨2⟩ [])] [.emit 1 (.var "flag")] (some 1000)) :=
    .nested List.mem_cons_self List.mem_cons_self (.nested List.mem_cons_self
      (List.mem_cons_of_mem _ List.mem_cons_self) (.here List.mem_cons_self))
  obtain ⟨_, cost, tally, likely, _, settled⟩ := Block.reorder_exact sidetracks
  exact ⟨by decide, by decide, (cost _ _).mpr rfl, tally 5, place, likely _ _ _ _ place,
    settled⟩

end Timebound
