import Timebound.Proofs.CycleSavings
import Timebound.Proofs.LoadDisorder

/-!
# Costs of grouped loads

The cost of a block is the sum of the costs of its statements, less two cycles for every load
that directly follows the load of the element before it. Grouping rearranges the statements of
a block, so it makes the block cheaper or dearer by the number of such pairs that it makes or
breaks. It counts the pairs inside each run only, while the cost also counts the pairs that
stand across the end of a run, and those it can break.
-/

namespace Timebound

/-! ## Sequential pairs -/

namespace Block

/-- A statement in front of others is a further load or starts a sequential pair. -/
theorem sequentialPairs_cons_cons (first second : Stmt) (rest : Block) :
    sequentialPairs (first :: second :: rest) =
      (if first.loadsNext second then 1 else 0) + sequentialPairs (second :: rest) := by
  simp only [sequentialPairs, List.tail_cons, List.zip_cons_cons, List.countP_cons]
  omega

/-- Putting blocks together keeps their sequential pairs. -/
theorem sequentialPairs_append (first second : Block) :
    sequentialPairs first + sequentialPairs second ≤ sequentialPairs (first ++ second) := by
  induction first with
  | nil => exact Nat.le_of_eq (Nat.zero_add _)
  | cons s rest ih =>
    cases rest with
    | nil =>
      cases second with
      | nil => exact Nat.le_refl _
      | cons t others =>
        have alone : sequentialPairs [s] = 0 := rfl
        rw [List.singleton_append, sequentialPairs_cons_cons, alone]
        omega
    | cons t others =>
      rw [List.cons_append, List.cons_append, sequentialPairs_cons_cons, sequentialPairs_cons_cons]
      rw [List.cons_append] at ih
      omega

/-- The number of sequential pairs inside the runs of a block. -/
def runPairs (runs : List Block) : Nat :=
  runs.foldr (fun run rest => sequentialPairs run + rest) 0

/-- Arranging a run keeps or raises the number of its sequential pairs. -/
theorem sequentialPairs_arrangeRun (run : Block) :
    sequentialPairs run ≤ sequentialPairs (arrangeRun run) := by
  unfold arrangeRun
  split
  · rename_i gains
    simp only [gainsFromSorting, decide_eq_true_eq] at gains
    omega
  · exact Nat.le_refl _

/-- Arranged runs have the pairs that were inside the runs. -/
theorem runPairs_le_arranged (runs : List Block) :
    runPairs runs ≤ sequentialPairs (runs.flatMap arrangeRun) := by
  induction runs with
  | nil => exact Nat.zero_le _
  | cons run rest ih =>
    have first := sequentialPairs_arrangeRun run
    have joined := sequentialPairs_append (arrangeRun run) (rest.flatMap arrangeRun)
    rw [List.flatMap_cons]
    simp only [runPairs, List.foldr_cons] at ih ⊢
    omega

/-- Whether every sequential pair of a block lies inside one of its runs. -/
def seamless (block : Block) : Bool :=
  decide (sequentialPairs block ≤ runPairs (runsFrom [] block))

/-- Whether arranging the runs of a block keeps the number of its sequential pairs. -/
def keepsPairs (block : Block) : Bool :=
  decide (sequentialPairs block ≤ sequentialPairs (arrange block))

/-- Pairs inside the runs are not lost. -/
theorem keepsPairs_of_seamless {block : Block} (inside : seamless block = true) :
    keepsPairs block = true := by
  have pairs : sequentialPairs block ≤ runPairs (runsFrom [] block) := of_decide_eq_true inside
  exact decide_eq_true (Nat.le_trans pairs (runPairs_le_arranged _))

end Block

/-! ## The cost of a block in any order -/

section Costs

variable {callee : FunctionId → Except Cause Nat}

/-- What a statement costs on its own, where it has a cost. -/
def Stmt.price (callee : FunctionId → Except Cause Nat) (s : Stmt) : Nat :=
  match s.cycles callee with
  | .ok cost => cost
  | .error _ => 0

/-- A load costs six cycles. -/
theorem Stmt.cycles_of_literalLoad {s : Stmt} {place : GlobalId × Int}
    (loads : s.literalLoad? = some place) : s.cycles callee = .ok 6 := by
  unfold literalLoad? at loads
  split at loads
  · rfl
  · cases loads

/-- A statement costs at least what it saves. -/
theorem Stmt.discountAfter_le {previous : Option Stmt} {s : Stmt} {cost : Nat}
    (known : s.cycles callee = .ok cost) : s.discountAfter previous ≤ cost := by
  cases loads : s.literalLoad? with
  | none =>
    have nothing := discountAfter_of_loadless loads previous
    omega
  | some place =>
    cases known.symm.trans (cycles_of_literalLoad loads)
    unfold discountAfter
    split <;> decide

/-- The cost of a block and what its sequential pairs save are the costs of its statements. -/
theorem Block.Costs.total_eq {previous : Option Stmt} {block : Block} {total : Nat}
    (costs : Block.Costs callee previous block total) :
    total + CycleCost.sequentialDiscount *
        Block.sequentialPairs (previous.toList ++ block) =
      Block.sumOver (Stmt.price callee) block := by
  induction costs with
  | nil previous => cases previous <;> rfl
  | @cons previous s rest cost others first behind ih =>
    have saved : s.discountAfter previous ≤ cost := Stmt.discountAfter_le first
    have price : s.price callee = cost := by rw [Stmt.price, first]
    have pairs : CycleCost.sequentialDiscount * Block.sequentialPairs
        (previous.toList ++ s :: rest) = s.discountAfter previous +
          CycleCost.sequentialDiscount * Block.sequentialPairs (s :: rest) := by
      cases previous with
      | none => exact (Nat.zero_add _).symm
      | some before =>
        rw [Option.toList_some, List.singleton_append, Block.sequentialPairs_cons_cons,
          Nat.mul_add, Stmt.discountAfter, Option.any_some]
        split <;> rfl
    rw [Option.toList_some, List.singleton_append] at ih
    simp only [Block.sumOver, List.foldr_cons] at ih ⊢
    omega

/-- A block has a cost when its statements have. -/
theorem Block.Costs.exists_iff {previous : Option Stmt} {block : Block} :
    (∃ total, Block.Costs callee previous block total) ↔
      ∀ s ∈ block, ∃ cost, s.cycles callee = .ok cost := by
  induction block generalizing previous with
  | nil => exact iff_of_true ⟨0, .nil previous⟩ (by simp)
  | cons s rest ih =>
    constructor
    · rintro ⟨_, costs⟩
      cases costs with
      | cons first behind =>
        exact List.forall_mem_cons.mpr ⟨⟨_, first⟩, ih.mp ⟨_, behind⟩⟩
    · intro each
      obtain ⟨⟨cost, first⟩, others⟩ := List.forall_mem_cons.mp each
      obtain ⟨total, behind⟩ := ih.mpr others
      exact ⟨_, .cons first behind⟩

/-- Rearranging a block changes its cost by what its sequential pairs save. -/
theorem Block.Costs.rearranged {block other : Block} {total : Nat}
    (costs : Block.Costs callee none block total) (same : other.Perm block) :
    ∃ sum, Block.Costs callee none other sum ∧
      sum + CycleCost.sequentialDiscount * Block.sequentialPairs other =
        total + CycleCost.sequentialDiscount * Block.sequentialPairs block := by
  have each := Block.Costs.exists_iff.mp ⟨total, costs⟩
  obtain ⟨sum, recosts⟩ := Block.Costs.exists_iff.mpr fun s listed =>
    each s (same.mem_iff.mp listed)
  refine ⟨sum, recosts, ?_⟩
  have before := costs.total_eq
  have after := recosts.total_eq
  rw [Block.sumOver_perm _ same] at after
  exact after.trans before.symm

/-- Arranging the runs of a block makes it no dearer exactly when it keeps the number of
sequential pairs. -/
theorem Block.lowers_arrange_iff {block : Block} {cost : Nat}
    (known : Block.cycles callee block = .ok cost) :
    Lowers (Block.cycles callee block) (Block.cycles callee (Block.arrange block)) ↔
      Block.keepsPairs block = true := by
  obtain ⟨costs, below⟩ := Block.cycles_eq_ok_iff.mp known
  obtain ⟨sum, recosts, pairs⟩ := costs.rearranged (Block.arrange_perm block)
  have discount : CycleCost.sequentialDiscount = 2 := rfl
  rw [discount] at pairs
  unfold Block.keepsPairs
  rw [decide_eq_true_iff]
  constructor
  · intro lowers
    obtain ⟨less, smaller, redone⟩ := lowers cost known
    have again := (Block.cycles_eq_ok_iff.mp redone).1.total_eq
    have first := recosts.total_eq
    omega
  · intro kept total same
    cases known.symm.trans same
    exact ⟨sum, by omega, Block.cycles_eq_ok_iff.mpr ⟨recosts, by omega⟩⟩

end Costs

/-! ## Statements that are changed inside -/

section Inside

/-- A change of statements that keeps what they load and bind. -/
structure Inside (change : Stmt → Stmt) : Prop where
  /-- A statement loads the same element. -/
  loads : ∀ s, (change s).literalLoad? = s.literalLoad?
  /-- A statement binds the same name. -/
  binds : ∀ s, (change s).boundName? = s.boundName?

variable {change : Stmt → Stmt} (inside : Inside change)

include inside

/-- Sequential pairs stay sequential. -/
theorem Inside.sequentialPairs_map (block : Block) :
    Block.sequentialPairs (block.map change) = Block.sequentialPairs block := by
  have next (first second : Stmt) : (change first).loadsNext (change second) =
      first.loadsNext second := by
    rw [Stmt.loadsNext, Stmt.loadsNext, inside.loads, inside.loads]
  unfold Block.sequentialPairs
  rw [← List.map_tail, List.zip_map, List.countP_map]
  simp only [Function.comp_def, Prod.map_fst, Prod.map_snd, next]

/-- Runs are cut in the same places. -/
theorem Inside.runsFrom_map (run block : Block) :
    Block.runsFrom (run.map change) (block.map change) =
      (Block.runsFrom run block).map (List.map change) := by
  have joins (run : Block) (s : Stmt) : (change s).joinsRun (run.map change) = s.joinsRun run := by
    simp only [Stmt.joinsRun, inside.loads, inside.binds, List.any_map, Function.comp_def]
  induction block generalizing run with
  | nil => rfl
  | cons s rest ih =>
    have alone : (change s).joinsRun [] = s.joinsRun [] := joins [] s
    have longer := ih (run ++ [s])
    have fresh := ih [s]
    have empty := ih []
    rw [List.map_append] at longer
    simp only [List.map_cons, List.map_nil, Block.runsFrom, joins, alone] at longer fresh empty ⊢
    split
    · exact longer
    · split
      · rw [fresh, List.map_cons]
      · rw [empty, List.map_cons, List.map_cons, List.map_cons, List.map_nil]

/-- Sorting puts the changed statements in the same places. -/
theorem Inside.sortedRun_map (run : Block) :
    Block.sortedRun (run.map change) = (Block.sortedRun run).map change := by
  have order (first second : Stmt) : (change first).loadsNoLater (change second) =
      first.loadsNoLater second := by
    rw [Stmt.loadsNoLater, Stmt.loadsNoLater, inside.loads, inside.loads]
  have inserted (s : Stmt) (sorted : Block) :
      insertSorted Stmt.loadsNoLater (change s) (sorted.map change) =
        (insertSorted Stmt.loadsNoLater s sorted).map change := by
    induction sorted with
    | nil => rfl
    | cons t rest ih =>
      rw [List.map_cons, insertSorted, insertSorted, order, ih]
      split <;> rfl
  unfold Block.sortedRun
  induction run with
  | nil => rfl
  | cons s rest ih => rw [List.map_cons, stableSort, stableSort, ih, inserted]

/-- Arranging puts the changed statements in the same places. -/
theorem Inside.arrange_map (block : Block) :
    Block.arrange (block.map change) = (Block.arrange block).map change := by
  have each (run : Block) : Block.arrangeRun (run.map change) =
      (Block.arrangeRun run).map change := by
    unfold Block.arrangeRun Block.gainsFromSorting
    rw [inside.sortedRun_map, inside.sequentialPairs_map, inside.sequentialPairs_map]
    split <;> rfl
  have runs := inside.runsFrom_map [] block
  rw [List.map_nil] at runs
  unfold Block.arrange
  rw [runs, List.flatMap_map, List.map_flatMap]
  simp only [each]

/-- Changes inside statements do not matter for the pairs that arranging keeps. -/
theorem Inside.keepsPairs_map (block : Block) :
    Block.keepsPairs (block.map change) = Block.keepsPairs block := by
  unfold Block.keepsPairs
  rw [inside.arrange_map, inside.sequentialPairs_map, inside.sequentialPairs_map]

end Inside

/-- Grouping the loads of nested blocks changes statements inside only. -/
theorem Stmt.inside_group : Inside Stmt.group where
  loads s := by cases s <;> rfl
  binds s := by cases s <;> rfl

/-! ## Nested blocks -/

section Nested

mutual

/-- Whether all blocks nested in a statement pass a check. -/
def Stmt.everyBlock (check : Block → Bool) : Stmt → Bool
  | .branch _ thenBody elseBody _ =>
    (check thenBody && Block.everyNested check thenBody) &&
      (check elseBody && Block.everyNested check elseBody)
  | .loop _ _ _ body => check body && Block.everyNested check body
  | .bind .. | .assign .. | .setGlobal .. | .store .. | .emit .. | .eval _ | .ret _ => true

/-- Whether all blocks nested in a block pass a check. -/
def Block.everyNested (check : Block → Bool) : List Stmt → Bool
  | [] => true
  | s :: rest => s.everyBlock check && Block.everyNested check rest

end

/-- Whether a block and all blocks nested in it pass a check. -/
def Block.everyBlock (check : Block → Bool) (block : Block) : Bool :=
  check block && Block.everyNested check block

variable {check other : Block → Bool}

mutual

/-- Blocks nested in a statement pass a weaker check. -/
theorem Stmt.everyBlock_mono (weaker : ∀ block, check block = true → other block = true) :
    ∀ s : Stmt, s.everyBlock check = true → s.everyBlock other = true
  | .bind .., _ | .assign .., _ | .setGlobal .., _ | .store .., _ | .emit .., _ | .eval _, _
  | .ret _, _ => rfl
  | .branch _ thenBody elseBody _, passed => by
    simp only [Stmt.everyBlock, Bool.and_eq_true] at passed ⊢
    exact ⟨⟨weaker _ passed.1.1, Block.everyNested_mono weaker thenBody passed.1.2⟩,
      weaker _ passed.2.1, Block.everyNested_mono weaker elseBody passed.2.2⟩
  | .loop _ _ _ body, passed => by
    simp only [Stmt.everyBlock, Bool.and_eq_true] at passed ⊢
    exact ⟨weaker _ passed.1, Block.everyNested_mono weaker body passed.2⟩

/-- Blocks nested in a block pass a weaker check. -/
theorem Block.everyNested_mono (weaker : ∀ block, check block = true → other block = true) :
    ∀ block : List Stmt, Block.everyNested check block = true →
      Block.everyNested other block = true
  | [], _ => rfl
  | s :: rest, passed => by
    simp only [Block.everyNested, Bool.and_eq_true] at passed ⊢
    exact ⟨Stmt.everyBlock_mono weaker s passed.1, Block.everyNested_mono weaker rest passed.2⟩

end

variable {callee : FunctionId → Except Cause Nat}

/-- Grouping makes a block no dearer if it does not for its nested blocks and keeps the number
of its sequential pairs. -/
theorem Block.lowers_group_of_nested {block : Block}
    (nested : Block.NoDearer callee callee block (Block.groupNested block))
    (kept : Block.keepsPairs block = true) :
    Lowers (Block.cycles callee block) (Block.cycles callee (Block.group block)) := by
  refine nested.lowers.trans fun cost known => ?_
  have same : Block.keepsPairs (Block.groupNested block) = true := by
    rw [Block.groupNested_eq_map, Stmt.inside_group.keepsPairs_map, kept]
  exact (Block.lowers_arrange_iff known).mpr same cost known

mutual

/-- Grouping makes a statement no dearer if no block in it loses sequential pairs. -/
theorem Stmt.lowers_group : ∀ s : Stmt, s.everyBlock Block.keepsPairs = true →
    Lowers (s.cycles callee) (s.group.cycles callee)
  | .bind .., _ | .assign .., _ | .setGlobal .., _ | .store .., _ | .emit .., _ | .eval _, _
  | .ret _, _ => .refl _
  | .branch _ thenBody elseBody _, fair => by
    simp only [Stmt.everyBlock, Bool.and_eq_true] at fair
    have first := Block.lowers_group_of_nested
      (Block.noDearer_groupNested thenBody fair.1.2) fair.1.1
    have second := Block.lowers_group_of_nested
      (Block.noDearer_groupNested elseBody fair.2.2) fair.2.1
    exact Stmt.lowers_branch (.refl _) first second _ _
  | .loop _ _ _ body, fair => by
    simp only [Stmt.everyBlock, Bool.and_eq_true] at fair
    have inner := Block.lowers_group_of_nested (Block.noDearer_groupNested body fair.2) fair.1
    exact Stmt.lowers_loop (.refl _) inner

/-- Grouping the loads of nested blocks makes a block no dearer if none of them loses
sequential pairs. -/
theorem Block.noDearer_groupNested : ∀ block : List Stmt,
    Block.everyNested Block.keepsPairs block = true →
      Block.NoDearer callee callee block (Block.groupNested block)
  | [], _ => .nil
  | s :: rest, fair => by
    simp only [Block.everyNested, Bool.and_eq_true] at fair
    exact .cons (.keep (Stmt.inside_group.loads s).symm (Stmt.lowers_group s fair.1))
      (Block.noDearer_groupNested rest fair.2)

end

end Nested

/-! ## Grouped blocks -/

/-- Grouping loads makes a block no dearer if no block in it loses sequential pairs by it, in
particular if every sequential pair lies inside a run. Where nothing nested changes it makes the
block no dearer in this case only. -/
theorem Block.cycles_group (callee : FunctionId → Except Cause Nat) (block : Block) :
    (Block.everyBlock Block.keepsPairs block = true →
      Lowers (Block.cycles callee block) (Block.cycles callee (Block.group block))) ∧
    (Block.everyBlock Block.seamless block = true →
      Block.everyBlock Block.keepsPairs block = true) ∧
    (∀ cost, Block.cycles callee block = .ok cost → Block.groupNested block = block →
      (Lowers (Block.cycles callee block) (Block.cycles callee (Block.group block)) ↔
        Block.keepsPairs block = true)) := by
  refine ⟨fun fair => ?_, fun inside => ?_, fun cost known flat => ?_⟩
  · obtain ⟨own, nested⟩ := Bool.and_eq_true_iff.mp fair
    exact Block.lowers_group_of_nested (Block.noDearer_groupNested block nested) own
  · obtain ⟨own, nested⟩ := Bool.and_eq_true_iff.mp inside
    exact Bool.and_eq_true_iff.mpr ⟨Block.keepsPairs_of_seamless own,
      Block.everyNested_mono (fun _ => Block.keepsPairs_of_seamless) block nested⟩
  · unfold Block.group
    rw [flat]
    exact Block.lowers_arrange_iff known

/-- A load at a literal index of the first global. -/
def loadAt (name : String) (index : Int) : Stmt :=
  .bind name (.int .w32) (.load ⟨0⟩ (.lit (.ofInt (.int .w32) index)))

/-- A loop over three loads in the wrong order. -/
def staggered : Block :=
  [.loop none (.exact 4) none [loadAt "a" 2, loadAt "b" 0, loadAt "c" 1]]

/-- Grouping the loads in the loop saves two cycles per iteration. -/
theorem Block.cycles_group_staggered :
    Block.everyBlock Block.seamless staggered = true ∧
      Block.cycles (fun _ => .ok 0) staggered = .ok 78 ∧
      Block.cycles (fun _ => .ok 0) (Block.group staggered) = .ok 70 ∧
      Lowers (Block.cycles (fun _ => .ok 0) staggered)
        (Block.cycles (fun _ => .ok 0) (Block.group staggered)) := by
  have inside : Block.everyBlock Block.seamless staggered = true := by decide
  obtain ⟨lowers, fair, _⟩ := Block.cycles_group (fun _ => .ok 0) staggered
  exact ⟨inside, by rfl, by rfl, lowers (fair inside)⟩

/-- Loads that bind a name again, so that one sequential pair ends a run and another starts
one. -/
def overlapping : Block :=
  [loadAt "a" 6, loadAt "a" 7, loadAt "b" 3, loadAt "c" 2, loadAt "c" 3]

/-- Grouping makes one pair inside the middle run and breaks the two pairs at its ends, so the
block gets two cycles dearer. -/
theorem Block.cycles_group_overlapping :
    Block.cycles (fun _ => .ok 0) overlapping = .ok 26 ∧
      Block.cycles (fun _ => .ok 0) (Block.group overlapping) = .ok 28 ∧
      ¬Lowers (Block.cycles (fun _ => .ok 0) overlapping)
        (Block.cycles (fun _ => .ok 0) (Block.group overlapping)) := by
  have before : Block.cycles (fun _ => .ok 0) overlapping = .ok 26 := by rfl
  have after : Block.cycles (fun _ => .ok 0) (Block.group overlapping) = .ok 28 := by rfl
  refine ⟨before, after, fun lowers => ?_⟩
  obtain ⟨less, smaller, done⟩ := lowers 26 before
  cases done.symm.trans after
  omega

end Timebound
