import Mathlib.Data.List.Chain
import Mathlib.Logic.Function.Iterate
import Timebound.Proofs.GroupedRuns

/-!
# How often grouping finds something to do

Grouping leaves a block alone exactly when no run in it gains from sorting, and then it counts
nothing (`Block.group_eq_self_iff`, `Block.groupCount_eq_zero_iff`). A sorted run gains nothing
from sorting, but where a run was ended by a load that repeats a name, sorting can move the
repeated name away from the cut. Then the cut is made elsewhere the next time, and the new runs
may gain. So a second grouping can do more, which it does not if no run is ended by a repeated
name. Grouping again and again comes to an end after at most as many times as there are pairs of
loads out of order.
-/

namespace Timebound

/-! ## Sorted lists -/

section Sorting

variable {α : Type} {le : α → α → Bool}

/-- Insertion into a list that is in order keeps it in order. -/
theorem isChain_insertSorted (total : ∀ x y, le x y = false → le y x = true) (x : α)
    {list : List α} (sorted : list.IsChain fun a b => le a b = true) :
    (insertSorted le x list).IsChain fun a b => le a b = true := by
  induction list with
  | nil => exact .singleton x
  | cons y rest ih =>
    rw [insertSorted]
    by_cases before : le x y = true
    · rw [if_pos before]
      exact .cons_cons before sorted
    · rw [if_neg before]
      have after : le y x = true := total x y (Bool.eq_false_iff.mpr before)
      have behind := ih sorted.tail
      cases rest with
      | nil => exact .cons_cons after (.singleton x)
      | cons z others =>
        rw [insertSorted] at behind ⊢
        by_cases earlier : le x z = true
        · rw [if_pos earlier] at behind ⊢
          exact .cons_cons after behind
        · rw [if_neg earlier] at behind ⊢
          exact .cons_cons (List.isChain_cons_cons.mp sorted).1 behind

/-- Sorting puts a list in order. -/
theorem isChain_stableSort (total : ∀ x y, le x y = false → le y x = true) (list : List α) :
    (stableSort le list).IsChain fun a b => le a b = true := by
  induction list with
  | nil => exact .nil
  | cons x rest ih => exact isChain_insertSorted total x ih

/-- A list that is in order is sorted. -/
theorem stableSort_of_isChain {list : List α} (sorted : list.IsChain fun a b => le a b = true) :
    stableSort le list = list := by
  induction sorted with
  | nil => rfl
  | singleton x => rfl
  | cons_cons first _ ih => rw [stableSort, ih, insertSorted, if_pos first]

end Sorting

/-! ## Blocks that are left alone -/

namespace Block

/-- Whether no run of a block gains from sorting. -/
def quiet (block : Block) : Bool := (runsFrom [] block).all fun run => !gainsFromSorting run

/-- An arranged run gains nothing from sorting. -/
theorem gainsFromSorting_arrangeRun (run : Block) :
    gainsFromSorting (arrangeRun run) = false := by
  have sorted : sortedRun (sortedRun run) = sortedRun run :=
    stableSort_of_isChain (isChain_stableSort Stmt.loadsNoLater_total run)
  unfold arrangeRun
  split
  · rw [gainsFromSorting, sorted, decide_eq_false_iff_not]
    exact Nat.lt_irrefl _
  · rename_i gainless
    exact Bool.eq_false_iff.mpr gainless

/-- Arranging leaves a run alone exactly when it gains nothing from sorting. -/
theorem arrangeRun_eq_self_iff {run : Block} :
    arrangeRun run = run ↔ gainsFromSorting run = false := by
  constructor
  · intro same
    rw [← same]
    exact gainsFromSorting_arrangeRun run
  · intro gainless
    rw [arrangeRun, if_neg (Bool.eq_false_iff.mp gainless)]

/-- Arranging leaves runs that follow each other alone exactly when none of them gains. -/
theorem arrangeRuns_eq_self_iff {runs : List Block} :
    runs.flatMap arrangeRun = runs.flatten ↔ ∀ run ∈ runs, gainsFromSorting run = false := by
  induction runs with
  | nil => simp
  | cons run rest ih =>
    rw [List.flatMap_cons, List.flatten_cons, List.forall_mem_cons, ← ih, ← arrangeRun_eq_self_iff]
    constructor
    · exact fun same => List.append_inj same (arrangeRun_perm run).length_eq
    · rintro ⟨first, others⟩
      rw [first, others]

/-- Arranging leaves a block alone exactly when none of its runs gains. -/
theorem arrange_eq_self_iff {block : Block} : arrange block = block ↔ quiet block = true := by
  have runs : (runsFrom [] block).flatMap arrangeRun = (runsFrom [] block).flatten ↔ _ :=
    arrangeRuns_eq_self_iff
  rw [flatten_runsFrom, List.nil_append] at runs
  rw [arrange, quiet, List.all_eq_true]
  simpa only [Bool.not_eq_true'] using runs

/-- Nothing is counted in a block exactly when none of its runs gains. -/
theorem arrangeCount_eq_zero_iff {block : Block} : arrangeCount block = 0 ↔ quiet block = true := by
  unfold arrangeCount quiet
  induction runsFrom [] block with
  | nil => simp
  | cons run rest ih =>
    -- A run that gains is not empty, so it is counted.
    have counted : (if gainsFromSorting run then run.length else 0) = 0 ↔
        gainsFromSorting run = false := by
      cases run with
      | nil => exact iff_of_true rfl rfl
      | cons s others => cases gainsFromSorting (s :: others) <;> simp
    rw [List.foldr_cons, Nat.add_eq_zero_iff, counted, ih, List.all_cons, Bool.and_eq_true,
      Bool.not_eq_true']

/-- Grouping leaves a block alone exactly when it leaves the nested blocks alone and arranging
the block does. -/
theorem group_eq_self_iff_nested {block : Block} :
    group block = block ↔ groupNested block = block ∧ arrange block = block := by
  constructor
  · intro same
    have perm : (arrange (groupNested block)).Perm (groupNested block) := arrange_perm _
    have disorder : nestedDisorder block = nestedDisorder (groupNested block) := by
      rw [nestedDisorder_eq_sumOver, nestedDisorder_eq_sumOver, ← sumOver_perm _ perm]
      exact congrArg (sumOver Stmt.disorder) same.symm
    have nested : groupNested block = block :=
      (groupNested_settles block).resolve_right (by omega)
    refine ⟨nested, ?_⟩
    rw [group, nested] at same
    exact same
  · rintro ⟨nested, own⟩
    rw [group, nested, own]

/-- A block passes a check with all blocks nested in it when its statements and itself do. -/
theorem everyNested_eq_all (check : Block → Bool) (block : Block) :
    everyNested check block = block.all fun s => s.everyBlock check := by
  induction block with
  | nil => rfl
  | cons s rest ih => rw [everyNested, ih, List.all_cons]

end Block

mutual

/-- Grouping leaves a statement alone exactly when no run nested in it gains. -/
theorem Stmt.group_eq_self_iff : ∀ s : Stmt, s.group = s ↔ s.everyBlock Block.quiet = true
  | .bind .. | .assign .. | .setGlobal .. | .store .. | .emit .. | .eval _ | .ret _ =>
    iff_of_true rfl rfl
  | .branch cond thenBody elseBody likelihood => by
    have first := Block.groupNested_eq_self_iff thenBody
    have second := Block.groupNested_eq_self_iff elseBody
    have arms : (Stmt.branch cond thenBody elseBody likelihood).group =
        .branch cond (Block.group thenBody) (Block.group elseBody) likelihood := rfl
    rw [arms, Stmt.branch.injEq, Stmt.everyBlock]
    simp only [true_and, Bool.and_eq_true, Block.group_eq_self_iff_nested,
      Block.arrange_eq_self_iff, first, second, and_comm]
  | .loop counter bound condition body => by
    have inner := Block.groupNested_eq_self_iff body
    have turn : (Stmt.loop counter bound condition body).group =
        .loop counter bound condition (Block.group body) := rfl
    rw [turn, Stmt.loop.injEq, Stmt.everyBlock]
    simp only [true_and, Bool.and_eq_true, Block.group_eq_self_iff_nested,
      Block.arrange_eq_self_iff, inner, and_comm]

/-- Grouping leaves nested blocks alone exactly when no run in them gains. -/
theorem Block.groupNested_eq_self_iff : ∀ block : List Stmt, Block.groupNested block = block ↔
    Block.everyNested Block.quiet block = true
  | [] => iff_of_true rfl rfl
  | s :: rest => by
    rw [Block.groupNested, List.cons.injEq, Stmt.group_eq_self_iff s,
      Block.groupNested_eq_self_iff rest, Block.everyNested, Bool.and_eq_true]

end

/-- Grouping leaves a block alone exactly when no run in it or nested in it gains. -/
theorem Block.group_eq_self_iff {block : Block} :
    Block.group block = block ↔ Block.everyBlock Block.quiet block = true := by
  rw [Block.group_eq_self_iff_nested, Block.groupNested_eq_self_iff, Block.arrange_eq_self_iff,
    Block.everyBlock, Bool.and_eq_true, and_comm]

/-- Grouping counts nothing in a block, apart from the nested blocks, exactly when it leaves the
block alone. -/
theorem Block.count_eq_zero_iff_of_nested {block : Block}
    (nested : Block.nestedGroupCount block = 0 ↔ Block.everyNested Block.quiet block = true) :
    Block.nestedGroupCount block + Block.arrangeCount (Block.groupNested block) = 0 ↔
      (Block.quiet block && Block.everyNested Block.quiet block) = true := by
  rw [Nat.add_eq_zero_iff, nested, Block.arrangeCount_eq_zero_iff, Bool.and_eq_true, and_comm]
  refine and_congr_left fun quiet => ?_
  rw [(Block.groupNested_eq_self_iff block).mpr quiet]

mutual

/-- Grouping counts nothing in a statement exactly when no run nested in it gains. -/
theorem Stmt.groupCount_eq_zero_iff : ∀ s : Stmt,
    s.groupCount = 0 ↔ s.everyBlock Block.quiet = true
  | .bind .. | .assign .. | .setGlobal .. | .store .. | .emit .. | .eval _ | .ret _ =>
    iff_of_true rfl rfl
  | .branch _ thenBody elseBody _ => by
    rw [Stmt.groupCount, Stmt.everyBlock, Nat.add_eq_zero_iff, Bool.and_eq_true,
      Block.count_eq_zero_iff_of_nested (Block.nestedGroupCount_eq_zero_iff thenBody),
      Block.count_eq_zero_iff_of_nested (Block.nestedGroupCount_eq_zero_iff elseBody)]
  | .loop _ _ _ body => by
    rw [Stmt.groupCount, Stmt.everyBlock,
      Block.count_eq_zero_iff_of_nested (Block.nestedGroupCount_eq_zero_iff body)]

/-- Grouping counts nothing in nested blocks exactly when no run in them gains. -/
theorem Block.nestedGroupCount_eq_zero_iff : ∀ block : List Stmt,
    Block.nestedGroupCount block = 0 ↔ Block.everyNested Block.quiet block = true
  | [] => iff_of_true rfl rfl
  | s :: rest => by
    rw [Block.nestedGroupCount, Block.everyNested, Nat.add_eq_zero_iff, Bool.and_eq_true,
      Stmt.groupCount_eq_zero_iff s, Block.nestedGroupCount_eq_zero_iff rest]

end

/-- Grouping counts nothing exactly when it leaves the block alone. -/
theorem Block.groupCount_eq_zero_iff {block : Block} :
    Block.groupCount block = 0 ↔ Block.group block = block := by
  rw [Block.group_eq_self_iff]
  exact Block.count_eq_zero_iff_of_nested (Block.nestedGroupCount_eq_zero_iff block)

/-! ## Grouping again -/

/-- Changes inside statements do not matter for what runs gain. -/
theorem Inside.quiet_map {change : Stmt → Stmt} (inside : Inside change) (block : Block) :
    Block.quiet (block.map change) = Block.quiet block := by
  have gains (run : Block) :
      Block.gainsFromSorting (run.map change) = Block.gainsFromSorting run := by
    rw [Block.gainsFromSorting, Block.gainsFromSorting, inside.sortedRun_map,
      inside.sequentialPairs_map, inside.sequentialPairs_map]
  have runs := inside.runsFrom_map [] block
  rw [List.map_nil] at runs
  rw [Block.quiet, Block.quiet, runs, List.all_map]
  simp only [Function.comp_def, gains]

/-- Whether no run of a block gains from sorting once the block has been arranged. -/
def Block.settlesOnce (block : Block) : Bool := Block.quiet (Block.arrange block)

/-- What nested blocks are grouped into passes a check when the nested blocks do and the block
settles at once. -/
theorem Block.everyBlock_group_of_nested {block : Block}
    (nested : Block.everyNested Block.quiet (Block.groupNested block) =
      Block.everyNested Block.settlesOnce block) :
    Block.everyBlock Block.quiet (Block.group block) =
      (Block.settlesOnce block && Block.everyNested Block.settlesOnce block) := by
  have own : Block.quiet (Block.group block) = Block.settlesOnce block := by
    rw [Block.group, Block.groupNested_eq_map, Stmt.inside_group.arrange_map,
      Stmt.inside_group.quiet_map, Block.settlesOnce]
  have moved : Block.everyNested Block.quiet (Block.group block) =
      Block.everyNested Block.quiet (Block.groupNested block) := by
    rw [Block.everyNested_eq_all, Block.everyNested_eq_all]
    exact (Block.arrange_perm _).all_eq
  rw [Block.everyBlock, own, moved, nested]

mutual

/-- A grouped statement is left alone when every block nested in it settles at once. -/
theorem Stmt.everyBlock_group : ∀ s : Stmt,
    s.group.everyBlock Block.quiet = s.everyBlock Block.settlesOnce
  | .bind .. | .assign .. | .setGlobal .. | .store .. | .emit .. | .eval _ | .ret _ => rfl
  | .branch _ thenBody elseBody _ =>
    congrArg₂ (· && ·) (Block.everyBlock_group_of_nested (Block.everyNested_groupNested thenBody))
      (Block.everyBlock_group_of_nested (Block.everyNested_groupNested elseBody))
  | .loop _ _ _ body =>
    Block.everyBlock_group_of_nested (Block.everyNested_groupNested body)

/-- Grouped nested blocks are left alone when every one of them settles at once. -/
theorem Block.everyNested_groupNested : ∀ block : List Stmt,
    Block.everyNested Block.quiet (Block.groupNested block) =
      Block.everyNested Block.settlesOnce block
  | [] => rfl
  | s :: rest => by
    rw [Block.groupNested, Block.everyNested, Block.everyNested, Stmt.everyBlock_group s,
      Block.everyNested_groupNested rest]

end

/-- A second grouping changes nothing exactly when every block settles at once. -/
theorem Block.group_group_iff {block : Block} :
    Block.group (Block.group block) = Block.group block ↔
      Block.everyBlock Block.settlesOnce block = true := by
  rw [Block.group_eq_self_iff,
    Block.everyBlock_group_of_nested (Block.everyNested_groupNested block), Block.everyBlock]

namespace Block

/-- Whether a run of a block is ended by a load that repeats one of its names, starting with a
run in progress. -/
def repeatsFrom (run : Block) : Block → Bool
  | [] => false
  | s :: rest =>
    if s.joinsRun run then repeatsFrom (run ++ [s]) rest
    else s.joinsRun [] || repeatsFrom [] rest

/-- Whether the runs of a block are ended by other statements than loads only. -/
def cutByOthers (block : Block) : Bool := !repeatsFrom [] block

/-- A load of a run joins those before it. -/
theorem IsRun.joins {run rest : Block} {s : Stmt} (isRun : IsRun (run ++ s :: rest)) :
    s.joinsRun run = true := by
  have loads := isRun.loads s (by simp)
  have distinct := isRun.distinct
  rw [List.map_append, List.map_cons, List.nodup_append] at distinct
  rw [Stmt.joinsRun, loads, Bool.true_and, Bool.not_eq_true', List.any_eq_false]
  intro member listed same
  exact distinct.2.2 _ (List.mem_map_of_mem listed) _ List.mem_cons_self (beq_iff_eq.mp same)

/-- The loads of a run all join it. -/
theorem runsFrom_append (run : Block) {more : Block} (isRun : IsRun (run ++ more)) (rest : Block) :
    runsFrom run (more ++ rest) = runsFrom (run ++ more) rest := by
  induction more generalizing run with
  | nil => simp
  | cons s more ih =>
    rw [List.cons_append, runsFrom_join isRun.joins]
    rw [List.append_cons run s more] at isRun ⊢
    exact ih (run ++ [s]) isRun

/-- Where no run is ended by a repeated name, the cuts stay where they are. -/
theorem runsFrom_arranged {block : Block} : ∀ {run : Block}, IsRun run →
    repeatsFrom run block = false →
      runsFrom [] ((runsFrom run block).flatMap arrangeRun) =
        (runsFrom run block).map arrangeRun := by
  have begin (run : Block) (isRun : IsRun run) (rest : Block) :
      runsFrom [] (arrangeRun run ++ rest) = runsFrom (arrangeRun run) rest :=
    runsFrom_append [] (isRun.perm (arrangeRun_perm run).symm) rest
  induction block with
  | nil =>
    intro run isRun _
    have alone := begin run isRun []
    rw [List.append_nil] at alone
    simp only [runsFrom, List.flatMap_cons, List.flatMap_nil, List.append_nil, List.map_cons,
      List.map_nil, alone]
  | cons s rest ih =>
    intro run isRun unrepeated
    rw [repeatsFrom] at unrepeated
    by_cases joins : s.joinsRun run = true
    · rw [if_pos joins] at unrepeated
      rw [runsFrom_join joins]
      exact ih (isRun.join joins) unrepeated
    · rw [if_neg joins, Bool.or_eq_false_iff] at unrepeated
      have loadless : s.literalLoad? = none := by simpa [Stmt.joinsRun] using unrepeated.1
      rw [runsFrom_other loadless, List.flatMap_cons, List.flatMap_cons, arrangeRun_singleton,
        begin run isRun, List.singleton_append, runsFrom_other loadless, ih isRun_nil unrepeated.2,
        List.map_cons, List.map_cons, arrangeRun_singleton]

/-- A block whose runs are ended by other statements than loads settles at once. -/
theorem settlesOnce_of_cutByOthers {block : Block} (cut : cutByOthers block = true) :
    settlesOnce block = true := by
  rw [cutByOthers, Bool.not_eq_true'] at cut
  rw [settlesOnce, quiet, arrange, runsFrom_arranged isRun_nil cut, List.all_map, List.all_eq_true]
  intro run _
  rw [Function.comp_apply, gainsFromSorting_arrangeRun]
  rfl

/-- Grouping again and again comes to an end. -/
theorem exists_group_settled (block : Block) :
    ∃ rounds ≤ disorder block, group (group^[rounds] block) = group^[rounds] block := by
  rcases group_settles block with same | lower
  · exact ⟨0, Nat.zero_le _, same⟩
  · obtain ⟨rounds, few, settled⟩ := exists_group_settled (group block)
    exact ⟨rounds + 1, Nat.le_trans (Nat.succ_le_succ few) lower, settled⟩
termination_by disorder block

end Block

/-! ## Grouped blocks -/

/-- Grouping loads cannot be observed: whatever calls do, the grouped block sends the same output,
leaves the same globals, returns the same value and stops early for the same reason. The
statements of every block are rearranged, and only loads at literal indices move, within runs that
bind distinct names. A second grouping finds nothing to do, and counts nothing, exactly when every
block settles at once, in particular when no run is ended by a load that repeats a name. Grouping
again and again comes to such an end, after at most as many times as there are pairs out of
order. -/
theorem Block.group_unobservable (setting : Setting) (block : Block) :
    Block.run setting (Block.group block) = Block.run setting block ∧
    (Block.group block).Perm (block.map Stmt.group) ∧
    Block.Regrouped block (Block.group block) ∧
    (Block.group (Block.group block) = Block.group block ∧
        Block.groupCount (Block.group block) = 0 ↔
      Block.everyBlock Block.settlesOnce block = true) ∧
    (Block.everyBlock Block.cutByOthers block = true →
      Block.everyBlock Block.settlesOnce block = true) ∧
    ∃ rounds ≤ Block.disorder block,
      Block.group (Block.group^[rounds] block) = Block.group^[rounds] block ∧
        Block.groupCount (Block.group^[rounds] block) = 0 := by
  refine ⟨(Block.regrouped_group block).run_eq setting, ?_, Block.regrouped_group block, ?_,
    fun cut => ?_, ?_⟩
  · rw [← Block.groupNested_eq_map]
    exact Block.arrange_perm _
  · rw [Block.groupCount_eq_zero_iff, and_self, Block.group_group_iff]
  · obtain ⟨own, nested⟩ := Bool.and_eq_true_iff.mp cut
    exact Bool.and_eq_true_iff.mpr ⟨Block.settlesOnce_of_cutByOthers own,
      Block.everyNested_mono (fun _ => Block.settlesOnce_of_cutByOthers) block nested⟩
  · obtain ⟨rounds, few, settled⟩ := Block.exists_group_settled block
    exact ⟨rounds, few, settled, Block.groupCount_eq_zero_iff.mpr settled⟩

/-- A loop over two runs of loads, with another statement between them. -/
def interleaved : Block :=
  [.loop none (.exact 4) none
    [loadAt "a" 2, loadAt "b" 0, loadAt "c" 1, .emit 1 (.var "a"), loadAt "a" 5, loadAt "b" 4]]

/-- The loads on both sides of the other statement are sorted, and that is all there is to do. -/
theorem Block.group_unobservable_interleaved :
    Block.everyBlock Block.cutByOthers interleaved = true ∧
      Block.group interleaved ≠ interleaved ∧ Block.groupCount interleaved = 5 ∧
      Block.group (Block.group interleaved) = Block.group interleaved ∧
      Block.groupCount (Block.group interleaved) = 0 := by
  have cut : Block.everyBlock Block.cutByOthers interleaved = true := by decide
  obtain ⟨_, _, _, again, settles, _⟩ :=
    Block.group_unobservable ⟨fun _ _ => pure none, 0⟩ interleaved
  exact ⟨cut, by decide, by decide, again.mpr (settles cut)⟩

/-- Two runs, where the second starts with a name of the first. -/
def reseated : Block := [loadAt "b" 0, loadAt "a" 5, loadAt "a" 2, loadAt "c" 1]

/-- Sorting the second run moves the repeated name to its end, so the next time the third load is
in the first run, and sorting that run gains a pair. -/
theorem Block.group_reseated :
    Block.group reseated = [loadAt "b" 0, loadAt "a" 5, loadAt "c" 1, loadAt "a" 2] ∧
      Block.groupCount reseated = 2 ∧
      Block.group (Block.group reseated) =
        [loadAt "b" 0, loadAt "c" 1, loadAt "a" 5, loadAt "a" 2] ∧
      Block.groupCount (Block.group reseated) = 3 ∧
      Block.group (Block.group reseated) ≠ Block.group reseated := by
  decide

end Timebound
